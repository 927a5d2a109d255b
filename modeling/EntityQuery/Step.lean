import EntityQuery.Error

/-! Steps on a shared state. A step that fails keeps the changes it made before. -/

namespace EntityQuery

abbrev Step (σ α : Type) := ExceptT QueryError (StateM σ) α

namespace Step

variable {σ τ α : Type}

/-- The outcome of a step and the state it leaves, also where it fails. -/
def exec (step : Step σ α) (s : σ) : Except QueryError α × σ :=
  let (result, s') := StateT.run (ExceptT.run step) s
  (result, s')

/-- A step that is given by its outcome and the state it leaves. -/
def ofRun (f : σ → Except QueryError α × σ) : Step σ α :=
  ExceptT.mk fun s => f s

/-- A result that does not depend on the state. -/
def ofExcept (result : Except QueryError α) : Step σ α := ofRun fun s => (result, s)

/-- A step on a part of a larger state. -/
def within (part : σ → τ) (replace : σ → τ → σ) (step : Step τ α) : Step σ α :=
  ofRun fun s =>
    let (result, t) := step.exec (part s)
    (result, replace s t)

end Step

end EntityQuery

import EntityQuery.Proofs.Step
import EntityQuery.Store.Engine

/-! What running a statement comes to. A statement is run where its parameters can be bound and the
engine does not refuse it; it then gives its result. Otherwise it gives the refusal, whatever the result
would have been. SQLite refuses statements for columns that stand under several aliases and for patterns
that are too long, but for no page. -/

namespace EntityQuery

variable {ι : Type}

theorem Cell.fitsWord_iff {n : Int} :
    fitsWord n = true ↔ -0x8000000000000000 ≤ n ∧ n < 0x8000000000000000 := by
  simp [fitsWord]

/-- A value that a driver takes for a parameter: an integer of 64 bits, or any other scalar. -/
def Value.Bindable (v : Value) : Prop :=
  v.isScalar = true ∧ ∀ n, v = .int n → Cell.fitsWord n = true

theorem Value.bind_eq_ok_iff {v : Value} : v.bind = .ok () ↔ v.Bindable := by
  cases v with
  | int n =>
    have hword : (int n).Bindable ↔ Cell.fitsWord n = true := by simp [Bindable, isScalar]
    rw [hword, bind]
    split
    · next h => exact iff_of_true rfl h
    · next h => exact iff_of_false nofun h
  | list items => exact iff_of_false nofun nofun
  | obj members => exact iff_of_false nofun nofun
  | null | bool b | float x | str s => exact iff_of_true rfl ⟨rfl, nofun⟩

namespace Database

variable {m : Mapping ι} {db : Database ι} {s : Statement ι} {α β : Type}

/-- A statement can be run: all its parameters can be bound, and the engine has nothing against it. -/
structure Runs (m : Mapping ι) (db : Database ι) (s : Statement ι) : Prop where
  operands : ∀ v ∈ s.operands m db.engine.listed, v.Bindable
  engine : db.engine.refusal? m db.toTables s = none

theorem accept_eq_ok_iff : db.accept m s = .ok () ↔ db.Runs m s := by
  unfold accept
  cases hengine : db.engine.refusal? m db.toTables s with
  | none =>
    simp only [Except.forM_eq_ok, Value.bind_eq_ok_iff]
    exact ⟨fun h => ⟨h, hengine⟩, Runs.operands⟩
  | some refusal =>
    refine iff_of_false nofun fun h => ?_
    rw [h.engine] at hengine
    cases hengine

/-- A statement that can be run gives its result. -/
theorem Runs.run_eq (h : db.Runs m s) (x : α) : db.run m s x = .ok x := by
  rw [run, accept_eq_ok_iff.2 h]
  rfl

theorem run_eq_error {refusal : QueryError} (h : db.accept m s = .error refusal) (x : α) :
    db.run m s x = .error refusal := by
  rw [run, h]
  rfl

/-- A statement that cannot be run is refused, in the same way whatever it would give. -/
theorem exists_refusal (h : ¬ db.Runs m s) :
    ∃ refusal, ∀ (α : Type) (x : α), db.run m s x = .error refusal := by
  cases haccept : db.accept m s with
  | error refusal => exact ⟨refusal, fun _ => run_eq_error haccept⟩
  | ok _ => exact absurd (accept_eq_ok_iff.1 haccept) h

theorem run_eq_ok_iff {x y : α} : db.run m s x = .ok y ↔ db.Runs m s ∧ y = x := by
  by_cases h : db.Runs m s
  · rw [h.run_eq, and_iff_right h]
    exact ⟨fun h => (Except.ok.inj h).symm, fun h => by rw [h]⟩
  · obtain ⟨refusal, hrefused⟩ := exists_refusal h
    exact iff_of_false (by rw [hrefused]; nofun) fun hruns => h hruns.1

/-- What is done with a result is done once the statement runs. -/
theorem run_bind (x : α) (f : α → Except QueryError β) :
    (db.run m s x >>= f) = (db.accept m s >>= fun _ => f x) := by
  rw [run, bind_assoc]
  rfl

theorem run_bind_pure (x : α) (f : α → β) :
    (db.run m s x >>= fun x => pure (f x)) = db.run m s (f x) :=
  run_bind x _

end Database

/-! ### SQLite -/

namespace QueryPlan

variable {m : Mapping ι} {p : QueryPlan ι} {tables : Tables ι} {columns : List ColumnRef}

/-- Where its parameters are bound, SQLite takes a statement whose columns are not ambiguous, and whose
patterns are not too long or meet no row. -/
theorem refusalBySQLite?_eq_none_iff (hbound : ∀ v ∈ p.operands id, v.Bindable) :
    p.refusalBySQLite? m tables columns = none ↔ (∀ c ∈ columns, p.isAmbiguous m c = false) ∧
      (p.hasLongPattern = true → tables.records p.entity = []) := by
  have hbind : ((p.operands id).all fun v => v.bind.isOk) = true := by
    rw [List.all_eq_true]
    intro v hv
    rw [Value.bind_eq_ok_iff.2 (hbound v hv)]
    rfl
  unfold refusalBySQLite?
  cases hambiguous : columns.find? (p.isAmbiguous m) with
  | some c =>
    refine iff_of_false nofun fun h => ?_
    have hc := h.1 c (List.mem_of_find?_eq_some hambiguous)
    rw [List.find?_some hambiguous] at hc
    cases hc
  | none =>
    have hapart : ∀ c ∈ columns, p.isAmbiguous m c = false := by
      simpa using List.find?_eq_none.1 hambiguous
    rw [and_iff_right hapart, hbind]
    cases p.hasLongPattern <;> simp

end QueryPlan

end EntityQuery

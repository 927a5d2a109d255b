import EntityQuery.Error
import EntityQuery.Text.Path

/-! Aliases of relation paths: one alias for each path and one path for each alias. -/

namespace EntityQuery

/-- The alias of the root entity, and the paths that have one with their aliases, in the order in
which they got them. -/
structure Aliases where
  root : String
  entries : List (String × String)

namespace Aliases

def start (root : String) : Aliases := ⟨root, []⟩

def get? (a : Aliases) (path : String) : Option String := Assoc.get? a.entries path

def contains (a : Aliases) (path : String) : Bool := Assoc.contains a.entries path

/-- The alias of a path; the empty path is the root. -/
def aliasFor (a : Aliases) (path : String) : Except QueryError String :=
  if path.isEmpty then pure a.root
  else match a.get? path with
    | some aliasName => pure aliasName
    | none => throw (.unboundPath path)

/-- The path that an alias names. -/
def boundPath? (a : Aliases) (aliasName : String) : Option String :=
  if aliasName = a.root then some "" else (a.entries.find? (·.2 = aliasName)).map (·.1)

/-- The alias that a path gets when none is asked for. -/
def synthesize (a : Aliases) (path : String) : String :=
  a.root ++ "_" ++ path.map fun c => if c = '.' then '_' else c

/-- Binds an alias to a path that has none yet; a path that has one keeps it. An alias that names
another path is refused. -/
def register (a : Aliases) (aliasName path : String) : Except QueryError (String × Aliases) :=
  match a.get? path with
  | some existing => pure (existing, a)
  | none =>
    let added := (aliasName, { a with entries := a.entries ++ [(path, aliasName)] })
    match a.boundPath? aliasName with
    | some bound =>
      if bound = path then pure added
      else throw (.aliasConflict aliasName (if bound.isEmpty then "<root>" else bound) path)
    | none => pure added

end Aliases

end EntityQuery

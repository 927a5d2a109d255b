import EntityQuery.Layout

/-! Rows shaped by a layout. Relations that are missing or null on a row are left out, empty lists
stay, and only relations of the layout are followed. -/

namespace EntityQuery

namespace Branch

/-- The members shown at one level, before its relations. -/
def shapeColumns (columns : List (String × String)) (branches : List Branch) (row : Row) : Row :=
  if columns.isEmpty then row.filter fun m => (find? branches m.1).isNone
  else columns.foldl (fun out (field, key) => Assoc.set out key (Value.member row field)) []

/-- The failure of reading a value as a row, which differs with the first thing asked of it. -/
def notRow (columns : List (String × String)) (value : Value) : QueryError :=
  .missingMember value.kindName (if columns.isEmpty then "items" else "get")

mutual

/-- Puts the relations of `branches` on `row` into the output. -/
def shapeRelations (row out : Row) : List Branch → Except QueryError Row
  | [] => pure out
  | b :: rest => do
    match ← shapeRelation b (Value.member row b.name) with
    | some value => shapeRelations row (Assoc.set out b.outputKey value) rest
    | none => shapeRelations row out rest

/-- One relation of a row: an object for one related row, a list for several. -/
def shapeRelation : Branch → Value → Except QueryError (Option Value)
  | ⟨_, _, _, _, _, columns, children⟩, value =>
    let one := fun (item : Value) => match item with
      | .obj row => do
        return Value.obj (← shapeRelations row (shapeColumns columns children row) children)
      | item => throw (notRow columns item)
    match value with
    | .null => pure none
    | .obj row => some <$> one (.obj row)
    | .list items => do return some (.list (← items.mapM one))
    | .str s => do return some (.list (← (s.toList.map fun c => Value.str (toString c)).mapM one))
    | value => throw (.notIterable value.kindName)

end

end Branch

namespace Layout

/-- A row as the layout shows it. -/
def shape (l : Layout) (row : Row) : Except QueryError Row :=
  Branch.shapeRelations row (Branch.shapeColumns l.rootColumns l.branches row) l.branches

end Layout

end EntityQuery

import EntityQuery.Double
import EntityQuery.Assoc

/-! Dynamic values: the JSON data in which queries are written, parameters are bound and rows are
returned. The members of an object keep their order. -/

namespace EntityQuery

inductive Value where
  | null
  | bool (b : Bool)
  | int (n : Int)
  | float (x : Double)
  | str (s : String)
  | list (items : List Value)
  | obj (members : List (String × Value))

namespace Value

instance : Inhabited Value := ⟨.null⟩

/-- The name of a value's kind, as messages give it. -/
def kindName : Value → String
  | .null => "NoneType"
  | .bool _ => "bool"
  | .int _ => "int"
  | .float _ => "float"
  | .str _ => "str"
  | .list _ => "list"
  | .obj _ => "dict"

/-- Null, false, zero and all empty texts, lists and objects count as absent. -/
def isPresent : Value → Bool
  | .null => false
  | .bool b => b
  | .int n => n != 0
  | .float (.finite _ m _) => m != 0
  | .float (.infinite _) => true
  | .str s => !s.isEmpty
  | .list items => !items.isEmpty
  | .obj members => !members.isEmpty

/-- Values that are neither a list nor an object. -/
def isScalar : Value → Bool
  | .list _ => false
  | .obj _ => false
  | _ => true

/-- The elements of a list or the keys of an object. -/
def elements? : Value → Option (List Value)
  | .list items => some items
  | .obj members => some (members.map fun m => .str m.1)
  | _ => none

/-- A member of an object, null when there is none. -/
def member (members : List (String × Value)) (key : String) : Value :=
  (Assoc.get? members key).getD .null

theorem sizeOf_rest_lt (m : String × Value) (rest : List (String × Value)) :
    sizeOf rest < sizeOf (m :: rest) := by
  rw [List.cons.sizeOf_spec]
  omega

theorem sizeOf_members_lt (key : String) (members rest : List (String × Value)) :
    sizeOf members < sizeOf ((key, obj members) :: rest) := by
  rw [List.cons.sizeOf_spec, Prod.mk.sizeOf_spec, obj.sizeOf_spec]
  omega

end Value

/-- A row of named values. -/
abbrev Row := List (String × Value)

end EntityQuery

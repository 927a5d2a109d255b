import EntityQuery.Value
import EntityQuery.Operator
import EntityQuery.Text.Path

/-! Dotted key paths: relations to be followed and a column whose value is asked for. -/

namespace EntityQuery.KeyPath

/-- The predicate object that asks for `value` in the last of some segments. -/
def nest (value : Value) : List String → Value
  | [] => .obj [(Operator.eq.token, value)]
  | s :: rest => .obj [(s, nest value rest)]

/-- The predicate object that asks for `value` at the end of a path. -/
def predicate (path : String) (value : Value) : Value := nest value (Path.segments path)

end EntityQuery.KeyPath

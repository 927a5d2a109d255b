import EntityQuery.Value
import EntityQuery.Double.Shortest
import EntityQuery.Text.Quoted

/-! The display text of values: a text shows as itself when it stands alone and quoted inside a list
or an object. -/

namespace EntityQuery.Value

mutual

/-- The text of a value inside another one. -/
def literal : Value → String
  | .null => "None"
  | .bool b => if b then "True" else "False"
  | .int n => toString n
  | .float x => x.text
  | .str s => Text.quoted s
  | .list items => "[" ++ ", ".intercalate (literals items) ++ "]"
  | .obj members => "\x7b" ++ ", ".intercalate (memberLiterals members) ++ "\x7d"

def literals : List Value → List String
  | [] => []
  | v :: rest => literal v :: literals rest

def memberLiterals : List (String × Value) → List String
  | [] => []
  | (k, v) :: rest => (Text.quoted k ++ ": " ++ literal v) :: memberLiterals rest

end

/-- The text of a value that stands alone. -/
def display : Value → String
  | .str s => s
  | v => literal v

end EntityQuery.Value

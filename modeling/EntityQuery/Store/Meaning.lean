import EntityQuery.Filter
import EntityQuery.Store.Cell
import EntityQuery.Store.Like
import EntityQuery.Store.Truth

/-! The meaning of filters: the truth value of a filter, given the cells that its columns stand for
and the values of its parameters. What an engine brings along is a parameter: the match of regular
expressions, and what it makes of lists. -/

namespace EntityQuery

/-- The type and the cell of every column under every alias. -/
abbrev Sight := ColumnRef → ColumnType × Cell

namespace Relop

def holds : Relop → Ordering → Bool
  | .eq, o => o == .eq
  | .ne, o => o != .eq
  | .lt, o => o == .lt
  | .le, o => o != .gt
  | .gt, o => o == .gt
  | .ge, o => o != .lt

/-- A comparison of a cell with a value; unknown where one of them is null. -/
def eval (r : Relop) (type : ColumnType) (cell : Cell) (value : Value) : Truth :=
  match cell, (Cell.ofValue value).convert type with
  | .null, _ => .unknown
  | _, .null => .unknown
  | a, b => .ofBool (r.holds (a.compare b))

end Relop

/-- A meaning of the match of regular expressions: of a cell in a column of a type with a pattern. -/
abbrev Matching := ColumnType → Cell → Value → Truth

/-- What the evaluation of tests rests on beside cells and values. -/
structure Evaluation where
  matching : Matching
  /-- The values that the items of a list are bound as. A driver may convert them all to the kind of
  the first. -/
  listed : List Value → List Value := id

namespace Test

/-- The value bound to a name. -/
def valueOf (parameters : List (String × Value)) (name : String) : Value :=
  Value.member parameters name

def itemsOf (parameters : List (String × Value)) (name : String) : List Value :=
  match valueOf parameters name with
  | .list items => items
  | _ => []

/-- A match of a text with a pattern; unknown where one of them is null. -/
def evalLike (folded : Bool) (cell : Cell) (pattern : Value) : Truth :=
  match cell.text?, (Cell.ofValue pattern).text? with
  | some s, some p =>
    .ofBool (if folded then Like.fitsText (Like.fold p) (Like.fold s) else Like.fitsText p s)
  | _, _ => .unknown

/-- The truth of a test. A list holds a cell when it equals one of its items, so an empty list holds
none. -/
def eval (ev : Evaluation) (parameters : List (String × Value)) (type : ColumnType) (cell : Cell) :
    Test → Truth
  | .compare relop p => relop.eval type cell (valueOf parameters p)
  | .member negated p =>
    Truth.negateIf negated
      (.any ((ev.listed (itemsOf parameters p)).map fun v => Relop.eq.eval type cell v))
  | .between low high =>
    (Relop.ge.eval type cell (valueOf parameters low)).and
      (Relop.le.eval type cell (valueOf parameters high))
  | .like negated folded p => Truth.negateIf negated (evalLike folded cell (valueOf parameters p))
  | .pattern _ p => ev.matching type cell (valueOf parameters p)
  | .null negated => .ofBool ((cell == .null) != negated)

end Test

namespace Filter

variable (ev : Evaluation) (sight : Sight) (parameters : List (String × Value))

mutual

def eval : Filter → Truth
  | .test c t => t.eval ev parameters (sight c).1 (sight c).2
  | .chain parts => .all (evals parts)
  | .group .and parts => .all (evals parts)
  | .group .or parts => .any (evals parts)
  | .negation inner => (eval inner).not

def evals : List Filter → List Truth
  | [] => []
  | f :: rest => eval f :: evals rest

end

end Filter

end EntityQuery

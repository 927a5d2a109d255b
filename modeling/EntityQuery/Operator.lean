/-! The words of the predicate language: comparison operators and combinators, with an optional
leading `$`. -/

namespace EntityQuery

inductive Operator where
  | eq | ne | lt | lte | gt | gte
  | isIn | notIn | between
  | like | iLike | notLike | notILike
  | contains | startsWith | endsWith | matches
  | isNull | isNotNull
  deriving DecidableEq

inductive Combinator where
  | all | any | not
  deriving DecidableEq

namespace Operator

def token : Operator → String
  | .eq => "eq"
  | .ne => "ne"
  | .lt => "lt"
  | .lte => "lte"
  | .gt => "gt"
  | .gte => "gte"
  | .isIn => "in"
  | .notIn => "notIn"
  | .between => "between"
  | .like => "like"
  | .iLike => "iLike"
  | .notLike => "notLike"
  | .notILike => "notILike"
  | .contains => "contains"
  | .startsWith => "startsWith"
  | .endsWith => "endsWith"
  | .matches => "matches"
  | .isNull => "isNull"
  | .isNotNull => "isNotNull"

/-- Every operator, in the order of the default operator table. -/
def every : List Operator :=
  [.eq, .ne, .lt, .lte, .gt, .gte, .isIn, .notIn, .between, .like, .iLike, .notLike, .notILike,
    .contains, .startsWith, .endsWith, .matches, .isNull, .isNotNull]

def ofToken? (s : String) : Option Operator := every.find? (·.token = s)

theorem ofToken?_token (op : Operator) : ofToken? op.token = some op := by cases op <;> decide

end Operator

namespace Combinator

def token : Combinator → String
  | .all => "and"
  | .any => "or"
  | .not => "not"

def every : List Combinator := [.all, .any, .not]

def ofToken? (s : String) : Option Combinator := every.find? (·.token = s)

theorem ofToken?_token (c : Combinator) : ofToken? c.token = some c := by cases c <;> decide

end Combinator

namespace Token

/-- Drops one leading `$`. -/
def normalize (key : String) : String :=
  match key.toList with
  | '$' :: rest => String.ofList rest
  | _ => key

/-- The token that lists alternatives for one column. -/
def alternatives : String := Combinator.any.token

/-- The tokens that may key a comparison. -/
def comparisons : List String := Operator.every.map Operator.token ++ [alternatives]

def isComparison (key : String) : Bool := comparisons.contains (normalize key)

end Token

end EntityQuery

import EntityQuery.Filter
import EntityQuery.Operator
import EntityQuery.Step
import EntityQuery.Value.Display

/-! The operator table: how each operator of the predicate language becomes a test, and which values
it binds to parameters. -/

namespace EntityQuery

/-- Bound parameters in binding order, and the names of those that are bound to lists. -/
structure Parameters where
  values : List (String × Value)
  expanding : List String

namespace Parameters

def empty : Parameters := ⟨[], []⟩

/-- Binds a name. A name bound before keeps its place, and stays expanding once it was. -/
def bind (p : Parameters) (name : String) (value : Value) (expanding : Bool) : Parameters where
  values := Assoc.set p.values name value
  expanding := if expanding && !p.expanding.contains name then p.expanding ++ [name] else p.expanding

end Parameters

namespace Operator

/-- The parts of a list or an object; no other value serves an operator on sets. -/
def elementsOf (op : Operator) (value : Value) : Except QueryError (List Value) :=
  match value.elements? with
  | some items => pure items
  | none => throw (.validation (.notArray op.token value.kindName) none)

/-- Binds one value and builds a test on it. -/
def bound (key : String) (value : Value) (test : String → Test) : Step Parameters Test := do
  modify (·.bind key value false)
  return test key

/-- Binds the elements of a value as one list. -/
def boundList (op : Operator) (key : String) (value : Value) (test : String → Test) :
    Step Parameters Test := do
  let items ← Step.ofExcept (op.elementsOf value)
  modify (·.bind key (.list items) true)
  return test key

/-- Binds the display text of a value between two marks. -/
def boundText (key before : String) (value : Value) (after : String) (test : String → Test) :
    Step Parameters Test :=
  bound key (.str (before ++ value.display ++ after)) test

/-- The test of an operator on a value whose parameters are named after `key`; `symbol` spells the
match of a regular expression. -/
def toTest (op : Operator) (symbol key : String) (value : Value) : Step Parameters Test :=
  match op with
  | .eq => bound key value (.compare .eq)
  | .ne => bound key value (.compare .ne)
  | .lt => bound key value (.compare .lt)
  | .lte => bound key value (.compare .le)
  | .gt => bound key value (.compare .gt)
  | .gte => bound key value (.compare .ge)
  | .isIn => boundList op key value (.member false)
  | .notIn => boundList op key value (.member true)
  | .between => do
    match ← Step.ofExcept (op.elementsOf value) with
    | [low, high] =>
      let first := key ++ "_start"
      let second := key ++ "_end"
      modify (·.bind first low false)
      modify (·.bind second high false)
      return .between first second
    | items => throw (.validation (.boundCount items.length) none)
  | .like => boundText key "%" value "%" (.like false false)
  | .iLike => boundText key "%" value "%" (.like false true)
  | .notLike => boundText key "%" value "%" (.like true false)
  | .notILike => boundText key "%" value "%" (.like true true)
  | .contains => boundText key "%" value "%" (.like false false)
  | .startsWith => boundText key "" value "%" (.like false false)
  | .endsWith => boundText key "%" value "" (.like false false)
  | .matches => bound key value (.pattern symbol)
  | .isNull => pure (.null false)
  | .isNotNull => pure (.null true)

end Operator

/-- The operators in force, in the order of their registration, each with the symbol that spells the
match of a regular expression. -/
abbrev OperatorTable := List (Operator × String)

namespace OperatorTable

/-- Engines that spell the match of a regular expression as a word. -/
def matchSymbol : Option String → String
  | some dialect => if ["sqlite", "mysql", "mariadb"].contains dialect then "REGEXP" else "~"
  | none => "~"

/-- Every operator, in the spelling of a dialect. -/
def ofDialect (dialect : Option String) : OperatorTable :=
  Operator.every.map fun op => (op, matchSymbol dialect)

def register (table : OperatorTable) (op : Operator) (symbol : String) : OperatorTable :=
  Assoc.set table op symbol

def unregister (table : OperatorTable) (op : Operator) : OperatorTable :=
  table.filter fun entry => entry.1 != op

/-- A table of some of the operators of another one, in a given order. -/
def restrict (table : OperatorTable) (ops : List Operator) : OperatorTable :=
  ops.foldl (fun t op => match Assoc.get? table op with
    | some symbol => t.register op symbol
    | none => t) []

def tokens (table : OperatorTable) : List String := table.map (·.1.token)

/-- The operator of a token, if it is in force. -/
def get? (table : OperatorTable) (token : String) : Option (Operator × String) :=
  match Operator.ofToken? (Token.normalize token) with
  | some op => (Assoc.get? table op).map fun symbol => (op, symbol)
  | none => none

/-- The test of a token on a value. -/
def toTest (table : OperatorTable) (token key : String) (value : Value) : Step Parameters Test :=
  match table.get? token with
  | some (op, symbol) => op.toTest symbol key value
  | none => throw (.unsupportedOperator token table.tokens)

end OperatorTable

end EntityQuery

import EntityQuery.Inclusion
import EntityQuery.Text.LowerCase

/-! Queries on one entity as values: parsed predicates, inclusions and selections, an ordering and a
page. Every change makes a new query. -/

namespace EntityQuery

inductive Direction where
  | ascending | descending
  deriving DecidableEq

namespace Direction

def word : Direction → String
  | .ascending => "asc"
  | .descending => "desc"

/-- Reads a direction in any mixture of cases. -/
def read (given : String) : Except QueryError Direction :=
  if Text.lower given = ascending.word then pure .ascending
  else if Text.lower given = descending.word then pure .descending
  else throw (.validation (.direction given) none)

end Direction

structure Query where
  /-- Predicates that must all hold. -/
  predicates : List Predicate
  inclusions : List Inclusion
  selections : List Selection
  /-- Sort keys, the first the most significant. A key may be a dotted path to a column. -/
  order : List (String × Direction)
  offset : Option Int
  limit : Option Int
  distinct : Bool

namespace Query

def empty : Query := ⟨[], [], [], [], none, none, false⟩

def addPredicate (q : Query) (p : Predicate) : Query := { q with predicates := q.predicates ++ [p] }

def addInclusions (q : Query) (is : List Inclusion) : Query :=
  { q with inclusions := q.inclusions ++ is }

def addSelections (q : Query) (ss : List Selection) : Query :=
  { q with selections := q.selections ++ ss }

/-- Orders by one key only. -/
def orderBy (q : Query) (key : String) (d : Direction) : Query := { q with order := [(key, d)] }

/-- Orders by one key more. -/
def thenBy (q : Query) (key : String) (d : Direction) : Query :=
  { q with order := q.order ++ [(key, d)] }

/-- Sets the parts of the page that are given. -/
def paginate (q : Query) (limit offset : Option Int) : Query :=
  { q with limit := limit <|> q.limit, offset := offset <|> q.offset }

def setDistinct (q : Query) (distinct : Bool) : Query := { q with distinct }

/-- A sort key as text, with a minus for a descending one. -/
def orderText (key : String × Direction) : String :=
  match key.2 with
  | .ascending => key.1
  | .descending => "-" ++ key.1

/-- The object that describes a query, without the parts that are empty. -/
def toValue (q : Query) : Value :=
  let part := fun (key : String) (items : List Value) =>
    if items.isEmpty then [] else [(key, Value.list items)]
  let number := fun (key : String) (n : Option Int) => (n.map fun n => (key, Value.int n)).toList
  .obj <|
    part "where" (q.predicates.map Predicate.toValue) ++
    part "include" (q.inclusions.map Inclusion.toValue) ++
    part "select" (q.selections.map Selection.toValue) ++
    part "order_by" (q.order.map fun key => .str (orderText key)) ++
    number "offset" q.offset ++
    number "limit" q.limit ++
    (if q.distinct then [("distinct", .bool true)] else [])

end Query

end EntityQuery

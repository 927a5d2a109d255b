import EntityQuery.Operator
import EntityQuery.Value

/-! Predicate trees over an entity: comparisons on its columns, conditions on related entities, and
combinations of both. A tree is written back as the object it is read from. -/

namespace EntityQuery

/-- A test of one column, or alternatives of which each is a conjunction of comparisons. -/
inductive Comparison where
  | test (op : Operator) (value : Value)
  | oneOf (alternatives : List (List Comparison))

inductive Predicate where
  | field (field column : String) (comparisons : List Comparison)
  | relation (relation : String) (condition : Predicate)
  | all (children : List Predicate)
  | any (children : List Predicate)
  | not (child : Predicate)
  /-- Several keys of one object, all of which must hold. -/
  | fields (entries : List Predicate)

namespace Comparison

mutual

/-- The members of an object that holds one comparison. -/
def members : Comparison → List (String × Value)
  | .test op value => [(op.token, value)]
  | .oneOf alternatives => [(Token.alternatives, .list (alternativeObjects alternatives))]

def alternativeObjects : List (List Comparison) → List Value
  | [] => []
  | alternative :: rest => .obj (mergedMembers [] alternative) :: alternativeObjects rest

/-- The members of several comparisons in one object, where a later token replaces an equal one. -/
def mergedMembers (merged : List (String × Value)) : List Comparison → List (String × Value)
  | [] => merged
  | c :: rest => mergedMembers (Assoc.merge merged c.members) rest

end

end Comparison

namespace Predicate

mutual

def members : Predicate → List (String × Value)
  | .field name _ comparisons => [(name, .obj (Comparison.mergedMembers [] comparisons))]
  | .relation name condition => [(name, .obj condition.members)]
  | .all children => [(Combinator.all.token, .list (objects children))]
  | .any children => [(Combinator.any.token, .list (objects children))]
  | .not child => [(Combinator.not.token, .obj child.members)]
  | .fields entries => mergedMembers [] entries

def objects : List Predicate → List Value
  | [] => []
  | p :: rest => .obj p.members :: objects rest

def mergedMembers (merged : List (String × Value)) : List Predicate → List (String × Value)
  | [] => merged
  | p :: rest => mergedMembers (Assoc.merge merged p.members) rest

end

/-- The object that describes a predicate. -/
def toValue (p : Predicate) : Value := .obj p.members

end Predicate

end EntityQuery

import EntityQuery.Predicate
import EntityQuery.Entity
import EntityQuery.Text.Path

/-! Reading predicates from objects. A key names a relation of the entity, else a column, else a
combinator; the entity alone decides which, never the shape of the value. -/

namespace EntityQuery

variable {ι : Type}

/-- The place of a fault, which at the top has a name of its own. -/
def placeOf (path : String) : Option String :=
  some (if path.isEmpty then "<root>" else path)

namespace Comparison

/-- All tokens that may key a comparison, as a failure lists them. -/
def knownTokens : List String := sortTexts Token.comparisons

mutual

/-- Reads an object of operators, which must not be empty. -/
def readAll (path : String) : Value → Except QueryError (List Comparison)
  | .obj [] => throw (.validation .comparisonEmpty (some path))
  | .obj members => readMembers path members
  | value => throw (.validation (.notComparison value.kindName) (some path))

def readMembers (path : String) : List (String × Value) → Except QueryError (List Comparison)
  | [] => pure []
  | (key, value) :: rest => do
    let token := Token.normalize key
    let first ←
      if token = Token.alternatives then
        match value with
        | .list [] => throw (.validation .alternativesEmpty (some path))
        | .list items => pure (Comparison.oneOf (← readAlternatives path items))
        | _ => throw (.validation .alternativesList (some path))
      else match Operator.ofToken? token with
        | some op => pure (Comparison.test op value)
        | none => throw (.unsupportedOperator key knownTokens)
    return first :: (← readMembers path rest)

def readAlternatives (path : String) : List Value → Except QueryError (List (List Comparison))
  | [] => pure []
  | value :: rest => do
    let first ← readAll path value
    return first :: (← readAlternatives path rest)

end

end Comparison

namespace Predicate

/-- A non-empty object without operator keys was meant as a condition on a relation. -/
def looksRelational : Value → Bool
  | .obj members => !members.isEmpty && !members.any fun m => Token.isComparison m.1
  | _ => false

/-- The failure of a key that is neither a relation, nor a column, nor a combinator. -/
def unknownKey (e : Entity ι) (key path : String) (value : Value) : QueryError :=
  if looksRelational value then e.noRelation key path
  else .noField key e.name e.fieldNames (some path)

/-- The one entry of an object stands for the object. -/
def ofEntries : List Predicate → Predicate
  | [p] => p
  | entries => .fields entries

mutual

/-- Reads a predicate on the entity `e`, whose place in the whole input is `path`. -/
def read (g : EntityGraph ι) (e : ι) (path : String) : Value → Except QueryError Predicate
  | .obj members => do return ofEntries (← readMembers g e path members)
  | value => throw (.validation (.notPredicate value.kindName) (placeOf path))

def readMembers (g : EntityGraph ι) (e : ι) (path : String) :
    List (String × Value) → Except QueryError (List Predicate)
  | [] => pure []
  | (key, value) :: rest => do
    let here := Path.child path key
    let first ←
      match (g.entity e).relation? key with
      | some r =>
        match value with
        | .obj members =>
          pure (Predicate.relation key (ofEntries (← readMembers g r.target here members)))
        | _ => throw (.validation (.relationPredicate key) (some here))
      | none =>
        if (g.entity e).hasColumn key then
          pure (Predicate.field key ((g.entity e).columnName key) (← Comparison.readAll here value))
        else match Combinator.ofToken? (Token.normalize key) with
          | some .not =>
            match value with
            | .list [child] => pure (Predicate.not (← read g e path child))
            | .list _ => throw (.validation .severalNegated (some here))
            | child => pure (Predicate.not (← read g e path child))
          | some .all =>
            match value with
            | .list [] => throw (.validation (.combinatorEmpty Combinator.all.token) (some here))
            | .list children => pure (Predicate.all (← readItems g e path children))
            | _ => throw (.validation (.combinatorList Combinator.all.token) (some here))
          | some .any =>
            match value with
            | .list [] => throw (.validation (.combinatorEmpty Combinator.any.token) (some here))
            | .list children => pure (Predicate.any (← readItems g e path children))
            | _ => throw (.validation (.combinatorList Combinator.any.token) (some here))
          | none => throw (unknownKey (g.entity e) key here value)
    return first :: (← readMembers g e path rest)

def readItems (g : EntityGraph ι) (e : ι) (path : String) :
    List Value → Except QueryError (List Predicate)
  | [] => pure []
  | value :: rest => do
    let first ← read g e path value
    return first :: (← readItems g e path rest)

end

end Predicate

namespace EntityGraph

/-- Reads a predicate on an entity of the graph. -/
def readPredicate (g : EntityGraph ι) (e : ι) (data : Value) : Except QueryError Predicate :=
  Predicate.read g e "" data

end EntityGraph

end EntityQuery

import EntityQuery.Context
import EntityQuery.Text.LowerCase

/-! Filters of predicates. A condition on a relation joins the relation and tests the joined entity;
parts that hold no comparison are dropped. -/

namespace EntityQuery

variable {ι : Type}

namespace Comparison

mutual

/-- The filter of one comparison on a column of the field. Its parameters are named after the field
and a number that no other comparison gets. -/
def toFilter (table : OperatorTable) (column : ColumnRef) (field : String) :
    Comparison → Step (Context ι) Filter
  | .test op value => do
    let n := (← get).counter
    modify fun c => { c with counter := n + 1 }
    let key := field ++ "_" ++ toString n
    return .test column (← Context.inParameters (table.toTest op.token key value))
  | .oneOf alternatives => do
    return .group .or (← alternativesToFilters table column field alternatives)

def toFilters (table : OperatorTable) (column : ColumnRef) (field : String) :
    List Comparison → Step (Context ι) (List Filter)
  | [] => pure []
  | c :: rest => do
    let first ← toFilter table column field c
    return first :: (← toFilters table column field rest)

def alternativesToFilters (table : OperatorTable) (column : ColumnRef) (field : String) :
    List (List Comparison) → Step (Context ι) (List Filter)
  | [] => pure []
  | alternative :: rest => do
    let first ← toFilters table column field alternative
    return .chain first :: (← alternativesToFilters table column field rest)

end

end Comparison

namespace Predicate

mutual

/-- The filter of a predicate on the entity at `path`, which stands under `aliasName`; an empty alias
stands for the root's. -/
def toFilter (g : EntityGraph ι) (table : OperatorTable) (aliasName path : String) :
    Predicate → Step (Context ι) (Option Filter)
  | field name column comparisons => do
    let c ← get
    let current := if aliasName.isEmpty then c.tree.aliases.root else aliasName
    return Filter.ofParts .chain (← Comparison.toFilters table ⟨current, column⟩ name comparisons)
  | relation name condition => do
    let here := Path.child path name
    let bound ← Context.inTree (JoinTree.reach g { path := here, start := some aliasName })
    toFilter g table bound here condition
  | all children => do return Filter.ofParts (.group .and) (← toFilters g table aliasName path children)
  | any children => do return Filter.ofParts (.group .or) (← toFilters g table aliasName path children)
  | not child => do return (← toFilter g table aliasName path child).map .negation
  | fields entries => do return Filter.ofParts .chain (← toFilters g table aliasName path entries)

/-- The filters of those predicates that have one. -/
def toFilters (g : EntityGraph ι) (table : OperatorTable) (aliasName path : String) :
    List Predicate → Step (Context ι) (List Filter)
  | [] => pure []
  | p :: rest => do
    let first ← toFilter g table aliasName path p
    return first.toList ++ (← toFilters g table aliasName path rest)

end

end Predicate

/-- The text of a filter, empty where there is nothing to filter. -/
def Filter.textOf (quote : String → String) (f : Option Filter) : String :=
  (f.map (Filter.text quote)).getD ""

/-- The alias of a root entity: the one asked for, else its name in lower case. -/
def rootAlias (wish : Option String) (e : Entity ι) : String :=
  (nonEmpty? wish).getD (Text.lower e.name)

namespace EntityGraph

/-- Reads a predicate and compiles it on its own. -/
def compilePredicate (g : EntityGraph ι) (e : ι) (aliasName : Option String) (table : OperatorTable)
    (quote : String → String) (data : Value) : Except QueryError (FilterClause ι) := do
  let p ← g.readPredicate e data
  let (result, c) := (p.toFilter g table "" "").exec (Context.start e (rootAlias aliasName (g.entity e)))
  return c.clause (Filter.textOf quote (← result))

end EntityGraph

end EntityQuery

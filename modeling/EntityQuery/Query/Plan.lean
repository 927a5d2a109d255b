import EntityQuery.Query
import EntityQuery.Layout.Planning
import EntityQuery.Filter.OfPredicate

/-! Plans of queries: the joins, the filter, the ordering and the layout of one statement. The parts
of a query are always planned in the order inclusions, selections, predicates, ordering, so that
aliases do not depend on the order in which the query was put together. -/

namespace EntityQuery

variable {ι : Type}

/-- A sort key: a field of the entity at `path`, which stands under `aliasName`. -/
structure OrderTerm where
  aliasName : String
  field : String
  path : String
  descending : Bool
  deriving DecidableEq

structure QueryPlan (ι : Type) where
  entity : ι
  rootAlias : String
  joins : Joins ι
  filter : Option Filter
  clause : FilterClause ι
  layout : Layout
  order : List OrderTerm
  offset : Option Int
  limit : Option Int
  distinct : Bool
  /-- The joined paths with their aliases. -/
  aliases : List (String × String)

def QueryPlan.isPaged (p : QueryPlan ι) : Bool := p.offset.isSome || p.limit.isSome

namespace Query

/-- Joins the path of a sort key, whose last segment must be a column of the entity reached. -/
def orderTerm (g : EntityGraph ι) (key : String × Direction) : Step (Context ι) OrderTerm := do
  let path := Path.parent key.1
  let field := Path.last key.1
  let tree := (← get).tree
  let e ← if path.isEmpty then pure tree.root else Step.ofExcept (tree.entityAt g path)
  let owner := g.entity e
  if !owner.hasColumn field then
    throw (.noField field owner.name owner.columnFields (some key.1))
  let aliasName ←
    if path.isEmpty then pure tree.aliases.root
    else Context.inTree (JoinTree.reach g { path })
  return { aliasName, field, path, descending := key.2 == .descending }

def orderTerms (g : EntityGraph ι) : List (String × Direction) → Step (Context ι) (List OrderTerm)
  | [] => pure []
  | key :: rest => do
    let first ← orderTerm g key
    return first :: (← orderTerms g rest)

/-- The fields of the primary key that an ordering does not hold yet, ascending. They make the order
of roots total. -/
def tiebreak (e : Entity ι) (rootAlias : String) (terms : List OrderTerm) : List OrderTerm :=
  (e.primaryKey.filter fun field => !terms.any fun t => t.path.isEmpty && t.field == field).map
    fun field => ⟨rootAlias, field, "", false⟩

/-- What the parts of a query come to: the filter, its clause as it stands before the ordering joins
anything, and the sort keys. -/
structure Parts (ι : Type) where
  filter : Option Filter
  clause : FilterClause ι
  order : List OrderTerm

def planParts (g : EntityGraph ι) (table : OperatorTable) (quote : String → String) (q : Query) :
    Step (Context ι) (Parts ι) := do
  Inclusion.planRoot g q.inclusions
  Selection.planAll "" q.selections
  let filter := Filter.conjunction (← Predicate.toFilters g table "" "" q.predicates)
  let clause := (← get).clause (Filter.textOf quote filter)
  return ⟨filter, clause, ← orderTerms g q.order⟩

/-- The plan of a query on the entity `e` under a root alias. -/
def plan (g : EntityGraph ι) (e : ι) (aliasName : Option String) (table : OperatorTable)
    (quote : String → String) (stable : Bool) (q : Query) : Except QueryError (QueryPlan ι) := do
  let root := rootAlias aliasName (g.entity e)
  let (result, c) := (planParts g table quote q).exec (Context.start e root)
  let parts ← result
  return {
    entity := e
    rootAlias := root
    joins := c.tree.joins
    filter := parts.filter
    clause := parts.clause
    layout := c.layout
    order := parts.order ++ (if stable then tiebreak (g.entity e) root parts.order else [])
    offset := q.offset
    limit := q.limit
    distinct := q.distinct
    aliases := c.tree.aliases.entries }

end Query

end EntityQuery

import EntityQuery.Query.Plan
import EntityQuery.Store.Meaning
import EntityQuery.Store.Model

/-! Engines and the statements that they run. A driver takes the parameters of a statement one by one
and refuses those that have no stored form; an engine may refuse a statement for reasons of its own. A
statement that is refused gives no result and changes nothing. -/

namespace EntityQuery

variable {ι : Type}

/-! ### Statements -/

inductive Statement (ι : Type) where
  | list (p : QueryPlan ι)
  | count (p : QueryPlan ι)
  | any (p : QueryPlan ι)
  | delete (p : QueryPlan ι)
  | insert (e : ι) (given : Row)
  | update (e : ι) (key values : Row)

namespace QueryPlan

/-- A plan without its page, for statements that look at all roots. -/
def whole (p : QueryPlan ι) : QueryPlan ι := { p with offset := none, limit := none }

/-- The values that are bound when a plan is run: those of the filter, then those of the page. -/
def operands (listed : List Value → List Value) (p : QueryPlan ι) : List Value :=
  (p.clause.parameters.values.flatMap fun (name, value) =>
    match value with
    | .list items => if name ∈ p.clause.parameters.expanding then listed items else [value]
    | value => [value]) ++
  (p.limit.toList ++ p.offset.toList).map .int

end QueryPlan

/-- A value as it is handed over for a column: numbers for a column of reals become reals. -/
def Column.handed (c : Column) : Value → Value
  | .int n => if c.type = .real then .float (Double.ofInt n) else .int n
  | v => v

/-- The values of fields as they are handed over. -/
def Model.handed (m : Model ι) (values : Row) : List Value :=
  values.filterMap fun (field, value) => (m.column? field).map (·.handed value)

/-- The values that are bound when a statement is run, in order. -/
def Statement.operands (m : Mapping ι) (listed : List Value → List Value) : Statement ι → List Value
  | .list p => p.operands listed
  | .count p => p.operands listed
  | .any p => p.operands listed
  | .delete p => p.operands listed
  | .insert e given => (m.model e).handed given
  | .update e key values => (m.model e).handed (values ++ key)

/-- Binds a value to a parameter of a statement. -/
def Value.bind : Value → Except QueryError Unit
  | .int n => if Cell.fitsWord n then pure () else throw .integerTooLarge
  | v => if v.isScalar then pure () else throw (.unboundKind v.kindName)

/-! ### Engines -/

/-- An engine: how it evaluates tests, and which statements it refuses to run on which tables even
where their parameters can be bound. -/
structure Engine (ι : Type) extends Evaluation where
  refusal? : Mapping ι → Tables ι → Statement ι → Option QueryError := fun _ _ _ => none

/-- Tables with the engine that runs statements on them. -/
structure Database (ι : Type) extends Tables ι where
  engine : Engine ι

instance : CoeFun (Database ι) fun _ => ι → List Record := ⟨fun db => db.records⟩

namespace Database

variable (db : Database ι)

/-- How the tests of filters are evaluated. -/
def evaluation : Evaluation := db.engine.toEvaluation

variable (m : Mapping ι) (s : Statement ι)

/-- Succeeds where a statement can be run. -/
def accept : Except QueryError Unit :=
  match db.engine.refusal? m db.toTables s with
  | some refusal => throw refusal
  | none => (s.operands m db.engine.listed).forM Value.bind

/-- What a statement gives, unless it is refused. -/
def run {α : Type} (result : α) : Except QueryError α := do
  db.accept m s
  return result

end Database

/-! ### SQLite -/

/-- Whether two names are the same for SQLite, which does not tell the cases of ASCII letters apart. -/
def sameName (a b : String) : Bool := a.toList.map Char.toLower == b.toList.map Char.toLower

namespace Filter

mutual

/-- The tests of a filter with their columns. -/
def tests : Filter → List (ColumnRef × Test)
  | .test c t => [(c, t)]
  | .chain parts => testsOfAll parts
  | .group _ parts => testsOfAll parts
  | .negation inner => tests inner

def testsOfAll : List Filter → List (ColumnRef × Test)
  | [] => []
  | f :: rest => tests f ++ testsOfAll rest

end

end Filter

namespace QueryPlan

variable (m : Mapping ι) (p : QueryPlan ι)

/-- The entity that an alias stands for. -/
def entityOf (aliasName : String) : ι :=
  if aliasName = p.rootAlias then p.entity
  else ((p.joins.get? aliasName).map (·.relation.target)).getD p.entity

/-- All columns of the entity under an alias. -/
def columnsUnder (aliasName : String) : List ColumnRef :=
  (m.model (p.entityOf aliasName)).columns.map fun c => ⟨aliasName, c.name⟩

/-- The columns of fields of the entity under an alias. -/
def fieldsUnder (aliasName : String) (fields : List String) : List ColumnRef :=
  fields.filterMap fun field =>
    ((m.model (p.entityOf aliasName)).column? field).map fun c => ⟨aliasName, c.name⟩

/-- The columns by which a join looks for records. -/
def columnsOfJoin (j : Join ι) : List ColumnRef :=
  match (m.model (p.entityOf j.parent)).link? j.relation.name with
  | none => []
  | some link =>
    let near := (link.through.map (·.2)).getD link.condition
    near.equal.map (fun pair => ⟨j.parent, pair.1.name⟩) ++
      link.condition.equal.map (fun pair => ⟨j.aliasName, pair.2.name⟩)

/-- The columns that its filter tests. -/
def columnsTested : List ColumnRef := ((p.filter.map Filter.tests).getD []).map (·.1)

/-- The columns that every statement of a plan names: the key, and what joins and filter look at. -/
def columnsNamed : List ColumnRef :=
  p.fieldsUnder m p.rootAlias (m.model p.entity).primaryKey ++ p.joins.flatMap (p.columnsOfJoin m) ++
    p.columnsTested

/-- The columns that a listing names beside these: those that it loads and those that it sorts by. -/
def columnsListed : List ColumnRef :=
  (p.rootAlias :: (p.joins.filter (·.selected)).map (·.aliasName)).flatMap (p.columnsUnder m) ++
    p.order.flatMap fun t => p.fieldsUnder m t.aliasName [t.field]

/-- Whether a column stands under several aliases. -/
def isAmbiguous (c : ColumnRef) : Bool :=
  1 < (p.rootAlias :: p.joins.map (·.aliasName)).countP fun a =>
    sameName a c.aliasName && (p.columnsUnder m a).any fun d => sameName d.column c.column

/-- Whether the filter holds a pattern that is too long. -/
def hasLongPattern : Bool :=
  ((p.filter.map Filter.tests).getD []).any fun (_, t) =>
    match t with
    | .like _ _ name =>
      match Test.valueOf p.clause.parameters.values name with
      | .str pattern => Like.longest < pattern.utf8ByteSize
      | _ => false
    | _ => false

/-- What SQLite says to a statement of a plan that names some columns. It looks at a pattern when it tries
it on a row. In which order it tries tests is up to its planner, here all are tried on the first row. -/
def refusalBySQLite? (tables : Tables ι) (columns : List ColumnRef) : Option QueryError :=
  match columns.find? (p.isAmbiguous m) with
  | some c => some (.ambiguousColumn (c.aliasName ++ "." ++ c.column))
  | none =>
    let bound := (p.operands id).all fun v => v.bind.isOk
    if bound && p.hasLongPattern && !(tables.records p.entity).isEmpty then some .patternTooLong
    else none

end QueryPlan

/-- SQLite, with a match of regular expressions that its client brings along. -/
def Engine.sqlite (matching : Matching) : Engine ι where
  matching := matching
  refusal? m tables
    | .list p => p.refusalBySQLite? m tables (p.columnsNamed m ++ p.columnsListed m)
    | .count p => p.refusalBySQLite? m tables (p.columnsNamed m)
    | .any p => p.refusalBySQLite? m tables (p.columnsNamed m)
    | .delete p => p.refusalBySQLite? m tables (p.columnsNamed m)
    | _ => none

end EntityQuery

import EntityQuery.Entity
import EntityQuery.Store.Cell

/-! Models: entities as they are stored, with the types of their columns and the conditions on which
relations join their records. -/

namespace EntityQuery

variable {ι : Type}

structure Column where
  field : String
  name : String
  type : ColumnType
  /-- The value of a new record that gives none. -/
  default : Cell := .null

/-- A record of a table: its cells by column name. -/
abbrev Record := List (String × Cell)

/-- The cell of a column, null where the record has none. -/
def Model.cellNamed (r : Record) (column : String) : Cell := (Assoc.get? r column).getD .null

/-- What a join asks of two records: that the cells of pairs of columns are equal, one column of each
record, and whatever else it says. -/
structure Condition where
  equal : List (Column × Column)
  also : Record → Record → Bool := fun _ _ => true

def Condition.holds (c : Condition) (r t : Record) : Bool :=
  (c.equal.all fun (own, other) =>
    Cell.agree own.type other.type (Model.cellNamed r own.name) (Model.cellNamed t other.name)) &&
  c.also r t

/-- A relation that leads to the target records on which its condition holds. -/
structure Link (ι : Type) where
  name : String
  target : ι
  toMany : Bool
  condition : Condition
  /-- A table of pairs that the relation goes through, with what it asks of a record and a pair. The
  condition above is then asked of a pair and a target. -/
  through : Option (String × Condition) := none

structure Model (ι : Type) where
  name : String
  columns : List Column
  primaryKey : List String
  links : List (Link ι)

namespace Model

def column? (m : Model ι) (field : String) : Option Column := m.columns.find? (·.field = field)

def link? (m : Model ι) (name : String) : Option (Link ι) := m.links.find? (·.name = name)

/-- The entity of a model, with the relations whose targets are kept. -/
def toEntity (m : Model ι) (keep : ι → Bool) : Entity ι where
  name := m.name
  columns := m.columns.map fun c => (c.field, c.name)
  primaryKey := m.primaryKey
  relations := (m.links.filter fun l => keep l.target).map fun l => ⟨l.name, l.target, l.toMany⟩

/-- The cell of a field. -/
def cell (m : Model ι) (r : Record) (field : String) : Cell :=
  match m.column? field with
  | some c => cellNamed r c.name
  | none => .null

/-- The type of a column; numbers are the rule. -/
def typeNamed (m : Model ι) (column : String) : ColumnType :=
  ((m.columns.find? (·.name = column)).map (·.type)).getD .integer

def key (m : Model ι) (r : Record) : List Cell := m.primaryKey.map (m.cell r)

end Model

/-- The models of a schema. -/
structure Mapping (ι : Type) where
  model : ι → Model ι

/-- The graph of the registered models; relations that lead out of it are dropped. -/
def Mapping.graph (m : Mapping ι) (registered : ι → Bool) : EntityGraph ι :=
  ⟨fun e => (m.model e).toEntity registered⟩

/-- What a database holds: the records of every entity in storage order, and the tables of pairs that
relations go through. -/
structure Tables (ι : Type) where
  records : ι → List Record
  pairs : String → List Record := fun _ => []

namespace Link

variable (link : Link ι) (tables : Tables ι) (r : Record)

/-- The records that a relation of a record leads to, once for each pair that it goes through. -/
def reached : List Record :=
  match link.through with
  | none => (tables.records link.target).filter (link.condition.holds r)
  | some (table, near) =>
    ((tables.pairs table).filter (near.holds r)).flatMap fun pair =>
      (tables.records link.target).filter (link.condition.holds pair)

end Link

end EntityQuery

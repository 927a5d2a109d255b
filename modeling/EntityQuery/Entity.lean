import EntityQuery.Assoc
import EntityQuery.Error

/-! Entities with their columns and relations, and graphs of entities linked by the relations. -/

namespace EntityQuery

variable {ι : Type}

/-- A step from an entity to a related one, of which there may be several when `toMany` holds. -/
structure Relation (ι : Type) where
  name : String
  target : ι
  toMany : Bool

structure Entity (ι : Type) where
  name : String
  /-- Fields with the columns that store them, in declaration order. -/
  columns : List (String × String)
  primaryKey : List String
  relations : List (Relation ι)

namespace Entity

def relation? (e : Entity ι) (name : String) : Option (Relation ι) :=
  e.relations.find? (·.name = name)

def relationNames (e : Entity ι) : List String := e.relations.map (·.name)

def columnFields (e : Entity ι) : List String := Assoc.keys e.columns

def hasColumn (e : Entity ι) (field : String) : Bool := Assoc.contains e.columns field

/-- The column of a field; a name that is no field stands for itself. -/
def columnName (e : Entity ι) (field : String) : String :=
  (Assoc.get? e.columns field).getD field

/-- Columns first, then relations. -/
def fieldNames (e : Entity ι) : List String := e.columnFields ++ e.relationNames

/-- The failure to find a relation of this entity on the way along a path. -/
def noRelation (e : Entity ι) (relation path : String) : QueryError :=
  .relationNotFound relation e.name e.relationNames (some path)

def describe (e : Entity ι) : String := "EntityMetadata(" ++ Text.quoted e.name ++ ")"

end Entity

/-- Entities named by `ι`; relations refer to their targets by these names. -/
structure EntityGraph (ι : Type) where
  entity : ι → Entity ι

namespace EntityGraph

variable (g : EntityGraph ι)

/-- The entity reached by following relations, or the first segment that is no relation. -/
def walk (path : String) : ι → List String → Except QueryError ι
  | e, [] => pure e
  | e, s :: rest =>
    match (g.entity e).relation? s with
    | some r => walk path r.target rest
    | none => throw ((g.entity e).noRelation s path)

end EntityGraph

/-- Registered entities, found by name. -/
structure Catalogue (ι : Type) where
  byName : List (String × ι)

namespace Catalogue

def empty : Catalogue ι := ⟨[]⟩

def register (c : Catalogue ι) (name : String) (e : ι) : Catalogue ι := ⟨Assoc.set c.byName name e⟩

def names (c : Catalogue ι) : List String := Assoc.keys c.byName

def get (c : Catalogue ι) (name : String) : Except QueryError ι :=
  match Assoc.get? c.byName name with
  | some e => pure e
  | none => throw (.entityNotRegistered name c.names)

end Catalogue

end EntityQuery

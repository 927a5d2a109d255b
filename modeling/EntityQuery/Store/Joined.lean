import EntityQuery.Store.Engine

/-! The joined rows of a plan: every record of the root with what the left joins find for it, and of
these rows the ones on which the filter is true. -/

namespace EntityQuery

variable {ι : Type}

/-- For each alias the record that it stands for, none where a left join found nothing. -/
abbrev JoinedRow := List (String × Option Record)

namespace JoinedRow

def record? (row : JoinedRow) (aliasName : String) : Option Record := (Assoc.get? row aliasName).getD none

end JoinedRow

/-- Keeps the first of the elements that share an image. -/
def firstPerKey {α κ : Type} [DecidableEq κ] (key : α → κ) : List κ → List α → List α
  | _, [] => []
  | seen, x :: rest =>
    if key x ∈ seen then firstPerKey key seen rest
    else x :: firstPerKey key (key x :: seen) rest

namespace QueryPlan

variable (m : Mapping ι) (db : Database ι) (p : QueryPlan ι)

def rootModel : Model ι := m.model p.entity

/-- The records that a relation of a record leads to. -/
def linked (owner : ι) (relation : String) (r : Record) : List Record :=
  match (m.model owner).link? relation with
  | none => []
  | some link => link.reached db.toTables r

/-- One row for each record that the join finds, or one row with none. -/
def extendRow (j : Join ι) (row : JoinedRow) : List JoinedRow :=
  let found := match row.record? j.parent with
    | none => []
    | some r => linked m db (p.entityOf j.parent) j.relation.name r
  match found with
  | [] => [row ++ [(j.aliasName, none)]]
  | _ => found.map fun t => row ++ [(j.aliasName, some t)]

/-- All joined rows, the records of the root in storage order. -/
def joinedRows : List JoinedRow :=
  p.joins.foldl (fun rows j => rows.flatMap (extendRow m db p j))
    ((db p.entity).map fun r => [(p.rootAlias, some r)])

/-- What a filter sees on a joined row. -/
def sight (row : JoinedRow) : Sight := fun c =>
  let model := m.model (p.entityOf c.aliasName)
  let cell := match row.record? c.aliasName with
    | some r => Model.cellNamed r c.column
    | none => .null
  (model.typeNamed c.column, cell)

def holds (row : JoinedRow) : Bool :=
  match p.filter with
  | none => true
  | some f => f.eval db.evaluation (p.sight m row) p.clause.parameters.values == .true

/-- The joined rows on which the filter is true. -/
def matchedRows : List JoinedRow := (p.joinedRows m db).filter (p.holds m db)

/-- The primary key of the root record of a row. -/
def rootKey (row : JoinedRow) : List Cell :=
  ((row.record? p.rootAlias).map (p.rootModel m).key).getD []

/-- The keys of the roots that match, each once. -/
def matchedKeys : List (List Cell) := firstPerKey id [] ((p.matchedRows m db).map (p.rootKey m))

end QueryPlan

end EntityQuery

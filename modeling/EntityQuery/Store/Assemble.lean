import EntityQuery.Layout.Shape
import EntityQuery.Store.Result

/-! Rows of values assembled from records. The related records of a record are those joined to it
anywhere in the result, each once, so that a record shows the same relations wherever it appears. -/

namespace EntityQuery

variable {ι : Type}

namespace QueryPlan

variable [DecidableEq ι] (m : Mapping ι) (p : QueryPlan ι)

/-- What a row joins to the record of an entity with a given key: an entry for each selected join of
the relation in which the record takes part, none where the join found nothing. -/
def relatedOn (owner : ι) (key : List Cell) (relation : String) (row : JoinedRow) :
    List (Option Record) :=
  p.joins.filterMap fun j =>
    if j.selected && j.relation.name == relation && decide (p.entityOf j.parent = owner) then
      (row.record? j.parent).bind fun r =>
        if (m.model owner).key r = key then some (row.record? j.aliasName) else none
    else none

/-- The records related to a record over a whole result, if the result loads the relation of this
record at all. -/
def related? (rows : List JoinedRow) (owner : ι) (r : Record) (link : Link ι) :
    Option (List Record) :=
  match rows.flatMap (p.relatedOn m owner ((m.model owner).key r) link.name) with
  | [] => none
  | found => some (firstPerKey (m.model link.target).key [] (found.filterMap id))

/-- The columns of a record as values. -/
def columnValues (owner : ι) (r : Record) : Row :=
  (m.model owner).columns.map fun c => (c.field, (Model.cellNamed r c.name).toValue c.type)

mutual

/-- A record with the relations of the branches, nested as deep as they are. -/
def assemble (rows : List JoinedRow) (owner : ι) (r : Record) (branches : List Branch) : Row :=
  columnValues m owner r ++ assembleAll rows owner r branches

def assembleAll (rows : List JoinedRow) (owner : ι) (r : Record) : List Branch → Row
  | [] => []
  | b :: rest => assembleOne rows owner r b ++ assembleAll rows owner r rest

def assembleOne (rows : List JoinedRow) (owner : ι) (r : Record) : Branch → Row
  | ⟨name, _, _, _, _, _, children⟩ =>
    match (m.model owner).link? name with
    | none => []
    | some link =>
      match p.related? m rows owner r link with
      | none => []
      | some records =>
        let items := records.map fun t =>
          Value.obj (columnValues m link.target t ++ assembleAll rows link.target t children)
        if link.toMany then [(name, .list items)] else [(name, items.headD .null)]

end

/-- The rows of a result as its layout shows them. -/
def shapedRows (db : Database ι) : Except QueryError (List Row) :=
  let rows := p.resultRows m db
  (p.roots m db).mapM fun r => p.layout.shape (p.assemble m rows p.entity r p.layout.branches)

end QueryPlan

end EntityQuery

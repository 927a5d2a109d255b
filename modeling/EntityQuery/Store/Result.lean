import EntityQuery.Store.Joined

/-! Results of a plan: the matched rows in order, cut to the page, and the roots on them. Where there
are joins, the page is cut over roots: each counts with the least or the greatest cell of a joined
sort key. -/

namespace EntityQuery

variable {ι : Type}

/-- The page of a list from `offset` on, of at most `limit` elements. -/
def pageOf {α : Type} (offset limit : Option Int) (xs : List α) : List α :=
  let rest := match offset with
    | some n => xs.drop n.toNat
    | none => xs
  match limit with
  | some n => rest.take n.toNat
  | none => rest

namespace OrderTerm

/-- Whether the first cell comes before, with or after the second. -/
def compare (t : OrderTerm) (a b : Cell) : Ordering :=
  if t.descending then b.compare a else a.compare b

/-- Lists of cells against each other, one for each term, the first difference deciding. -/
def compareAll : List OrderTerm → List Cell → List Cell → Ordering
  | t :: ts, a :: as, b :: bs => (t.compare a b).then (compareAll ts as bs)
  | _, _, _ => .eq

/-- The greatest of the cells for a descending key, the least for an ascending one; null only where
there is no other. -/
def extreme (t : OrderTerm) (cells : List Cell) : Cell :=
  cells.foldl
    (fun best c =>
      if best = .null then c
      else if c = .null then best
      else if t.compare c best == .lt then c else best)
    .null

end OrderTerm

/-- Sorts by the cells that `cells` gives for the terms; elements with equal cells keep their order. -/
def sortByTerms {α : Type} (terms : List OrderTerm) (cells : α → List Cell) (xs : List α) : List α :=
  xs.mergeSort fun a b => OrderTerm.compareAll terms (cells a) (cells b) != .gt

/-- Keys in increasing order. -/
def sortKeys (keys : List (List Cell)) : List (List Cell) :=
  keys.mergeSort fun a b => le a b
where
  le : List Cell → List Cell → Bool
    | a :: as, b :: bs => match a.compare b with
      | .lt => true
      | .gt => false
      | .eq => le as bs
    | _, _ => true

namespace QueryPlan

variable (m : Mapping ι) (db : Database ι) (p : QueryPlan ι)

/-- The cell of a sort key on a joined row. -/
def termCell (t : OrderTerm) (row : JoinedRow) : Cell :=
  match row.record? t.aliasName with
  | some r => (m.model (p.entityOf t.aliasName)).cell r t.field
  | none => .null

def sortRows (rows : List JoinedRow) : List JoinedRow :=
  sortByTerms p.order (fun row => p.order.map fun t => p.termCell m t row) rows

/-- The aliases whose records a result loads. -/
def loadedAliases : List String :=
  p.rootAlias :: (p.joins.filter (·.selected)).map (·.aliasName)

/-- Where a result is distinct, rows that load the same records count once. -/
def distinctRows (rows : List JoinedRow) : List JoinedRow :=
  if p.distinct then firstPerKey (fun row => p.loadedAliases.map row.record?) [] rows else rows

/-- The sort cells of a root, over the rows that it has. -/
def rootCells (rows : List JoinedRow) : List Cell :=
  p.order.map fun t =>
    let cells := rows.map (p.termCell m t)
    if t.path.isEmpty then cells.headD .null else t.extreme cells

/-- The keys of the roots on the page. Roots that tie come in the order of their keys. -/
def pageKeys (rows : List JoinedRow) : List (List Cell) :=
  let keys := sortKeys (firstPerKey id [] (rows.map (p.rootKey m)))
  let cells := fun key => p.rootCells m (rows.filter fun row => p.rootKey m row = key)
  pageOf p.offset p.limit (sortByTerms p.order cells keys)

/-- The rows of the result, in order. -/
def resultRows : List JoinedRow :=
  let rows := p.matchedRows m db
  if p.isPaged && !p.joins.isEmpty then
    let keys := p.pageKeys m rows
    p.sortRows m (p.distinctRows (rows.filter fun row => keys.contains (p.rootKey m row)))
  else
    pageOf p.offset p.limit (p.sortRows m (p.distinctRows rows))

/-- The rows on which a root appears for the first time, in order. -/
def rootRows : List JoinedRow := firstPerKey (p.rootKey m) [] (p.resultRows m db)

/-- The records of the root in the result, each once. -/
def roots : List Record := (p.rootRows m db).filterMap (·.record? p.rootAlias)

/-- The number of roots that match, whatever the page. -/
def count : Nat := (p.matchedKeys m db).length

/-- Whether any root matches. -/
def any : Bool := !(p.matchedRows m db).isEmpty

end QueryPlan

end EntityQuery

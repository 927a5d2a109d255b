import EntityQuery.Proofs.Store.Continuation
import EntityQuery.Proofs.Store.Paging

/-! A plan narrowed to one root of another plan. Its result has just the rows of that root, so that it
shows the root as the other plan shows it, up to the order of lists, where the root needs no rows of
other roots. -/

namespace EntityQuery

variable {ι : Type}

namespace QueryPlan

variable {m : Mapping ι} {db : Database ι} {p p' : QueryPlan ι} {r : Record}

/-- Where rows are not made distinct, a result has all the rows of its roots. -/
theorem Scoped.mem_resultRows_iff (hp : p.Scoped) (hdb : db.Keyed m) (hdistinct : p.distinct = false)
    (hr : r ∈ p.roots m db) {row : JoinedRow} (hroot : row.record? p.rootAlias = some r) :
    row ∈ p.resultRows m db ↔ row ∈ p.matchedRows m db := by
  refine ⟨fun h => resultRows_subset h, fun hrow => ?_⟩
  obtain ⟨first, hfirst, hfirstRoot⟩ := (hp.mem_roots_iff hdb).1 hr
  have hkeep : ∀ rows, p.distinctRows rows = rows := fun rows => by
    rw [distinctRows, hdistinct]
    rfl
  by_cases hjoins : p.joins = []
  · -- Without joins a root has one row.
    have hone : ∀ row ∈ p.matchedRows m db, row.record? p.rootAlias = some r →
        row = [(p.rootAlias, some r)] := by
      intro row hrow hroot
      obtain ⟨records, -, -, rfl⟩ := hp.mem_matchedRows.1 hrow
      rw [record?_root] at hroot
      rw [QueryPlan.names, hjoins, rowOn, List.map_nil, List.map_singleton, hroot]
    rw [hone row hrow hroot, ← hone first (resultRows_subset hfirst) hfirstRoot]
    exact hfirst
  · have hempty : p.joins.isEmpty = false := List.isEmpty_eq_false_iff.2 hjoins
    unfold resultRows at hfirst ⊢
    simp only [hkeep, hempty, Bool.not_false, Bool.and_true] at hfirst ⊢
    cases hpaged : p.isPaged with
    | true =>
      rw [hpaged] at hfirst
      have hcut := (List.mem_filter.1 ((sortRows_perm _).subset hfirst)).2
      rw [rootKey_of_record? hfirstRoot] at hcut
      refine (sortRows_perm _).symm.subset (List.mem_filter.2 ⟨hrow, ?_⟩)
      rw [rootKey_of_record? hroot]
      exact hcut
    | false =>
      obtain ⟨hoffset, hlimit⟩ : p.offset = none ∧ p.limit = none := by
        simpa [isPaged, Option.isSome_eq_false_iff] using hpaged
      rw [hoffset, hlimit]
      exact (sortRows_perm _).symm.subset hrow

/-- A plan without a page whose rows match in the order of its sort keys. -/
def MatchesInOrder (m : Mapping ι) (db : Database ι) (p : QueryPlan ι) : Prop :=
  p.offset = none ∧ p.limit = none ∧ p.distinct = false ∧
    (p.matchedRows m db).Pairwise fun row row' =>
      OrderTerm.compareAll p.order (p.order.map fun t => p.termCell m t row)
        (p.order.map fun t => p.termCell m t row') != .gt

instance (m : Mapping ι) (db : Database ι) (p : QueryPlan ι) : Decidable (p.MatchesInOrder m db) :=
  inferInstanceAs (Decidable (_ ∧ _ ∧ _ ∧ _))

theorem MatchesInOrder.resultRows_eq (h : p.MatchesInOrder m db) :
    p.resultRows m db = p.matchedRows m db := by
  obtain ⟨hoffset, hlimit, hdistinct, hsorted⟩ := h
  have hrows : p.resultRows m db = p.sortRows m (p.matchedRows m db) := by
    rw [resultRows, isPaged, hoffset, hlimit, distinctRows, hdistinct]
    rfl
  rw [hrows, sortRows, sortByTerms, List.mergeSort_of_pairwise hsorted]

/-- Plans with the same joins and the same layout. -/
structure Mirrors (p p' : QueryPlan ι) : Prop where
  entity : p'.entity = p.entity
  rootAlias : p'.rootAlias = p.rootAlias
  joins : p'.joins = p.joins
  layout : p'.layout = p.layout

/-- A plan that asks what another one asks, of one root alone, and takes one root. -/
structure Pins (m : Mapping ι) (db : Database ι) (p p' : QueryPlan ι) (r : Record) : Prop
    extends p.Mirrors p' where
  distinct : p.distinct = false ∧ p'.distinct = false
  offset : p'.offset = none
  limit : p'.limit = some 1
  holds : ∀ records, p.Combination m db records →
    (p'.HoldsOn m db records ↔ p.HoldsOn m db records ∧ records p.rootAlias = some r)

namespace Pins

theorem entityOf_eq (h : Pins m db p p' r) : p'.entityOf = p.entityOf := by
  funext a
  rw [entityOf, entityOf, h.rootAlias, h.entity, h.joins]

theorem relatedOn_eq [DecidableEq ι] (h : Pins m db p p' r) : p'.relatedOn m = p.relatedOn m := by
  funext owner key relation row
  rw [relatedOn, relatedOn, h.entityOf_eq, h.joins]

theorem leftJoins_eq (h : Pins m db p p' r) (j : Join ι) :
    p'.LeftJoins m db j = p.LeftJoins m db j := by
  funext parent found
  cases found <;> simp only [LeftJoins, h.entityOf_eq]

theorem combination_iff (h : Pins m db p p' r) {records : String → Option Record} :
    p'.Combination m db records ↔ p.Combination m db records := by
  constructor
  · rintro ⟨hroot, hjoins⟩
    simp only [h.entity, h.rootAlias, h.joins, h.leftJoins_eq] at hroot hjoins
    exact ⟨hroot, hjoins⟩
  · rintro ⟨hroot, hjoins⟩
    refine ⟨?_, fun j hj => ?_⟩
    · simpa only [h.entity, h.rootAlias] using hroot
    · rw [h.leftJoins_eq]
      exact hjoins j (h.joins ▸ hj)

/-- The pinned plan matches the rows of its root. -/
theorem mem_matchedRows_iff (h : Pins m db p p' r) (hp : p.Scoped) (hp' : p'.Scoped)
    {row : JoinedRow} :
    row ∈ p'.matchedRows m db ↔ row ∈ p.matchedRows m db ∧ row.record? p.rootAlias = some r := by
  have hnames : p'.names = p.names := by rw [QueryPlan.names, QueryPlan.names, h.rootAlias, h.joins]
  rw [hp.mem_matchedRows, hp'.mem_matchedRows]
  constructor
  · rintro ⟨records, hrecords, hholds, rfl⟩
    rw [h.combination_iff] at hrecords
    obtain ⟨hholds, hroot⟩ := (h.holds records hrecords).1 hholds
    rw [hnames, record?_root]
    exact ⟨⟨records, hrecords, hholds, rfl⟩, hroot⟩
  · rintro ⟨⟨records, hrecords, hholds, rfl⟩, hroot⟩
    rw [record?_root] at hroot
    exact ⟨records, h.combination_iff.2 hrecords, (h.holds records hrecords).2 ⟨hholds, hroot⟩,
      by rw [hnames]⟩

/-- The pinned plan lists its root. -/
theorem roots_eq (h : Pins m db p p' r) (hp : p.Scoped) (hp' : p'.Scoped) (hdb : db.Keyed m)
    (hr : r ∈ p.roots m db) : p'.roots m db = [r] := by
  have hmatching : ∀ s, s ∈ p'.matching m db ↔ s = r := by
    intro s
    rw [hp'.mem_matching_iff]
    simp only [h.mem_matchedRows_iff hp hp', h.rootAlias]
    constructor
    · rintro ⟨row, ⟨-, hroot⟩, hs⟩
      exact Option.some.inj (hs.symm.trans hroot)
    · rintro rfl
      obtain ⟨row, hrow, hroot⟩ := hp.mem_matching_iff.1 (hp.roots_subset hr)
      exact ⟨row, ⟨hrow, hroot⟩, hroot⟩
  have hpage : p'.page none (some 1) = p' := by
    rw [← h.offset, ← h.limit]
    rfl
  have horder : ∀ k ∈ p'.pageOrder m db, k = (p'.rootModel m).key r := by
    intro k hk
    obtain ⟨s, hs, rfl⟩ := hp'.mem_matchedKeys_iff.1 ((pageOrder_perm hdb).subset hk)
    rw [(hmatching s).1 hs]
  have hkey : (p'.rootModel m).key r ∈ p'.pageOrder m db :=
    (pageOrder_perm hdb).symm.subset (hp'.mem_matchedKeys_iff.2 ⟨r, (hmatching r).2 rfl, rfl⟩)
  have hlisted : r ∈ p'.roots m db := by
    rw [← hpage, hp'.mem_roots_page hdb rfl]
    refine ⟨(hmatching r).2 rfl, ?_⟩
    cases hkeys : p'.pageOrder m db with
    | nil => exact absurd (hkeys ▸ hkey) List.not_mem_nil
    | cons k rest =>
      rw [← horder k (by simp [hkeys])]
      exact List.mem_cons_self
  have hall : ∀ s ∈ p'.roots m db, s = r := fun s hs => (hmatching s).1 (hp'.roots_subset hs)
  refine List.perm_singleton.1
    ((List.perm_ext_iff_of_nodup hp'.roots_nodup (List.nodup_singleton r)).2 fun s => ?_)
  rw [List.mem_singleton]
  exact ⟨hall s, fun h => h ▸ hlisted⟩

theorem mem_resultRows_iff (h : Pins m db p p' r) (hp : p.Scoped) (hp' : p'.Scoped)
    (hdb : db.Keyed m) (hr : r ∈ p.roots m db) {row : JoinedRow} :
    row ∈ p'.resultRows m db ↔ row ∈ p.resultRows m db ∧ row.record? p.rootAlias = some r := by
  have hr' : r ∈ p'.roots m db := by simp [h.roots_eq hp hp' hdb hr]
  constructor
  · intro hrow
    obtain ⟨hmatched, hroot⟩ := (h.mem_matchedRows_iff hp hp').1 (resultRows_subset hrow)
    exact ⟨(hp.mem_resultRows_iff hdb h.distinct.1 hr hroot).2 hmatched, hroot⟩
  · rintro ⟨hrow, hroot⟩
    refine (hp'.mem_resultRows_iff hdb h.distinct.2 hr' (h.rootAlias.symm ▸ hroot)).2 ?_
    exact (h.mem_matchedRows_iff hp hp').2 ⟨resultRows_subset hrow, hroot⟩

end Pins

/-! ### Roots by themselves -/

/-- The rows of a result that are of one root. -/
def ownRows (m : Mapping ι) (db : Database ι) (p : QueryPlan ι) (r : Record) : List JoinedRow :=
  (p.resultRows m db).filter fun row => row.record? p.rootAlias = some r

theorem mem_ownRows {row : JoinedRow} :
    row ∈ p.ownRows m db r ↔ row ∈ p.resultRows m db ∧ row.record? p.rootAlias = some r := by
  rw [ownRows, List.mem_filter, decide_eq_true_iff]

variable [DecidableEq ι]

/-- What the layout of a plan shows of a root that is assembled from its own rows. -/
def ShowsAlone (m : Mapping ι) (db : Database ι) (p : QueryPlan ι) (r : Record) (row : Row) : Prop :=
  p.layout.shape (p.assemble m (p.ownRows m db r) p.entity r p.layout.branches) = .ok row

/-- The rows of a root join all that the whole result joins to the root and to the records that are
shown below it. -/
def SelfContained (m : Mapping ι) (db : Database ι) (p : QueryPlan ι) (r : Record) : Prop :=
  ∀ b ∈ p.layout.branches,
    b.Closed m p {row | row ∈ p.resultRows m db} {row | row ∈ p.ownRows m db r} p.entity r

variable {registered : ι → Bool} {e : ι} {quote : String → String} {predicates : List Predicate}

/-- Where the predicates spare what is loaded, every root of a result is self-contained. -/
theorem WellFormed.selfContained (hp : p.WellFormed (m.graph registered) e quote predicates)
    (hm : m.Proper) (hdb : db.Keyed m) (hdistinct : p.distinct = false)
    (hspares : p.Spares predicates) (hlayout : p.layout.Placed) (hr : r ∈ p.roots m db) :
    p.SelfContained m db r := by
  have hrows : ∀ row ∈ p.ownRows m db r, row ∈ p.matchedRows m db :=
    fun row hrow => resultRows_subset (mem_ownRows.1 hrow).1
  intro b hb
  rw [hp.entity]
  refine hp.closed_of_spares hm hdb hspares hlayout (fun row hrow => resultRows_subset hrow) hrows ?_ ?_ hb
  · intro row hrow row' hrow' hsame
    have hroot := hsame.trans (mem_ownRows.1 hrow).2
    exact mem_ownRows.2 ⟨(hp.scoped.mem_resultRows_iff hdb hdistinct hr hroot).2 hrow', hroot⟩
  · obtain ⟨row, hrow, hroot⟩ := (hp.scoped.mem_roots_iff hdb).1 hr
    exact ⟨row, mem_ownRows.2 ⟨hrow, hroot⟩, hroot⟩

namespace Pins

/-- The pinned plan shows its root as it is shown from other rows, up to the order of lists, where these
hold the rows of the root and the root needs no more of them. -/
theorem exists_alike (h : Pins m db p p' r)
    (hp : p.WellFormed (m.graph registered) e quote predicates) (hp' : p'.Scoped) (hm : m.Proper)
    (hdb : db.Keyed m) (hsingle : db.Single m) (hr : r ∈ p.roots m db) {rows : List JoinedRow}
    (hrows : rows ⊆ p.resultRows m db) (hown : p.ownRows m db r ⊆ rows)
    (hclosed : ∀ b ∈ p.layout.branches,
      b.Closed m p {row | row ∈ rows} {row | row ∈ p.ownRows m db r} p.entity r)
    {row : Row} (hrow : p.layout.shape (p.assemble m rows p.entity r p.layout.branches) = .ok row) :
    ∃ found, p'.Shows m db r found ∧ Row.Alike row found := by
  have hsame : ∀ row, row ∈ p'.resultRows m db ↔ row ∈ p.ownRows m db r := fun row =>
    (h.mem_resultRows_iff hp.scoped hp' hdb hr).trans mem_ownRows.symm
  have hn : Narrows m db p p' rows (p'.resultRows m db) :=
    ⟨fun row hrow => resultRows_subset (hrows hrow), fun row hrow => hown ((hsame row).1 hrow),
      h.relatedOn_eq⟩
  have halike : Row.Alike (p.assemble m rows p.entity r p.layout.branches)
      (p'.assemble m (p'.resultRows m db) p'.entity r p'.layout.branches) := by
    rw [assemble, assemble, h.entity, h.layout]
    refine List.rel_append (Row.Alike.refl _) ?_
    refine assembleAll_alike hp hm hdb hsingle hn _ (matching_subset (hp.scoped.roots_subset hr)) ?_
    simp only [hsame]
    exact hclosed
  obtain ⟨found, hfound, hrows⟩ := p.layout.shape_alike halike hrow
  rw [← h.layout] at hfound
  exact ⟨found, hfound, hrows⟩

/-- The pinned plan shows its root as it is assembled from its own rows, and as the whole result shows it
where it is self-contained. -/
theorem exists_shown (h : Pins m db p p' r)
    (hp : p.WellFormed (m.graph registered) e quote predicates) (hp' : p'.Scoped) (hm : m.Proper)
    (hdb : db.Keyed m) (hsingle : db.Single m) (hr : r ∈ p.roots m db)
    (hlayout : p.layout.Follows m p.entity) :
    ∃ alone found, p.ShowsAlone m db r alone ∧ p'.Shows m db r found ∧ Row.Alike alone found ∧
      ∀ row, p.Shows m db r row → p.SelfContained m db r → Row.Alike row found := by
  have hown : p.ownRows m db r ⊆ p.resultRows m db := fun row hrow => (mem_ownRows.1 hrow).1
  obtain ⟨alone, halone⟩ := exists_shape (p.ownRows m db r) hlayout r
  obtain ⟨found, hfound, halike⟩ := h.exists_alike hp hp' hm hdb hsingle hr hown (fun _ h => h)
    (fun b _ => b.closed_self m p _ _ r) halone
  refine ⟨alone, found, halone, hfound, halike, fun row hrow hself => ?_⟩
  obtain ⟨found', hfound', halike'⟩ :=
    h.exists_alike hp hp' hm hdb hsingle hr (fun _ h => h) hown hself hrow
  obtain rfl := Except.ok.inj (hfound.symm.trans hfound')
  exact halike'

end Pins

end QueryPlan

end EntityQuery

import EntityQuery.Proofs.Layout.Likeness
import EntityQuery.Proofs.Store.Order
import EntityQuery.Proofs.Store.Roots
import EntityQuery.Proofs.Store.Shaping
import EntityQuery.Proofs.Store.Unfolding

/-! The records that a result joins to a record. They come from all rows on which the record stands,
whichever root these are of, so that some of the rows may join fewer records to it. A record to which some
rows join all that the result joins to it, and to the records reached from it, is assembled from them as
it is assembled from the whole result. -/

namespace EntityQuery

variable {ι : Type} [DecidableEq ι]

namespace QueryPlan

/-! ### Joined records -/

/-- One of the rows joins `found` to a record by a relation that the result loads, none where the join
found nothing. -/
def Joined (m : Mapping ι) (p : QueryPlan ι) (rows : Set JoinedRow) (owner : ι) (r : Record)
    (relation : String) (found : Option Record) : Prop :=
  ∃ row ∈ rows, found ∈ p.relatedOn m owner ((m.model owner).key r) relation row

variable {m : Mapping ι} {db : Database ι} {p p' : QueryPlan ι}

theorem mem_relatedOn {owner : ι} {key : List Cell} {relation : String} {row : JoinedRow}
    {found : Option Record} :
    found ∈ p.relatedOn m owner key relation row ↔
      ∃ j ∈ p.joins, (j.selected = true ∧ j.relation.name = relation ∧ p.entityOf j.parent = owner) ∧
        ∃ t, row.record? j.parent = some t ∧ (m.model owner).key t = key ∧
          row.record? j.aliasName = found := by
  unfold relatedOn
  rw [List.mem_filterMap]
  refine exists_congr fun j => and_congr_right fun _ => ?_
  by_cases hj : j.selected = true ∧ j.relation.name = relation ∧ p.entityOf j.parent = owner
  · have hcond : (j.selected && j.relation.name == relation &&
        decide (p.entityOf j.parent = owner)) = true := by simp [hj]
    rw [if_pos hcond, Option.bind_eq_some_iff, and_iff_right hj]
    refine exists_congr fun t => and_congr_right fun _ => ?_
    by_cases hkey : (m.model owner).key t = key <;> simp [hkey]
  · have hcond : ¬ (j.selected && j.relation.name == relation &&
        decide (p.entityOf j.parent = owner)) = true := by simpa [and_assoc] using hj
    rw [if_neg hcond]
    exact iff_of_false nofun fun h => hj h.1

/-- Records that differ by their keys are all kept. -/
theorem mem_firstPerKey {α κ : Type} [DecidableEq κ] {key : α → κ} {xs : List α}
    (hinj : ∀ x ∈ xs, ∀ y ∈ xs, key x = key y → x = y) {x : α} :
    x ∈ firstPerKey key [] xs ↔ x ∈ xs := by
  refine ⟨fun h => (firstPerKey_sublist key [] xs).subset h, fun h => ?_⟩
  obtain ⟨y, hy, hkey⟩ := List.mem_map.1
    ((mem_keys_firstPerKey key [] xs).2 ⟨List.mem_map_of_mem h, List.not_mem_nil⟩)
  exact hinj y ((firstPerKey_sublist key [] xs).subset hy) x h hkey ▸ hy

/-- Two results that join the same records to a record relate the same ones to it, in some order. -/
theorem related?_perm {rows rows' : List JoinedRow} {owner : ι} {r : Record} {link : Link ι}
    (hsame : ∀ found, p.Joined m {row | row ∈ rows} owner r link.name found ↔
      p'.Joined m {row | row ∈ rows'} owner r link.name found)
    (hinj : ∀ t t', p.Joined m {row | row ∈ rows} owner r link.name (some t) →
      p.Joined m {row | row ∈ rows} owner r link.name (some t') →
        (m.model link.target).key t = (m.model link.target).key t' → t = t') :
    (p.related? m rows owner r link = none ∧ p'.related? m rows' owner r link = none) ∨
    ∃ records records', p.related? m rows owner r link = some records ∧
      p'.related? m rows' owner r link = some records' ∧ records.Perm records' ∧ records.Nodup ∧
      ∀ t ∈ records, p.Joined m {row | row ∈ rows} owner r link.name (some t) := by
  unfold related?
  generalize hfound : rows.flatMap (p.relatedOn m owner ((m.model owner).key r) link.name) = found
  generalize hfound' : rows'.flatMap (p'.relatedOn m owner ((m.model owner).key r) link.name) = found'
  have hmem : ∀ x, x ∈ found ↔ p.Joined m {row | row ∈ rows} owner r link.name x :=
    fun x => hfound ▸ List.mem_flatMap
  have hmem' : ∀ x, x ∈ found' ↔ p'.Joined m {row | row ∈ rows'} owner r link.name x :=
    fun x => hfound' ▸ List.mem_flatMap
  have hfounds : ∀ x, x ∈ found ↔ x ∈ found' := fun x => (hmem x).trans ((hsame x).trans (hmem' x).symm)
  have hrecord : ∀ xs : List (Option Record), ∀ t, t ∈ xs.filterMap id ↔ some t ∈ xs := by simp
  have hkeys : ∀ xs : List (Option Record), (∀ x, x ∈ found ↔ x ∈ xs) → ∀ t,
      t ∈ firstPerKey (m.model link.target).key [] (xs.filterMap id) ↔ some t ∈ xs := by
    intro xs hxs t
    rw [mem_firstPerKey (fun t ht t' ht' => hinj t t' ?_ ?_), hrecord]
    · exact (hmem _).1 ((hxs _).2 ((hrecord xs t).1 ht))
    · exact (hmem _).1 ((hxs _).2 ((hrecord xs t').1 ht'))
  have hnodup : ∀ xs : List Record, (firstPerKey (m.model link.target).key [] xs).Nodup :=
    fun xs => List.Nodup.of_map _ (nodup_keys_firstPerKey _ _ _)
  cases found with
  | nil =>
    obtain rfl : found' = [] :=
      List.eq_nil_iff_forall_not_mem.2 fun x hx => List.not_mem_nil ((hfounds x).2 hx)
    exact .inl ⟨rfl, rfl⟩
  | cons x rest =>
    cases found' with
    | nil => exact absurd ((hfounds x).1 (by simp)) List.not_mem_nil
    | cons x' rest' =>
      refine .inr ⟨_, _, rfl, rfl, (List.perm_ext_iff_of_nodup (hnodup _) (hnodup _)).2 fun t => ?_,
        hnodup _, fun t ht => ?_⟩
      · rw [hkeys _ (fun _ => Iff.rfl), hkeys _ hfounds, hfounds]
      · exact (hmem _).1 ((hkeys _ (fun _ => Iff.rfl) t).1 ht)

/-! ### Records of a table -/

section Tables

variable {registered : ι → Bool} {e : ι} {quote : String → String} {predicates : List Predicate}

omit [DecidableEq ι]

/-- A join follows a link to the entity of its alias. -/
theorem WellFormed.link_of_join (hp : p.WellFormed (m.graph registered) e quote predicates)
    (hm : m.Proper) {j : Join ι} (hj : j ∈ p.joins) :
    ∃ link, (m.model (p.entityOf j.parent)).link? j.relation.name = some link ∧
      link.target = p.entityOf j.aliasName := by
  obtain ⟨segs, s, hstep⟩ := hp.exists_step (hm.dotFree _) hj
  obtain ⟨link, hlink, htarget, -⟩ := hm.link_of_relation hstep.relation
  exact ⟨link, hstep.name ▸ hlink, htarget.trans (hp.entityOf_join hj).symm⟩

theorem Links.mem {owner : ι} {relation : String} {r t : Record}
    (h : Links m db owner relation r t) {link : Link ι}
    (hlink : (m.model owner).link? relation = some link) : t ∈ db link.target := by
  obtain ⟨link', hlink', ht, -⟩ := h
  obtain rfl := Option.some.inj (hlink.symm.trans hlink')
  exact ht

/-- The records under an alias are those of its entity. -/
theorem WellFormed.mem_of_combination (hp : p.WellFormed (m.graph registered) e quote predicates)
    (hm : m.Proper) {records : String → Option Record} (h : p.Combination m db records) {a : String}
    (ha : a ∈ p.names) {t : Record} (ht : records a = some t) : t ∈ db (p.entityOf a) := by
  rcases List.mem_cons.1 ha with rfl | ha
  · obtain ⟨r, hr, hroot⟩ := h.root
    obtain rfl := Option.some.inj (hroot.symm.trans ht)
    rw [entityOf, if_pos rfl]
    exact hr
  · obtain ⟨j, hj, rfl⟩ := List.mem_map.1 ha
    have hjoins := h.joins j hj
    rw [ht] at hjoins
    obtain ⟨r, -, hlinks⟩ := hjoins
    obtain ⟨link, hlink, htarget⟩ := hp.link_of_join hm hj
    exact htarget ▸ hlinks.mem hlink

variable [DecidableEq ι]

/-- What matched rows join to a record of a table. -/
theorem WellFormed.joined_iff (hp : p.WellFormed (m.graph registered) e quote predicates)
    (hm : m.Proper) (hdb : db.Keyed m) {rows : Set JoinedRow}
    (hrows : ∀ row ∈ rows, row ∈ p.matchedRows m db)
    {owner : ι} {r : Record} (hr : r ∈ db owner) {relation : String} {found : Option Record} :
    p.Joined m rows owner r relation found ↔
      ∃ row ∈ rows, ∃ j ∈ p.joins, (j.selected = true ∧ j.relation.name = relation ∧
        p.entityOf j.parent = owner) ∧ row.record? j.parent = some r ∧ row.record? j.aliasName = found := by
  unfold Joined
  simp only [mem_relatedOn]
  refine exists_congr fun row => and_congr_right fun hrow => exists_congr fun j =>
    and_congr_right fun hj => and_congr_right fun ⟨_, _, howner⟩ => ?_
  constructor
  · rintro ⟨t, ht, hkey, hfound⟩
    obtain ⟨records, hjoins, -, rfl⟩ := hp.scoped.mem_matchedRows.1 (hrows row hrow)
    have hparent : j.parent ∈ p.names := parent_mem_names hp.scoped.parents hj
    have hrecord := hp.mem_of_combination hm hjoins hparent ((record?_rowOn hparent _).symm.trans ht)
    exact ⟨hdb.inj (howner ▸ hrecord) hr hkey ▸ ht, hfound⟩
  · rintro ⟨hrecord, hfound⟩
    exact ⟨r, hrecord, rfl, hfound⟩

/-- What matched rows join to a record is what a left join finds for it. -/
theorem WellFormed.finds_of_joined (hp : p.WellFormed (m.graph registered) e quote predicates)
    (hm : m.Proper) (hdb : db.Keyed m) {rows : Set JoinedRow}
    (hrows : ∀ row ∈ rows, row ∈ p.matchedRows m db)
    {owner : ι} {r : Record} (hr : r ∈ db owner) {relation : String} {found : Option Record}
    (h : p.Joined m rows owner r relation found) : Finds m db owner relation (some r) found := by
  obtain ⟨row, hrow, j, hj, ⟨-, rfl, rfl⟩, hparent, rfl⟩ := (hp.joined_iff hm hdb hrows hr).1 h
  obtain ⟨records, hjoins, -, rfl⟩ := hp.scoped.mem_matchedRows.1 (hrows row hrow)
  have hmem : j.aliasName ∈ p.names := List.mem_cons_of_mem _ (List.mem_map_of_mem hj)
  have hparents : j.parent ∈ p.names := parent_mem_names hp.scoped.parents hj
  have hjoin : Finds m db (p.entityOf j.parent) j.relation.name (records j.parent)
    (records j.aliasName) := hjoins.joins j hj
  rw [record?_rowOn hparents] at hparent
  rwa [hparent, ← record?_rowOn hmem records] at hjoin

/-- A record that matched rows join to another one is linked to it. -/
theorem WellFormed.links_of_joined (hp : p.WellFormed (m.graph registered) e quote predicates)
    (hm : m.Proper) (hdb : db.Keyed m) {rows : Set JoinedRow}
    (hrows : ∀ row ∈ rows, row ∈ p.matchedRows m db) {owner : ι} {r : Record} (hr : r ∈ db owner)
    {relation : String} {t : Record} (h : p.Joined m rows owner r relation (some t)) :
    Links m db owner relation r t := by
  obtain ⟨r', hr', hlinks⟩ := hp.finds_of_joined hm hdb hrows hr h
  exact Option.some.inj hr' ▸ hlinks

end Tables

end QueryPlan

/-! ### To-one relations -/

/-- A chain of relations that each lead to one entity. -/
def EntityGraph.ToOneAlong (g : EntityGraph ι) (e : ι) (segs : List String) : Prop :=
  ∀ before ∈ segs.inits, ∀ relation ∈ g.relationAlong e before, relation.toMany = false

instance (g : EntityGraph ι) (e : ι) (segs : List String) : Decidable (g.ToOneAlong e segs) :=
  inferInstanceAs (Decidable (∀ before ∈ segs.inits, ∀ relation ∈ g.relationAlong e before,
    relation.toMany = false))

/-- To-one relations lead to one record at most. -/
def Database.Single (m : Mapping ι) (db : Database ι) : Prop :=
  ∀ owner relation link, (m.model owner).link? relation = some link → link.toMany = false →
    ∀ r t t', QueryPlan.Links m db owner relation r t → QueryPlan.Links m db owner relation r t' → t = t'

/-- Records in which a column ties with the same cell of another column tie with each other. -/
theorem Condition.tie_of_holds {c : Condition} {own other : Column} (h : (own, other) ∈ c.equal)
    {r t t' : Record} (ht : c.holds r t = true) (ht' : c.holds r t' = true) :
    ((Model.cellNamed t other.name).between own.type other.type).compare
      ((Model.cellNamed t' other.name).between own.type other.type) = .eq := by
  have hagree : ∀ t, c.holds r t = true →
      Cell.agree own.type other.type (Model.cellNamed r own.name) (Model.cellNamed t other.name) =
        true := fun t ht => by
    rw [holds, Bool.and_eq_true, List.all_eq_true] at ht
    exact ht.1 _ h
  have hties := fun t ht => (Bool.and_eq_true_iff.1 (hagree t ht)).2
  simp only [beq_iff_eq] at hties
  exact Std.TransCmp.eq_trans (Std.OrientedCmp.eq_symm (hties t ht)) (hties t' ht')

omit [DecidableEq ι] in
/-- To-one relations are single where they lead straight to records that differ in a column which is
compared. -/
theorem Database.single_of_apart {m : Mapping ι} {db : Database ι}
    (h : ∀ owner, ∀ link ∈ (m.model owner).links, link.toMany = false → link.through.isNone = true ∧
      ∃ columns ∈ link.condition.equal, (db link.target).Pairwise fun t t' =>
        ((Model.cellNamed t columns.2.name).between columns.1.type columns.2.type).compare
          ((Model.cellNamed t' columns.2.name).between columns.1.type columns.2.type) ≠ .eq) :
    db.Single m := by
  rintro owner relation link hlink hone r t t' ⟨link₁, hlink₁, ht, hjoins⟩ ⟨link₂, hlink₂, ht', hjoins'⟩
  obtain rfl := Option.some.inj (hlink.symm.trans hlink₁)
  obtain rfl := Option.some.inj (hlink.symm.trans hlink₂)
  obtain ⟨hdirect, ⟨own, other⟩, hcolumns, hpairwise⟩ :=
    h owner link (List.mem_of_find?_eq_some hlink) hone
  rw [Option.isNone_iff_eq_none] at hdirect
  rw [Link.Joins, hdirect] at hjoins hjoins'
  have hsymm : Std.Symm fun t t' : Record =>
      ((Model.cellNamed t other.name).between own.type other.type).compare
        ((Model.cellNamed t' other.name).between own.type other.type) ≠ .eq :=
    ⟨fun _ _ hapart heq => hapart (Std.OrientedCmp.eq_symm heq)⟩
  by_contra hne
  exact hpairwise.forall ht ht' hne (Condition.tie_of_holds hcolumns hjoins hjoins')

omit [DecidableEq ι] in
/-- Nothing forks along to-one relations that are single. -/
theorem Database.Single.not_forks {m : Mapping ι} {db : Database ι} (h : db.Single m) (hm : m.Proper)
    {registered : ι → Bool} {e : ι} {segs : List String}
    (hone : (m.graph registered).ToOneAlong e segs) (r : Record) :
    ¬ Forks m db (m.graph registered) e r segs := by
  rintro ⟨before, hbefore, t, t', ht, ht', hne⟩
  refine hne ?_
  clear hne
  induction before using List.reverseRecOn generalizing t t' with
  | nil => rw [joinsTo_nil_iff.1 ht, joinsTo_nil_iff.1 ht']
  | append_singleton before s ih =>
    obtain ⟨t₀, owner, relation, ht₀, howner, hrelation, hlinks⟩ := joinsTo_concat_iff.1 ht
    obtain ⟨t₀', owner', relation', ht₀', howner', -, hlinks'⟩ := joinsTo_concat_iff.1 ht'
    obtain rfl := Option.some.inj (howner.symm.trans howner')
    obtain rfl := ih ((List.prefix_append before [s]).trans hbefore) t₀ t₀' ht₀ ht₀'
    obtain ⟨link, hlink, rfl, -⟩ := hm.exists_link hrelation
    refine h owner s link hlink ?_ t₀ t t' hlinks hlinks'
    exact hone _ ((List.mem_inits _ _).2 hbefore) _
      (by rw [EntityGraph.relationAlong_concat, howner]; exact hrelation)

/-! ### Assembling from fewer rows -/

/-- Under a branch, `own` joins to a record all that `rows` join to it, and so to the records reached. -/
inductive Branch.Closed (m : Mapping ι) (p : QueryPlan ι) (rows own : Set JoinedRow) :
    ι → Record → Branch → Prop
  | mk {owner : ι} {r : Record} {b : Branch}
    (hjoined : ∀ found, p.Joined m rows owner r b.name found → p.Joined m own owner r b.name found)
    (hchildren : ∀ link t, (m.model owner).link? b.name = some link →
      p.Joined m own owner r b.name (some t) → ∀ c ∈ b.children, Closed m p rows own link.target t c) :
    Closed m p rows own owner r b

/-- All of the rows join what they join. -/
theorem Branch.closed_self (m : Mapping ι) (p : QueryPlan ι) (rows : Set JoinedRow) (owner : ι)
    (r : Record) (b : Branch) : b.Closed m p rows rows owner r := by
  refine .mk (fun _ h => h) fun link t _ _ c hc => closed_self m p rows link.target t c
termination_by b
decreasing_by
  have hsize := List.sizeOf_lt_of_mem hc
  cases b
  simp only [Branch.mk.sizeOf_spec] at hsize ⊢
  omega

namespace QueryPlan

variable {m : Mapping ι} {db : Database ι} {p p' : QueryPlan ι} {registered : ι → Bool} {e : ι}
variable {quote : String → String} {predicates : List Predicate} {rows own : List JoinedRow}

omit [DecidableEq ι] in
theorem eq_of_perm_of_forall {α : Type} {xs ys : List α} (h : xs.Perm ys) (hnodup : xs.Nodup)
    (hsame : ∀ x ∈ xs, ∀ y ∈ xs, x = y) : xs = ys := by
  match xs with
  | [] => exact h.nil_eq
  | [x] => exact List.singleton_perm.1 h
  | x :: y :: rest =>
    have hne : x ≠ y := fun h => (List.nodup_cons.1 hnodup).1 (h ▸ List.mem_cons_self)
    exact absurd (hsame x (by simp) y (by simp)) hne

/-- Fewer of the matched rows of a plan, assembled by a plan that loads the same. -/
structure Narrows (m : Mapping ι) (db : Database ι) (p p' : QueryPlan ι) (rows own : List JoinedRow) :
    Prop where
  matched : rows ⊆ p.matchedRows m db
  fewer : own ⊆ rows
  related : p'.relatedOn m = p.relatedOn m

theorem Narrows.joined_iff (hn : Narrows m db p p' rows own) {owner : ι} {r : Record}
    {relation : String} {found : Option Record}
    (h : p.Joined m {row | row ∈ rows} owner r relation found →
      p.Joined m {row | row ∈ own} owner r relation found) :
    p.Joined m {row | row ∈ rows} owner r relation found ↔
      p'.Joined m {row | row ∈ own} owner r relation found := by
  unfold Joined at h ⊢
  rw [hn.related]
  exact ⟨h, fun ⟨row, hrow, hfound⟩ => ⟨row, hn.fewer hrow, hfound⟩⟩

mutual

/-- Under a closed branch, what is assembled from fewer rows is assembled from all. -/
theorem assembleOne_alike (hp : p.WellFormed (m.graph registered) e quote predicates)
    (hm : m.Proper) (hdb : db.Keyed m) (hsingle : db.Single m) (hn : Narrows m db p p' rows own)
    (b : Branch) {owner : ι} {r : Record} (hr : r ∈ db owner)
    (h : b.Closed m p {row | row ∈ rows} {row | row ∈ own} owner r) :
    Row.Alike (p.assembleOne m rows owner r b) (p'.assembleOne m own owner r b) := by
  obtain ⟨name, path, parentPath, aliasName, outputKey, columns, children⟩ := b
  rw [assembleOne, assembleOne]
  cases hlink : (m.model owner).link? name with
  | none => exact .nil
  | some link =>
    obtain rfl : link.name = name := by simpa using List.find?_some hlink
    obtain ⟨hjoined, hchildren⟩ := h
    have hlinks : ∀ t, p.Joined m {row | row ∈ rows} owner r link.name (some t) →
        Links m db owner link.name r t :=
      fun t => hp.links_of_joined hm hdb (fun row => @hn.matched row) hr
    have hkeys : ∀ t t', p.Joined m {row | row ∈ rows} owner r link.name (some t) →
        p.Joined m {row | row ∈ rows} owner r link.name (some t') →
          (m.model link.target).key t = (m.model link.target).key t' → t = t' :=
      fun t t' ht ht' => hdb.inj ((hlinks t ht).mem hlink) ((hlinks t' ht').mem hlink)
    dsimp only
    rcases related?_perm (fun found => hn.joined_iff (hjoined found)) hkeys with
      ⟨hnone, hnone'⟩ | ⟨records, records', hrecords, hrecords', hperm, hnodup, hjoins⟩
    · rw [hnone, hnone']
      exact .nil
    · rw [hrecords, hrecords']
      dsimp only
      have halike : ∀ t ∈ records, Value.Alike
          (.obj (columnValues m link.target t ++ p.assembleAll m rows link.target t children))
          (.obj (columnValues m link.target t ++ p'.assembleAll m own link.target t children)) :=
        fun t ht => .obj (List.rel_append (Row.Alike.refl _)
          (assembleAll_alike hp hm hdb hsingle hn children ((hlinks t (hjoins t ht)).mem hlink)
            (hchildren link t hlink (hjoined _ (hjoins t ht)))))
      cases hmany : link.toMany with
      | true =>
        refine .cons (.mk (.list (hperm.map _) ?_)) .nil
        rw [List.forall₂_map_left_iff, List.forall₂_map_right_iff, List.forall₂_same]
        exact fun t ht => halike t (hperm.symm.subset ht)
      | false =>
        obtain rfl := eq_of_perm_of_forall hperm hnodup fun t ht t' ht' =>
          hsingle owner link.name link hlink hmany r t t' (hlinks t (hjoins t ht))
            (hlinks t' (hjoins t' ht'))
        refine .cons (.mk ?_) .nil
        cases records with
        | nil => exact .refl _
        | cons t rest => exact halike t (by simp)

theorem assembleAll_alike (hp : p.WellFormed (m.graph registered) e quote predicates)
    (hm : m.Proper) (hdb : db.Keyed m) (hsingle : db.Single m) (hn : Narrows m db p p' rows own)
    (bs : List Branch) {owner : ι} {r : Record} (hr : r ∈ db owner)
    (h : ∀ b ∈ bs, b.Closed m p {row | row ∈ rows} {row | row ∈ own} owner r) :
    Row.Alike (p.assembleAll m rows owner r bs) (p'.assembleAll m own owner r bs) := by
  cases bs with
  | nil => exact .nil
  | cons b rest =>
    have hone := assembleOne_alike hp hm hdb hsingle hn b hr (h b (by simp))
    have hrest := assembleAll_alike hp hm hdb hsingle hn rest hr fun b hb =>
      h b (List.mem_cons_of_mem _ hb)
    rw [assembleAll, assembleAll]
    exact List.rel_append hone hrest

end

end QueryPlan

end EntityQuery

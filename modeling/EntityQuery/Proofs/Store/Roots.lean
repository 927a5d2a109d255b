import Mathlib.Data.Set.Card
import EntityQuery.Store.Change
import EntityQuery.Proofs.Store.Combination

/-! The roots of a plan. Where no two records of the root have the same key, the keys that a plan
matches are those of the roots with a matching combination, each once; counting, asking for any,
listing and deleting all tell of this one set. -/

namespace EntityQuery

/-! ### The first of each key -/

section FirstPerKey

variable {α κ : Type} [DecidableEq κ] (key : α → κ) (seen : List κ) (xs : List α)

theorem firstPerKey_sublist : (firstPerKey key seen xs).Sublist xs := by
  induction xs generalizing seen with
  | nil => exact .slnil
  | cons x xs ih =>
    rw [firstPerKey]
    split
    · exact (ih seen).cons x
    · exact (ih _).cons_cons x

theorem mem_keys_firstPerKey {k : κ} :
    k ∈ (firstPerKey key seen xs).map key ↔ k ∈ xs.map key ∧ k ∉ seen := by
  induction xs generalizing seen with
  | nil => simp [firstPerKey]
  | cons x xs ih =>
    rw [firstPerKey]
    split
    · next hx =>
      rw [ih, List.map_cons, List.mem_cons]
      constructor
      · exact fun ⟨hk, hseen⟩ => ⟨.inr hk, hseen⟩
      · rintro ⟨rfl | hk, hseen⟩
        · exact absurd hx hseen
        · exact ⟨hk, hseen⟩
    · next hx =>
      rw [List.map_cons, List.mem_cons, ih, List.map_cons, List.mem_cons, List.mem_cons, not_or]
      by_cases hk : k = key x
      · subst hk
        simp [hx]
      · simp [hk]

theorem nodup_keys_firstPerKey : ((firstPerKey key seen xs).map key).Nodup := by
  induction xs generalizing seen with
  | nil => exact List.nodup_nil
  | cons x xs ih =>
    rw [firstPerKey]
    split
    · exact ih seen
    · rw [List.map_cons, List.nodup_cons, mem_keys_firstPerKey]
      exact ⟨by simp, ih _⟩

/-- Where keys differ, nothing is left out. -/
theorem firstPerKey_eq_self {key : α → κ} {seen : List κ} {xs : List α}
    (hnodup : (xs.map key).Nodup) (hseen : ∀ x ∈ xs, key x ∉ seen) :
    firstPerKey key seen xs = xs := by
  induction xs generalizing seen with
  | nil => rfl
  | cons x xs ih =>
    rw [List.map_cons, List.nodup_cons] at hnodup
    rw [firstPerKey, if_neg (hseen x (by simp)), ih hnodup.2 fun y hy => ?_]
    rw [List.mem_cons, not_or]
    refine ⟨fun h => hnodup.1 (List.mem_map.2 ⟨y, hy, h⟩), hseen y (List.mem_cons_of_mem _ hy)⟩

end FirstPerKey

theorem pageOf_sublist {α : Type} (offset limit : Option Int) (xs : List α) :
    (pageOf offset limit xs).Sublist xs := by
  cases offset <;> cases limit
  · exact .refl _
  · exact List.take_sublist _ _
  · exact List.drop_sublist _ _
  · exact (List.take_sublist _ _).trans (List.drop_sublist _ _)

variable {ι : Type}

namespace Database

variable {m : Mapping ι} {db : Database ι}

/-- No two records of a table have the same primary key. -/
def Keyed (m : Mapping ι) (db : Database ι) : Prop := ∀ e, ((db e).map (m.model e).key).Nodup

theorem Keyed.inj (h : Keyed m db) {e : ι} {r s : Record} (hr : r ∈ db e) (hs : s ∈ db e)
    (heq : (m.model e).key r = (m.model e).key s) : r = s :=
  List.inj_on_of_nodup_map (h e) hr hs heq

/-- A database that differs from another one in the table of one entity at most. -/
structure AlikeBeside (db : Database ι) (e : ι) (db' : Database ι) : Prop where
  records : ∀ e', e' ≠ e → db' e' = db e'
  pairs : db'.pairs = db.pairs
  engine : db'.engine = db.engine

variable [DecidableEq ι] (db)

@[simp] theorem put_self (e : ι) (table : List Record) : db.put e table e = table := if_pos rfl

theorem alikeBeside_put (e : ι) (table : List Record) : db.AlikeBeside e (db.put e table) :=
  ⟨fun _ h => if_neg h, rfl, rfl⟩

end Database

namespace QueryPlan

variable {m : Mapping ι} {db : Database ι} {p : QueryPlan ι}

theorem rootKey_of_record? {row : JoinedRow} {r : Record} (h : row.record? p.rootAlias = some r) :
    p.rootKey m row = (p.rootModel m).key r := by
  rw [rootKey, h]
  rfl

/-! ### Keys that match -/

theorem matchedKeys_nodup : (p.matchedKeys m db).Nodup := by
  have h := nodup_keys_firstPerKey id [] ((p.matchedRows m db).map (p.rootKey m))
  rwa [List.map_id] at h

/-- A key matches when it is the key of a root that matches. -/
theorem Scoped.mem_matchedKeys_iff (hp : p.Scoped) {k : List Cell} :
    k ∈ p.matchedKeys m db ↔ ∃ r ∈ p.matching m db, (p.rootModel m).key r = k := by
  have hkeys : k ∈ p.matchedKeys m db ↔ k ∈ (p.matchedRows m db).map (p.rootKey m) := by
    have h := mem_keys_firstPerKey id [] ((p.matchedRows m db).map (p.rootKey m)) (k := k)
    rw [List.map_id, List.map_id] at h
    exact h.trans (and_iff_left List.not_mem_nil)
  rw [hkeys, List.mem_map]
  constructor
  · rintro ⟨row, hrow, rfl⟩
    obtain ⟨r, hr, hroot⟩ := hp.exists_matching hrow
    exact ⟨r, hr, (rootKey_of_record? hroot).symm⟩
  · rintro ⟨r, hr, rfl⟩
    obtain ⟨row, hrow, hroot⟩ := hp.mem_matching_iff.1 hr
    exact ⟨row, hrow, rootKey_of_record? hroot⟩

theorem Scoped.contains_matchedKeys_iff (hp : p.Scoped) (hdb : db.Keyed m) {r : Record}
    (hr : r ∈ db p.entity) :
    (p.matchedKeys m db).contains ((p.rootModel m).key r) = true ↔ r ∈ p.matching m db := by
  rw [List.contains_iff_mem, hp.mem_matchedKeys_iff]
  constructor
  · rintro ⟨s, hs, hkey⟩
    exact hdb.inj (matching_subset hs) hr hkey ▸ hs
  · exact fun h => ⟨r, h, rfl⟩

/-- The number of keys that match is the number of roots that match. -/
theorem Scoped.count_eq (hp : p.Scoped) (hdb : db.Keyed m) :
    p.count m db = (p.matching m db).ncard := by
  have hinj : Set.InjOn (p.rootModel m).key (p.matching m db) :=
    fun r hr s hs => hdb.inj (matching_subset hr) (matching_subset hs)
  have himage : (p.rootModel m).key '' p.matching m db = ((p.matchedKeys m db).toFinset : Set _) := by
    ext k
    rw [List.coe_toFinset, Set.mem_ofPred_eq, hp.mem_matchedKeys_iff, Set.mem_image]
  rw [← hinj.ncard_image, himage, Set.ncard_coe_finset,
    List.toFinset_card_of_nodup matchedKeys_nodup, count]

theorem Scoped.any_iff (hp : p.Scoped) : p.any m db = true ↔ (p.matching m db).Nonempty := by
  rw [any, Bool.not_eq_true', List.isEmpty_eq_false_iff]
  constructor
  · intro hne
    obtain ⟨row, hrow⟩ := List.exists_mem_of_ne_nil _ hne
    obtain ⟨r, hr, -⟩ := hp.exists_matching hrow
    exact ⟨r, hr⟩
  · rintro ⟨r, hr⟩
    obtain ⟨row, hrow, -⟩ := hp.mem_matching_iff.1 hr
    exact List.ne_nil_of_mem hrow

/-! ### Deletion -/

variable [DecidableEq ι]

/-- A database without the roots that a plan matches: their table has lost just these records, of
which there are `n`, and all else is as it was. -/
structure Removes (m : Mapping ι) (db : Database ι) (p : QueryPlan ι) (n : Nat) (db' : Database ι) :
    Prop where
  number : n = (p.matching m db).ncard
  gone : ∀ r, r ∈ db' p.entity ↔ r ∈ db p.entity ∧ r ∉ p.matching m db
  order : (db' p.entity).Sublist (db p.entity)
  other : db.AlikeBeside p.entity db'

theorem Scoped.delete_removes (hp : p.Scoped) (hdb : db.Keyed m) :
    p.Removes m db (p.delete m db).1 (p.delete m db).2 := by
  have hgone : ∀ r ∈ db p.entity,
      ((p.matchedKeys m db).contains ((p.rootModel m).key r) = true ↔ r ∈ p.matching m db) :=
    fun r hr => hp.contains_matchedKeys_iff hdb hr
  constructor
  case number =>
    have hset : ((((db p.entity).filter fun r => (p.matchedKeys m db).contains ((p.rootModel m).key r)
        ).toFinset : Finset Record) : Set Record) = p.matching m db := by
      ext r
      rw [List.coe_toFinset, Set.mem_ofPred_eq, List.mem_filter]
      constructor
      · exact fun ⟨hr, hkey⟩ => (hgone r hr).1 hkey
      · exact fun hr => ⟨matching_subset hr, (hgone r (matching_subset hr)).2 hr⟩
    have hnodup : (db p.entity).Nodup := List.Nodup.of_map _ (hdb p.entity)
    rw [← hset, Set.ncard_coe_finset, List.toFinset_card_of_nodup (hnodup.filter _), delete,
      List.countP_eq_length_filter]
  case gone =>
    intro r
    simp only [delete, Database.put_self, List.mem_filter]
    refine and_congr_right fun hr => ?_
    rw [Bool.not_eq_true', ← Bool.not_eq_true, hgone r hr]
  case order =>
    simp only [delete, Database.put_self]
    exact List.filter_sublist
  case other => exact db.alikeBeside_put p.entity _

/-! ### Listing -/

omit [DecidableEq ι]

theorem sortRows_perm (rows : List JoinedRow) : (p.sortRows m rows).Perm rows :=
  List.mergeSort_perm _ _

theorem distinctRows_sublist (rows : List JoinedRow) : (p.distinctRows rows).Sublist rows := by
  rw [distinctRows]
  split
  · exact firstPerKey_sublist _ _ _
  · exact .refl _

/-- Distinct rows show every root that the rows show. -/
theorem exists_distinctRows {rows : List JoinedRow} {row : JoinedRow} (h : row ∈ rows) :
    ∃ row' ∈ p.distinctRows rows, row'.record? p.rootAlias = row.record? p.rootAlias := by
  rw [distinctRows]
  split
  · have hkey :
        p.loadedAliases.map row.record? ∈ rows.map fun row => p.loadedAliases.map row.record? :=
      List.mem_map_of_mem h
    obtain ⟨row', hrow', hsame⟩ := List.mem_map.1
      ((mem_keys_firstPerKey _ _ _).2 ⟨hkey, List.not_mem_nil⟩)
    rw [loadedAliases, List.map_cons, List.map_cons] at hsame
    exact ⟨row', hrow', (List.cons.inj hsame).1⟩
  · exact ⟨row, h, rfl⟩

theorem resultRows_subset : p.resultRows m db ⊆ p.matchedRows m db := by
  intro row hrow
  rw [resultRows] at hrow
  split at hrow
  · have hmem := (distinctRows_sublist _).subset ((sortRows_perm _).subset hrow)
    exact (List.mem_filter.1 hmem).1
  · exact (distinctRows_sublist _).subset
      ((sortRows_perm _).subset ((pageOf_sublist _ _ _).subset hrow))

theorem Scoped.exists_root (hp : p.Scoped) {row : JoinedRow} (h : row ∈ p.resultRows m db) :
    ∃ r ∈ p.matching m db, row.record? p.rootAlias = some r :=
  hp.exists_matching (resultRows_subset h)

/-- Every root of a result matches. -/
theorem Scoped.roots_subset (hp : p.Scoped) {r : Record} (hr : r ∈ p.roots m db) :
    r ∈ p.matching m db := by
  obtain ⟨row, hrow, hroot⟩ := List.mem_filterMap.1 hr
  obtain ⟨r', hr', hroot'⟩ := hp.exists_root ((firstPerKey_sublist _ _ _).subset hrow)
  exact Option.some.inj (hroot'.symm.trans hroot) ▸ hr'

theorem Scoped.mem_roots_iff (hp : p.Scoped) (hdb : db.Keyed m) {r : Record} :
    r ∈ p.roots m db ↔ ∃ row ∈ p.resultRows m db, row.record? p.rootAlias = some r := by
  rw [roots, List.mem_filterMap]
  constructor
  · rintro ⟨row, hrow, hroot⟩
    exact ⟨row, (firstPerKey_sublist _ _ _).subset hrow, hroot⟩
  · rintro ⟨row, hrow, hroot⟩
    have hfirst : p.rootKey m row ∈ (p.rootRows m db).map (p.rootKey m) :=
      (mem_keys_firstPerKey _ _ _).2 ⟨List.mem_map_of_mem hrow, List.not_mem_nil⟩
    obtain ⟨row', hrow', hkey⟩ := List.mem_map.1 hfirst
    have hresult := (firstPerKey_sublist _ _ _).subset hrow'
    obtain ⟨s, hs, hroot'⟩ := hp.exists_root hresult
    obtain ⟨r', hr', hroot''⟩ := hp.exists_root hrow
    obtain rfl := Option.some.inj (hroot.symm.trans hroot'')
    rw [rootKey_of_record? hroot', rootKey_of_record? hroot] at hkey
    obtain rfl := hdb.inj (matching_subset hs) (matching_subset hr') hkey
    exact ⟨row', hrow', hroot'⟩

/-- The roots have the keys of the rows on which they appear for the first time. -/
theorem Scoped.map_key_roots (hp : p.Scoped) :
    (p.roots m db).map (p.rootModel m).key = (p.rootRows m db).map (p.rootKey m) := by
  have hrows : ∀ row ∈ p.rootRows m db, ∃ r, row.record? p.rootAlias = some r := by
    intro row hrow
    obtain ⟨r, -, hroot⟩ := hp.exists_root ((firstPerKey_sublist _ _ _).subset hrow)
    exact ⟨r, hroot⟩
  rw [roots]
  generalize p.rootRows m db = rows at hrows
  induction rows with
  | nil => rfl
  | cons row rows ih =>
    obtain ⟨r, hroot⟩ := hrows row (by simp)
    have hrest := ih fun row hrow => hrows row (List.mem_cons_of_mem _ hrow)
    simp [hroot, rootKey_of_record? hroot, hrest]

theorem Scoped.roots_nodup (hp : p.Scoped) : (p.roots m db).Nodup := by
  apply List.Nodup.of_map (p.rootModel m).key
  rw [hp.map_key_roots]
  exact nodup_keys_firstPerKey _ _ _

/-- Without a page the roots are those that match. -/
theorem Scoped.mem_roots_of_unpaged (hp : p.Scoped) (hdb : db.Keyed m) (hoffset : p.offset = none)
    (hlimit : p.limit = none) {r : Record} : r ∈ p.roots m db ↔ r ∈ p.matching m db := by
  have hresult : p.resultRows m db = p.sortRows m (p.distinctRows (p.matchedRows m db)) := by
    rw [resultRows, isPaged, hoffset, hlimit]
    rfl
  rw [hp.mem_roots_iff hdb, hp.mem_matching_iff, hresult]
  constructor
  · rintro ⟨row, hrow, hroot⟩
    exact ⟨row, (distinctRows_sublist _).subset ((sortRows_perm _).subset hrow), hroot⟩
  · rintro ⟨row, hrow, hroot⟩
    obtain ⟨row', hrow', hsame⟩ := exists_distinctRows (p := p) hrow
    exact ⟨row', (sortRows_perm _).symm.subset hrow', hsame.trans hroot⟩

end QueryPlan

end EntityQuery

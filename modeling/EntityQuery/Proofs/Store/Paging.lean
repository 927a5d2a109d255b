import EntityQuery.Proofs.Store.Roots

/-! Pages of a plan. A page is cut from one list of the keys that match, which does not depend on the
page, and its roots are those of the keys on it. With joins the keys are cut first and the rows of
these keys are listed again; without joins each row is a root of its own and the rows are cut. -/

namespace EntityQuery

variable {ι : Type}

/-! ### Windows of a list -/

section Windows

variable {α β : Type}

theorem pageOf_map (f : α → β) (offset limit : Option Int) (xs : List α) :
    (pageOf offset limit xs).map f = pageOf offset limit (xs.map f) := by
  cases offset <;> cases limit <;> simp [pageOf, List.map_take, List.map_drop]

theorem pageOf_of_length_le {n : Int} {xs : List α} (h : (xs.length : Int) ≤ n) :
    pageOf none (some n) xs = xs := by
  have hn : xs.length ≤ n.toNat := by omega
  exact List.take_of_length_le hn

theorem mem_pageOf_one {n : Nat} {xs : List α} {x : α} :
    x ∈ pageOf (some (n : Int)) (some 1) xs ↔ xs[n]? = some x := by
  have hone : pageOf (some (n : Int)) (some 1) xs = (xs.drop n).take 1 := rfl
  rw [hone, List.take_one, List.head?_drop, Option.mem_toList]

/-- The part of a list in one of the windows of `n` elements each. -/
abbrev windowOf (n k : Nat) (xs : List α) : List α :=
  pageOf (some ((k * n : Nat) : Int)) (some (n : Int)) xs

theorem windowOf_eq (n k : Nat) (xs : List α) : windowOf n k xs = (xs.drop (k * n)).take n := by
  simp only [windowOf, pageOf, Int.toNat_natCast]

theorem length_windowOf (n k : Nat) (xs : List α) :
    (windowOf n k xs).length = min n (xs.length - k * n) := by
  rw [windowOf_eq, List.length_take, List.length_drop]

theorem mem_windowOf_iff {n k : Nat} {xs : List α} {x : α} :
    x ∈ windowOf n k xs ↔ ∃ i, k * n ≤ i ∧ i < k * n + n ∧ xs[i]? = some x := by
  rw [windowOf_eq, List.mem_iff_getElem?]
  constructor
  · rintro ⟨i, hi⟩
    rw [List.getElem?_take] at hi
    split at hi
    · next hlt =>
      rw [List.getElem?_drop] at hi
      exact ⟨k * n + i, by omega, by omega, hi⟩
    · cases hi
  · rintro ⟨i, hle, hlt, hi⟩
    refine ⟨i - k * n, ?_⟩
    rw [List.getElem?_take, if_pos (by omega), List.getElem?_drop]
    have hsum : k * n + (i - k * n) = i := by omega
    rw [hsum, hi]

/-- Every element is in some window. -/
theorem exists_windowOf_iff {n : Nat} (hn : 0 < n) {xs : List α} {x : α} :
    (∃ k, x ∈ windowOf n k xs) ↔ x ∈ xs := by
  constructor
  · rintro ⟨k, hk⟩
    exact (pageOf_sublist _ _ _).subset hk
  · intro hx
    obtain ⟨i, hi⟩ := List.mem_iff_getElem?.1 hx
    have hmod := Nat.div_add_mod' i n
    have hlt := Nat.mod_lt i hn
    exact ⟨i / n, mem_windowOf_iff.2 ⟨i, by omega, by omega, hi⟩⟩

/-- No element of a list without repetitions is in two windows. -/
theorem eq_of_mem_windowOf {n k k' : Nat} {xs : List α} (hxs : xs.Nodup) {x : α}
    (h : x ∈ windowOf n k xs) (h' : x ∈ windowOf n k' xs) : k = k' := by
  obtain ⟨i, hle, hlt, hi⟩ := mem_windowOf_iff.1 h
  obtain ⟨i', hle', hlt', hi'⟩ := mem_windowOf_iff.1 h'
  have hlength : i < xs.length := (List.getElem?_eq_some_iff.1 hi).1
  obtain rfl := (List.getElem?_inj hlength hxs).1 (hi.trans hi'.symm)
  -- Of two different windows the one ends before the other begins.
  have hapart : ∀ {a b : Nat}, a < b → a * n + n ≤ b * n := by
    intro a b hab
    have := Nat.mul_le_mul_right n hab
    rwa [Nat.succ_mul] at this
  by_contra hne
  rcases Nat.lt_or_gt_of_ne hne with hlt₁ | hlt₁
  · have := hapart hlt₁
    omega
  · have := hapart hlt₁
    omega

end Windows

namespace QueryPlan

variable {m : Mapping ι} {db : Database ι} {p : QueryPlan ι}

/-- A plan with another page. -/
def page (p : QueryPlan ι) (offset limit : Option Int) : QueryPlan ι := { p with offset, limit }

theorem Scoped.page (hp : p.Scoped) (offset limit : Option Int) : (p.page offset limit).Scoped :=
  ⟨hp.names, hp.parents, hp.filter⟩

/-- Pages do not change which roots match. -/
theorem matching_page (offset limit : Option Int) :
    (p.page offset limit).matching m db = p.matching m db := by
  ext r
  constructor
  · rintro ⟨records, hjoins, hroot, hholds⟩
    exact ⟨records, ⟨hjoins.root, hjoins.joins⟩, hroot, hholds⟩
  · rintro ⟨records, hjoins, hroot, hholds⟩
    exact ⟨records, ⟨hjoins.root, hjoins.joins⟩, hroot, hholds⟩

/-- The keys that match in the order in which pages are cut from them. -/
def pageOrder (m : Mapping ι) (db : Database ι) (p : QueryPlan ι) : List (List Cell) :=
  let rows := p.matchedRows m db
  if p.joins.isEmpty then (p.sortRows m (p.distinctRows rows)).map (p.rootKey m)
  else sortByTerms p.order
    (fun key => p.rootCells m (rows.filter fun row => p.rootKey m row = key))
    (sortKeys (p.matchedKeys m db))

/-! ### Rows without joins -/

/-- Without joins there is one row for each root that matches. -/
theorem nodup_rootKeys_of_noJoins (hdb : db.Keyed m) (hjoins : p.joins = []) :
    ((p.matchedRows m db).map (p.rootKey m)).Nodup := by
  have hrows : p.joinedRows m db = (db p.entity).map fun r => [(p.rootAlias, some r)] := by
    rw [joinedRows, hjoins, List.foldl_nil]
  have hkeys : (p.joinedRows m db).map (p.rootKey m) = (db p.entity).map (p.rootModel m).key := by
    rw [hrows, List.map_map]
    refine List.map_congr_left fun r _ => rootKey_of_record? ?_
    simp [JoinedRow.record?, Assoc.get?_cons]
  have hsublist : ((p.matchedRows m db).map (p.rootKey m)).Sublist
      ((p.joinedRows m db).map (p.rootKey m)) := List.filter_sublist.map _
  rw [hkeys] at hsublist
  exact hsublist.nodup (hdb p.entity)

/-- Without joins all rows are distinct. -/
theorem distinctRows_of_noJoins (hdb : db.Keyed m) (hjoins : p.joins = []) :
    p.distinctRows (p.matchedRows m db) = p.matchedRows m db := by
  rw [distinctRows]
  split
  · -- The loaded records of a row determine its key.
    let keyOf (records : List (Option Record)) : List Cell :=
      ((records.headD none).map (p.rootModel m).key).getD []
    have hkeys : ((p.matchedRows m db).map fun row => p.loadedAliases.map row.record?).map keyOf =
        (p.matchedRows m db).map (p.rootKey m) := by
      rw [List.map_map]
      rfl
    refine firstPerKey_eq_self (List.Nodup.of_map keyOf ?_) fun _ _ => List.not_mem_nil
    rw [hkeys]
    exact nodup_rootKeys_of_noJoins hdb hjoins
  · rfl

/-- The page order has each key that matches once. -/
theorem pageOrder_perm (hdb : db.Keyed m) : (p.pageOrder m db).Perm (p.matchedKeys m db) := by
  rw [pageOrder]
  split
  · next hempty =>
    have hjoins : p.joins = [] := List.isEmpty_iff.1 hempty
    have hsame : p.matchedKeys m db = (p.matchedRows m db).map (p.rootKey m) := by
      refine firstPerKey_eq_self ?_ fun _ _ => List.not_mem_nil
      rw [List.map_id]
      exact nodup_rootKeys_of_noJoins hdb hjoins
    rw [hsame, distinctRows_of_noJoins hdb hjoins]
    exact (sortRows_perm _).map _
  · exact (List.mergeSort_perm _ _).trans (List.mergeSort_perm _ _)

/-! ### Pages -/

theorem resultRows_page_of_noJoins (hjoins : p.joins = []) (offset limit : Option Int) :
    (p.page offset limit).resultRows m db =
      pageOf offset limit (p.sortRows m (p.distinctRows (p.matchedRows m db))) := by
  have hempty : ((p.page offset limit).isPaged && !(p.page offset limit).joins.isEmpty) = false := by
    rw [page, hjoins]
    exact Bool.and_false _
  rw [resultRows, hempty]
  rfl

theorem resultRows_page_of_joins (hjoins : p.joins ≠ []) {offset limit : Option Int}
    (hpaged : offset.isSome || limit.isSome) :
    (p.page offset limit).resultRows m db =
      p.sortRows m (p.distinctRows ((p.matchedRows m db).filter fun row =>
        (pageOf offset limit (p.pageOrder m db)).contains (p.rootKey m row))) := by
  have hempty : p.joins.isEmpty = false := List.isEmpty_eq_false_iff.2 hjoins
  have hcut : ((p.page offset limit).isPaged && !(p.page offset limit).joins.isEmpty) = true := by
    rw [page, hempty, isPaged, hpaged]
    rfl
  rw [resultRows, hcut, pageOrder, hempty]
  rfl

/-- A limit that is no less than the number of roots cuts nothing off. -/
theorem resultRows_page_of_count_le (hdb : db.Keyed m) {n : Int} (hn : (p.count m db : Int) ≤ n) :
    (p.page none (some n)).resultRows m db = (p.page none none).resultRows m db := by
  have horder : ((p.pageOrder m db).length : Int) ≤ n := by
    rw [(pageOrder_perm hdb).length_eq]
    exact hn
  by_cases hjoins : p.joins = []
  · rw [resultRows_page_of_noJoins hjoins, resultRows_page_of_noJoins hjoins]
    rw [pageOrder, hjoins, List.isEmpty_nil, if_pos rfl, List.length_map] at horder
    exact pageOf_of_length_le horder
  · rw [resultRows_page_of_joins hjoins rfl, pageOf_of_length_le horder, List.filter_eq_self.2]
    · rfl
    · intro row hrow
      rw [List.contains_iff_mem, (pageOrder_perm hdb).mem_iff]
      have hkey := (mem_keys_firstPerKey id [] ((p.matchedRows m db).map (p.rootKey m))).2
        ⟨List.mem_map_of_mem (List.mem_map_of_mem hrow), List.not_mem_nil⟩
      rwa [List.map_id] at hkey

/-- With joins the rows of a page have just the keys that are cut for it. -/
theorem mem_rootKeys_page (hdb : db.Keyed m) (hjoins : p.joins ≠ []) {offset limit : Option Int}
    (hpaged : offset.isSome || limit.isSome) {k : List Cell} :
    k ∈ ((p.page offset limit).resultRows m db).map (p.rootKey m) ↔
      k ∈ pageOf offset limit (p.pageOrder m db) := by
  rw [resultRows_page_of_joins hjoins hpaged, List.mem_map]
  constructor
  · rintro ⟨row, hrow, rfl⟩
    have hmem := (distinctRows_sublist _).subset ((sortRows_perm _).subset hrow)
    exact List.contains_iff_mem.1 (List.mem_filter.1 hmem).2
  · intro hk
    have hmatched := (pageOrder_perm hdb).subset ((pageOf_sublist _ _ _).subset hk)
    have hkey : k ∈ (p.matchedRows m db).map (p.rootKey m) := by
      simpa using (firstPerKey_sublist id [] _).subset hmatched
    obtain ⟨row, hrow, rfl⟩ := List.mem_map.1 hkey
    have hcut : row ∈ (p.matchedRows m db).filter fun row =>
        (pageOf offset limit (p.pageOrder m db)).contains (p.rootKey m row) :=
      List.mem_filter.2 ⟨hrow, List.contains_iff_mem.2 hk⟩
    obtain ⟨row', hrow', hsame⟩ := exists_distinctRows (p := p) hcut
    exact ⟨row', (sortRows_perm _).symm.subset hrow', by rw [rootKey, hsame, rootKey]⟩

/-- The roots of a page have the keys that are cut for it. -/
theorem Scoped.keys_page_perm (hp : p.Scoped) (hdb : db.Keyed m) {offset limit : Option Int}
    (hpaged : offset.isSome || limit.isSome) :
    (((p.page offset limit).roots m db).map (p.rootModel m).key).Perm
      (pageOf offset limit (p.pageOrder m db)) := by
  have hroots : ((p.page offset limit).roots m db).map (p.rootModel m).key =
      (firstPerKey (p.rootKey m) [] ((p.page offset limit).resultRows m db)).map (p.rootKey m) :=
    (hp.page offset limit).map_key_roots
  have horder : (p.pageOrder m db).Nodup := (pageOrder_perm hdb).nodup_iff.2 matchedKeys_nodup
  rw [hroots]
  by_cases hjoins : p.joins = []
  · have hkeys : ((p.page offset limit).resultRows m db).map (p.rootKey m) =
        pageOf offset limit (p.pageOrder m db) := by
      rw [resultRows_page_of_noJoins hjoins, pageOf_map, pageOrder, hjoins]
      rfl
    rw [firstPerKey_eq_self ?_ fun _ _ => List.not_mem_nil, hkeys]
    rw [hkeys]
    exact (pageOf_sublist _ _ _).nodup horder
  · rw [List.perm_ext_iff_of_nodup (nodup_keys_firstPerKey _ _ _) ((pageOf_sublist _ _ _).nodup horder)]
    intro k
    rw [mem_keys_firstPerKey, mem_rootKeys_page hdb hjoins hpaged]
    exact and_iff_left List.not_mem_nil

/-- A page has no more roots than it is limited to. -/
theorem Scoped.length_roots_page_le (hp : p.Scoped) (hdb : db.Keyed m) (offset : Option Int) (n : Int) :
    ((p.page offset (some n)).roots m db).length ≤ n.toNat := by
  have hpaged : offset.isSome || (some n).isSome := Bool.or_true _
  have hlength := (hp.keys_page_perm hdb hpaged).length_eq
  rw [List.length_map] at hlength
  exact hlength.trans_le (List.length_take_le _ _)

/-- A root is on a page if it matches and its key is cut for the page. -/
theorem Scoped.mem_roots_page (hp : p.Scoped) (hdb : db.Keyed m) {offset limit : Option Int}
    (hpaged : offset.isSome || limit.isSome) {r : Record} :
    r ∈ (p.page offset limit).roots m db ↔
      r ∈ p.matching m db ∧ (p.rootModel m).key r ∈ pageOf offset limit (p.pageOrder m db) := by
  have hkeys := hp.keys_page_perm hdb hpaged
  have hmatching : ∀ s ∈ (p.page offset limit).roots m db, s ∈ p.matching m db := by
    intro s hs
    obtain ⟨row, hrow, hroot⟩ := ((hp.page offset limit).mem_roots_iff hdb).1 hs
    obtain ⟨s', hs', hroot'⟩ := (hp.page offset limit).exists_root hrow
    rw [matching_page] at hs'
    exact Option.some.inj (hroot.symm.trans hroot') ▸ hs'
  constructor
  · intro hr
    exact ⟨hmatching r hr, hkeys.subset (List.mem_map_of_mem hr)⟩
  · rintro ⟨hr, hkey⟩
    obtain ⟨s, hs, hsame⟩ := List.mem_map.1 (hkeys.symm.subset hkey)
    obtain rfl := hdb.inj (matching_subset (hmatching s hs)) (matching_subset hr) hsame
    exact hs

end QueryPlan

end EntityQuery

import EntityQuery.Proofs.Store.Order
import EntityQuery.Proofs.Store.Paging

/-! The order of roots. A root has one row of sort cells, an aspect, for each of its combinations. Roots
are listed by their first aspects; pages are cut from the roots ordered by their summaries, which have
the extreme cell of every sort key. Both orders depend on the aspects alone, not on the plan. -/

namespace EntityQuery

variable {ι : Type}

namespace Database

variable {m : Mapping ι} {db : Database ι}

/-- No two records of a table have keys that tie, field by field. -/
def Apart (m : Mapping ι) (db : Database ι) : Prop :=
  ∀ e, (db e).Pairwise fun r s => ∃ field ∈ (m.model e).primaryKey,
    ((m.model e).cell r field).compare ((m.model e).cell s field) ≠ .eq

theorem Apart.keyed (h : db.Apart m) : db.Keyed m := by
  intro e
  refine List.pairwise_map.2 ((h e).imp ?_)
  rintro r s ⟨field, hfield, hne⟩ heq
  apply hne
  rw [List.map_inj_left.1 heq field hfield]
  exact Std.ReflCmp.compare_self

theorem Apart.inj (h : db.Apart m) {e : ι} {r s : Record} (hr : r ∈ db e) (hs : s ∈ db e)
    (htie : ∀ field ∈ (m.model e).primaryKey,
      ((m.model e).cell r field).compare ((m.model e).cell s field) = .eq) : r = s := by
  by_contra hne
  have hsymm : Std.Symm fun r s : Record => ∃ field ∈ (m.model e).primaryKey,
      ((m.model e).cell r field).compare ((m.model e).cell s field) ≠ .eq := by
    constructor
    rintro r s ⟨field, hfield, hdiffer⟩
    exact ⟨field, hfield, fun h => hdiffer (Std.OrientedCmp.eq_symm h)⟩
  obtain ⟨field, hfield, hdiffer⟩ := (h e).forall hr hs hne
  exact hdiffer (htie field hfield)

end Database

/-- The first of each key among sorted elements comes before all elements of the later keys. -/
theorem pairwise_firstPerKey {α κ : Type} [DecidableEq κ] {key : α → κ} {R : α → α → Prop}
    {xs : List α} (h : xs.Pairwise R) (seen : List κ) :
    (firstPerKey key seen xs).Pairwise fun x y => ∀ y' ∈ xs, key y' = key y → R x y' := by
  induction xs generalizing seen with
  | nil => exact .nil
  | cons x xs ih =>
    obtain ⟨hx, hxs⟩ := List.pairwise_cons.1 h
    -- An element that is kept later has a key that is not seen yet.
    have hlater : ∀ seen', ∀ y ∈ firstPerKey key seen' xs, key y ∉ seen' := fun seen' y hy =>
      ((mem_keys_firstPerKey key seen' xs).1 (List.mem_map_of_mem hy)).2
    rw [firstPerKey]
    split
    · next hseen =>
      refine (ih hxs seen).imp_of_mem fun _ hy hle y' hy' hkey => ?_
      rcases List.mem_cons.1 hy' with rfl | hy'
      · exact absurd (hkey ▸ hseen) (hlater _ _ hy)
      · exact hle y' hy' hkey
    · have hother : ∀ y ∈ firstPerKey key (key x :: seen) xs, key x ≠ key y := fun y hy heq =>
        hlater _ y hy (heq ▸ List.mem_cons_self ..)
      refine List.pairwise_cons.2 ⟨fun y hy y' hy' hkey => ?_,
        (ih hxs _).imp_of_mem fun _ hy hle y' hy' hkey => ?_⟩
      · rcases List.mem_cons.1 hy' with rfl | hy'
        · exact absurd hkey (hother y hy)
        · exact hx y' hy'
      · rcases List.mem_cons.1 hy' with rfl | hy'
        · exact absurd hkey (hother _ hy)
        · exact hle y' hy' hkey

/-! ### Orders of roots -/

section Orders

variable (terms : List OrderTerm) (aspects : Record → Set (OrderTerm → Cell))

/-- Some aspect of the one root comes before every aspect of the other. -/
def Leads (r s : Record) : Prop :=
  ∃ f ∈ aspects r, ∀ k ∈ aspects s, (OrderTerm.compareBy terms f k).isLE = true

/-- The cells with which a root counts for pages: its own under sort keys of the root, the extreme ones
of all aspects under any other. -/
def Sums (r : Record) (c : OrderTerm → Cell) : Prop :=
  ∀ t ∈ terms, if t.path = "" then ∀ f ∈ aspects r, f t = c t
    else t.Extreme ((· t) '' aspects r) (c t)

/-- The one root counts before the other. -/
def Precedes (r s : Record) : Prop :=
  ∀ c d, Sums terms aspects r c → Sums terms aspects s d → (OrderTerm.compareBy terms c d).isLE = true

/-- The roots of the one key count before those of the other. -/
def KeysPrecede (m : Mapping ι) (e : ι) (k k' : List Cell) : Prop :=
  ∀ r s, (aspects r).Nonempty → (aspects s).Nonempty → (m.model e).key r = k →
    (m.model e).key s = k' → Precedes terms aspects r s

/-- One aspect of a root comes first under every sort key at once, and is null in an ascending one only
where all aspects are. -/
def Settled (r : Record) : Prop :=
  ∃ f ∈ aspects r, ∀ k ∈ aspects r, ∀ t ∈ terms,
    (t.compare (f t) (k t)).isLE = true ∧ (f t = .null → k t = .null)

variable {terms aspects}

theorem Sums.tie {r : Record} (hr : (aspects r).Nonempty) {c d : OrderTerm → Cell}
    (hc : Sums terms aspects r c) (hd : Sums terms aspects r d) :
    OrderTerm.compareBy terms c d = .eq := by
  rw [OrderTerm.compareBy_eq_iff]
  intro t ht
  have hct := hc t ht
  have hdt := hd t ht
  split at hct
  · next hpath =>
    rw [if_pos hpath] at hdt
    obtain ⟨f, hf⟩ := hr
    rw [← hct f hf, ← hdt f hf]
    exact Std.ReflCmp.compare_self
  · next hpath =>
    rw [if_neg hpath] at hdt
    exact hct.tie hdt

/-- Where the aspects of a root agree on its own cells, an aspect that is first under all sort keys sums
them up. -/
theorem Settled.exists_sums {r : Record} (h : Settled terms aspects r)
    (hroot : ∀ f ∈ aspects r, ∀ k ∈ aspects r, ∀ t ∈ terms, t.path = "" → f t = k t) :
    ∃ f ∈ aspects r, Sums terms aspects r f ∧
      ∀ k ∈ aspects r, (OrderTerm.compareBy terms f k).isLE = true := by
  obtain ⟨f, hf, hfirst⟩ := h
  refine ⟨f, hf, fun t ht => ?_, fun k hk => OrderTerm.compareBy_isLE fun t ht => (hfirst k hk t ht).1⟩
  split
  · next hpath => exact fun k hk => hroot k hk f hf t ht hpath
  · refine ⟨.inr ⟨f, hf, rfl⟩, ?_⟩
    rintro _ ⟨k, hk, rfl⟩ hne
    obtain ⟨hle, hnull⟩ := hfirst k hk t ht
    exact ⟨fun h => hne (hnull h), hle⟩

/-- Settled roots count as they lead. -/
theorem Leads.precedes {r s : Record} (h : Leads terms aspects r s) (hr : Settled terms aspects r)
    (hs : Settled terms aspects s)
    (hroot : ∀ r, ∀ f ∈ aspects r, ∀ k ∈ aspects r, ∀ t ∈ terms, t.path = "" → f t = k t) :
    Precedes terms aspects r s := by
  intro c d hc hd
  obtain ⟨f, hf, hleads⟩ := h
  obtain ⟨f', hf', hsums, hfirst⟩ := hr.exists_sums (hroot r)
  obtain ⟨k, hk, hsums', -⟩ := hs.exists_sums (hroot s)
  have hcf := hc.tie ⟨f', hf'⟩ hsums
  have hkd := hsums'.tie ⟨k, hk⟩ hd
  rw [Std.TransCmp.congr_left hcf, ← Std.TransCmp.congr_right hkd]
  exact Std.TransCmp.isLE_trans (hfirst f hf) (hleads k hk)

end Orders

namespace QueryPlan

variable {m : Mapping ι} {db : Database ι} {e : ι}

/-- A sort key under the alias of its path. -/
def place (p : QueryPlan ι) (t : OrderTerm) : OrderTerm :=
  { t with aliasName := (p.scope.aliasFor t.path).toOption.getD p.rootAlias }

/-- The sort cells of a row. -/
def aspect (m : Mapping ι) (p : QueryPlan ι) (row : JoinedRow) (t : OrderTerm) : Cell :=
  p.termCell m (p.place t) row

/-- The sort cells with which the rows of a root count. -/
def summary (m : Mapping ι) (p : QueryPlan ι) (rows : List JoinedRow) (t : OrderTerm) : Cell :=
  if t.path.isEmpty then (rows.map (p.termCell m t)).headD .null
  else t.extreme (rows.map (p.termCell m t))

/-- The matched rows of the root under a key. -/
def rowsOf (m : Mapping ι) (db : Database ι) (p : QueryPlan ι) (k : List Cell) : List JoinedRow :=
  (p.matchedRows m db).filter fun row => p.rootKey m row = k

/-- A plan whose matched rows have, root by root, the given aspects. -/
structure Renders (m : Mapping ι) (db : Database ι) (e : ι) (terms : List OrderTerm)
    (aspects : Record → Set (OrderTerm → Cell)) (p : QueryPlan ι) : Prop where
  entity : p.entity = e
  scope : p.Scoped
  distinct : p.distinct = false
  order : p.order = terms.map p.place
  rootOnly : p.joins = [] → ∀ t ∈ terms, t.path = ""
  sound : ∀ row ∈ p.matchedRows m db, ∀ r, row.record? p.rootAlias = some r →
    ∃ f ∈ aspects r, ∀ t ∈ terms, f t = p.aspect m row t
  complete : ∀ r, ∀ f ∈ aspects r, ∃ row ∈ p.matchedRows m db,
    row.record? p.rootAlias = some r ∧ ∀ t ∈ terms, f t = p.aspect m row t

variable {terms : List OrderTerm} {aspects : Record → Set (OrderTerm → Cell)} {p : QueryPlan ι}

theorem place_root {t : OrderTerm} (h : t.path = "") : (p.place t).aliasName = p.rootAlias := by
  rw [place, h]
  rfl

theorem compareBy_congr {f f' k k' : OrderTerm → Cell} (hf : ∀ t ∈ terms, f t = f' t)
    (hk : ∀ t ∈ terms, k t = k' t) :
    OrderTerm.compareBy terms f k = OrderTerm.compareBy terms f' k' := by
  rw [OrderTerm.compareBy, OrderTerm.compareBy, List.map_congr_left hf, List.map_congr_left hk]

namespace Renders

theorem page (hp : p.Renders m db e terms aspects) (offset limit : Option Int) :
    (p.page offset limit).Renders m db e terms aspects :=
  ⟨hp.entity, hp.scope.page _ _, hp.distinct, hp.order, hp.rootOnly, hp.sound, hp.complete⟩

theorem rootModel_eq (hp : p.Renders m db e terms aspects) : p.rootModel m = m.model e := by
  rw [rootModel, hp.entity]

theorem distinctRows_eq (hp : p.Renders m db e terms aspects) (rows : List JoinedRow) :
    p.distinctRows rows = rows := by
  rw [distinctRows, hp.distinct]
  rfl

/-- The roots that match are those with aspects. -/
theorem mem_matching_iff (hp : p.Renders m db e terms aspects) {r : Record} :
    r ∈ p.matching m db ↔ (aspects r).Nonempty := by
  rw [hp.scope.mem_matching_iff]
  constructor
  · rintro ⟨row, hrow, hroot⟩
    obtain ⟨f, hf, -⟩ := hp.sound row hrow r hroot
    exact ⟨f, hf⟩
  · rintro ⟨f, hf⟩
    obtain ⟨row, hrow, hroot, -⟩ := hp.complete r f hf
    exact ⟨row, hrow, hroot⟩

theorem mem_table (hp : p.Renders m db e terms aspects) {r : Record} (h : (aspects r).Nonempty) :
    r ∈ db e :=
  hp.entity ▸ matching_subset (hp.mem_matching_iff.2 h)

/-- Under a sort key of the root, an aspect has the cell of the root. -/
theorem aspect_root (hp : p.Renders m db e terms aspects) {r : Record} {f : OrderTerm → Cell}
    (hf : f ∈ aspects r) {t : OrderTerm} (ht : t ∈ terms) (hpath : t.path = "") :
    f t = (m.model e).cell r t.field := by
  obtain ⟨row, -, hroot, hcells⟩ := hp.complete r f hf
  rw [hcells t ht, aspect, termCell, place_root hpath, hroot, entityOf, if_pos rfl, hp.entity]
  rfl

theorem aspects_agree (hp : p.Renders m db e terms aspects) (r : Record) :
    ∀ f ∈ aspects r, ∀ k ∈ aspects r, ∀ t ∈ terms, t.path = "" → f t = k t := by
  intro f hf k hk t ht hpath
  rw [hp.aspect_root hf ht hpath, hp.aspect_root hk ht hpath]

/-! ### Order of the listed roots -/

theorem compareAll_order (hp : p.Renders m db e terms aspects) (f k : OrderTerm → Cell) :
    OrderTerm.compareAll p.order (p.order.map f) (p.order.map k) =
      OrderTerm.compareBy terms (f ∘ p.place) (k ∘ p.place) := by
  have hplace : ∀ t, (p.place t).descending = t.descending := fun _ => rfl
  rw [hp.order]
  exact OrderTerm.compareAll_map hplace terms f k

theorem sortRows_pairwise (hp : p.Renders m db e terms aspects) (rows : List JoinedRow) :
    (p.sortRows m rows).Pairwise fun row row' =>
      (OrderTerm.compareBy terms (p.aspect m row) (p.aspect m row')).isLE = true := by
  have h := pairwise_sortByTerms p.order (fun row t => p.termCell m t row) rows
  refine h.imp fun hle => ?_
  rw [OrderTerm.compareBy, hp.compareAll_order] at hle
  exact hle

theorem resultRows_pairwise (hp : p.Renders m db e terms aspects) :
    (p.resultRows m db).Pairwise fun row row' =>
      (OrderTerm.compareBy terms (p.aspect m row) (p.aspect m row')).isLE = true := by
  rw [resultRows]
  split
  · exact hp.sortRows_pairwise _
  · exact (hp.sortRows_pairwise _).sublist (pageOf_sublist _ _ _)

/-- With a row the result has all matched rows of its root. -/
theorem mem_resultRows (hp : p.Renders m db e terms aspects) (hdb : db.Keyed m) {row row' : JoinedRow}
    (hrow : row ∈ p.resultRows m db) (hrow' : row' ∈ p.matchedRows m db)
    (hkey : p.rootKey m row' = p.rootKey m row) : row' ∈ p.resultRows m db := by
  have hmatched := resultRows_subset hrow
  rw [resultRows] at hrow ⊢
  split at hrow
  · next hcut =>
    rw [if_pos hcut]
    dsimp only at hrow ⊢
    rw [hp.distinctRows_eq] at hrow ⊢
    have hmem := (List.mem_filter.1 ((sortRows_perm _).subset hrow)).2
    exact (sortRows_perm _).symm.subset (List.mem_filter.2 ⟨hrow', by rw [hkey]; exact hmem⟩)
  · next hcut =>
    rw [if_neg hcut]
    by_cases hjoins : p.joins = []
    · have hsame := List.inj_on_of_nodup_map (nodup_rootKeys_of_noJoins hdb hjoins) hrow' hmatched hkey
      exact hsame ▸ hrow
    · have hpage : p.isPaged = false := by
        rw [List.isEmpty_eq_false_iff.2 hjoins] at hcut
        simpa using hcut
      simp only [isPaged, Bool.or_eq_false_iff, Option.isSome_eq_false_iff, Option.isNone_iff_eq_none]
        at hpage
      rw [hpage.1, hpage.2, hp.distinctRows_eq]
      exact (sortRows_perm _).symm.subset hrow'

/-- Roots are listed by their first aspects. -/
theorem roots_pairwise (hp : p.Renders m db e terms aspects) (hdb : db.Keyed m) :
    (p.roots m db).Pairwise (Leads terms aspects) := by
  rw [roots, List.pairwise_filterMap]
  refine (pairwise_firstPerKey hp.resultRows_pairwise []).imp_of_mem ?_
  intro row row' hrow hrow' hle r hr s hs
  have hrow := (firstPerKey_sublist _ _ _).subset hrow
  have hrow' := (firstPerKey_sublist _ _ _).subset hrow'
  obtain ⟨f, hf, hcells⟩ := hp.sound row (resultRows_subset hrow) r hr
  refine ⟨f, hf, fun k hk => ?_⟩
  obtain ⟨row'', hrow'', hs', hcells'⟩ := hp.complete s k hk
  have hkey : p.rootKey m row'' = p.rootKey m row' := by
    rw [rootKey_of_record? hs', rootKey_of_record? hs]
  rw [compareBy_congr hcells hcells']
  exact hle row'' (hp.mem_resultRows hdb hrow' hrow'' hkey) hkey

/-! ### Order of the keys that pages are cut from -/

theorem mem_rowsOf (hp : p.Renders m db e terms aspects) (hdb : db.Keyed m) {r : Record}
    (hr : (aspects r).Nonempty) {row : JoinedRow} :
    row ∈ rowsOf m db p ((p.rootModel m).key r) ↔
      row ∈ p.matchedRows m db ∧ row.record? p.rootAlias = some r := by
  rw [rowsOf, List.mem_filter, decide_eq_true_eq]
  refine and_congr_right fun hrow => ?_
  obtain ⟨s, hs, hroot⟩ := hp.scope.exists_matching hrow
  rw [rootKey_of_record? hroot, hroot, Option.some.injEq]
  constructor
  · exact hdb.inj (matching_subset hs) (matching_subset (hp.mem_matching_iff.2 hr))
  · rintro rfl
    rfl

/-- The cells of the rows of a root under a sort key are those of its aspects. -/
theorem cells_rowsOf (hp : p.Renders m db e terms aspects) (hdb : db.Keyed m) {r : Record}
    (hr : (aspects r).Nonempty) {t : OrderTerm} (ht : t ∈ terms) :
    {c | c ∈ (rowsOf m db p ((p.rootModel m).key r)).map (p.termCell m (p.place t))} =
      (· t) '' aspects r := by
  ext c
  rw [Set.mem_ofPred_eq, List.mem_map, Set.mem_image]
  constructor
  · rintro ⟨row, hrow, rfl⟩
    obtain ⟨hmatched, hroot⟩ := (hp.mem_rowsOf hdb hr).1 hrow
    obtain ⟨f, hf, hcells⟩ := hp.sound row hmatched r hroot
    exact ⟨f, hf, hcells t ht⟩
  · rintro ⟨f, hf, rfl⟩
    obtain ⟨row, hrow, hroot, hcells⟩ := hp.complete r f hf
    exact ⟨row, (hp.mem_rowsOf hdb hr).2 ⟨hrow, hroot⟩, (hcells t ht).symm⟩

theorem sums_summary (hp : p.Renders m db e terms aspects) (hdb : db.Keyed m) {r : Record}
    (hr : (aspects r).Nonempty) :
    Sums terms aspects r (summary m p (rowsOf m db p ((p.rootModel m).key r)) ∘ p.place) := by
  intro t ht
  have hcells := hp.cells_rowsOf hdb hr ht
  have hpath : (p.place t).path = t.path := rfl
  split
  · next hempty =>
    intro f hf
    rw [Function.comp_apply, summary, hpath, hempty, if_pos (by rfl)]
    cases hlist : (rowsOf m db p ((p.rootModel m).key r)).map (p.termCell m (p.place t)) with
    | nil =>
      have hmem : f t ∈ (· t) '' aspects r := ⟨f, hf, rfl⟩
      rw [← hcells, hlist] at hmem
      simp at hmem
    | cons c cs =>
      have hmem : c ∈ (· t) '' aspects r := by
        rw [← hcells, hlist]
        exact List.mem_cons_self ..
      obtain ⟨k, hk, rfl⟩ := hmem
      exact hp.aspects_agree r f hf k hk t ht hempty
  · next hne =>
    have hne' : t.path.isEmpty = false := by simpa using hne
    rw [Function.comp_apply, summary, hpath, hne', if_neg (by simp), ← hcells]
    have hextreme := OrderTerm.extreme_spec (p.place t)
      ((rowsOf m db p ((p.rootModel m).key r)).map (p.termCell m (p.place t)))
    exact ⟨hextreme.mem, hextreme.first⟩

/-- Pages are cut from the keys in the order of the summaries of their roots. -/
theorem pageOrder_pairwise (hp : p.Renders m db e terms aspects) (hdb : db.Keyed m) :
    (p.pageOrder m db).Pairwise (KeysPrecede terms aspects m e) := by
  unfold KeysPrecede
  rw [← hp.rootModel_eq, pageOrder]
  split
  · next hempty =>
    have hjoins : p.joins = [] := List.isEmpty_iff.1 hempty
    rw [hp.distinctRows_eq, List.pairwise_map]
    refine (hp.sortRows_pairwise _).imp_of_mem ?_
    rintro row row' hrow hrow' hle r s hr hs hkey hkey' c d hc hd
    have hrow := (sortRows_perm _).subset hrow
    have hrow' := (sortRows_perm _).subset hrow'
    -- The one row of a root has the cells of the root, which sum it up.
    have hcells : ∀ {r : Record} {c : OrderTerm → Cell} {row : JoinedRow}, (aspects r).Nonempty →
        Sums terms aspects r c → row ∈ p.matchedRows m db →
        (p.rootModel m).key r = p.rootKey m row → ∀ t ∈ terms, c t = p.aspect m row t := by
      intro r c row hr hc hrow hkey t ht
      have hmem : row ∈ rowsOf m db p ((p.rootModel m).key r) := by
        rw [hkey, rowsOf, List.mem_filter, decide_eq_true_eq]
        exact ⟨hrow, rfl⟩
      obtain ⟨f, hf, hfcells⟩ := hp.sound row hrow r ((hp.mem_rowsOf hdb hr).1 hmem).2
      have hct := hc t ht
      rw [if_pos (hp.rootOnly hjoins t ht)] at hct
      rw [← hct f hf, hfcells t ht]
    rw [compareBy_congr (hcells hr hc hrow hkey) (hcells hs hd hrow' hkey')]
    exact hle
  · have hsorted := pairwise_sortByTerms p.order (fun k => summary m p (rowsOf m db p k))
      (sortKeys (p.matchedKeys m db))
    refine List.Pairwise.imp ?_ hsorted
    rintro _ _ hle r s hr hs rfl rfl c d hc hd
    rw [OrderTerm.compareBy, hp.compareAll_order] at hle
    have hc' := hc.tie hr (hp.sums_summary hdb hr)
    have hd' := hd.tie hs (hp.sums_summary hdb hs)
    rw [Std.TransCmp.congr_left hc', Std.TransCmp.congr_right hd']
    exact hle

theorem mem_matchedKeys_iff (hp : p.Renders m db e terms aspects) {k : List Cell} :
    k ∈ p.matchedKeys m db ↔ ∃ r, (aspects r).Nonempty ∧ (m.model e).key r = k := by
  rw [hp.scope.mem_matchedKeys_iff, hp.rootModel_eq]
  simp only [hp.mem_matching_iff]

/-- A root is in the result if it matches and its key is on the page. -/
theorem mem_roots_iff (hp : p.Renders m db e terms aspects) (hdb : db.Keyed m) {r : Record} :
    r ∈ p.roots m db ↔ (aspects r).Nonempty ∧
      (m.model e).key r ∈ pageOf p.offset p.limit (p.pageOrder m db) := by
  have hpage : p.page p.offset p.limit = p := rfl
  rw [← hp.mem_matching_iff, ← hp.rootModel_eq]
  by_cases hpaged : p.offset.isSome || p.limit.isSome
  · have hroots := hp.scope.mem_roots_page hdb hpaged (r := r)
    rwa [hpage] at hroots
  · simp only [Bool.or_eq_true, not_or, Option.not_isSome_iff_eq_none] at hpaged
    rw [hp.scope.mem_roots_of_unpaged hdb hpaged.1 hpaged.2, hpaged.1, hpaged.2]
    refine (and_iff_left_of_imp fun hr => ?_).symm
    exact (pageOrder_perm hdb).symm.subset (hp.scope.mem_matchedKeys_iff.2 ⟨r, hr, rfl⟩)

end Renders

/-! ### Orders without ties -/

/-- Sort keys that hold every field of the primary key of the root. -/
def CoversKey (m : Mapping ι) (e : ι) (terms : List OrderTerm) : Prop :=
  ∀ field ∈ (m.model e).primaryKey, ∃ t ∈ terms, t.path = "" ∧ t.field = field

namespace Renders

/-- Roots whose cells tie under sort keys that hold the primary key are one. -/
theorem eq_of_tie (hp : p.Renders m db e terms aspects) (hdb : db.Apart m)
    (hkey : CoversKey m e terms) {r s : Record} (hr : (aspects r).Nonempty) (hs : (aspects s).Nonempty)
    {c d : OrderTerm → Cell} (hc : ∀ t ∈ terms, t.path = "" → ∀ f ∈ aspects r, f t = c t)
    (hd : ∀ t ∈ terms, t.path = "" → ∀ f ∈ aspects s, f t = d t)
    (h : OrderTerm.compareBy terms c d = .eq) : r = s := by
  refine hdb.inj (hp.mem_table hr) (hp.mem_table hs) fun field hfield => ?_
  obtain ⟨t, ht, hpath, rfl⟩ := hkey field hfield
  obtain ⟨f, hf⟩ := hr
  obtain ⟨k, hk⟩ := hs
  have htie := OrderTerm.compareBy_eq_iff.1 h t ht
  rw [← hc t ht hpath f hf, ← hd t ht hpath k hk, hp.aspect_root hf ht hpath,
    hp.aspect_root hk ht hpath] at htie
  exact OrderTerm.compare_eq_iff.1 htie

theorem leads_antisymm (hp : p.Renders m db e terms aspects) (hdb : db.Apart m)
    (hkey : CoversKey m e terms) {r s : Record} (h : Leads terms aspects r s)
    (h' : Leads terms aspects s r) : r = s := by
  obtain ⟨f, hf, hle⟩ := h
  obtain ⟨k, hk, hle'⟩ := h'
  exact hp.eq_of_tie hdb hkey ⟨f, hf⟩ ⟨k, hk⟩
    (fun t ht hpath f' hf' => hp.aspects_agree r f' hf' f hf t ht hpath)
    (fun t ht hpath k' hk' => hp.aspects_agree s k' hk' k hk t ht hpath)
    (Std.OrientedCmp.isLE_antisymm (hle k hk) (hle' f hf))

theorem precedes_antisymm (hp : p.Renders m db e terms aspects) (hdb : db.Apart m)
    (hkey : CoversKey m e terms) {r s : Record} (hr : (aspects r).Nonempty) (hs : (aspects s).Nonempty)
    (h : Precedes terms aspects r s) (h' : Precedes terms aspects s r) : r = s := by
  have hc := hp.sums_summary hdb.keyed hr
  have hd := hp.sums_summary hdb.keyed hs
  have hown : ∀ {r : Record} {c : OrderTerm → Cell}, Sums terms aspects r c →
      ∀ t ∈ terms, t.path = "" → ∀ f ∈ aspects r, f t = c t := by
    intro r c hc t ht hpath
    have hct := hc t ht
    rwa [if_pos hpath] at hct
  exact hp.eq_of_tie hdb hkey hr hs (hown hc) (hown hd)
    (Std.OrientedCmp.isLE_antisymm (h _ _ hc hd) (h' _ _ hd hc))

/-- Keys in the order of their roots come in one order only. -/
theorem keys_eq (hp : p.Renders m db e terms aspects) (hdb : db.Apart m)
    (hkey : CoversKey m e terms) {ks ks' : List (List Cell)}
    (hks : ∀ k ∈ ks, ∃ r, (aspects r).Nonempty ∧ (m.model e).key r = k)
    (hsorted : ks.Pairwise (KeysPrecede terms aspects m e))
    (hsorted' : ks'.Pairwise (KeysPrecede terms aspects m e)) (hperm : ks.Perm ks') : ks = ks' := by
  refine hperm.eq_of_pairwise (fun k k' hk hk' hle hle' => ?_) hsorted hsorted'
  obtain ⟨r, hr, rfl⟩ := hks k hk
  obtain ⟨s, hs, rfl⟩ := hks k' (hperm.symm.subset hk')
  have hsame := hp.precedes_antisymm hdb hkey hr hs (hle r s hr hs rfl rfl) (hle' s r hs hr rfl rfl)
  rw [hsame]

theorem roots_eq (hp : p.Renders m db e terms aspects) (hdb : db.Apart m)
    (hkey : CoversKey m e terms) {rs : List Record} (hrs : rs.Nodup)
    (hsorted : rs.Pairwise (Leads terms aspects)) (hmem : ∀ r, r ∈ p.roots m db ↔ r ∈ rs) :
    p.roots m db = rs := by
  have hperm := (List.perm_ext_iff_of_nodup hp.scope.roots_nodup hrs).2 hmem
  exact hperm.eq_of_pairwise (fun _ _ _ _ => hp.leads_antisymm hdb hkey)
    (hp.roots_pairwise hdb.keyed) hsorted

variable {db' : Database ι} {p' : QueryPlan ι}

/-- Plans that show the same aspects cut their pages from the same list, also on two databases. -/
theorem pageOrder_eq (hp : p.Renders m db e terms aspects) (hp' : p'.Renders m db' e terms aspects)
    (hdb : db.Apart m) (hdb' : db'.Apart m) (hkey : CoversKey m e terms) :
    p.pageOrder m db = p'.pageOrder m db' := by
  have hperm := p.pageOrder_perm hdb.keyed
  have hperm' := p'.pageOrder_perm hdb'.keyed
  have hmatched : (p.matchedKeys m db).Perm (p'.matchedKeys m db') := by
    rw [List.perm_ext_iff_of_nodup matchedKeys_nodup matchedKeys_nodup]
    intro k
    rw [hp.mem_matchedKeys_iff, hp'.mem_matchedKeys_iff]
  refine hp.keys_eq hdb hkey (fun k hk => hp.mem_matchedKeys_iff.1 (hperm.subset hk))
    (hp.pageOrder_pairwise hdb.keyed) (hp'.pageOrder_pairwise hdb'.keyed) ?_
  exact (hperm.trans hmatched).trans hperm'.symm

/-- Plans that show the same aspects list the same roots on the same page, also on two databases. -/
theorem roots_eq_roots (hp : p.Renders m db e terms aspects) (hp' : p'.Renders m db' e terms aspects)
    (hdb : db.Apart m) (hdb' : db'.Apart m) (hkey : CoversKey m e terms)
    (hoffset : p.offset = p'.offset) (hlimit : p.limit = p'.limit) :
    p.roots m db = p'.roots m db' := by
  refine hp.roots_eq hdb hkey hp'.scope.roots_nodup (hp'.roots_pairwise hdb'.keyed) fun r => ?_
  rw [hp.mem_roots_iff hdb.keyed, hp'.mem_roots_iff hdb'.keyed, hp.pageOrder_eq hp' hdb hdb' hkey,
    hoffset, hlimit]

/-- A root whose aspects differ in one sort key at most is settled, unless the key is ascending and mixes
null with other cells. -/
theorem settled_of_oneKey (hp : p.Renders m db e terms aspects) (hdb : db.Keyed m) {r : Record}
    (hr : (aspects r).Nonempty) {t₀ : OrderTerm}
    (hother : ∀ f ∈ aspects r, ∀ k ∈ aspects r, ∀ t ∈ terms, t ≠ t₀ → f t = k t)
    (hnull : t₀.descending = false → ∀ f ∈ aspects r, ∀ k ∈ aspects r, f t₀ = .null → k t₀ = .null) :
    Settled terms aspects r := by
  -- It is enough to find an aspect that is first under the one key.
  suffices h : ∃ f ∈ aspects r, t₀ ∈ terms → ∀ k ∈ aspects r,
      (t₀.compare (f t₀) (k t₀)).isLE = true ∧ (f t₀ = .null → k t₀ = .null) by
    obtain ⟨f, hf, hfirst⟩ := h
    refine ⟨f, hf, fun k hk t ht => ?_⟩
    by_cases hone : t = t₀
    · subst hone
      exact hfirst ht k hk
    · rw [hother f hf k hk t ht hone]
      exact ⟨t.isLE_compare_self _, id⟩
  by_cases ht₀ : t₀ ∈ terms
  · have hextreme := OrderTerm.extreme_spec (p.place t₀)
      ((rowsOf m db p ((p.rootModel m).key r)).map (p.termCell m (p.place t₀)))
    rw [hp.cells_rowsOf hdb hr ht₀] at hextreme
    generalize (p.place t₀).extreme _ = c at hextreme
    by_cases hc : c = .null
    · have hall : ∀ k ∈ aspects r, k t₀ = .null := fun k hk => by
        by_contra hne
        exact (hextreme.first (k t₀) ⟨k, hk, rfl⟩ hne).1 hc
      obtain ⟨f, hf⟩ := hr
      refine ⟨f, hf, fun _ k hk => ?_⟩
      rw [hall f hf, hall k hk]
      exact ⟨t₀.isLE_compare_self _, id⟩
    · obtain ⟨f, hf, rfl⟩ := hextreme.mem.resolve_left hc
      refine ⟨f, hf, fun _ k hk => ⟨?_, fun h => absurd h hc⟩⟩
      by_cases hk' : k t₀ = .null
      · cases hdescending : t₀.descending with
        | false => exact absurd (hnull hdescending k hk f hf hk') hc
        | true =>
          rw [OrderTerm.compare, hdescending, hk']
          exact Cell.isLE_null _
      · exact (hextreme.first (k t₀) ⟨k, hk, rfl⟩ hk').2
  · obtain ⟨f, hf⟩ := hr
    exact ⟨f, hf, fun h => absurd h ht₀⟩

section Unpaged

variable (hp : p.Renders m db e terms aspects) (hdb : db.Apart m) (hkey : CoversKey m e terms)
variable (hoffset : p.offset = none) (hlimit : p.limit = none)

include hp hdb hoffset hlimit in
theorem mem_roots_of_unpaged (r : Record) : r ∈ p.roots m db ↔ (aspects r).Nonempty := by
  rw [hp.scope.mem_roots_of_unpaged hdb.keyed hoffset hlimit, hp.mem_matching_iff]

include hp hdb hoffset hlimit in
theorem keys_roots_perm : ((p.roots m db).map (m.model e).key).Perm (p.pageOrder m db) := by
  have hnodup : ((p.roots m db).map (m.model e).key).Nodup := by
    rw [← hp.rootModel_eq, hp.scope.map_key_roots]
    exact nodup_keys_firstPerKey _ _ _
  refine List.Perm.trans ?_ (p.pageOrder_perm hdb.keyed).symm
  rw [List.perm_ext_iff_of_nodup hnodup matchedKeys_nodup]
  intro k
  rw [hp.mem_matchedKeys_iff, List.mem_map]
  simp only [hp.mem_roots_of_unpaged hdb hoffset hlimit]

include hp hdb in
theorem eq_of_key {r s : Record} (hr : (aspects r).Nonempty) (hs : (aspects s).Nonempty)
    (h : (m.model e).key r = (m.model e).key s) : r = s :=
  hdb.keyed.inj (hp.mem_table hr) (hp.mem_table hs) h

include hp hdb hkey hoffset hlimit in
/-- Where the roots are listed in the order in which they count, pages are cut from the listing. -/
theorem roots_page (hsorted : (p.roots m db).Pairwise (Precedes terms aspects))
    (offset limit : Option Int) :
    (p.page offset limit).roots m db = pageOf offset limit (p.roots m db) := by
  have hmem := hp.mem_roots_of_unpaged hdb hoffset hlimit
  have hperm := hp.keys_roots_perm hdb hoffset hlimit
  have hkeys : (p.roots m db).map (m.model e).key = p.pageOrder m db := by
    refine hp.keys_eq hdb hkey (fun k hk => ?_) (List.pairwise_map.2 (hsorted.imp_of_mem ?_))
      (hp.pageOrder_pairwise hdb.keyed) hperm
    · obtain ⟨r, hr, rfl⟩ := List.mem_map.1 hk
      exact ⟨r, (hmem r).1 hr, rfl⟩
    · intro r s hr hs hprecedes r' s' hr' hs' hkey hkey'
      rw [hp.eq_of_key hdb hr' ((hmem r).1 hr) hkey, hp.eq_of_key hdb hs' ((hmem s).1 hs) hkey']
      exact hprecedes
  have hsublist := pageOf_sublist offset limit (p.roots m db)
  refine (hp.page offset limit).roots_eq hdb hkey (hp.scope.roots_nodup.sublist hsublist)
    ((hp.roots_pairwise hdb.keyed).sublist hsublist) fun r => ?_
  have horder : (p.page offset limit).pageOrder m db = p.pageOrder m db := rfl
  rw [(hp.page offset limit).mem_roots_iff hdb.keyed, horder, ← hkeys]
  change (aspects r).Nonempty ∧ _ ∈ pageOf offset limit _ ↔ _
  rw [← pageOf_map, List.mem_map]
  constructor
  · rintro ⟨hr, s, hs, hsame⟩
    exact hp.eq_of_key hdb ((hmem s).1 (hsublist.subset hs)) hr hsame ▸ hs
  · exact fun hr => ⟨(hmem r).1 (hsublist.subset hr), r, hr, rfl⟩

include hp hdb hoffset hlimit in
/-- Where pages of one root are cut from the listing, it is in the order in which the roots count. -/
theorem precedes_of_roots_page (hpages : ∀ n : Nat, (p.page (some n) (some 1)).roots m db =
      pageOf (some (n : Int)) (some 1) (p.roots m db)) :
    (p.roots m db).Pairwise (Precedes terms aspects) := by
  have hmem := hp.mem_roots_of_unpaged hdb hoffset hlimit
  have hperm := hp.keys_roots_perm hdb hoffset hlimit
  have hkeys : (p.roots m db).map (m.model e).key = p.pageOrder m db := by
    refine List.ext_getElem hperm.length_eq fun n hn hn' => ?_
    obtain ⟨r, hr, hrkey⟩ := hp.mem_matchedKeys_iff.1
      ((p.pageOrder_perm hdb.keyed).subset (List.getElem_mem hn'))
    -- The page at `n` holds the root of the one key there, and it is the one root there.
    have hpage : r ∈ (p.page (some n) (some 1)).roots m db := by
      rw [(hp.page _ _).mem_roots_iff hdb.keyed]
      exact ⟨hr, mem_pageOf_one.2 (hrkey ▸ List.getElem?_eq_getElem hn')⟩
    rw [hpages, mem_pageOf_one] at hpage
    obtain ⟨hlt, hroot⟩ := List.getElem?_eq_some_iff.1 hpage
    rw [List.getElem_map, hroot, hrkey]
  have hsorted := hp.pageOrder_pairwise hdb.keyed
  rw [← hkeys, List.pairwise_map] at hsorted
  exact hsorted.imp_of_mem fun hr hs hprecede =>
    hprecede _ _ ((hmem _).1 hr) ((hmem _).1 hs) rfl rfl

end Unpaged

/-- Settled roots are listed in the order in which they count. -/
theorem precedes_of_settled (hp : p.Renders m db e terms aspects) (hdb : db.Apart m)
    (hoffset : p.offset = none) (hlimit : p.limit = none)
    (hsettled : ∀ r, (aspects r).Nonempty → Settled terms aspects r) :
    (p.roots m db).Pairwise (Precedes terms aspects) := by
  have hmem := hp.mem_roots_of_unpaged hdb hoffset hlimit
  exact (hp.roots_pairwise hdb.keyed).imp_of_mem fun hr hs hleads =>
    hleads.precedes (hsettled _ ((hmem _).1 hr)) (hsettled _ ((hmem _).1 hs)) hp.aspects_agree

end Renders

end QueryPlan

end EntityQuery

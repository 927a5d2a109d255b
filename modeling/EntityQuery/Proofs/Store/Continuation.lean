import EntityQuery.Proofs.Join.Walk
import EntityQuery.Proofs.Store.Relatives

/-! Matched rows that exist because others do. Where a filter compares no column of a loaded entity, nor of
one that is reached through a loaded one, the record that a loaded join finds can be exchanged for any
other that it may find: what follows from it is joined anew, and the filter does not see the difference.
So the rows of a root hold all the records below it, and every branch is closed under them. -/

namespace EntityQuery

variable {ι : Type}

namespace QueryPlan

/-- No part of a path is loaded. -/
def Spared (p : QueryPlan ι) (path : String) : Prop :=
  ∀ j ∈ p.joins, j.path ∈ JoinTree.leads (Path.segments path) → j.selected = false

/-- Predicates that compare no column of a loaded entity below the root, nor of an entity that is reached
through a loaded one. -/
def Spares (p : QueryPlan ι) (predicates : List Predicate) : Prop :=
  ∀ c ∈ Predicate.columnsByPath predicates, p.Spared c.aliasName

instance (p : QueryPlan ι) (path : String) : Decidable (p.Spared path) :=
  inferInstanceAs (Decidable (∀ j ∈ p.joins,
    j.path ∈ JoinTree.leads (Path.segments path) → j.selected = false))

instance (p : QueryPlan ι) (predicates : List Predicate) : Decidable (p.Spares predicates) :=
  inferInstanceAs (Decidable (∀ c ∈ Predicate.columnsByPath predicates, p.Spared c.aliasName))

/-- The alias of the root or of a path that is spared. -/
def Aside (p : QueryPlan ι) (a : String) : Prop :=
  a = p.rootAlias ∨ ∃ j ∈ p.joins, j.aliasName = a ∧ p.Spared j.path

/-- A record found for one join more changes nothing for the joins before it. -/
theorem Scoped.leftJoins_concat {m : Mapping ι} {db : Database ι} {p : QueryPlan ι} (hp : p.Scoped)
    {before after : Joins ι} {k : Join ι} (hjoins : p.joins = before ++ k :: after)
    {records : String → Option Record} {found : Option Record}
    (hbefore : ∀ j ∈ before, p.LeftJoins m db j (records j.parent) (records j.aliasName))
    (hfound : p.LeftJoins m db k (records k.parent) found) :
    (∀ a ∈ p.rootAlias :: before.map (·.aliasName),
      Function.update records k.aliasName found a = records a) ∧
    ∀ j ∈ before ++ [k], p.LeftJoins m db j (Function.update records k.aliasName found j.parent)
      (Function.update records k.aliasName found j.aliasName) := by
  have hnames : (p.rootAlias :: p.joins.map (·.aliasName)).Nodup := hp.names
  rw [hjoins, List.map_append, List.map_cons, ← List.cons_append] at hnames
  have hfresh : ∀ a ∈ p.rootAlias :: before.map (·.aliasName), a ≠ k.aliasName :=
    fun a ha => (List.nodup_append.1 hnames).2.2 a ha k.aliasName List.mem_cons_self
  have hparents : ∀ j ∈ before, j.parent ∈ p.rootAlias :: before.map (·.aliasName) := by
    refine fun j hj => parent_mem_names (fun first j rest hfirst => ?_) hj
    refine hp.parents first j (rest ++ k :: after) ?_
    rw [hjoins, hfirst, List.append_assoc, List.cons_append]
  refine ⟨fun a ha => Function.update_of_ne (hfresh a ha) _ _, fun j hj => ?_⟩
  rcases List.mem_append.1 hj with hj | hj
  · exact (leftJoins_update (hfresh _ (hparents j hj))
      (hfresh _ (List.mem_cons_of_mem _ (List.mem_map_of_mem hj)))).2 (hbefore j hj)
  · obtain rfl := List.mem_singleton.1 hj
    rw [Function.update_of_ne (hfresh _ (hp.parents before j after hjoins)), Function.update_self]
    exact hfound

namespace WellFormed

variable {m : Mapping ι} {db : Database ι} {g : EntityGraph ι} {e : ι} {quote : String → String}
variable {predicates : List Predicate} {p : QueryPlan ι} {registered : ι → Bool}

/-! ### Rows continued -/

theorem segments_path {j : Join ι} {segs : List String} {s : String} (hstep : Step g e p j segs s) :
    Path.segments j.path = segs ++ [s] := by
  rw [hstep.path, Path.segments_ofSegments (by simp) fun x hx => (hstep.segments x hx).2]

theorem aside_parent (hp : p.WellFormed g e quote predicates) (hg : g.DotFree) {j : Join ι}
    (hj : j ∈ p.joins) (h : p.Spared j.path) : p.Aside j.parent := by
  obtain ⟨segs, s, hstep⟩ := hp.exists_step hg hj
  rcases hstep.parent with ⟨-, hroot⟩ | ⟨hne, k, hk, hpath, hname⟩
  · exact .inl hroot
  · refine .inr ⟨k, hk, hname, fun l hl hlead => h l hl ?_⟩
    have hdots : ∀ x ∈ segs, '.' ∉ x.toList := fun x hx => (hstep.segments x (by simp [hx])).2
    rw [hpath, Path.segments_ofSegments hne hdots] at hlead
    rw [segments_path hstep]
    exact JoinTree.leads_append_subset segs [s] hlead

theorem spared_of_aside (hp : p.WellFormed g e quote predicates) {j : Join ι} (hj : j ∈ p.joins)
    (h : p.Aside j.aliasName) : p.Spared j.path := by
  rcases h with hroot | ⟨k, hk, hname, hspared⟩
  · exact absurd hroot (hp.aliasName_ne_root hj)
  · obtain rfl : k = j :=
      Option.some.inj ((hp.get?_aliasName hk).symm.trans (hname ▸ hp.get?_aliasName hj))
    exact hspared

theorem not_aside (hp : p.WellFormed g e quote predicates) {j : Join ι} (hj : j ∈ p.joins)
    (hselected : j.selected = true) : ¬ p.Aside j.aliasName := by
  intro haside
  have hlead := JoinTree.mem_leads_self (Path.segments_ne_nil j.path)
  rw [Path.ofSegments_segments] at hlead
  cases hselected.symm.trans (hp.spared_of_aside hj haside j hj hlead)

/-- Records for the first joins can be continued, without a change at the aliases aside. -/
theorem exists_continued (hp : p.WellFormed g e quote predicates) (hg : g.DotFree)
    {byAlias : String → Option Record} (h : p.Combination m db byAlias) {before after : Joins ι}
    (hjoins : p.joins = before ++ after) {records : String → Option Record}
    (hroot : ∃ r ∈ db p.entity, records p.rootAlias = some r)
    (hbefore : ∀ j ∈ before, p.LeftJoins m db j (records j.parent) (records j.aliasName))
    (haside : ∀ a, p.Aside a → records a = byAlias a) :
    ∃ continued, p.Combination m db continued ∧
      (∀ a ∈ p.rootAlias :: before.map (·.aliasName), continued a = records a) ∧
      ∀ a, p.Aside a → continued a = byAlias a := by
  induction after generalizing before records with
  | nil =>
    rw [List.append_nil] at hjoins
    exact ⟨records, ⟨hroot, hjoins ▸ hbefore⟩, fun _ _ => rfl, haside⟩
  | cons k after ih =>
    have hk : k ∈ p.joins := by simp [hjoins]
    -- An alias aside hangs on one aside, whose record is the old one.
    obtain ⟨found, hfound, hkept⟩ : ∃ found, p.LeftJoins m db k (records k.parent) found ∧
        (p.Aside k.aliasName → found = byAlias k.aliasName) := by
      by_cases hsame : records k.parent = byAlias k.parent
      · exact ⟨_, hsame ▸ h.joins k hk, fun _ => rfl⟩
      · obtain ⟨found, hfound⟩ :=
          exists_finds m db (p.entityOf k.parent) k.relation.name (records k.parent)
        refine ⟨found, hfound, fun hk' => absurd (haside _ (hp.aside_parent hg hk ?_)) hsame⟩
        exact hp.spared_of_aside hk hk'
    obtain ⟨hold, hbefore'⟩ := hp.scoped.leftJoins_concat hjoins hbefore hfound
    have hroot' : ∃ r ∈ db p.entity,
        Function.update records k.aliasName found p.rootAlias = some r := by
      rw [hold _ List.mem_cons_self]
      exact hroot
    have haside' : ∀ a, p.Aside a → Function.update records k.aliasName found a = byAlias a := by
      intro a ha
      by_cases hname : a = k.aliasName
      · subst hname
        rw [Function.update_self]
        exact hkept ha
      · rw [Function.update_of_ne hname]
        exact haside a ha
    obtain ⟨continued, hcombination, hsame, hcontinued⟩ :=
      ih (hjoins.trans (List.append_cons before k after)) hroot' hbefore' haside'
    refine ⟨continued, hcombination, fun a ha => ?_, hcontinued⟩
    have hmem : a ∈ p.rootAlias :: (before ++ [k]).map (·.aliasName) := by
      rw [List.map_append, ← List.cons_append]
      exact List.mem_append_left _ ha
    rw [hsame a hmem, hold a ha]

/-- The record that a loaded join finds can be exchanged. -/
theorem exists_exchanged (hp : p.WellFormed g e quote predicates) (hg : g.DotFree)
    {byAlias : String → Option Record} (h : p.Combination m db byAlias) {j : Join ι} (hj : j ∈ p.joins)
    (hselected : j.selected = true) {found : Option Record}
    (hfound : p.LeftJoins m db j (byAlias j.parent) found) :
    ∃ records, p.Combination m db records ∧ records j.parent = byAlias j.parent ∧
      records j.aliasName = found ∧ ∀ a, p.Aside a → records a = byAlias a := by
  obtain ⟨before, after, hjoins⟩ := List.append_of_mem hj
  have hbefore : ∀ k ∈ before, p.LeftJoins m db k (byAlias k.parent) (byAlias k.aliasName) :=
    fun k hk => h.joins k (by simp [hjoins, hk])
  obtain ⟨hold, hbefore'⟩ := hp.scoped.leftJoins_concat hjoins hbefore hfound
  have hroot : ∃ r ∈ db p.entity,
      Function.update byAlias j.aliasName found p.rootAlias = some r := by
    rw [hold _ List.mem_cons_self]
    exact h.root
  have haside : ∀ a, p.Aside a → Function.update byAlias j.aliasName found a = byAlias a := by
    intro a ha
    refine Function.update_of_ne ?_ _ _
    rintro rfl
    exact hp.not_aside hj hselected ha
  obtain ⟨records, hcombination, hsame, hrecords⟩ :=
    hp.exists_continued hg h (hjoins.trans (List.append_cons before j after)) hroot hbefore' haside
  have hmem : ∀ a ∈ p.rootAlias :: before.map (·.aliasName),
      a ∈ p.rootAlias :: (before ++ [j]).map (·.aliasName) := by
    intro a ha
    rw [List.map_append, ← List.cons_append]
    exact List.mem_append_left _ ha
  have hparent := hp.scoped.parents before j after hjoins
  refine ⟨records, hcombination, ?_, ?_, hrecords⟩
  · rw [hsame _ (hmem _ hparent), hold _ hparent]
  · rw [hsame _ (by simp), Function.update_self]

/-- The filter does not see what is not aside. -/
theorem holdsOn_congr (hp : p.WellFormed g e quote predicates) (hspares : p.Spares predicates)
    {records records' : String → Option Record} (h : ∀ a, p.Aside a → records a = records' a) :
    p.HoldsOn m db records ↔ p.HoldsOn m db records' := by
  refine forall₂_congr fun f hf => ?_
  rw [Filter.eval_congr _ p.clause.parameters.values f fun c hc => ?_]
  have hcolumn : c ∈ p.filter.toList.flatMap Filter.columns :=
    List.mem_flatMap.2 ⟨f, Option.mem_toList.2 hf, hc⟩
  obtain ⟨named, hnamed, ha, -⟩ := exists_of_forall₂ hp.filter hcolumn
  have haside : p.Aside c.aliasName := by
    rcases hp.aliasFor_cases ha with ⟨-, hroot⟩ | ⟨j, hj, hpath, hname⟩
    · exact .inl hroot
    · exact .inr ⟨j, hj, hname, hpath ▸ hspares named hnamed⟩
  rw [sightOn, sightOn, h _ haside]

/-- A matched row stays one when the record that a loaded join finds is exchanged. -/
theorem exists_row (hp : p.WellFormed g e quote predicates) (hg : g.DotFree)
    (hspares : p.Spares predicates) {row : JoinedRow} (hrow : row ∈ p.matchedRows m db) {j : Join ι}
    (hj : j ∈ p.joins) (hselected : j.selected = true) {found : Option Record}
    (hfound : p.LeftJoins m db j (row.record? j.parent) found) :
    ∃ row' ∈ p.matchedRows m db, row'.record? p.rootAlias = row.record? p.rootAlias ∧
      row'.record? j.parent = row.record? j.parent ∧ row'.record? j.aliasName = found := by
  obtain ⟨byAlias, hcombination, hholds, rfl⟩ := hp.scoped.mem_matchedRows.1 hrow
  have hparent : j.parent ∈ p.names := parent_mem_names hp.scoped.parents hj
  have hname : j.aliasName ∈ p.names := List.mem_cons_of_mem _ (List.mem_map_of_mem hj)
  rw [record?_rowOn hparent] at hfound ⊢
  obtain ⟨records, hrecords, hsame, hexchanged, haside⟩ :=
    hp.exists_exchanged hg hcombination hj hselected hfound
  refine ⟨rowOn p.names records, hp.scoped.mem_matchedRows.2 ⟨records, hrecords, ?_, rfl⟩, ?_, ?_, ?_⟩
  · exact (hp.holdsOn_congr hspares haside).2 hholds
  · rw [record?_root, record?_root, haside _ (.inl rfl)]
  · rw [record?_rowOn hparent, hsame]
  · rw [record?_rowOn hname, hexchanged]

/-! ### Branches -/

/-- The joins of a branch and of a branch below it follow each other. -/
theorem parent_of_placed (hp : p.WellFormed g e quote predicates) (hg : g.DotFree)
    {before : List String} {b c : Branch} (hb : b.Placed before)
    (hbefore : ∀ s ∈ before, Path.IsSegment s) (hc : c ∈ b.children) {j k : Join ι} (hj : j ∈ p.joins)
    (hjpath : j.path = b.path) (hk : k ∈ p.joins) (hkpath : k.path = c.path) :
    k.parent = j.aliasName := by
  have hc := hb.children.placed c hc
  have hsegs : ∀ s ∈ before ++ [b.name] ++ [c.name], Path.IsSegment s := by
    simpa [or_imp, forall_and] using ⟨hbefore, hb.isSegment, hc.isSegment⟩
  obtain ⟨segs, s, hstep⟩ := hp.exists_step hg hk
  obtain ⟨rfl, -⟩ := List.append_inj'
    (Path.ofSegments_inj hstep.segments hsegs (hstep.path.symm.trans (hkpath.trans hc.path))) rfl
  rcases hstep.parent with ⟨hnil, -⟩ | ⟨-, l, hl, hlpath, hlname⟩
  · exact absurd hnil (by simp)
  · obtain rfl : l = j := List.inj_on_of_nodup_map hp.paths hl hj
      (hlpath.trans (hb.path.symm.trans hjpath.symm))
    exact hlname.symm

/-- The join of a branch loads the relation that the branch is named for. -/
theorem relation_of_placed (hp : p.WellFormed g e quote predicates) (hg : g.DotFree)
    {before : List String} {b : Branch} (hb : b.Placed before)
    (hbefore : ∀ s ∈ before, Path.IsSegment s) {j : Join ι} (hj : j ∈ p.joins)
    (hpath : j.path = b.path) : j.relation.name = b.name := by
  have hsegs : ∀ s ∈ before ++ [b.name], Path.IsSegment s := by
    simpa [or_imp, forall_and] using ⟨hbefore, hb.isSegment⟩
  obtain ⟨segs, s, hstep⟩ := hp.exists_step hg hj
  obtain ⟨-, hs⟩ := List.append_inj'
    (Path.ofSegments_inj hstep.segments hsegs (hstep.path.symm.trans (hpath.trans hb.path))) rfl
  exact hstep.name.trans (List.singleton_inj.1 hs)

/-- Rows of whole roots hold for a record all that a loaded join may find for it. -/
theorem exists_whole (hp : p.WellFormed (m.graph registered) e quote predicates) (hm : m.Proper)
    (hspares : p.Spares predicates) {own : Set JoinedRow}
    (hown : ∀ row ∈ own, row ∈ p.matchedRows m db)
    (hwhole : ∀ row ∈ own, ∀ row' ∈ p.matchedRows m db,
      row'.record? p.rootAlias = row.record? p.rootAlias → row' ∈ own)
    {j : Join ι} (hj : j ∈ p.joins) (hselected : j.selected = true) {t : Record}
    (ht : ∃ row ∈ own, row.record? j.parent = some t) {found : Option Record}
    (hfound : Finds m db (p.entityOf j.parent) j.relation.name (some t) found) :
    ∃ row ∈ own, row.record? j.parent = some t ∧ row.record? j.aliasName = found := by
  obtain ⟨row, hrow, hrecord⟩ := ht
  rw [← hrecord] at hfound
  obtain ⟨row', hmatched, hroot, hparent, hname⟩ :=
    hp.exists_row (hm.dotFree registered) hspares (hown row hrow) hj hselected hfound
  exact ⟨row', hwhole row hrow row' hmatched hroot, hparent.trans hrecord, hname⟩

/-- Rows of whole roots close every branch that is loaded. -/
theorem closed_of_placed [DecidableEq ι]
    (hp : p.WellFormed (m.graph registered) e quote predicates) (hm : m.Proper) (hdb : db.Keyed m)
    (hspares : p.Spares predicates) {rows own : Set JoinedRow}
    (hrows : ∀ row ∈ rows, row ∈ p.matchedRows m db) (hown : ∀ row ∈ own, row ∈ p.matchedRows m db)
    (hwhole : ∀ row ∈ own, ∀ row' ∈ p.matchedRows m db,
      row'.record? p.rootAlias = row.record? p.rootAlias → row' ∈ own)
    {before : List String} {b : Branch} (hb : b.Placed before)
    (hbefore : ∀ s ∈ before, Path.IsSegment s)
    (hloaded : ∀ x ∈ b.walk, ∃ j ∈ p.joins, j.path = x.path ∧ j.selected = true) {j : Join ι}
    (hj : j ∈ p.joins) (hpath : j.path = b.path) {t : Record}
    (ht : ∃ row ∈ own, row.record? j.parent = some t) :
    b.Closed m p rows own (p.entityOf j.parent) t := by
  induction hb generalizing j t with
  | @mk before b hname hbpath hparentPath hnames hchildren ih =>
    have hg := hm.dotFree registered
    have hsegs : ∀ s ∈ before ++ [b.name], Path.IsSegment s := by
      simpa [or_imp, forall_and] using ⟨hbefore, hname⟩
    have hplaced : b.Placed before := .mk hname hbpath hparentPath hnames hchildren
    rw [Branch.walk_eq] at hloaded
    have hselected : j.selected = true := by
      obtain ⟨k, hk, hkpath, hselected⟩ := hloaded b (by simp)
      obtain rfl : k = j := List.inj_on_of_nodup_map hp.paths hk hj (hkpath.trans hpath.symm)
      exact hselected
    have hrelation := hp.relation_of_placed hg hplaced hbefore hj hpath
    have hmem : t ∈ db (p.entityOf j.parent) := by
      obtain ⟨row, hrow, hrecord⟩ := ht
      have hparent : j.parent ∈ p.names := parent_mem_names hp.scoped.parents hj
      obtain ⟨records, hcombination, -, rfl⟩ := hp.scoped.mem_matchedRows.1 (hown row hrow)
      exact hp.mem_of_combination hm hcombination hparent ((record?_rowOn hparent _).symm.trans hrecord)
    refine .mk (fun found hfound => ?_) fun link t' hlink hjoined c hc => ?_
    · rw [← hrelation] at hfound ⊢
      obtain ⟨row, hrow, hparent, hname⟩ := hp.exists_whole hm hspares hown hwhole hj hselected ht
        (hp.finds_of_joined hm hdb hrows hmem hfound)
      exact (hp.joined_iff hm hdb hown hmem).2 ⟨row, hrow, j, hj, ⟨hselected, rfl, rfl⟩, hparent, hname⟩
    · rw [← hrelation] at hlink hjoined
      obtain ⟨row, hrow, -, hname⟩ := hp.exists_whole hm hspares hown hwhole hj hselected ht
        (hp.finds_of_joined hm hdb hown hmem hjoined)
      have hbelow : ∀ x ∈ c.walk, x ∈ b :: Branch.walkAll b.children := by
        intro x hx
        rw [Branch.walk_eq] at hx
        exact List.mem_cons_of_mem _ (Branch.mem_walkAll.2 ⟨c, hc, List.mem_cons.1 hx⟩)
      obtain ⟨k, hk, hkpath, -⟩ := hloaded c (hbelow c (by rw [Branch.walk_eq]; simp))
      have hparent := hp.parent_of_placed hg hplaced hbefore hc hj hpath hk hkpath
      obtain ⟨link', hlink', htarget⟩ := hp.link_of_join hm hj
      obtain rfl := Option.some.inj (hlink.symm.trans hlink')
      rw [htarget, ← hparent]
      exact ih c hc hsegs (fun x hx => hloaded x (hbelow x hx)) hk hkpath
        ⟨row, hrow, hparent ▸ hname⟩

/-- A branch of the layout is loaded. -/
theorem exists_loaded (hp : p.WellFormed g e quote predicates) (hlayout : p.layout.Placed) {x : Branch}
    (hx : x ∈ p.layout.walk) : ∃ j ∈ p.joins, j.path = x.path ∧ j.selected = true := by
  rcases hp.aliasFor_cases (hp.layout x hx) with ⟨hpath, -⟩ | ⟨j, hj, hpath, -⟩
  · obtain ⟨segs, hat⟩ := hlayout.exists_at? hx
    obtain ⟨-, hsegs, hne, hsegments⟩ := hlayout.of_at? hat
    rw [hpath, List.nil_append] at hsegs
    exact absurd ((Path.ofSegments_eq_empty_iff hsegments).1 hsegs.symm) hne
  · exact ⟨j, hj, hpath, (hp.selected j hj).2 ⟨x, hx, hpath.symm⟩⟩

/-- Rows of whole roots, all those of `r` among them, close the layout. -/
theorem closed_of_spares [DecidableEq ι]
    (hp : p.WellFormed (m.graph registered) e quote predicates) (hm : m.Proper) (hdb : db.Keyed m)
    (hspares : p.Spares predicates) (hlayout : p.layout.Placed) {rows own : Set JoinedRow}
    (hrows : ∀ row ∈ rows, row ∈ p.matchedRows m db) (hown : ∀ row ∈ own, row ∈ p.matchedRows m db)
    (hwhole : ∀ row ∈ own, ∀ row' ∈ p.matchedRows m db,
      row'.record? p.rootAlias = row.record? p.rootAlias → row' ∈ own)
    {r : Record} (hr : ∃ row ∈ own, row.record? p.rootAlias = some r) {b : Branch}
    (hb : b ∈ p.layout.branches) : b.Closed m p rows own e r := by
  have hloaded : ∀ x ∈ b.walk, ∃ j ∈ p.joins, j.path = x.path ∧ j.selected = true := by
    intro x hx
    rw [Branch.walk_eq] at hx
    exact hp.exists_loaded hlayout (Branch.mem_walkAll.2 ⟨b, hb, List.mem_cons.1 hx⟩)
  obtain ⟨j, hj, hpath, -⟩ := hloaded b (by rw [Branch.walk_eq]; exact List.mem_cons_self)
  have hplaced := hlayout.placed b hb
  have hparent : j.parent = p.rootAlias := by
    refine hp.parent_root j hj ?_
    rw [hpath, hplaced.path, List.nil_append,
      Path.segments_ofSegments (by simp) (by simpa using hplaced.isSegment.2)]
    rfl
  have h := hp.closed_of_placed hm hdb hspares hrows hown hwhole hplaced (by simp) hloaded hj hpath
    (hparent ▸ hr)
  rwa [hparent, hp.entityOf_root] at h

end WellFormed

end QueryPlan

end EntityQuery

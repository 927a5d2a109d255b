import EntityQuery.Proofs.Query.Connectives

/-! What a negated predicate excludes. A predicate and its negation are never true on one unfolding, for
the truth of a predicate depends on nothing but the columns that it compares. Two unfoldings of a root
show the same there unless the relations to one of these columns lead to several records, so that only
roots that fork can be selected by both. -/

namespace EntityQuery

variable {ι : Type}

/-! ### What truth depends on -/

namespace Comparison

variable {ev : Evaluation} {type type' : ColumnType} {cell cell' : Cell}

mutual

/-- The truth of a comparison depends on the cell only if it is made of any tests. -/
theorem truth_congr (c : Comparison) (h : tests c ≠ 0 → type = type' ∧ cell = cell') :
    truth ev type cell c = truth ev type' cell' c := by
  cases c with
  | test op value =>
    obtain ⟨rfl, rfl⟩ := h Nat.one_ne_zero
    rfl
  | oneOf alternatives => rw [truth, truth, alternativeTruths_congr alternatives h]

theorem truths_congr (cs : List Comparison) (h : testsOfAll cs ≠ 0 → type = type' ∧ cell = cell') :
    truths ev type cell cs = truths ev type' cell' cs := by
  cases cs with
  | nil => rfl
  | cons c rest =>
    rw [testsOfAll] at h
    rw [truths, truths, truth_congr c fun hc => h (by omega),
      truths_congr rest fun hrest => h (by omega)]

theorem alternativeTruths_congr (alternatives : List (List Comparison))
    (h : alternativeTests alternatives ≠ 0 → type = type' ∧ cell = cell') :
    alternativeTruths ev type cell alternatives =
      alternativeTruths ev type' cell' alternatives := by
  cases alternatives with
  | nil => rfl
  | cons alternative rest =>
    rw [alternativeTests] at h
    rw [alternativeTruths, alternativeTruths, truths_congr alternative fun hfirst => h (by omega),
      alternativeTruths_congr rest fun hrest => h (by omega)]

end

end Comparison

namespace Predicate

variable {ev : Evaluation} {rowAt rowAt' : String → RowSight}

mutual

/-- The truth of a predicate depends on the rows at the paths of the columns that it compares. -/
theorem truth_congr (path : String) (p : Predicate)
    (h : ∀ c ∈ columns id path path p, rowAt c.aliasName = rowAt' c.aliasName) :
    truth ev rowAt (rowAt path) path p = truth ev rowAt' (rowAt' path) path p := by
  cases p with
  | field name column comparisons =>
    have hcell : Comparison.testsOfAll comparisons ≠ 0 → rowAt path = rowAt' path := fun hne =>
      h ⟨path, column⟩ (List.mem_replicate.2 ⟨hne, rfl⟩)
    rw [truth, truth, Comparison.truths_congr comparisons fun hne => ?_]
    rw [hcell hne]
    exact ⟨rfl, rfl⟩
  | relation name condition =>
    rw [truth, truth]
    exact truth_congr (Path.child path name) condition h
  | all children => rw [truth, truth, truths_congr path children h]
  | any children => rw [truth, truth, truths_congr path children h]
  | not child => rw [truth, truth, truth_congr path child h]
  | fields entries => rw [truth, truth, truths_congr path entries h]

theorem truths_congr (path : String) (ps : List Predicate)
    (h : ∀ c ∈ columnsOfAll id path path ps, rowAt c.aliasName = rowAt' c.aliasName) :
    truths ev rowAt (rowAt path) path ps = truths ev rowAt' (rowAt' path) path ps := by
  cases ps with
  | nil => rfl
  | cons p rest =>
    rw [columnsOfAll] at h
    rw [truths, truths, truth_congr path p fun c hc => h c (List.mem_append_left _ hc),
      truths_congr path rest fun c hc => h c (List.mem_append_right _ hc)]

end

theorem mem_columnsOfAll {aliasAt : String → String} {current path : String} {ps : List Predicate}
    {c : ColumnRef} : c ∈ columnsOfAll aliasAt current path ps ↔
      ∃ p ∈ ps, c ∈ columns aliasAt current path p := by
  induction ps with
  | nil => simp [columnsOfAll]
  | cons p ps ih => rw [columnsOfAll, List.mem_append, ih, List.exists_mem_cons_iff]

/-- The columns that a predicate compares are those of entities that relations lead to. -/
theorem Over.exists_entityAlong {g : EntityGraph ι} (hg : g.DotFree) {root e : ι} {p : Predicate}
    (h : Over g e p) {segs : List String} (halong : g.entityAlong root segs = some e) :
    ∀ c ∈ columns id (Path.ofSegments segs) (Path.ofSegments segs) p,
      ∃ owner, g.entityAlong root (Path.chain c.aliasName) = some owner := by
  have hsegs := hg.isSegment_of_entityAlong halong
  induction h generalizing segs with
  | field =>
    intro c hc
    obtain rfl := (List.mem_replicate.1 hc).2
    exact ⟨_, by rw [Path.chain_ofSegments hsegs, halong]⟩
  | @relation e name relation condition hrelation _ ih =>
    have hnext : g.entityAlong root (segs ++ [name]) = some relation.target := by
      rw [EntityGraph.entityAlong_concat, halong, Option.bind_some, hrelation]
      rfl
    have hih := ih hnext (hg.isSegment_of_entityAlong hnext)
    rw [Path.ofSegments_concat hsegs] at hih
    exact hih
  | all _ _ ih | any _ _ ih | fields _ ih =>
    intro c hc
    obtain ⟨p, hp, hc⟩ := mem_columnsOfAll.1 hc
    exact ih p hp halong hsegs c hc
  | not _ ih => exact ih halong hsegs

end Predicate

/-! ### Exclusion -/

section Exclusion

variable {m : Mapping ι} {db : Database ι} {g : EntityGraph ι} {e : ι} {p : Predicate}

/-- Unfoldings that show the same records where a predicate compares columns give it the same truth. -/
theorem truthOn_congr {records records' : String → Option Record}
    (h : ∀ c ∈ Predicate.columnsByPath [p], records c.aliasName = records' c.aliasName) :
    truthOn m db g e records p = truthOn m db g e records' p := by
  refine Predicate.truth_congr "" p fun c hc => ?_
  unfold sightAt
  rw [h c (Predicate.mem_columnsOfAll.2 ⟨p, List.mem_cons_self, hc⟩)]

/-- A root that is selected by a predicate and by its negation forks on the way to a column that the
predicate compares. -/
theorem Query.exists_forks_of_not (hg : g.DotFree) {q : Query} (hover : p.Over g e)
    (hcompares : p.hasComparison = true) {r : Record} (h : r ∈ (q.addPredicate p).selected m db g e)
    (h' : r ∈ (q.addPredicate (.not p)).selected m db g e) :
    ∃ c ∈ Predicate.columnsByPath [p], Forks m db g e r (Path.chain c.aliasName) := by
  obtain ⟨records, hsatisfies, htrue, hroot⟩ := mem_selected_addPredicate.1 h
  obtain ⟨records', hsatisfies', hfalse, hroot'⟩ := mem_selected_addPredicate.1 h'
  by_contra! hone
  have hsame : truthOn m db g e records p = truthOn m db g e records' p := by
    refine truthOn_congr fun c hc => ?_
    obtain ⟨p', hp', hcolumn⟩ := Predicate.mem_columnsOfAll.1 hc
    obtain rfl := List.mem_singleton.1 hp'
    have halong : g.entityAlong e [] = some e := rfl
    obtain ⟨owner, howner⟩ := hover.exists_entityAlong hg halong c hcolumn
    have hrecords := hsatisfies.unfolds.eq_of_not_forks hsatisfies'.unfolds hroot hroot' howner
      (hone c hc)
    rwa [Path.ofSegments_chain] at hrecords
  obtain ⟨t, ht⟩ : ∃ t, truthOn m db g e records p = some t := exists_truthOn hcompares
  have htrue := allTrue_singleton.1 htrue t ht
  have hfalse := allTrue_not.1 hfalse t (hsame ▸ ht)
  rw [htrue] at hfalse
  cases hfalse

end Exclusion

end EntityQuery

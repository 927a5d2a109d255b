import EntityQuery.Proofs.Query.Meaning

/-! Connectives of predicates on unfoldings. An alternative is true on an unfolding where one of its
parts is, so that it selects what its parts select together. Parts that compare nothing have no truth
value; they do not count as alternatives, although each of them alone selects everything. -/

namespace EntityQuery

variable {ι : Type}

theorem Truth.any_eq_true_iff {ts : List Truth} : Truth.any ts = .true ↔ ∃ t ∈ ts, t = .true := by
  induction ts with
  | nil => simp [any]
  | cons t ts ih =>
    rw [List.exists_mem_cons_iff, ← ih]
    change t.or (any ts) = .true ↔ _
    cases t <;> cases any ts <;> decide

theorem Predicate.mem_truths {ev : Evaluation} {rowAt : String → RowSight} {row : RowSight}
    {path : String} {ps : List Predicate} {t : Truth} :
    t ∈ truths ev rowAt row path ps ↔ ∃ p ∈ ps, truth ev rowAt row path p = some t := by
  induction ps with
  | nil => simp [truths]
  | cons p ps ih => rw [truths, List.mem_append, ih, Option.mem_toList, List.exists_mem_cons_iff]

/-! ### Truth on unfoldings -/

section Truth

variable {m : Mapping ι} {db : Database ι} {g : EntityGraph ι} {e : ι}
variable {records : String → Option Record} {p : Predicate} {ps : List Predicate}

/-- The truth of a predicate on an unfolding, if it compares anything. -/
def truthOn (m : Mapping ι) (db : Database ι) (g : EntityGraph ι) (e : ι)
    (records : String → Option Record) (p : Predicate) : Option Truth :=
  p.truth db.evaluation (sightAt m g e records) (sightAt m g e records "") ""

theorem truthOn_isSome : (truthOn m db g e records p).isSome = p.hasComparison :=
  Predicate.truth_isSome _ _ _ _ p

theorem exists_truthOn (h : p.hasComparison = true) : ∃ t, truthOn m db g e records p = some t :=
  Option.isSome_iff_exists.1 (truthOn_isSome.trans h)

theorem hasComparison_of_truthOn {t : Truth} (h : truthOn m db g e records p = some t) :
    p.hasComparison = true :=
  truthOn_isSome.symm.trans (Option.isSome_iff_exists.2 ⟨t, h⟩)

theorem truthOn_eq_none (h : p.hasComparison = false) : truthOn m db g e records p = none := by
  have hshown : (truthOn m db g e records p).isSome = false := truthOn_isSome.trans h
  exact Option.not_isSome_iff_eq_none.1 (Bool.eq_false_iff.1 hshown)

theorem allTrue_iff :
    AllTrue m db g e ps records ↔ ∀ p ∈ ps, ∀ t ∈ truthOn m db g e records p, t = .true := by
  unfold AllTrue
  simp only [Predicate.mem_truths]
  exact ⟨fun h p hp t ht => h t ⟨p, hp, ht⟩, fun h t ⟨p, hp, ht⟩ => h p hp t ht⟩

theorem allTrue_singleton :
    AllTrue m db g e [p] records ↔ ∀ t ∈ truthOn m db g e records p, t = .true := by
  rw [allTrue_iff, List.forall_mem_singleton]

/-- What compares nothing is never in the way. -/
theorem allTrue_of_no_comparison (h : p.hasComparison = false) : AllTrue m db g e [p] records := by
  rw [allTrue_singleton, truthOn_eq_none h]
  simp

/-- Alternatives of which some compare anything are true where one that does is true. -/
theorem allTrue_any (hps : ∃ p ∈ ps, p.hasComparison = true) :
    AllTrue m db g e [.any ps] records ↔
      ∃ p ∈ ps, p.hasComparison = true ∧ AllTrue m db g e [p] records := by
  have htruths : truthOn m db g e records (.any ps) = Predicate.together .any
      (Predicate.truths db.evaluation (sightAt m g e records) (sightAt m g e records "") "" ps) := rfl
  generalize hts : Predicate.truths db.evaluation (sightAt m g e records)
    (sightAt m g e records "") "" ps = ts at htruths
  have hmem : ∀ t, t ∈ ts ↔ ∃ p ∈ ps, truthOn m db g e records p = some t := fun t =>
    hts ▸ Predicate.mem_truths
  have htogether : Predicate.together .any ts = some (.any ts) := by
    obtain ⟨p, hp, hcompares⟩ := hps
    obtain ⟨t, ht⟩ := exists_truthOn hcompares
    have hne : ts ≠ [] := List.ne_nil_of_mem ((hmem t).2 ⟨p, hp, ht⟩)
    cases ts with
    | nil => exact absurd rfl hne
    | cons t ts => rfl
  rw [allTrue_singleton, htruths, htogether]
  simp only [Option.mem_def, Option.some.injEq, forall_eq', Truth.any_eq_true_iff, hmem]
  constructor
  · rintro ⟨_, ⟨p, hp, ht⟩, rfl⟩
    refine ⟨p, hp, hasComparison_of_truthOn ht, allTrue_singleton.2 fun t' ht' => ?_⟩
    exact Option.some.inj (ht'.symm.trans ht)
  · rintro ⟨p, hp, hcompares, htrue⟩
    obtain ⟨t, ht⟩ := exists_truthOn hcompares
    exact ⟨t, ⟨p, hp, ht⟩, allTrue_singleton.1 htrue t ht⟩

/-- A negated predicate that compares anything is true where the predicate is false. -/
theorem allTrue_not :
    AllTrue m db g e [.not p] records ↔ ∀ t ∈ truthOn m db g e records p, t = .false := by
  have hnot : truthOn m db g e records (.not p) = (truthOn m db g e records p).map Truth.not := rfl
  rw [allTrue_singleton, hnot]
  cases truthOn m db g e records p with
  | none => simp
  | some t => cases t <;> simp [Truth.not]

end Truth

/-! ### Selected roots -/

namespace Query

variable {m : Mapping ι} {db : Database ι} {g : EntityGraph ι} {e : ι} {q : Query} {p : Predicate}
variable {ps : List Predicate} {r : Record}

theorem mem_selected_addPredicate : r ∈ (q.addPredicate p).selected m db g e ↔
    ∃ records, Satisfies m db g e q.predicates records ∧ AllTrue m db g e [p] records ∧
      records "" = some r := by
  refine exists_congr fun records => ?_
  constructor
  · rintro ⟨⟨hunfolds, htrue⟩, hroot⟩
    obtain ⟨hbefore, hadded⟩ := allTrue_append.1 htrue
    exact ⟨⟨hunfolds, hbefore⟩, hadded, hroot⟩
  · rintro ⟨⟨hunfolds, hbefore⟩, hadded, hroot⟩
    exact ⟨⟨hunfolds, allTrue_append.2 ⟨hbefore, hadded⟩⟩, hroot⟩

theorem selected_of_no_comparison (h : p.hasComparison = false) :
    (q.addPredicate p).selected m db g e = q.selected m db g e := by
  ext r
  rw [mem_selected_addPredicate]
  exact exists_congr fun records => by rw [and_iff_right (allTrue_of_no_comparison h)]

/-- Alternatives select what those of them that compare anything select. -/
theorem mem_selected_any (hps : ∃ p ∈ ps, p.hasComparison = true) :
    r ∈ (q.addPredicate (.any ps)).selected m db g e ↔
      ∃ p ∈ ps, p.hasComparison = true ∧ r ∈ (q.addPredicate p).selected m db g e := by
  simp only [mem_selected_addPredicate, allTrue_any hps]
  constructor
  · rintro ⟨records, hsatisfies, ⟨p, hp, hcompares, htrue⟩, hroot⟩
    exact ⟨p, hp, hcompares, records, hsatisfies, htrue, hroot⟩
  · rintro ⟨p, hp, hcompares, records, hsatisfies, htrue, hroot⟩
    exact ⟨records, hsatisfies, ⟨p, hp, hcompares, htrue⟩, hroot⟩

/-- Two alternatives select what either selects, if both compare anything or neither does. -/
theorem selected_or {p p' : Predicate} (h : p.hasComparison = p'.hasComparison) :
    (q.addPredicate (.any [p, p'])).selected m db g e =
      (q.addPredicate p).selected m db g e ∪ (q.addPredicate p').selected m db g e := by
  cases hp : p.hasComparison with
  | false =>
    have hnone : (Predicate.any [p, p']).hasComparison = false := by
      simp [Predicate.hasComparison, Predicate.anyComparison, ← h, hp]
    rw [selected_of_no_comparison hnone, selected_of_no_comparison hp,
      selected_of_no_comparison (h.symm.trans hp), Set.union_self]
  | true =>
    ext r
    rw [mem_selected_any ⟨p, List.mem_cons_self, hp⟩, Set.mem_union]
    simp [← h, hp]

/-- An alternative that compares nothing does not count beside another. -/
theorem selected_or_of_no_comparison {p p' : Predicate} {ps : List Predicate}
    (hps : ps = [p, p'] ∨ ps = [p', p]) (h : p.hasComparison = false) :
    (q.addPredicate (.any ps)).selected m db g e = (q.addPredicate p').selected m db g e := by
  have hiff : ∀ x : Predicate, x ∈ ps ↔ x = p ∨ x = p' := by
    rcases hps with rfl | rfl <;> simp [or_comm]
  cases hp' : p'.hasComparison with
  | false =>
    have hnone : (Predicate.any ps).hasComparison = false := by
      rcases hps with rfl | rfl <;> simp [Predicate.hasComparison, Predicate.anyComparison, h, hp']
    rw [selected_of_no_comparison hnone, selected_of_no_comparison hp']
  | true =>
    ext r
    rw [mem_selected_any ⟨p', (hiff p').2 (.inr rfl), hp'⟩]
    constructor
    · rintro ⟨x, hx, hcompares, hr⟩
      rcases (hiff x).1 hx with rfl | rfl
      · rw [h] at hcompares
        cases hcompares
      · exact hr
    · exact fun hr => ⟨p', (hiff p').2 (.inr rfl), hp', hr⟩

/-! ### Conjunctions -/

/-- The predicates of a query are a conjunction: which ones there are matters, but not their order. -/
theorem satisfies_congr {ps ps' : List Predicate} (h : ∀ p, p ∈ ps ↔ p ∈ ps')
    (records : String → Option Record) :
    Satisfies m db g e ps records ↔ Satisfies m db g e ps' records := by
  have htrue : AllTrue m db g e ps records ↔ AllTrue m db g e ps' records := by
    simp only [allTrue_iff, h]
  exact ⟨fun hs => ⟨hs.unfolds, htrue.1 hs.allTrue⟩, fun hs => ⟨hs.unfolds, htrue.2 hs.allTrue⟩⟩

theorem selected_congr {q q' : Query} (h : ∀ p, p ∈ q.predicates ↔ p ∈ q'.predicates) :
    q.selected m db g e = q'.selected m db g e := by
  ext r
  exact exists_congr fun records => and_congr_left fun _ => satisfies_congr h records

theorem aspects_congr {q q' : Query} (h : ∀ p, p ∈ q.predicates ↔ p ∈ q'.predicates) :
    q.aspects m db g e = q'.aspects m db g e := by
  ext r f
  exact exists_congr fun records => and_congr_left fun _ => satisfies_congr h records

theorem mem_predicates_addPredicate_comm {p p' : Predicate} (p'' : Predicate) :
    p'' ∈ ((q.addPredicate p).addPredicate p').predicates ↔
      p'' ∈ ((q.addPredicate p').addPredicate p).predicates := by
  simp only [addPredicate, List.append_assoc, List.mem_append]
  exact or_congr_right or_comm

end Query

end EntityQuery

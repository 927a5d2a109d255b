import EntityQuery.Proofs.Query.FilterText
import EntityQuery.Proofs.Store.RootOrder
import EntityQuery.Proofs.Store.Unfolding

/-! The meaning of a query on a database: the unfoldings on which its predicates are true, the roots of
these, and the cells that they have under its sort keys. Every plan of the query renders this meaning. -/

namespace EntityQuery

variable {ι : Type}

/-! ### Filters -/

theorem Truth.all_eq_true_iff {ts : List Truth} : Truth.all ts = .true ↔ ∀ t ∈ ts, t = .true := by
  induction ts with
  | nil => simp [all]
  | cons t ts ih =>
    rw [List.forall_mem_cons, ← ih]
    change t.and (all ts) = .true ↔ _
    cases t <;> cases all ts <;> decide

/-- The conjunction of filters is true where each of them is. -/
theorem Filter.conjunction_eval_iff {ev : Evaluation} {sight : Sight}
    {parameters : List (String × Value)} {fs : List Filter} :
    (∀ f ∈ conjunction fs, f.eval ev sight parameters = .true) ↔
      ∀ f ∈ fs, f.eval ev sight parameters = .true := by
  match fs with
  | [] => simp [conjunction]
  | [f] => simp [conjunction]
  | f :: f' :: rest =>
    have hconj : conjunction (f :: f' :: rest) =
        some (.chain ((f :: f' :: rest).map fun f => .group .and [f])) := rfl
    have hpart : ∀ f : Filter, (group .and [f]).eval ev sight parameters =
        f.eval ev sight parameters := fun f => by
      simp [eval_group_and, Truth.all, Truth.and_true]
    simp only [hconj, Option.mem_def, Option.some.injEq, forall_eq']
    rw [eval_chain, Truth.all_eq_true_iff]
    simp only [List.map_map, List.forall_mem_map, Function.comp_apply, hpart]

theorem Predicate.truths_append (ev : Evaluation) (rowAt : String → RowSight) (row : RowSight)
    (path : String) (ps ps' : List Predicate) :
    truths ev rowAt row path (ps ++ ps') =
      truths ev rowAt row path ps ++ truths ev rowAt row path ps' := by
  induction ps with
  | nil => rfl
  | cons p ps ih => rw [List.cons_append, truths, truths, ih, List.append_assoc]

/-! ### Predicates on unfoldings -/

section Meaning

variable (m : Mapping ι) (db : Database ι) (g : EntityGraph ι) (e : ι)

/-- The cells that an unfolding shows at a path. -/
def sightAt (records : String → Option Record) (path : String) : RowSight := fun column =>
  ((m.model (g.entityOn e path)).typeNamed column,
    match records path with
    | some r => Model.cellNamed r column
    | none => .null)

/-- The cell that an unfolding has under a sort key. -/
def cellUnder (records : String → Option Record) (t : OrderTerm) : Cell :=
  match records t.path with
  | some r => (m.model (g.entityOn e t.path)).cell r t.field
  | none => .null

/-- Every predicate that compares anything is true on an unfolding. -/
def AllTrue (ps : List Predicate) (records : String → Option Record) : Prop :=
  ∀ t ∈ Predicate.truths db.evaluation (sightAt m g e records) (sightAt m g e records "") "" ps,
    t = .true

/-- An unfolding on which predicates are true. -/
structure Satisfies (ps : List Predicate) (records : String → Option Record) : Prop where
  unfolds : Unfolds m db g e records
  allTrue : AllTrue m db g e ps records

/-- The roots that a query selects. -/
def Query.selected (q : Query) : Set Record :=
  {r | ∃ records, Satisfies m db g e q.predicates records ∧ records "" = some r}

/-- The sort cells of a root, one row of them for each unfolding on which the predicates are true. -/
def Query.aspects (q : Query) (r : Record) : Set (OrderTerm → Cell) :=
  {f | ∃ records, Satisfies m db g e q.predicates records ∧ records "" = some r ∧ f = cellUnder m g e records}

variable {m db g e}

theorem allTrue_append {ps ps' : List Predicate} {records : String → Option Record} :
    AllTrue m db g e (ps ++ ps') records ↔
      AllTrue m db g e ps records ∧ AllTrue m db g e ps' records := by
  unfold AllTrue
  rw [Predicate.truths_append]
  simp only [List.mem_append, or_imp, forall_and]

theorem Query.aspects_nonempty_iff {q : Query} {r : Record} :
    (q.aspects m db g e r).Nonempty ↔ r ∈ q.selected m db g e := by
  constructor
  · rintro ⟨f, records, hmatches, hroot, -⟩
    exact ⟨records, hmatches, hroot⟩
  · rintro ⟨records, hmatches, hroot⟩
    exact ⟨_, records, hmatches, hroot, rfl⟩

end Meaning

/-! ### Sort keys -/

namespace Query

/-- A sort key, under no alias yet. -/
def sortTerm (key : String × Direction) : OrderTerm :=
  ⟨"", Path.last key.1, Path.parent key.1, key.2 == .descending⟩

/-- The sort keys of a query on an entity, completed by the primary key where the order is stable. -/
def sortTerms (g : EntityGraph ι) (e : ι) (stable : Bool) (q : Query) : List OrderTerm :=
  let keys := q.order.map sortTerm
  keys ++ if stable then tiebreak (g.entity e) "" keys else []

/-- A sort key without its alias. -/
def unplaced (t : OrderTerm) : OrderTerm := { t with aliasName := "" }

theorem orderTerms_unplaced {g : EntityGraph ι} {keys : List (String × Direction)} {c c' : Context ι}
    {terms : List OrderTerm} (h : (orderTerms g keys).exec c = (.ok terms, c')) :
    terms.map unplaced = keys.map sortTerm := by
  induction keys generalizing c terms with
  | nil =>
    obtain ⟨rfl, -⟩ := orderTerms_nil_eq_ok.1 h
    rfl
  | cons key keys ih =>
    obtain ⟨term, c₁, terms, hfirst, hrest, rfl⟩ := orderTerms_cons_eq_ok.1 h
    rw [List.map_cons, List.map_cons, ih hrest]
    congr 1
    rcases orderTerm_eq_ok.1 hfirst with ⟨hpath, -, -, rfl⟩ | ⟨-, e, bound, t, -, -, -, -, rfl⟩
    · rw [sortTerm, hpath]
      rfl
    · rfl

theorem tiebreak_unplaced (e : Entity ι) (rootAlias : String) (terms : List OrderTerm) :
    (tiebreak e rootAlias terms).map unplaced = tiebreak e "" (terms.map unplaced) := by
  have hany : ∀ field, ((terms.map unplaced).any fun t => t.path.isEmpty && t.field == field) =
      terms.any fun t => t.path.isEmpty && t.field == field := fun field => List.any_map
  unfold tiebreak
  simp only [List.map_map, hany]
  rfl

theorem sortTerms_of_plan {g : EntityGraph ι} {e : ι} {aliasName : Option String}
    {table : OperatorTable} {quote : String → String} {stable : Bool} {q : Query} {p : QueryPlan ι}
    (h : q.plan g e aliasName table quote stable = .ok p) :
    p.order.map unplaced = q.sortTerms g e stable := by
  obtain ⟨c₁, c₂, c₃, c₄, filters, order, hstages, rfl⟩ := plan_eq_ok.1 h
  have hkeys := orderTerms_unplaced hstages.ordering
  have horder : (planOf g e aliasName quote stable q c₃ c₄ filters order).order = order ++
      (if stable then tiebreak (g.entity e) (rootAlias aliasName (g.entity e)) order else []) := rfl
  rw [horder, List.map_append, hkeys, sortTerms]
  cases stable with
  | false => rfl
  | true =>
    simp only [if_true]
    rw [tiebreak_unplaced, hkeys]

theorem coversKey_sortTerms {m : Mapping ι} {registered : ι → Bool} (e : ι) (q : Query) :
    QueryPlan.CoversKey m e (q.sortTerms (m.graph registered) e true) := by
  intro field hfield
  have hprimary : ((m.graph registered).entity e).primaryKey = (m.model e).primaryKey := rfl
  by_cases h : (q.order.map sortTerm).any fun t => t.path.isEmpty && t.field == field
  · obtain ⟨t, ht, hfound⟩ := List.any_eq_true.1 h
    rw [Bool.and_eq_true, beq_iff_eq] at hfound
    exact ⟨t, List.mem_append_left _ ht, by simpa using hfound.1, hfound.2⟩
  · refine ⟨⟨"", field, "", false⟩, List.mem_append_right _ ?_, rfl, rfl⟩
    rw [if_pos rfl, tiebreak, List.mem_map]
    refine ⟨field, List.mem_filter.2 ⟨hprimary ▸ hfield, ?_⟩, rfl⟩
    simpa using h

end Query

/-! ### Plans -/

namespace QueryPlan.WellFormed

variable {m : Mapping ι} {db : Database ι} {g : EntityGraph ι} {e : ι} {quote : String → String}
variable {predicates : List Predicate} {p : QueryPlan ι}

theorem sightOn_eq (hp : p.WellFormed g e quote predicates) (hg : g.DotFree)
    {records byAlias : String → Option Record} (hshared : Shared p records byAlias) {j : Join ι}
    (hj : j ∈ p.joins) :
    sightAt m g e records j.path = fun column => p.sightOn m byAlias ⟨j.aliasName, column⟩ := by
  unfold sightAt
  rw [hp.entityOn_path hg hj, hshared.joins j hj]
  rfl

theorem sightOn_root (hp : p.WellFormed g e quote predicates)
    {records byAlias : String → Option Record} (hshared : Shared p records byAlias) :
    sightAt m g e records "" = fun column => p.sightOn m byAlias ⟨p.rootAlias, column⟩ := by
  have hentity : g.entityOn e "" = p.entityOf p.rootAlias := hp.entityOf_root.symm
  unfold sightAt
  rw [hentity, hshared.root]
  rfl

/-- The cells of a row under the sort keys are those of its unfolding. -/
theorem aspect_eq (hp : p.WellFormed g e quote predicates) (hg : g.DotFree)
    {records byAlias : String → Option Record} (hshared : Shared p records byAlias) {t : OrderTerm}
    {a : String} (ht : p.scope.aliasFor t.path = .ok a) :
    p.aspect m (rowOn p.names byAlias) t = cellUnder m g e records t := by
  have hplace : (p.place t).aliasName = a := by
    rw [place, ht]
    rfl
  have hfield : (p.place t).field = t.field := rfl
  unfold aspect termCell cellUnder
  rw [hplace, hfield]
  rcases hp.aliasFor_cases ht with ⟨hpath, rfl⟩ | ⟨j, hj, hpath, rfl⟩
  · have hentity : g.entityOn e "" = p.entityOf p.rootAlias := hp.entityOf_root.symm
    rewrite [record?_root, hpath, hshared.root, hentity]
    rfl
  · have hmem : j.aliasName ∈ p.names := List.mem_cons_of_mem _ (List.mem_map_of_mem hj)
    rewrite [record?_rowOn hmem, ← hpath, hshared.joins j hj, hp.entityOn_path hg hj]
    rfl

end QueryPlan.WellFormed

namespace Query

open QueryPlan.WellFormed (Shared)

variable {m : Mapping ι} {db : Database ι} {g : EntityGraph ι} {e : ι} {aliasName : Option String}
variable {table : OperatorTable} {quote : String → String} {stable : Bool} {q : Query}
variable {p : QueryPlan ι}

/-- The filter of a plan holds on a combination where the predicates are true on its unfolding. -/
theorem holdsOn_iff (hp : p.WellFormed g e quote q.predicates) (hg : g.DotFree) (hq : q.ReadOn g e)
    (h : q.plan g e aliasName table quote stable = .ok p) {records byAlias : String → Option Record}
    (hshared : Shared p records byAlias) :
    p.HoldsOn m db byAlias ↔ AllTrue m db g e q.predicates records := by
  let rows (a : String) : RowSight := fun column => p.sightOn m byAlias ⟨a, column⟩
  obtain ⟨c₁, c₂, c₃, c₄, filters, order, hstages, rfl⟩ := plan_eq_ok.1 h
  have hbuilds := hstages.predicates_build hq
  have horders := (hstages.coherent hg hq).2
  have hassigns : c₃.tree.Assigns rows (sightAt m g e records) := by
    intro path a hget
    obtain ⟨j, hj, rfl, rfl⟩ := horders.coherent.tree.aligned.exists_of_get? (horders.grows.get? hget)
    exact hp.sightOn_eq hg hshared hj
  have htruth := hbuilds.truth db.evaluation _ (.refl _) rows _ hassigns
  have hroot : sightAt m g e records "" = rows (rootAlias aliasName (g.entity e)) :=
    hp.sightOn_root hshared
  unfold AllTrue
  rw [hroot, ← htruth, List.forall_mem_map]
  exact Filter.conjunction_eval_iff

/-- Every plan of a query matches the roots that the query selects. -/
theorem matching_eq (hp : p.WellFormed g e quote q.predicates) (hg : g.DotFree) (hq : q.ReadOn g e)
    (h : q.plan g e aliasName table quote stable = .ok p) :
    p.matching m db = q.selected m db g e := by
  ext r
  constructor
  · rintro ⟨byAlias, hjoins, hroot, hholds⟩
    obtain ⟨records, hunfolds, hshared⟩ := hp.exists_unfolding hg hjoins
    exact ⟨records, ⟨hunfolds, (holdsOn_iff hp hg hq h hshared).1 hholds⟩, hshared.root.trans hroot⟩
  · rintro ⟨records, hmatches, hroot⟩
    obtain ⟨byAlias, hjoins, hshared⟩ := hp.exists_combination hg hmatches.unfolds
    exact ⟨byAlias, hjoins, hshared.root.symm.trans hroot,
      (holdsOn_iff hp hg hq h hshared).2 hmatches.allTrue⟩

/-- Every plan of a query renders its meaning. -/
theorem renders_of_plan (hp : p.WellFormed g e quote q.predicates) (hg : g.DotFree)
    (hq : q.ReadOn g e) (hdistinct : q.distinct = false)
    (h : q.plan g e aliasName table quote stable = .ok p) :
    p.Renders m db e (q.sortTerms g e stable) (q.aspects m db g e) := by
  have hscoped := hp.scoped
  have hterms := sortTerms_of_plan h
  have hlocated : ∀ t ∈ p.order, p.place (unplaced t) = t := by
    intro t ht
    have halias := hp.order t ht
    rw [QueryPlan.place, unplaced, halias]
    rfl
  have haliases : ∀ t ∈ q.sortTerms g e stable, ∃ a, p.scope.aliasFor t.path = .ok a := by
    intro t ht
    rw [← hterms] at ht
    obtain ⟨t', ht', rfl⟩ := List.mem_map.1 ht
    exact ⟨_, hp.order t' ht'⟩
  constructor
  case entity => exact hp.entity
  case scope => exact hscoped
  case distinct =>
    obtain ⟨c₁, c₂, c₃, c₄, filters, order, -, rfl⟩ := plan_eq_ok.1 h
    exact hdistinct
  case order =>
    rw [← hterms, List.map_map]
    exact ((List.map_congr_left hlocated).trans (List.map_id _)).symm
  case rootOnly =>
    intro hjoins t ht
    obtain ⟨a, ha⟩ := haliases t ht
    rcases hp.aliasFor_cases ha with ⟨hpath, -⟩ | ⟨j, hj, -⟩
    · exact hpath
    · rw [hjoins] at hj
      exact absurd hj List.not_mem_nil
  case sound =>
    intro row hrow r hroot
    obtain ⟨byAlias, hjoins, hholds, rfl⟩ := hscoped.mem_matchedRows.1 hrow
    obtain ⟨records, hunfolds, hshared⟩ := hp.exists_unfolding hg hjoins
    rw [QueryPlan.record?_root] at hroot
    refine ⟨cellUnder m g e records, ⟨records, ⟨hunfolds, ?_⟩, hshared.root.trans hroot, rfl⟩, ?_⟩
    · exact (holdsOn_iff hp hg hq h hshared).1 hholds
    · intro t ht
      obtain ⟨a, ha⟩ := haliases t ht
      exact (hp.aspect_eq hg hshared ha).symm
  case complete =>
    rintro r _ ⟨records, hmatches, hroot, rfl⟩
    obtain ⟨byAlias, hjoins, hshared⟩ := hp.exists_combination hg hmatches.unfolds
    have hholds := (holdsOn_iff (m := m) hp hg hq h hshared).2 hmatches.allTrue
    refine ⟨_, hscoped.mem_matchedRows.2 ⟨byAlias, hjoins, hholds, rfl⟩, ?_, fun t ht => ?_⟩
    · rw [QueryPlan.record?_root, ← hshared.root, hroot]
    · obtain ⟨a, ha⟩ := haliases t ht
      exact (hp.aspect_eq hg hshared ha).symm

end Query

end EntityQuery

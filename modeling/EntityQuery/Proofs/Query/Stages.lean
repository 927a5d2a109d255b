import EntityQuery.Query.Plan
import EntityQuery.Proofs.Predicate.Compilation

/-! The stages of a plan. A query that has a plan has run through inclusions, selections, predicates
and ordering in this order, each on the context that the one before left. -/

namespace EntityQuery

variable {ι : Type} {g : EntityGraph ι}

/-- The context in which the parts of a query are planned first. -/
abbrev Query.start (g : EntityGraph ι) (e : ι) (aliasName : Option String) : Context ι :=
  Context.start e (rootAlias aliasName (g.entity e))

namespace Context

/-- Properties of contexts that reaching a path keeps. -/
def KeptByReach (g : EntityGraph ι) (P : Context ι → Prop) : Prop :=
  ∀ c request bound t, P c → (JoinTree.reach g request).exec c.tree = (.ok bound, t) →
    P { c with tree := t }

/-- Properties of contexts that placing a leaf of the layout keeps. -/
def KeptByPlacing (P : Context ι → Prop) : Prop :=
  ∀ c holder b rename, b.columns = [] → b.children = [] → P c →
    P { c with layout := c.layout.placeAt holder b rename }

/-- Properties of contexts that setting a column keeps. -/
def KeptBySetting (P : Context ι → Prop) : Prop :=
  ∀ c path field key c', P c → (Selection.setColumn path field key).exec c = (.ok (), c') → P c'

/-- Properties of contexts that binding parameters keeps. -/
def KeptByBinding (P : Context ι → Prop) : Prop :=
  ∀ c parameters counter, P c → P { c with parameters, counter }

end Context

namespace Inclusion

/-- The plan of an inclusion joins its relation, then plans its children below. -/
theorem plan_eq_ok {aliasName holder wish : Option String} {path relation : String}
    {children : List Inclusion} {c c' : Context ι}
    (h : (plan g aliasName path holder (mk relation wish children)).exec c = (.ok (), c')) :
    ∃ bound t, (JoinTree.reach g
          { path := Path.child path relation, start := aliasName, select := true,
            aliasName := wish }).exec c.tree = (.ok bound, t) ∧
      ∃ c₁ : Context ι, c₁ = { c with
          tree := t
          layout := c.layout.placeAt holder ⟨relation, Path.child path relation, path, bound,
            (nonEmpty? wish).getD relation, [], []⟩ (nonEmpty? wish) } ∧
        (planAll g (some bound) (Path.child path relation)
          (c₁.layout.holder (Path.child path relation)) children).exec c₁ = (.ok (), c') := by
  simp only [plan, Step.bind_eq_ok, Context.inTree, Step.within_eq_ok, Step.exec_modify,
    Prod.mk.injEq, true_and] at h
  obtain ⟨bound, _, ⟨t, hreach, rfl⟩, _, _, rfl, h⟩ := h
  refine ⟨bound, t, hreach, _, rfl, ?_⟩
  split at h
  · simpa only [Step.bind_eq_ok, Step.exec_get, Prod.mk.injEq, Except.ok.injEq, exists_and_left,
      and_assoc, exists_eq_left', true_and] using h
  · next hchildren =>
    have : children = [] := by simpa using hchildren
    subst this
    exact h

theorem planAll_cons_eq_ok {aliasName holder : Option String} {path : String} {i : Inclusion}
    {rest : List Inclusion} {c c' : Context ι} :
    (planAll g aliasName path holder (i :: rest)).exec c = (.ok (), c') ↔
      ∃ c₁, (plan g aliasName path holder i).exec c = (.ok (), c₁) ∧
        (planAll g aliasName path holder rest).exec c₁ = (.ok (), c') := by
  rw [planAll, Step.seq_eq_ok]

mutual

/-- What joining and placing leaves of the layout keep, the plans of inclusions keep. -/
theorem plan_keeps {P : Context ι → Prop} (hreach : Context.KeptByReach g P)
    (hplace : Context.KeptByPlacing P) {aliasName holder : Option String} {path : String}
    (i : Inclusion) {c c' : Context ι} (hc : P c)
    (h : (plan g aliasName path holder i).exec c = (.ok (), c')) : P c' := by
  cases i with
  | mk relation wish children =>
    obtain ⟨bound, t, hrun, c₁, rfl, hchildren⟩ := plan_eq_ok h
    have hplaced := hplace _ holder ⟨relation, Path.child path relation, path, bound,
      (nonEmpty? wish).getD relation, [], []⟩ (nonEmpty? wish) rfl rfl (hreach c _ bound t hc hrun)
    exact planAll_keeps hreach hplace children hplaced hchildren

theorem planAll_keeps {P : Context ι → Prop} (hreach : Context.KeptByReach g P)
    (hplace : Context.KeptByPlacing P) {aliasName holder : Option String} {path : String}
    (is : List Inclusion) {c c' : Context ι} (hc : P c)
    (h : (planAll g aliasName path holder is).exec c = (.ok (), c')) : P c' := by
  cases is with
  | nil =>
    obtain ⟨-, rfl⟩ := Prod.mk.inj h
    exact hc
  | cons i rest =>
    obtain ⟨c₁, hfirst, hrest⟩ := planAll_cons_eq_ok.1 h
    exact planAll_keeps hreach hplace rest (plan_keeps hreach hplace i hc hfirst) hrest

end

end Inclusion

namespace Selection

/-- Setting a column changes the layout only. -/
theorem setColumn_eq_ok {path field key : String} {c c' : Context ι}
    (h : (setColumn path field key).exec c = (.ok (), c')) :
    (path = "" ∧ c' = { c with layout :=
      { c.layout with rootColumns := Assoc.set c.layout.rootColumns field key } }) ∨
    (path ≠ "" ∧ (c.layout.branch? path).isSome ∧
      c' = { c with layout := c.layout.modifyBranch path fun b =>
        { b with columns := Assoc.set b.columns field key } }) := by
  simp only [setColumn, Step.bind_eq_ok, Step.exec_get, Prod.mk.injEq, Except.ok.injEq] at h
  obtain ⟨_, _, ⟨rfl, rfl⟩, h⟩ := h
  split at h
  · next hpath =>
    simp only [Step.exec_modify, Prod.mk.injEq, true_and] at h
    exact .inl ⟨by simpa using hpath, h.symm⟩
  · next hpath =>
    split at h
    · simp at h
    · next hbranch =>
      simp only [Step.exec_modify, Prod.mk.injEq, true_and] at h
      refine .inr ⟨by simpa using hpath, ?_, h.symm⟩
      simpa [Option.isSome_iff_ne_none] using hbranch

theorem plan_relation_eq_ok {path name : String} {children : List Selection} {c c' : Context ι}
    (h : (plan path (relation name children)).exec c = (.ok (), c')) :
    (c.layout.branch? (Path.child path name)).isSome ∧
      (planAll (Path.child path name) children).exec c = (.ok (), c') := by
  simp only [plan, Step.bind_eq_ok, Step.exec_get, Prod.mk.injEq, Except.ok.injEq] at h
  obtain ⟨_, _, ⟨rfl, rfl⟩, h⟩ := h
  split at h
  · simp at h
  · next hbranch => exact ⟨by simpa [Option.isSome_iff_ne_none] using hbranch, h⟩

theorem planAll_cons_eq_ok {path : String} {s : Selection} {rest : List Selection}
    {c c' : Context ι} :
    (planAll path (s :: rest)).exec c = (.ok (), c') ↔
      ∃ c₁, (plan path s).exec c = (.ok (), c₁) ∧ (planAll path rest).exec c₁ = (.ok (), c') := by
  rw [planAll, Step.seq_eq_ok]

mutual

/-- What setting columns keeps, the plans of selections keep. -/
theorem plan_keeps {P : Context ι → Prop} (hset : Context.KeptBySetting P) {path : String}
    (s : Selection) {c c' : Context ι} (hc : P c)
    (h : (plan path s).exec c = (.ok (), c')) : P c' := by
  cases s with
  | column field name => exact hset c _ _ _ c' hc h
  | relation name children =>
    exact planAll_keeps hset children hc (plan_relation_eq_ok h).2

theorem planAll_keeps {P : Context ι → Prop} (hset : Context.KeptBySetting P) {path : String}
    (ss : List Selection) {c c' : Context ι} (hc : P c)
    (h : (planAll path ss).exec c = (.ok (), c')) : P c' := by
  cases ss with
  | nil =>
    obtain ⟨-, rfl⟩ := Prod.mk.inj h
    exact hc
  | cons s rest =>
    obtain ⟨c₁, hfirst, hrest⟩ := planAll_cons_eq_ok.1 h
    exact planAll_keeps hset rest (plan_keeps hset s hc hfirst) hrest

end

end Selection

namespace Comparison

variable {table : OperatorTable} {column : ColumnRef} {field : String} {P : Context ι → Prop}

mutual

/-- What binding parameters keeps, compiling a comparison keeps. -/
theorem toFilter_keeps (hbind : Context.KeptByBinding P) (comparison : Comparison)
    {c c' : Context ι} {f : Filter} (hc : P c)
    (h : (toFilter table column field comparison).exec c = (.ok f, c')) : P c' := by
  cases comparison with
  | test op value =>
    obtain ⟨t, p, -, -, rfl⟩ := toFilter_test_eq_ok.1 h
    exact hbind c p (c.counter + 1) hc
  | oneOf alternatives =>
    obtain ⟨fs, hfs, -⟩ := toFilter_oneOf_eq_ok.1 h
    exact alternativesToFilters_keeps hbind alternatives hc hfs

theorem toFilters_keeps (hbind : Context.KeptByBinding P) (comparisons : List Comparison)
    {c c' : Context ι} {fs : List Filter} (hc : P c)
    (h : (toFilters table column field comparisons).exec c = (.ok fs, c')) : P c' := by
  cases comparisons with
  | nil =>
    obtain ⟨-, rfl⟩ := toFilters_nil_eq_ok.1 h
    exact hc
  | cons comparison rest =>
    obtain ⟨f, d, fs, hf, hfs, -⟩ := toFilters_cons_eq_ok.1 h
    exact toFilters_keeps hbind rest (toFilter_keeps hbind comparison hc hf) hfs

theorem alternativesToFilters_keeps (hbind : Context.KeptByBinding P)
    (alternatives : List (List Comparison)) {c c' : Context ι} {fs : List Filter} (hc : P c)
    (h : (alternativesToFilters table column field alternatives).exec c = (.ok fs, c')) : P c' := by
  cases alternatives with
  | nil =>
    obtain ⟨-, rfl⟩ := alternativesToFilters_nil_eq_ok.1 h
    exact hc
  | cons alternative rest =>
    obtain ⟨parts, d, fs, hparts, hfs, -⟩ := alternativesToFilters_cons_eq_ok.1 h
    exact alternativesToFilters_keeps hbind rest (toFilters_keeps hbind alternative hc hparts) hfs

end

end Comparison

namespace Predicate

variable {table : OperatorTable} {P : Context ι → Prop}

mutual

/-- What joining and binding parameters keep, compiling a predicate keeps. -/
theorem toFilter_keeps (hreach : Context.KeptByReach g P) (hbind : Context.KeptByBinding P)
    {aliasName path : String} (p : Predicate) {c c' : Context ι} {f : Option Filter} (hc : P c)
    (h : (toFilter g table aliasName path p).exec c = (.ok f, c')) : P c' := by
  cases p with
  | field name column comparisons =>
    obtain ⟨fs, hfs, -⟩ := toFilter_field_eq_ok.1 h
    exact Comparison.toFilters_keeps hbind comparisons hc hfs
  | relation name condition =>
    obtain ⟨bound, t, hrun, h⟩ := toFilter_relation_eq_ok.1 h
    exact toFilter_keeps hreach hbind condition (hreach c _ bound t hc hrun) h
  | all children =>
    obtain ⟨fs, hfs, -⟩ := toFilter_all_eq_ok.1 h
    exact toFilters_keeps hreach hbind children hc hfs
  | any children =>
    obtain ⟨fs, hfs, -⟩ := toFilter_any_eq_ok.1 h
    exact toFilters_keeps hreach hbind children hc hfs
  | fields entries =>
    obtain ⟨fs, hfs, -⟩ := toFilter_fields_eq_ok.1 h
    exact toFilters_keeps hreach hbind entries hc hfs
  | not child =>
    obtain ⟨f, hf, -⟩ := toFilter_not_eq_ok.1 h
    exact toFilter_keeps hreach hbind child hc hf

theorem toFilters_keeps (hreach : Context.KeptByReach g P) (hbind : Context.KeptByBinding P)
    {aliasName path : String} (ps : List Predicate) {c c' : Context ι} {fs : List Filter} (hc : P c)
    (h : (toFilters g table aliasName path ps).exec c = (.ok fs, c')) : P c' := by
  cases ps with
  | nil =>
    obtain ⟨-, rfl⟩ := toFilters_nil_eq_ok.1 h
    exact hc
  | cons p rest =>
    obtain ⟨f, d, fs, hf, hfs, -⟩ := toFilters_cons_eq_ok.1 h
    exact toFilters_keeps hreach hbind rest (toFilter_keeps hreach hbind p hc hf) hfs

end

end Predicate

namespace Query

/-- A sort key on the root joins nothing; any other has its path reached. -/
theorem orderTerm_eq_ok {c c' : Context ι} {key : String × Direction} {term : OrderTerm} :
    (orderTerm g key).exec c = (.ok term, c') ↔
      (Path.parent key.1 = "" ∧ c' = c ∧ (g.entity c.tree.root).hasColumn (Path.last key.1) ∧
        term = ⟨c.tree.aliases.root, Path.last key.1, "", key.2 == .descending⟩) ∨
      (Path.parent key.1 ≠ "" ∧ ∃ e bound t, c.tree.entityAt g (Path.parent key.1) = .ok e ∧
        (g.entity e).hasColumn (Path.last key.1) ∧
        (JoinTree.reach g { path := Path.parent key.1 }).exec c.tree = (.ok bound, t) ∧
        c' = { c with tree := t } ∧
        term = ⟨bound, Path.last key.1, Path.parent key.1, key.2 == .descending⟩) := by
  have hempty : ("" : String).isEmpty = true := rfl
  constructor
  · intro h
    by_cases hpath : Path.parent key.1 = ""
    · left
      simp only [orderTerm, hpath, hempty, if_true, pure_bind, Step.bind_eq_ok,
        Step.exec_get, Prod.mk.injEq, Except.ok.injEq] at h
      obtain ⟨_, _, ⟨rfl, rfl⟩, h⟩ := h
      split at h
      · simp at h
      · next hcolumn =>
        simp only [Step.exec_pure, Prod.mk.injEq, Except.ok.injEq] at h
        exact ⟨hpath, h.2.symm, by simpa using hcolumn, h.1.symm⟩
    · right
      have hne : (Path.parent key.1).isEmpty = false := by simpa using hpath
      simp only [orderTerm, hne, Bool.false_eq_true, if_false, Step.bind_eq_ok, Step.exec_get,
        Step.exec_ofExcept, Prod.mk.injEq, Except.ok.injEq] at h
      obtain ⟨_, _, ⟨rfl, rfl⟩, e, _, ⟨he, rfl⟩, h⟩ := h
      split at h
      · simp at h
      · next hcolumn =>
        simp only [Step.bind_eq_ok, Context.inTree, Step.within_eq_ok, Step.exec_pure, Prod.mk.injEq,
          Except.ok.injEq] at h
        obtain ⟨bound, _, ⟨t, hreach, rfl⟩, rfl, rfl⟩ := h
        exact ⟨hpath, e, bound, t, he, by simpa using hcolumn, hreach, rfl, rfl⟩
  · rintro (⟨hpath, rfl, hcolumn, rfl⟩ | ⟨hpath, e, bound, t, he, hcolumn, hreach, rfl, rfl⟩)
    · simp [orderTerm, hpath, hempty, Step.exec_bind, hcolumn]
    · have hne : (Path.parent key.1).isEmpty = false := by simpa using hpath
      simp only [orderTerm, hne, Bool.false_eq_true, if_false, Step.exec_bind, Step.exec_get,
        Step.exec_ofExcept, he, hcolumn, Bool.not_true, Context.inTree, Step.exec_within, hreach]
      rfl

theorem orderTerms_nil_eq_ok {c c' : Context ι} {terms : List OrderTerm} :
    (orderTerms g []).exec c = (.ok terms, c') ↔ terms = [] ∧ c' = c := by
  simp only [orderTerms, Step.exec_pure, Prod.mk.injEq, Except.ok.injEq, eq_comm]

theorem orderTerms_cons_eq_ok {c c' : Context ι} {key : String × Direction}
    {keys : List (String × Direction)} {terms : List OrderTerm} :
    (orderTerms g (key :: keys)).exec c = (.ok terms, c') ↔
      ∃ term c₁ rest, (orderTerm g key).exec c = (.ok term, c₁) ∧
        (orderTerms g keys).exec c₁ = (.ok rest, c') ∧ terms = term :: rest := by
  rw [orderTerms, Step.bind_map_eq_ok]

/-- What joining keeps, ordering keeps. -/
theorem orderTerms_keeps {P : Context ι → Prop} (hreach : Context.KeptByReach g P)
    {keys : List (String × Direction)} {c c' : Context ι} {terms : List OrderTerm}
    (hc : P c) (h : (orderTerms g keys).exec c = (.ok terms, c')) : P c' := by
  induction keys generalizing c terms with
  | nil =>
    obtain ⟨-, rfl⟩ := orderTerms_nil_eq_ok.1 h
    exact hc
  | cons key keys ih =>
    obtain ⟨term, d, terms, hfirst, hrest, -⟩ := orderTerms_cons_eq_ok.1 h
    refine ih ?_ hrest
    rcases orderTerm_eq_ok.1 hfirst with ⟨-, rfl, -, -⟩ | ⟨-, -, bound, t, -, -, hrun, rfl, -⟩
    · exact hc
    · exact hreach c _ bound t hc hrun

/-- The contexts between the stages of a plan. -/
structure Stages (g : EntityGraph ι) (table : OperatorTable) (q : Query) (c₀ c₁ c₂ c₃ c₄ : Context ι)
    (filters : List Filter) (order : List OrderTerm) : Prop where
  inclusions : (Inclusion.planRoot g q.inclusions).exec c₀ = (.ok (), c₁)
  selections : (Selection.planAll "" q.selections).exec c₁ = (.ok (), c₂)
  predicates : (Predicate.toFilters g table "" "" q.predicates).exec c₂ = (.ok filters, c₃)
  ordering : (orderTerms g q.order).exec c₃ = (.ok order, c₄)

/-- Inclusions and selections leave a sound context, whose tree has grown. -/
theorem Stages.sound {table : OperatorTable} {q : Query} {c₀ c₁ c₂ c₃ c₄ : Context ι}
    {filters : List Filter} {order : List OrderTerm}
    (h : Stages g table q c₀ c₁ c₂ c₃ c₄ filters order) (hc : c₀.Sound) :
    c₂.Sound ∧ c₀.tree.Extends c₂.tree := by
  let P : Context ι → Prop := fun c => c.Sound ∧ c₀.tree.Extends c.tree
  have hinclusions : P c₁ := Inclusion.planAll_keeps
    (fun c request bound t hc hreach =>
      have hreached := hc.1.tree.reach hreach
      ⟨⟨hreached.1, hc.1.parameters⟩, hc.2.trans hreached.2.1⟩)
    (fun c _ _ _ _ _ hc => ⟨⟨hc.1.tree, hc.1.parameters⟩, hc.2⟩) _ ⟨hc, .refl _⟩ h.inclusions
  refine Selection.planAll_keeps (P := P) (fun c path field key c' hc hset => ?_) _ hinclusions
    h.selections
  rcases Selection.setColumn_eq_ok hset with ⟨-, rfl⟩ | ⟨-, -, rfl⟩ <;>
    exact ⟨⟨hc.1.tree, hc.1.parameters⟩, hc.2⟩

/-- What joining, placing leaves of the layout, setting columns and binding parameters keep, all stages
keep. -/
theorem Stages.keeps {P : Context ι → Prop} (hreach : Context.KeptByReach g P)
    (hplace : Context.KeptByPlacing P) (hset : Context.KeptBySetting P)
    (hbind : Context.KeptByBinding P) {table : OperatorTable} {q : Query}
    {c₀ c₁ c₂ c₃ c₄ : Context ι} {filters : List Filter} {order : List OrderTerm}
    (h : Stages g table q c₀ c₁ c₂ c₃ c₄ filters order) (hc : P c₀) : P c₄ := by
  have hc₁ : P c₁ := Inclusion.planAll_keeps hreach hplace _ hc h.inclusions
  have hc₂ : P c₂ := Selection.planAll_keeps hset _ hc₁ h.selections
  have hc₃ : P c₃ := Predicate.toFilters_keeps hreach hbind _ hc₂ h.predicates
  exact orderTerms_keeps hreach hc₃ h.ordering

/-- The plan that the stages of a query come to. -/
def planOf (g : EntityGraph ι) (e : ι) (aliasName : Option String) (quote : String → String)
    (stable : Bool) (q : Query) (c₃ c₄ : Context ι) (filters : List Filter)
    (order : List OrderTerm) : QueryPlan ι where
  entity := e
  rootAlias := rootAlias aliasName (g.entity e)
  joins := c₄.tree.joins
  filter := Filter.conjunction filters
  clause := c₃.clause (Filter.textOf quote (Filter.conjunction filters))
  layout := c₄.layout
  order := order ++
    (if stable then tiebreak (g.entity e) (rootAlias aliasName (g.entity e)) order else [])
  offset := q.offset
  limit := q.limit
  distinct := q.distinct
  aliases := c₄.tree.aliases.entries

theorem planParts_eq_ok {table : OperatorTable} {quote : String → String} {q : Query}
    {c c' : Context ι} {parts : Parts ι} :
    (planParts g table quote q).exec c = (.ok parts, c') ↔
      ∃ c₁ c₂ c₃ filters order, Stages g table q c c₁ c₂ c₃ c' filters order ∧
        parts = ⟨Filter.conjunction filters,
          c₃.clause (Filter.textOf quote (Filter.conjunction filters)), order⟩ := by
  simp only [planParts, Step.bind_eq_ok, Step.exec_get, Step.exec_pure, Prod.mk.injEq,
    Except.ok.injEq]
  constructor
  · rintro ⟨_, c₁, hinclusions, _, c₂, hselections, filters, c₃, hpredicates, _, _, ⟨rfl, rfl⟩, order,
      _, hordering, rfl, rfl⟩
    exact ⟨c₁, c₂, _, filters, order, ⟨hinclusions, hselections, hpredicates, hordering⟩, rfl⟩
  · rintro ⟨c₁, c₂, c₃, filters, order, h, rfl⟩
    exact ⟨(), c₁, h.inclusions, (), c₂, h.selections, filters, c₃, h.predicates, _, _, ⟨rfl, rfl⟩,
      order, _, h.ordering, rfl, rfl⟩

theorem plan_eq_ok {e : ι} {aliasName : Option String} {table : OperatorTable}
    {quote : String → String} {stable : Bool} {q : Query} {p : QueryPlan ι} :
    q.plan g e aliasName table quote stable = .ok p ↔
      ∃ c₁ c₂ c₃ c₄ filters order,
        Stages g table q (start g e aliasName) c₁ c₂ c₃ c₄ filters order ∧
          p = planOf g e aliasName quote stable q c₃ c₄ filters order := by
  unfold plan
  dsimp only
  cases hrun : (planParts g table quote q).exec
    (Context.start e (rootAlias aliasName (g.entity e))) with
  | mk result c₄ =>
    simp only [Except.bind_eq_ok]
    constructor
    · rintro ⟨parts, rfl, h⟩
      obtain ⟨c₁, c₂, c₃, filters, order, hstages, rfl⟩ := planParts_eq_ok.1 hrun
      exact ⟨c₁, c₂, c₃, c₄, filters, order, hstages, (Except.ok.inj h).symm⟩
    · rintro ⟨c₁, c₂, c₃, c₄', filters, order, hstages, rfl⟩
      obtain ⟨rfl, rfl⟩ := Prod.mk.inj
        (hrun.symm.trans (planParts_eq_ok.2 ⟨c₁, c₂, c₃, filters, order, hstages, rfl⟩))
      exact ⟨_, rfl, rfl⟩

end Query

end EntityQuery

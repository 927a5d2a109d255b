import EntityQuery.Sample
import EntityQuery.Proofs.Predicate.Operands
import EntityQuery.Proofs.Query.Stages

/-! Operands go into parameters only. Two predicates that differ in operands are compiled in lockstep:
each operator makes the same test of both operands and binds the same names, so that the filters are
equal and the contexts stay the same but for the values of parameters. -/

namespace EntityQuery

variable {ι : Type} {g : EntityGraph ι} {table : OperatorTable}

/-! ### Operators -/

/-- Parameters of the same names, bound in the same order, of which the same ones expand. -/
structure Parameters.SameNames (p p' : Parameters) : Prop where
  names : Assoc.keys p.values = Assoc.keys p'.values
  expanding : p.expanding = p'.expanding

theorem Parameters.SameNames.bind {p p' : Parameters} (h : p.SameNames p') (name : String)
    (v v' : Value) (expanding : Bool) :
    (p.bind name v expanding).SameNames (p'.bind name v' expanding) where
  names := by simp only [Parameters.bind, Assoc.keys_set, h.names]
  expanding := by simp only [Parameters.bind, h.expanding]

section Operators

open Parameters

/-- The test of an operator, and the names that it binds, are the same for every value for which there
is one. -/
theorem Operator.toTest_lockstep (op : Operator) (symbol key : String) (value value' : Value) :
    Step.Lockstep SameNames (op.toTest symbol key value) (op.toTest symbol key value') := by
  intro p p' q q' t t' hp h h'
  cases op
  case between =>
    obtain ⟨low, high, -, rfl, rfl⟩ := between_eq_ok h
    obtain ⟨low', high', -, rfl, rfl⟩ := between_eq_ok h'
    exact ⟨rfl, (hp.bind _ low low' false).bind _ high high' false⟩
  case isIn | notIn =>
    obtain ⟨items, -, rfl, rfl⟩ := boundList_eq_ok h
    obtain ⟨items', -, rfl, rfl⟩ := boundList_eq_ok h'
    exact ⟨rfl, hp.bind key _ _ true⟩
  case isNull | isNotNull => exact Step.lockstep_pure _ hp h h'
  all_goals
    obtain ⟨rfl, rfl⟩ := bound_eq_ok h
    obtain ⟨rfl, rfl⟩ := bound_eq_ok h'
    exact ⟨rfl, hp.bind key _ _ false⟩

theorem OperatorTable.toTest_lockstep (table : OperatorTable) (token key : String)
    (value value' : Value) :
    Step.Lockstep SameNames (table.toTest token key value) (table.toTest token key value') := by
  unfold toTest
  split
  · next op symbol _ => exact Operator.toTest_lockstep op symbol key value value'
  · exact Step.lockstep_throw _

end Operators

/-! ### Predicates -/

/-- Contexts that are the same but for the values of parameters. -/
structure Context.SameNames (c c' : Context ι) : Prop where
  tree : c.tree = c'.tree
  layout : c.layout = c'.layout
  parameters : c.parameters.SameNames c'.parameters
  counter : c.counter = c'.counter

theorem Context.SameNames.refl (c : Context ι) : c.SameNames c := ⟨rfl, rfl, ⟨rfl, rfl⟩, rfl⟩

theorem Context.inTree_lockstep {α : Type} (step : Step (JoinTree ι) α) :
    Step.Lockstep SameNames (inTree step) (inTree step) :=
  (Step.lockstep_eq step).within (fun _ _ h => h.tree) fun _ _ _ _ h ht =>
    ⟨ht, h.layout, h.parameters, h.counter⟩

open Context

namespace Comparison

variable {column : ColumnRef} {field : String}

theorem toFilter_test_lockstep (op : Operator) (value value' : Value) :
    Step.Lockstep (σ := Context ι) SameNames (toFilter table column field (.test op value))
      (toFilter table column field (.test op value')) := by
  intro c c' d d' f f' hc h h'
  obtain ⟨t, p, htest, rfl, rfl⟩ := toFilter_test_eq_ok.1 h
  obtain ⟨t', p', htest', rfl, rfl⟩ := toFilter_test_eq_ok.1 h'
  rw [← hc.counter] at htest' ⊢
  obtain ⟨rfl, hp⟩ := OperatorTable.toTest_lockstep table _ _ value value' hc.parameters htest htest'
  exact ⟨rfl, hc.tree, hc.layout, hp, rfl⟩

mutual

theorem toFilter_lockstep (comparison comparison' : Comparison)
    (h : comparison.blank = comparison'.blank) :
    Step.Lockstep (σ := Context ι) SameNames (toFilter table column field comparison)
      (toFilter table column field comparison') := by
  cases comparison <;> cases comparison' <;> simp only [blank, reduceCtorEq, test.injEq, oneOf.injEq] at h
  case test.test op value op' value' =>
    rw [← h.1]
    exact toFilter_test_lockstep op value value'
  case oneOf.oneOf alternatives alternatives' =>
    rw [toFilter, toFilter]
    exact (alternativesToFilters_lockstep alternatives alternatives' h).map _

theorem toFilters_lockstep (cs cs' : List Comparison) (h : blankAll cs = blankAll cs') :
    Step.Lockstep (σ := Context ι) SameNames (toFilters table column field cs)
      (toFilters table column field cs') := by
  cases cs <;> cases cs' <;> simp only [blankAll, reduceCtorEq, List.cons.injEq] at h
  case nil.nil => exact Step.lockstep_pure _
  case cons.cons comparison rest comparison' rest' =>
    rw [toFilters, toFilters]
    exact (toFilter_lockstep comparison comparison' h.1).bind fun first =>
      (toFilters_lockstep rest rest' h.2).map _

theorem alternativesToFilters_lockstep (alternatives alternatives' : List (List Comparison))
    (h : blankAlternatives alternatives = blankAlternatives alternatives') :
    Step.Lockstep (σ := Context ι) SameNames (alternativesToFilters table column field alternatives)
      (alternativesToFilters table column field alternatives') := by
  cases alternatives <;> cases alternatives' <;>
    simp only [blankAlternatives, reduceCtorEq, List.cons.injEq] at h
  case nil.nil => exact Step.lockstep_pure _
  case cons.cons alternative rest alternative' rest' =>
    rw [alternativesToFilters, alternativesToFilters]
    exact (toFilters_lockstep alternative alternative' h.1).bind fun first =>
      (alternativesToFilters_lockstep rest rest' h.2).map _

end

end Comparison

namespace Predicate

mutual

theorem toFilter_lockstep (p p' : Predicate) {aliasName path : String} (h : p.blank = p'.blank) :
    Step.Lockstep SameNames (toFilter g table aliasName path p) (toFilter g table aliasName path p') := by
  cases p <;> cases p' <;> simp only [blank, reduceCtorEq, field.injEq, relation.injEq, all.injEq,
    any.injEq, not.injEq, fields.injEq] at h
  case field.field name column comparisons name' column' comparisons' =>
    obtain ⟨rfl, rfl, hcomparisons⟩ := h
    rw [toFilter, toFilter]
    refine Step.lockstep_get fun c c' hc => ?_
    rw [hc.tree]
    exact (Comparison.toFilters_lockstep comparisons comparisons' hcomparisons).map _
  case relation.relation name condition name' condition' =>
    obtain ⟨rfl, hcondition⟩ := h
    rw [toFilter, toFilter]
    exact (inTree_lockstep _).bind fun bound => toFilter_lockstep condition condition' hcondition
  case all.all children children' =>
    rw [toFilter, toFilter]
    exact (toFilters_lockstep children children' h).map _
  case any.any children children' =>
    rw [toFilter, toFilter]
    exact (toFilters_lockstep children children' h).map _
  case not.not child child' =>
    rw [toFilter, toFilter]
    exact (toFilter_lockstep child child' h).map _
  case fields.fields entries entries' =>
    rw [toFilter, toFilter]
    exact (toFilters_lockstep entries entries' h).map _

theorem toFilters_lockstep (ps ps' : List Predicate) {aliasName path : String}
    (h : blankAll ps = blankAll ps') :
    Step.Lockstep SameNames (toFilters g table aliasName path ps)
      (toFilters g table aliasName path ps') := by
  cases ps <;> cases ps' <;> simp only [blankAll, reduceCtorEq, List.cons.injEq] at h
  case nil.nil => exact Step.lockstep_pure _
  case cons.cons p rest p' rest' =>
    rw [toFilters, toFilters]
    exact (toFilter_lockstep p p' h.1).bind fun first => (toFilters_lockstep rest rest' h.2).map _

end

end Predicate

/-! ### Plans -/

/-- Clauses that are the same but for the values of parameters. -/
structure FilterClause.SameButValues (c c' : FilterClause ι) : Prop where
  text : c.text = c'.text
  parameters : c.parameters.SameNames c'.parameters
  joins : c.joins = c'.joins

/-- Plans that are the same but for the values of the parameters of their clauses. -/
structure QueryPlan.SameButValues (p p' : QueryPlan ι) : Prop where
  clause : p.clause.SameButValues p'.clause
  rest : { p with clause := p'.clause } = p'

theorem Context.SameNames.clause {c c' : Context ι} (h : c.SameNames c') (text : String) :
    (c.clause text).SameButValues (c'.clause text) :=
  ⟨rfl, h.parameters, congrArg JoinTree.joins h.tree⟩

namespace Query

/-- A query in whose predicates every operator is given null. -/
def blank (q : Query) : Query := { q with predicates := Predicate.blankAll q.predicates }

theorem orderTerm_lockstep (key : String × Direction) :
    Step.Lockstep SameNames (orderTerm g key) (orderTerm g key) := by
  intro c c' d d' term term' hc h h'
  rcases orderTerm_eq_ok.1 h with
      ⟨hpath, rfl, -, rfl⟩ | ⟨hpath, -, bound, t, -, -, hreach, rfl, rfl⟩ <;>
    rcases orderTerm_eq_ok.1 h' with
      ⟨hpath', rfl, -, rfl⟩ | ⟨hpath', -, bound', t', -, -, hreach', rfl, rfl⟩
  · exact ⟨by rw [hc.tree], hc⟩
  · exact absurd hpath hpath'
  · exact absurd hpath' hpath
  · obtain ⟨rfl, rfl⟩ := Step.lockstep_eq _ hc.tree hreach hreach'
    exact ⟨rfl, rfl, hc.layout, hc.parameters, hc.counter⟩

theorem orderTerms_lockstep (keys : List (String × Direction)) :
    Step.Lockstep SameNames (orderTerms g keys) (orderTerms g keys) := by
  induction keys with
  | nil => exact Step.lockstep_pure _
  | cons key keys ih =>
    rw [orderTerms]
    exact (orderTerm_lockstep key).bind fun first => ih.map _

/-- Queries that differ in operands only have the same plans but for the values of parameters. -/
theorem plan_sameButValues {e : ι} {aliasName : Option String} {quote : String → String}
    {stable : Bool} {q q' : Query} {p p' : QueryPlan ι} (hq : q.blank = q'.blank)
    (h : q.plan g e aliasName table quote stable = .ok p)
    (h' : q'.plan g e aliasName table quote stable = .ok p') : p.SameButValues p' := by
  obtain ⟨c₁, c₂, c₃, c₄, filters, order, hstages, rfl⟩ := plan_eq_ok.1 h
  obtain ⟨c₁', c₂', c₃', c₄', filters', order', hstages', rfl⟩ := plan_eq_ok.1 h'
  obtain ⟨predicates, inclusions, selections, keys, offset, limit, distinct⟩ := q
  obtain ⟨predicates', inclusions', selections', keys', offset', limit', distinct'⟩ := q'
  obtain ⟨hpredicates, rfl, rfl, rfl, rfl, rfl, rfl⟩ := Query.mk.inj hq
  -- Before the predicates both runs are one and the same.
  obtain ⟨-, rfl⟩ := Step.lockstep_eq _ rfl hstages.inclusions hstages'.inclusions
  obtain ⟨-, rfl⟩ := Step.lockstep_eq _ rfl hstages.selections hstages'.selections
  obtain ⟨rfl, hc₃⟩ := Predicate.toFilters_lockstep predicates predicates' hpredicates (.refl c₂)
    hstages.predicates hstages'.predicates
  obtain ⟨rfl, hc₄⟩ := orderTerms_lockstep keys hc₃ hstages.ordering hstages'.ordering
  refine ⟨hc₃.clause _, ?_⟩
  unfold planOf
  rw [hc₄.tree, hc₄.layout]

end Query

namespace EntityGraph

variable {e : ι} {aliasName : Option String} {quote : String → String}

/-- The clause of data is that of the predicate which is read from it, on the joins that this makes. -/
theorem compilePredicate_eq_ok {data : Value} {clause : FilterClause ι} :
    g.compilePredicate e aliasName table quote data = .ok clause ↔
      ∃ p f c, g.readPredicate e data = .ok p ∧
        (p.toFilter g table "" "").exec (Context.start e (rootAlias aliasName (g.entity e))) =
          (.ok f, c) ∧
        clause = c.clause (Filter.textOf quote f) := by
  simp only [compilePredicate, Except.bind_eq_ok]
  refine exists_congr fun p => ?_
  rcases (p.toFilter g table "" "").exec (Context.start e (rootAlias aliasName (g.entity e))) with
    ⟨result, c⟩
  constructor
  · rintro ⟨hp, f, rfl, h⟩
    exact ⟨f, c, hp, rfl, (Except.ok.inj h).symm⟩
  · rintro ⟨f, _, hp, ⟨⟩, rfl⟩
    exact ⟨hp, f, rfl, rfl⟩

/-- Data that differs in operands only has the same clauses but for the values of parameters. -/
theorem compilePredicate_sameButValues {data data' : Value} {clause clause' : FilterClause ι}
    (hdata : Predicate.blankValue g e data = Predicate.blankValue g e data')
    (h : g.compilePredicate e aliasName table quote data = .ok clause)
    (h' : g.compilePredicate e aliasName table quote data' = .ok clause') :
    clause.SameButValues clause' := by
  obtain ⟨p, f, c, hp, hrun, rfl⟩ := compilePredicate_eq_ok.1 h
  obtain ⟨p', f', c', hp', hrun', rfl⟩ := compilePredicate_eq_ok.1 h'
  have hblank : p.blank = p'.blank := Predicate.blank_eq_of_reads hp hp' hdata
  obtain ⟨rfl, hc⟩ := Predicate.toFilter_lockstep p p' hblank (.refl _) hrun hrun'
  exact hc.clause _

/-- Values do not reach texts. Where data differs only in what operators other than the one for
alternatives are given, the clauses that it is compiled to differ in the values of parameters only: they
have the same text, the same parameters in the same order, of which the same ones expand, and the same
joins. The trees that are read from such data differ in operands only, and queries that differ only so
have plans that differ in the values of parameters only. -/
theorem clauses_differ_in_values (g : EntityGraph ι) (e : ι) (aliasName : Option String)
    (table : OperatorTable) (quote : String → String) :
    (∀ data data' clause clause', Predicate.blankValue g e data = Predicate.blankValue g e data' →
      g.compilePredicate e aliasName table quote data = .ok clause →
      g.compilePredicate e aliasName table quote data' = .ok clause' →
      clause.SameButValues clause') ∧
    (∀ data data' p p', Predicate.blankValue g e data = Predicate.blankValue g e data' →
      g.readPredicate e data = .ok p → g.readPredicate e data' = .ok p' → p.blank = p'.blank) ∧
    (∀ stable (q q' : Query) plan plan', q.blank = q'.blank →
      q.plan g e aliasName table quote stable = .ok plan →
      q'.plan g e aliasName table quote stable = .ok plan' → plan.SameButValues plan') :=
  ⟨fun _ _ _ _ hdata h h' => compilePredicate_sameButValues hdata h h',
    fun _ _ _ _ hdata h h' => Predicate.blank_eq_of_reads h h' hdata,
    fun _ _ _ _ _ hq h h' => Query.plan_sameButValues hq h h'⟩

end EntityGraph

namespace Sample

/-- Users whose name starts with some text and who have a certain age, or a post of one of some titles. -/
def searched (prefixText low high titles : Value) : Value :=
  .obj [("name", .obj [("startsWith", prefixText)]), ("$or", .list [
    .obj [("age", .obj [("or", .list [.obj [("between", .list [low, high])],
      .obj [("isNull", .bool true)]])])],
    .obj [("posts", .obj [("title", .obj [("in", titles)])])]])]

/-- A search for plain values. -/
def modestSearch : Value := searched (.str "j") (.int 30) (.int 40) (.list [.str "Hello"])

/-- The same search for values of other kinds, one of them a text that looks like a part of a query. -/
def boldSearch : Value := searched (.str "' OR 1 = 1 --") .null (.bool true) (.list [])

/-- The plan of a search that shows posts, the newest first. -/
def searchPlan (p : Predicate) : Except QueryError (QueryPlan String) :=
  (((Query.empty.addPredicate p).addInclusions [.mk "posts" none []]).orderBy "posts.id"
    .descending).plan (mapping.graph fun _ => true) "User" none (.ofDialect none) id true

theorem clauses_differ_in_values_searches : ∃ clause clause' p p' plan plan',
    (mapping.graph fun _ => true).compilePredicate "User" none (.ofDialect none) id modestSearch =
      .ok clause ∧
    (mapping.graph fun _ => true).compilePredicate "User" none (.ofDialect none) id boldSearch =
      .ok clause' ∧
    clause'.text = "user.name LIKE :name_0 AND ((user.age BETWEEN :age_1_start AND :age_1_end OR " ++
      "user.age IS NULL) OR user_posts.title IN :title_3)" ∧
    clause.SameButValues clause' ∧
    (mapping.graph fun _ => true).readPredicate "User" modestSearch = .ok p ∧
    (mapping.graph fun _ => true).readPredicate "User" boldSearch = .ok p' ∧
    p.blank = p'.blank ∧ searchPlan p = .ok plan ∧ searchPlan p' = .ok plan' ∧
    plan.SameButValues plan' := by
  obtain ⟨hclauses, htrees, hplans⟩ := EntityGraph.clauses_differ_in_values
    (mapping.graph fun _ => true) "User" none (.ofDialect none) id
  have hblank : Predicate.blankValue (mapping.graph fun _ => true) "User" modestSearch =
      Predicate.blankValue (mapping.graph fun _ => true) "User" boldSearch := rfl
  obtain ⟨clause, hclause⟩ := Except.exists_of_isOk (show
    ((mapping.graph fun _ => true).compilePredicate "User" none (.ofDialect none) id
      modestSearch).isOk = true by decide +kernel)
  obtain ⟨clause', hclause'⟩ := Except.exists_of_isOk (show
    ((mapping.graph fun _ => true).compilePredicate "User" none (.ofDialect none) id
      boldSearch).isOk = true by decide +kernel)
  have htext : ((mapping.graph fun _ => true).compilePredicate "User" none (.ofDialect none) id
      boldSearch).toOption.map (·.text) =
      some ("user.name LIKE :name_0 AND ((user.age BETWEEN :age_1_start AND :age_1_end OR " ++
        "user.age IS NULL) OR user_posts.title IN :title_3)") := by
    decide +kernel
  rw [hclause'] at htext
  obtain ⟨plan, hplan⟩ := Except.exists_of_isOk (show ((mapping.graph fun _ => true).readPredicate
    "User" modestSearch >>= searchPlan).isOk = true by decide +kernel)
  obtain ⟨plan', hplan'⟩ := Except.exists_of_isOk (show ((mapping.graph fun _ => true).readPredicate
    "User" boldSearch >>= searchPlan).isOk = true by decide +kernel)
  obtain ⟨p, hp, hplan⟩ := Except.bind_eq_ok.1 hplan
  obtain ⟨p', hp', hplan'⟩ := Except.bind_eq_ok.1 hplan'
  have htree : p.blank = p'.blank := htrees _ _ p p' hblank hp hp'
  refine ⟨clause, clause', p, p', plan, plan', hclause, hclause', Option.some.inj htext,
    hclauses _ _ clause clause' hblank hclause hclause', hp, hp', htree, hplan, hplan', ?_⟩
  exact hplans true _ _ plan plan' (by simp [Query.blank, Query.orderBy, Query.addInclusions,
    Query.addPredicate, Query.empty, Predicate.blankAll, htree]) hplan hplan'

end Sample

end EntityQuery

import EntityQuery.Filter.OfPredicate
import EntityQuery.Proofs.Filter.Bindings
import EntityQuery.Proofs.Filter.Lexing

/-! What compiling predicates binds. The tests of predicates are numbered in the order in which they are
compiled, over all calls that share a context, and a call that fails has come as far as one of its tests.
So no call replaces what another one has bound, and texts show the names in the order of binding. -/

namespace EntityQuery

variable {ι α β γ : Type}

open FieldTest (bindingsFrom listKeysFrom)

/-! ### Tests in order -/

namespace Comparison

mutual

/-- The tests of a comparison on a field, in the order in which they are compiled. -/
def fieldTests (field : String) : Comparison → List FieldTest
  | .test op value => [⟨field, op, value⟩]
  | .oneOf alternatives => alternativeFieldTests field alternatives

def fieldTestsOfAll (field : String) : List Comparison → List FieldTest
  | [] => []
  | c :: rest => fieldTests field c ++ fieldTestsOfAll field rest

def alternativeFieldTests (field : String) : List (List Comparison) → List FieldTest
  | [] => []
  | alternative :: rest => fieldTestsOfAll field alternative ++ alternativeFieldTests field rest

end

theorem fieldTestsOfAll_eq (field : String) (cs : List Comparison) :
    fieldTestsOfAll field cs = cs.flatMap (fieldTests field) := by
  induction cs with
  | nil => rfl
  | cons c rest ih => rw [fieldTestsOfAll, ih, List.flatMap_cons]

theorem alternativeFieldTests_eq (field : String) (alternatives : List (List Comparison)) :
    alternativeFieldTests field alternatives = alternatives.flatMap (fieldTestsOfAll field) := by
  induction alternatives with
  | nil => rfl
  | cons cs rest ih => rw [alternativeFieldTests, ih, List.flatMap_cons]

end Comparison

namespace Predicate

mutual

/-- The tests of a predicate, in the order in which they are compiled. -/
def fieldTests : Predicate → List FieldTest
  | .field name _ comparisons => Comparison.fieldTestsOfAll name comparisons
  | .relation _ condition => fieldTests condition
  | .all children => fieldTestsOfAll children
  | .any children => fieldTestsOfAll children
  | .not child => fieldTests child
  | .fields entries => fieldTestsOfAll entries

def fieldTestsOfAll : List Predicate → List FieldTest
  | [] => []
  | p :: rest => fieldTests p ++ fieldTestsOfAll rest

end

end Predicate

/-! ### Filters that show bindings -/

namespace Filter

/-- Filters whose texts name what is bound, in order. -/
structure Shows (fs : List Filter) (bs : List Binding) : Prop where
  parameters : fs.flatMap Filter.parameters = bs.map (·.name)
  spelled : ∀ f ∈ fs, f.Spelled

namespace Shows

variable {fs fs' : List Filter} {bs bs' : List Binding}

theorem nil : Shows [] [] := ⟨rfl, by simp⟩

theorem append (h : Shows fs bs) (h' : Shows fs' bs') : Shows (fs ++ fs') (bs ++ bs') where
  parameters := by rw [List.flatMap_append, List.map_append, h.parameters, h'.parameters]
  spelled f hf := (List.mem_append.1 hf).elim (h.spelled f) (h'.spelled f)

theorem singleton {f : Filter} (hparameters : f.parameters = bs.map (·.name)) (hspelled : f.Spelled) :
    Shows [f] bs where
  parameters := by rw [List.flatMap_singleton, hparameters]
  spelled _ hf := List.mem_singleton.1 hf ▸ hspelled

theorem chain (h : Shows fs bs) : Shows [.chain fs] bs :=
  singleton ((parameters_of_leaves (leaves_chain fs)).trans h.parameters) (.chain h.spelled)

theorem group (c : Connective) (h : Shows fs bs) : Shows [.group c fs] bs :=
  singleton ((parameters_of_leaves (leaves_group c fs)).trans h.parameters) (.group h.spelled)

theorem ofParts {build : List Filter → Filter} (h : Shows fs bs) (hbuild : Shows [build fs] bs) :
    Shows (ofParts build fs).toList bs := by
  cases fs with
  | nil => exact h
  | cons f rest => exact hbuild

theorem negation {f : Option Filter} (h : Shows f.toList bs) :
    Shows (f.map Filter.negation).toList bs := by
  cases f with
  | none => exact h
  | some f =>
    have hparameters : (Filter.negation f).parameters = f.parameters := by
      rw [Filter.parameters, leaves_negation, Filter.parameters]
    have hshown := h.parameters
    rw [Option.toList_some, List.flatMap_singleton] at hshown
    exact singleton (hparameters.trans hshown) (.negation (h.spelled f (by simp)))

end Shows

end Filter

/-! ### Steps that bind -/

/-- A run that has come as far as the tests `ran`: it has bound what these bind under the next numbers. -/
structure Context.Ran (tests : List FieldTest) (c c' : Context ι) (ran : List FieldTest) : Prop where
  isFirst : ran <+: tests
  counter : c'.counter = c.counter + ran.length
  parameters : c'.parameters = c.parameters.bindAll (bindingsFrom c.counter ran)

theorem Context.Ran.append {tests tests' ran : List FieldTest} {c c₁ c₂ : Context ι}
    (h : Ran tests c c₁ tests) (h' : Ran tests' c₁ c₂ ran) :
    Ran (tests ++ tests') c c₂ (tests ++ ran) where
  isFirst := (List.prefix_append_right_inj tests).2 h'.isFirst
  counter := by rw [h'.counter, h.counter, List.length_append, Nat.add_assoc]
  parameters := by
    rw [h'.parameters, h.parameters, h.counter, ← Parameters.bindAll_append,
      FieldTest.bindingsFrom_append]

namespace Step

/-- A step that makes filters of tests. Where it fails, it has come as far as some of the tests; where it
succeeds, it is through with all of them, no value was refused, and the filters show what is bound. -/
def Binds (tests : List FieldTest) (filters : α → List Filter) (x : Step (Context ι) α) : Prop :=
  ∀ ⦃c r c'⦄, x.exec c = (r, c') → ∃ ran, Context.Ran tests c c' ran ∧ ∀ a, r = .ok a →
    ran = tests ∧ (∀ t ∈ tests, t.refusal? = none) ∧
      Filter.Shows (filters a) (bindingsFrom c.counter tests)

variable {tests tests' : List FieldTest} {filters : α → List Filter} {filters' : β → List Filter}
variable {x : Step (Context ι) α}

theorem binds_pure {a : α} (h : filters a = []) : Binds (ι := ι) [] filters (pure a) := by
  rintro c r _ ⟨⟩
  refine ⟨[], ⟨List.prefix_rfl, rfl, rfl⟩, fun b hb => ⟨rfl, by simp, ?_⟩⟩
  obtain rfl := Except.ok.inj hb
  rw [h]
  exact .nil

/-- A step before that neither binds nor counts. -/
theorem binds_of_quiet {f : α → Step (Context ι) β}
    (hquiet : ∀ c r c', x.exec c = (r, c') → c'.counter = c.counter ∧ c'.parameters = c.parameters)
    (hf : ∀ a, Binds tests filters' (f a)) : Binds tests filters' (x >>= f) := by
  intro c r c' h
  rcases bind_cases h with ⟨e, hx, rfl⟩ | ⟨a, c₁, hx, hrest⟩
  · obtain ⟨hcounter, hparameters⟩ := hquiet _ _ _ hx
    exact ⟨[], ⟨List.nil_prefix, hcounter, hparameters⟩, fun b hb => by cases hb⟩
  · obtain ⟨hcounter, hparameters⟩ := hquiet _ _ _ hx
    obtain ⟨ran, hran, hok⟩ := hf a hrest
    rw [hcounter] at hok
    refine ⟨ran, ⟨hran.isFirst, hcounter ▸ hran.counter, ?_⟩, hok⟩
    rw [hran.parameters, hparameters, hcounter]

/-- Two steps after one another, whose filters are put together. -/
theorem Binds.both {y : Step (Context ι) β} {filters'' : γ → List Filter} {F : α → β → γ}
    (hx : Binds tests filters x) (hy : Binds tests' filters' y)
    (hF : ∀ a b bs bs', Filter.Shows (filters a) bs → Filter.Shows (filters' b) bs' →
      Filter.Shows (filters'' (F a b)) (bs ++ bs')) :
    Binds (tests ++ tests') filters'' (x >>= fun a => y >>= fun b => pure (F a b)) := by
  intro c r c' h
  rcases bind_cases h with ⟨e, hfirst, rfl⟩ | ⟨a, c₁, hfirst, hrest⟩
  · obtain ⟨ran, hran, -⟩ := hx hfirst
    exact ⟨ran, ⟨hran.isFirst.trans (List.prefix_append _ _), hran.counter, hran.parameters⟩,
      fun b hb => by cases hb⟩
  obtain ⟨ran, hran, hok⟩ := hx hfirst
  obtain ⟨rfl, haccepted, hshows⟩ := hok a rfl
  rcases bind_cases hrest with ⟨e, hsecond, rfl⟩ | ⟨b, c₂, hsecond, hpure⟩
  · obtain ⟨ran', hran', -⟩ := hy hsecond
    exact ⟨ran ++ ran', hran.append hran', fun b hb => by cases hb⟩
  · obtain ⟨ran', hran', hok'⟩ := hy hsecond
    obtain ⟨rfl, haccepted', hshows'⟩ := hok' b rfl
    obtain ⟨rfl, rfl⟩ := Prod.mk.inj hpure
    refine ⟨ran ++ ran', hran.append hran', fun d hd => ⟨rfl, ?_, ?_⟩⟩
    · exact List.forall_mem_append.2 ⟨haccepted, haccepted'⟩
    · obtain rfl := Except.ok.inj hd
      rw [FieldTest.bindingsFrom_append]
      rw [hran.counter] at hshows'
      exact hF a b _ _ hshows hshows'

theorem Binds.map {F : α → β} (hx : Binds tests filters x)
    (hF : ∀ a bs, Filter.Shows (filters a) bs → Filter.Shows (filters' (F a)) bs) :
    Binds tests filters' (x >>= fun a => pure (F a)) := by
  intro c r c' h
  rcases bind_cases h with ⟨e, hfirst, rfl⟩ | ⟨a, c₁, hfirst, hpure⟩
  · obtain ⟨ran, hran, -⟩ := hx hfirst
    exact ⟨ran, hran, fun b hb => by cases hb⟩
  · obtain ⟨ran, hran, hok⟩ := hx hfirst
    obtain ⟨hall, haccepted, hshows⟩ := hok a rfl
    obtain ⟨rfl, rfl⟩ := Prod.mk.inj hpure
    refine ⟨ran, hran, fun b hb => ⟨hall, haccepted, ?_⟩⟩
    obtain rfl := Except.ok.inj hb
    exact hF a _ hshows

end Step

/-! ### Compiling -/

theorem OperatorTable.toTest_ofDialect (dialect : Option String) (op : Operator) (key : String)
    (value : Value) : (ofDialect dialect).toTest op.token key value =
      op.toTest (matchSymbol dialect) key value := by
  have hget : (ofDialect dialect).get? op.token = some (op, matchSymbol dialect) := by
    rw [get?, normalize_token, Operator.ofToken?_token]
    cases op <;> rfl
  rw [toTest, hget]

open Step (Binds binds_pure binds_of_quiet)

variable {dialect : Option String}

namespace Comparison

variable {column : ColumnRef} {field : String}

theorem exec_toFilter_test (table : OperatorTable) (op : Operator) (value : Value) (c : Context ι) :
    (toFilter table column field (.test op value)).exec c =
      match (table.toTest op.token (field ++ "_" ++ toString c.counter) value).exec c.parameters with
      | (.ok t, p) => (.ok (.test column t), { c with parameters := p, counter := c.counter + 1 })
      | (.error e, p) => (.error e, { c with parameters := p, counter := c.counter + 1 }) := by
  simp only [toFilter, Step.exec_bind, Step.exec_get, Step.exec_modify, Context.inParameters,
    Step.exec_within]
  rcases (table.toTest op.token _ value).exec c.parameters with ⟨_ | _, _⟩ <;> rfl

theorem toFilter_test_binds (op : Operator) (value : Value) :
    Binds (ι := ι) [⟨field, op, value⟩] (fun f => [f])
      (toFilter (.ofDialect dialect) column field (.test op value)) := by
  intro c r c' h
  rw [exec_toFilter_test, OperatorTable.toTest_ofDialect] at h
  have hbindings : bindingsFrom c.counter [⟨field, op, value⟩] =
      op.bindings (field ++ "_" ++ toString c.counter) value := FieldTest.bindingsFrom_singleton _ _
  refine ⟨[⟨field, op, value⟩], ?_⟩
  rw [hbindings]
  cases hrefusal : op.refusal? value with
  | some fault =>
    obtain ⟨hrun, hnone⟩ := Operator.toTest_of_refusal hrefusal (OperatorTable.matchSymbol dialect)
      (field ++ "_" ++ toString c.counter) c.parameters
    rw [hrun] at h
    obtain ⟨rfl, rfl⟩ := Prod.mk.inj h
    refine ⟨⟨List.prefix_rfl, rfl, ?_⟩, fun f hf => by cases hf⟩
    rw [hbindings, hnone]
    rfl
  | none =>
    obtain ⟨t, hrun, hparameters, hspelled⟩ := Operator.exists_toTest hrefusal
      (OperatorTable.matchSymbol dialect) (field ++ "_" ++ toString c.counter) c.parameters
    rw [hrun] at h
    obtain ⟨rfl, rfl⟩ := Prod.mk.inj h
    refine ⟨⟨List.prefix_rfl, rfl, congrArg _ hbindings.symm⟩, fun f hf => ⟨rfl, ?_, ?_⟩⟩
    · exact List.forall_mem_singleton.2 hrefusal
    · obtain rfl := Except.ok.inj hf
      exact .singleton ((Filter.parameters_test column t).trans hparameters)
        (.test (hspelled (OperatorTable.matchSymbol_spelled dialect)))

mutual

theorem toFilter_binds (comparison : Comparison) : Binds (ι := ι) (fieldTests field comparison)
    (fun f => [f]) (toFilter (.ofDialect dialect) column field comparison) := by
  cases comparison with
  | test op value => exact toFilter_test_binds op value
  | oneOf alternatives =>
    rw [toFilter, fieldTests]
    exact (alternativesToFilters_binds alternatives).map fun _ _ h => h.group .or

theorem toFilters_binds (comparisons : List Comparison) :
    Binds (ι := ι) (fieldTestsOfAll field comparisons) id
      (toFilters (.ofDialect dialect) column field comparisons) := by
  cases comparisons with
  | nil => exact binds_pure rfl
  | cons c rest =>
    rw [toFilters, fieldTestsOfAll]
    exact (toFilter_binds c).both (toFilters_binds rest) fun _ _ _ _ h h' => h.append h'

theorem alternativesToFilters_binds (alternatives : List (List Comparison)) :
    Binds (ι := ι) (alternativeFieldTests field alternatives) id
      (alternativesToFilters (.ofDialect dialect) column field alternatives) := by
  cases alternatives with
  | nil => exact binds_pure rfl
  | cons alternative rest =>
    rw [alternativesToFilters, alternativeFieldTests]
    exact (toFilters_binds alternative).both (alternativesToFilters_binds rest)
      fun _ _ _ _ h h' => h.chain.append h'

end

end Comparison

namespace Predicate

variable {g : EntityGraph ι}

mutual

theorem toFilter_binds (aliasName path : String) (p : Predicate) : Binds (fieldTests p)
    Option.toList (toFilter g (.ofDialect dialect) aliasName path p) := by
  cases p with
  | field name column comparisons =>
    rw [toFilter, fieldTests]
    refine binds_of_quiet (fun c r c' h => ?_) fun c => ?_
    · obtain ⟨-, rfl⟩ := Prod.mk.inj h
      exact ⟨rfl, rfl⟩
    · exact (Comparison.toFilters_binds comparisons).map fun _ _ h => h.ofParts h.chain
  | relation name condition =>
    rw [toFilter, fieldTests]
    refine binds_of_quiet (fun c r c' h => ?_) fun bound => toFilter_binds bound _ condition
    obtain ⟨-, rfl⟩ := Prod.mk.inj h
    exact ⟨rfl, rfl⟩
  | all children =>
    rw [toFilter, fieldTests]
    exact (toFilters_binds aliasName path children).map fun _ _ h => h.ofParts (h.group .and)
  | any children =>
    rw [toFilter, fieldTests]
    exact (toFilters_binds aliasName path children).map fun _ _ h => h.ofParts (h.group .or)
  | not child =>
    rw [toFilter, fieldTests]
    exact (toFilter_binds aliasName path child).map fun _ _ h => h.negation
  | fields entries =>
    rw [toFilter, fieldTests]
    exact (toFilters_binds aliasName path entries).map fun _ _ h => h.ofParts h.chain

theorem toFilters_binds (aliasName path : String) (ps : List Predicate) :
    Binds (fieldTestsOfAll ps) id (toFilters g (.ofDialect dialect) aliasName path ps) := by
  cases ps with
  | nil => exact binds_pure rfl
  | cons p rest =>
    rw [toFilters, fieldTestsOfAll]
    exact (toFilter_binds aliasName path p).both (toFilters_binds aliasName path rest)
      fun _ _ _ _ h h' => h.append h'

end

end Predicate

/-! ### Calls in turn -/

/-- A call for the filter of a predicate on the entity at a path, which stands under an alias. -/
structure RenderCall where
  aliasName : String
  path : String
  predicate : Predicate

namespace RenderCall

/-- The outcomes of calls in turn, with the context after them. A call that fails leaves what it has
bound, and the next one goes on from there. -/
def outcomes (g : EntityGraph ι) (table : OperatorTable) : List RenderCall → Context ι →
    List (Except QueryError (Option Filter)) × Context ι
  | [], c => ([], c)
  | call :: rest, c =>
    let (outcome, c₁) := (call.predicate.toFilter g table call.aliasName call.path).exec c
    let (more, c₂) := outcomes g table rest c₁
    (outcome :: more, c₂)

/-- The tests of calls, in the order in which they are compiled. -/
def tests (calls : List RenderCall) : List FieldTest := calls.flatMap (·.predicate.fieldTests)

/-- Calls in turn run through some of the tests of each, and bind what these say. -/
theorem exists_runs (g : EntityGraph ι) (dialect : Option String) (calls : List RenderCall)
    (c : Context ι) :
    ∃ runs : List (List FieldTest),
      List.Forall₂ (fun call ran => ran <+: call.predicate.fieldTests) calls runs ∧
      (outcomes g (.ofDialect dialect) calls c).2.counter = c.counter + runs.flatten.length ∧
      (outcomes g (.ofDialect dialect) calls c).2.parameters =
        c.parameters.bindAll (bindingsFrom c.counter runs.flatten) ∧
      ∀ filters : List (Option Filter),
        (outcomes g (.ofDialect dialect) calls c).1 = filters.map .ok →
        runs.flatten = tests calls ∧ (∀ t ∈ tests calls, t.refusal? = none) ∧
          Filter.Shows (filters.flatMap Option.toList) (bindingsFrom c.counter (tests calls)) := by
  induction calls generalizing c with
  | nil =>
    refine ⟨[], .nil, rfl, rfl, fun filters h => ⟨rfl, by simp [tests], ?_⟩⟩
    obtain rfl := List.map_eq_nil_iff.1 h.symm
    exact .nil
  | cons call rest ih =>
    rcases hrun : (call.predicate.toFilter g (.ofDialect dialect) call.aliasName call.path).exec c with
      ⟨outcome, c₁⟩
    have hcons : outcomes g (.ofDialect dialect) (call :: rest) c =
        (outcome :: (outcomes g (.ofDialect dialect) rest c₁).1,
          (outcomes g (.ofDialect dialect) rest c₁).2) := by
      rw [outcomes, hrun]
    obtain ⟨ran, hran, hok⟩ := Predicate.toFilter_binds call.aliasName call.path call.predicate hrun
    obtain ⟨runs, hprogress, hcounter, hparameters, hsuccess⟩ := ih c₁
    rw [hcons]
    refine ⟨ran :: runs, .cons hran.isFirst hprogress, ?_, ?_, fun filters h => ?_⟩
    · rw [hcounter, hran.counter, List.flatten_cons, List.length_append, Nat.add_assoc]
    · rw [hparameters, hran.parameters, hran.counter, List.flatten_cons,
        FieldTest.bindingsFrom_append, Parameters.bindAll_append]
    · obtain ⟨f, filters, rfl, hf, hrest⟩ := List.map_eq_cons_iff.1 h.symm
      obtain ⟨rfl, haccepted, hshows⟩ := hok f hf.symm
      obtain ⟨hruns, haccepted', hshows'⟩ := hsuccess filters hrest.symm
      have htests : tests (call :: rest) = call.predicate.fieldTests ++ tests rest := rfl
      rw [List.flatten_cons, hruns, htests, FieldTest.bindingsFrom_append]
      rw [hran.counter] at hshows'
      exact ⟨rfl, List.forall_mem_append.2 ⟨haccepted, haccepted'⟩, hshows.append hshows'⟩

/-- The parameters of calls that have all succeeded, with the filters that they gave. -/
structure Matched (calls : List RenderCall) (filters : List (Option Filter)) (p : Parameters) :
    Prop where
  /-- Every test has bound its own values. -/
  values : p.values = (bindingsFrom 0 (tests calls)).map fun b => (b.name, b.value)
  /-- The texts name the parameters in the order of binding, each once. -/
  placeholders : (filters.flatMap fun f => f.toList.flatMap Filter.parameters) = Assoc.keys p.values
  once : (Assoc.keys p.values).Nodup
  expanding : p.expanding = listKeysFrom 0 (tests calls)
  lists : ∀ name ∈ p.expanding, ∃ items, Assoc.get? p.values name = some (.list items)
  /-- The names can be read off the characters of a text that is spelled legibly. -/
  reads : ∀ quote, ∀ f ∈ filters, ∀ shown ∈ f, shown.Legible quote →
    FilterToken.lex (Filter.textOf quote f).toList = some shown.tokens
  /-- A text is spelled legibly under the quote of a dialect that keeps the names in it. -/
  quoted : ∀ d : Dialect, ∀ f ∈ filters, ∀ shown ∈ f, (∀ c ∈ shown.columns, d.Keeps c) →
    (∀ name ∈ shown.parameters, FilterToken.IsWord name) →
    FilterToken.lex (Filter.textOf d.quote f).toList = some shown.tokens

/-- What calls in turn bind when they have come as far as the tests `runs`, one run for each call. -/
structure BindsApart (calls : List RenderCall) (outcomes : List (Except QueryError (Option Filter)))
    (c : Context ι) (runs : List (List FieldTest)) : Prop where
  progress : List.Forall₂ (fun call ran => ran <+: call.predicate.fieldTests) calls runs
  counter : c.counter = runs.flatten.length
  bound : c.parameters = Parameters.empty.bindAll (bindingsFrom 0 runs.flatten)
  /-- No two bindings are of one name. -/
  apart : ((bindingsFrom 0 runs.flatten).map (·.name)).Nodup
  /-- There is one entry for each binding. -/
  kept : c.parameters = Parameters.empty.keepAll (bindingsFrom 0 runs.flatten)
  matched : ∀ filters : List (Option Filter), outcomes = filters.map .ok →
     Matched calls filters c.parameters

/-- Calls in turn that begin without parameters never bind a name twice, whichever of them fail and
wherever they find the joins. Where all succeed, the names are those in their texts. -/
theorem outcomes_bind_apart (g : EntityGraph ι) (dialect : Option String) (tree : JoinTree ι)
    (layout : Layout) (calls : List RenderCall) :
    ∃ runs, BindsApart calls (outcomes g (.ofDialect dialect) calls ⟨tree, layout, .empty, 0⟩).1
      (outcomes g (.ofDialect dialect) calls ⟨tree, layout, .empty, 0⟩).2 runs := by
  obtain ⟨runs, hprogress, hcounter, hparameters, hsuccess⟩ :=
    exists_runs g dialect calls ⟨tree, layout, .empty, 0⟩
  generalize outcomes g (.ofDialect dialect) calls ⟨tree, layout, .empty, 0⟩ = result at *
  obtain ⟨outcomes, c⟩ := result
  dsimp only at hcounter hparameters hsuccess ⊢
  have hapart := FieldTest.nodup_bindingsFrom 0 runs.flatten
  have hkept := Parameters.bindAll_of_nodup (p := .empty) hapart (by simp [Parameters.empty, Assoc.keys])
    (by simp [Parameters.empty])
  refine ⟨runs, hprogress, hcounter.trans (Nat.zero_add _), hparameters, hapart,
    hparameters.trans hkept, fun filters h => ?_⟩
  obtain ⟨hruns, haccepted, hshows⟩ := hsuccess filters h
  rw [hruns] at hkept hapart hparameters
  rw [hparameters, hkept]
  have hkeys : Assoc.keys (Parameters.empty.keepAll (bindingsFrom 0 (tests calls))).values =
      (bindingsFrom 0 (tests calls)).map (·.name) := by
    simp [Parameters.keepAll, Parameters.empty, Assoc.keys]
  have hreads : ∀ quote, ∀ f ∈ filters, ∀ shown ∈ f, shown.Legible quote →
      FilterToken.lex (Filter.textOf quote f).toList = some shown.tokens := by
    intro quote f hf shown hshown hlegible
    obtain rfl : f = some shown := hshown
    have hmem : shown ∈ filters.flatMap Option.toList :=
      List.mem_flatMap.2 ⟨_, hf, List.mem_singleton_self _⟩
    exact (hshows.spelled shown hmem).lex_text hlegible
  constructor
  case values => exact List.nil_append _
  case placeholders =>
    rw [hkeys, ← hshows.parameters, List.flatMap_assoc]
  case once => exact hkeys ▸ hapart
  case expanding => exact (List.nil_append _).trans (FieldTest.expanding_bindingsFrom haccepted 0)
  case lists =>
    intro name hname
    obtain ⟨b, hb, rfl⟩ := List.mem_map.1 hname
    obtain ⟨hb, hexpanding⟩ := List.mem_filter.1 hb
    obtain ⟨items, hitems⟩ := FieldTest.exists_list_of_expanding hb hexpanding
    refine ⟨items, Assoc.get?_of_mem (hkeys ▸ hapart) (List.mem_map.2 ⟨b, hb, ?_⟩)⟩
    rw [hitems]
  case reads => exact hreads
  case quoted =>
    exact fun d f hf shown hshown hkeeps hwords =>
      hreads d.quote f hf shown hshown ⟨fun c hc => (hkeeps c hc).legible, hwords⟩

end RenderCall

end EntityQuery

import EntityQuery.Store.Meaning

/-! Filters read back from their tokens as boolean expressions of the query language: `NOT` binds
tighter than `AND`, `AND` tighter than `OR`, parentheses group, and `BETWEEN` takes the next `AND` to
itself. A written filter reads as an expression that has the truth value of the filter. -/

namespace EntityQuery

variable {κ : Type}

/-- A boolean expression over tests of columns of type `κ`. -/
inductive Formula (κ : Type) where
  | test (column : κ) (test : Test)
  | not (inner : Formula κ)
  | and (left right : Formula κ)
  | or (left right : Formula κ)

namespace Truth

theorem and_true (t : Truth) : t.and .true = t := by cases t <;> rfl

theorem or_false (t : Truth) : t.or .false = t := by cases t <;> rfl

theorem and_assoc (s t u : Truth) : (s.and t).and u = s.and (t.and u) := by
  cases s <;> cases t <;> cases u <;> rfl

end Truth

namespace Formula

def truth (ev : Evaluation) (sight : κ → ColumnType × Cell) (parameters : List (String × Value)) :
    Formula κ → Truth
  | test c t => t.eval ev parameters (sight c).1 (sight c).2
  | not f => (f.truth ev sight parameters).not
  | and f g => (f.truth ev sight parameters).and (g.truth ev sight parameters)
  | or f g => (f.truth ev sight parameters).or (g.truth ev sight parameters)

end Formula

namespace FilterToken

/-! ### The grammar -/

/-- The test that a symbol makes of a parameter. -/
def testOf? (symbol parameter : String) : Option Test :=
  match symbol with
  | "=" => some (.compare .eq parameter)
  | "!=" => some (.compare .ne parameter)
  | "<" => some (.compare .lt parameter)
  | "<=" => some (.compare .le parameter)
  | ">" => some (.compare .gt parameter)
  | ">=" => some (.compare .ge parameter)
  | "IN" => some (.member false parameter)
  | "NOT IN" => some (.member true parameter)
  | "LIKE" => some (.like false false parameter)
  | "NOT LIKE" => some (.like true false parameter)
  | "REGEXP" => some (.pattern "REGEXP" parameter)
  | "~" => some (.pattern "~" parameter)
  | _ => none

/-- One test at the front of a row of tokens. -/
def readTest : List (FilterToken κ) → Option (Formula κ × List (FilterToken κ))
  | .column c :: .symbol "BETWEEN" :: .parameter low :: .connective .and :: .parameter high :: rest =>
    some (.test c (.between low high), rest)
  | .column c :: .symbol s :: .parameter p :: rest => (testOf? s p).map fun t => (.test c t, rest)
  | .column c :: .suffix "IS NULL" :: rest => some (.test c (.null false), rest)
  | .column c :: .suffix "IS NOT NULL" :: rest => some (.test c (.null true), rest)
  | .lower :: .openParen :: .column c :: .closeParen :: .symbol "LIKE" ::
      .lower :: .openParen :: .parameter p :: .closeParen :: rest =>
    some (.test c (.like false true p), rest)
  | .lower :: .openParen :: .column c :: .closeParen :: .symbol "NOT LIKE" ::
      .lower :: .openParen :: .parameter p :: .closeParen :: rest =>
    some (.test c (.like true true p), rest)
  | _ => none

theorem length_readTest {ts rest : List (FilterToken κ)} {f : Formula κ}
    (h : readTest ts = some (f, rest)) : rest.length < ts.length := by
  unfold readTest at h
  split at h
  all_goals first
    | (obtain ⟨-, rfl⟩ := Prod.mk.inj (Option.some.inj h); simp only [List.length_cons]; omega)
    | (obtain ⟨_, -, h⟩ := Option.map_eq_some_iff.1 h
       obtain ⟨-, rfl⟩ := Prod.mk.inj h
       simp only [List.length_cons]
       omega)
    | simp at h

/-- An expression with what follows it in a row of tokens. -/
abbrev Read (ts : List (FilterToken κ)) :=
  Option (Formula κ × { rest : List (FilterToken κ) // rest.length < ts.length })

mutual

/-- Conjunctions with `OR` between them. -/
def readOr (ts : List (FilterToken κ)) : Read ts :=
  match readAnd ts with
  | some (f, ⟨.connective .or :: rest, h⟩) =>
    have hrest : rest.length < ts.length := Nat.lt_of_succ_lt h
    (readOr rest).map fun (g, rest') => (.or f g, ⟨rest'.1, Nat.lt_trans rest'.2 hrest⟩)
  | r => r
termination_by (ts.length, 2)

/-- Operands with `AND` between them. -/
def readAnd (ts : List (FilterToken κ)) : Read ts :=
  match readOperand ts with
  | some (f, ⟨.connective .and :: rest, h⟩) =>
    have hrest : rest.length < ts.length := Nat.lt_of_succ_lt h
    (readAnd rest).map fun (g, rest') => (.and f g, ⟨rest'.1, Nat.lt_trans rest'.2 hrest⟩)
  | r => r
termination_by (ts.length, 1)

/-- A negated operand, an expression in parentheses, or a test. -/
def readOperand (ts : List (FilterToken κ)) : Read ts :=
  match ts with
  | .not :: rest =>
    (readOperand rest).map fun (f, rest') => (.not f, ⟨rest'.1, Nat.lt_succ_of_lt rest'.2⟩)
  | .openParen :: rest =>
    match readOr rest with
    | some (f, ⟨.closeParen :: rest', h⟩) =>
      some (f, ⟨rest', Nat.lt_succ_of_lt (Nat.lt_of_succ_lt h)⟩)
    | _ => none
  | ts =>
    match h : readTest ts with
    | some (f, rest) => some (f, ⟨rest, length_readTest h⟩)
    | none => none
termination_by (ts.length, 0)

end

/-! The same readers, without the proofs that they use up tokens. -/

def disjunction (ts : List (FilterToken κ)) : Option (Formula κ × List (FilterToken κ)) :=
  (readOr ts).map fun (f, rest) => (f, rest.1)

def conjunction (ts : List (FilterToken κ)) : Option (Formula κ × List (FilterToken κ)) :=
  (readAnd ts).map fun (f, rest) => (f, rest.1)

def operand (ts : List (FilterToken κ)) : Option (Formula κ × List (FilterToken κ)) :=
  (readOperand ts).map fun (f, rest) => (f, rest.1)

theorem disjunction_of_or {ts rest : List (FilterToken κ)} {f : Formula κ}
    (h : conjunction ts = some (f, .connective .or :: rest)) :
    disjunction ts = (disjunction rest).map fun (g, rest) => (.or f g, rest) := by
  obtain ⟨⟨f', rest', hrest⟩, hr, hf⟩ := Option.map_eq_some_iff.1 h
  obtain ⟨rfl, rfl⟩ := Prod.mk.inj hf
  rw [disjunction, readOr, hr]
  simp only [disjunction, Option.map_map, Function.comp_def]

theorem disjunction_of_end {ts rest : List (FilterToken κ)} {f : Formula κ}
    (h : conjunction ts = some (f, rest)) (hend : ∀ more, rest ≠ .connective .or :: more) :
    disjunction ts = some (f, rest) := by
  obtain ⟨⟨f', rest', hrest⟩, hr, hf⟩ := Option.map_eq_some_iff.1 h
  obtain ⟨rfl, rfl⟩ := Prod.mk.inj hf
  rw [disjunction, readOr, hr]
  split
  · next heq =>
    simp only [Option.some.injEq, Prod.mk.injEq, Subtype.mk.injEq] at heq
    exact absurd heq.2 (hend _)
  · rfl

theorem conjunction_of_and {ts rest : List (FilterToken κ)} {f : Formula κ}
    (h : operand ts = some (f, .connective .and :: rest)) :
    conjunction ts = (conjunction rest).map fun (g, rest) => (.and f g, rest) := by
  obtain ⟨⟨f', rest', hrest⟩, hr, hf⟩ := Option.map_eq_some_iff.1 h
  obtain ⟨rfl, rfl⟩ := Prod.mk.inj hf
  rw [conjunction, readAnd, hr]
  simp only [conjunction, Option.map_map, Function.comp_def]

theorem conjunction_of_end {ts rest : List (FilterToken κ)} {f : Formula κ}
    (h : operand ts = some (f, rest)) (hend : ∀ more, rest ≠ .connective .and :: more) :
    conjunction ts = some (f, rest) := by
  obtain ⟨⟨f', rest', hrest⟩, hr, hf⟩ := Option.map_eq_some_iff.1 h
  obtain ⟨rfl, rfl⟩ := Prod.mk.inj hf
  rw [conjunction, readAnd, hr]
  split
  · next heq =>
    simp only [Option.some.injEq, Prod.mk.injEq, Subtype.mk.injEq] at heq
    exact absurd heq.2 (hend _)
  · rfl

theorem operand_not (rest : List (FilterToken κ)) :
    operand (.not :: rest) = (operand rest).map fun (f, rest) => (.not f, rest) := by
  rw [operand, readOperand]
  simp only [operand, Option.map_map, Function.comp_def]

theorem operand_paren {rest rest' : List (FilterToken κ)} {f : Formula κ}
    (h : disjunction rest = some (f, .closeParen :: rest')) :
    operand (.openParen :: rest) = some (f, rest') := by
  obtain ⟨⟨f', more, hmore⟩, hr, hf⟩ := Option.map_eq_some_iff.1 h
  obtain ⟨rfl, rfl⟩ := Prod.mk.inj hf
  rw [operand, readOperand, hr]
  rfl

theorem operand_of_readTest {ts rest : List (FilterToken κ)} {f : Formula κ}
    (h : readTest ts = some (f, rest)) : operand ts = some (f, rest) := by
  rw [operand, readOperand]
  · split
    · next heq => simpa using heq.symm.trans h
    · next heq => simp [heq] at h
  · rintro rest rfl
    simp [readTest] at h
  · rintro rest rfl
    simp [readTest] at h

/-- A whole row of tokens as an expression. -/
def formula? (ts : List (FilterToken κ)) : Option (Formula κ) :=
  match disjunction ts with
  | some (f, []) => some f
  | _ => none

end FilterToken

/-! ### Written filters -/

namespace Test

/-- A test whose regular expression, if it has one, is spelled in one of the known ways. -/
def Spelled : Test → Prop
  | .pattern symbol _ => symbol = "REGEXP" ∨ symbol = "~"
  | _ => True

open FilterToken in
theorem readTest_tokens {t : Test} (ht : t.Spelled) (c : κ) (rest : List (FilterToken κ)) :
    readTest (t.tokens c ++ rest) = some (.test c t, rest) := by
  cases t with
  | compare relop p => cases relop <;> rfl
  | member negated p => cases negated <;> rfl
  | between low high => rfl
  | like negated folded p => cases negated <;> cases folded <;> rfl
  | pattern symbol p => rcases ht with rfl | rfl <;> rfl
  | null negated => cases negated <;> rfl

end Test

namespace Filter

/-- A filter without empty parts, all of whose tests are spelled in a known way. -/
inductive Solid : Filter → Prop
  | test {c : ColumnRef} {t : Test} (h : t.Spelled) : Solid (.test c t)
  | chain {parts : List Filter} (hne : parts ≠ []) (h : ∀ f ∈ parts, Solid f) : Solid (.chain parts)
  | group {c : Connective} {parts : List Filter} (hne : parts ≠ []) (h : ∀ f ∈ parts, Solid f) :
    Solid (.group c parts)
  | negation {inner : Filter} (h : Solid inner) : Solid (.negation inner)

variable (ev : Evaluation) (sight : Sight) (parameters : List (String × Value))

/-! The truth of the parts of a filter, taken one by one. -/

theorem evals_eq_map (parts : List Filter) :
    evals ev sight parameters parts = parts.map (eval ev sight parameters) := by
  induction parts with
  | nil => rfl
  | cons f rest ih => rw [evals, ih, List.map_cons]

theorem eval_chain (parts : List Filter) :
    (chain parts).eval ev sight parameters = .all (parts.map (eval ev sight parameters)) := by
  rw [eval, evals_eq_map]

theorem eval_group_and (parts : List Filter) :
    (group .and parts).eval ev sight parameters = .all (parts.map (eval ev sight parameters)) := by
  rw [eval, evals_eq_map]

theorem eval_group_or (parts : List Filter) :
    (group .or parts).eval ev sight parameters = .any (parts.map (eval ev sight parameters)) := by
  rw [eval, evals_eq_map]

theorem tokensOfAll_eq (parts : List Filter) : tokensOfAll parts = parts.map tokens := by
  induction parts with
  | nil => rfl
  | cons f rest ih => rw [tokensOfAll, ih, List.map_cons]

theorem between_cons_cons (c : Connective) (ts us : List (FilterToken κ))
    (rest : List (List (FilterToken κ))) :
    FilterToken.between c (ts :: us :: rest) =
      ts ++ .connective c :: FilterToken.between c (us :: rest) := by
  simp [FilterToken.between, List.intercalate]

/-- What stands after an operand: the end of its conjunction, or more operands of it. -/
inductive Continues : List (FilterToken ColumnRef) → Truth → List (FilterToken ColumnRef) → Prop
  | stop {rest} (h : ∀ more, rest ≠ .connective .and :: more) : Continues rest .true rest
  | more {rest rest'} {f : Formula ColumnRef} (h : FilterToken.conjunction rest = some (f, rest')) :
    Continues (.connective .and :: rest) (f.truth ev sight parameters) rest'

/-- The tokens of a filter read as operands of the conjunction in which they stand. -/
def Reads (f : Filter) : Prop :=
  ∀ rest t rest', Continues ev sight parameters rest t rest' →
    ∃ g, FilterToken.conjunction (f.tokens ++ rest) = some (g, rest') ∧
      g.truth ev sight parameters = (f.eval ev sight parameters).and t

theorem continues_closeParen (rest : List (FilterToken ColumnRef)) :
    Continues ev sight parameters (.closeParen :: rest) .true (.closeParen :: rest) :=
  .stop (by simp)

theorem continues_or (rest : List (FilterToken ColumnRef)) :
    Continues ev sight parameters (.connective .or :: rest) .true (.connective .or :: rest) :=
  .stop (by simp)

variable {ev sight parameters}

theorem conjunction_of_operand {ts rest rest' : List (FilterToken ColumnRef)} {t : Truth}
    {f : Formula ColumnRef} (h : FilterToken.operand ts = some (f, rest))
    (hc : Continues ev sight parameters rest t rest') :
    ∃ g, FilterToken.conjunction ts = some (g, rest') ∧
      g.truth ev sight parameters = (f.truth ev sight parameters).and t := by
  cases hc with
  | stop hend => exact ⟨f, FilterToken.conjunction_of_end h hend, (Truth.and_true _).symm⟩
  | @more rest _ g hmore =>
    refine ⟨.and f g, ?_, rfl⟩
    rw [FilterToken.conjunction_of_and h, hmore]
    rfl

theorem conjunction_chain {parts : List Filter} (hne : parts ≠ [])
    (h : ∀ f ∈ parts, Reads ev sight parameters f)
    {rest rest' : List (FilterToken ColumnRef)} {t : Truth}
    (hc : Continues ev sight parameters rest t rest') :
    ∃ g, FilterToken.conjunction (FilterToken.between .and (parts.map tokens) ++ rest) =
        some (g, rest') ∧
      g.truth ev sight parameters =
        (Truth.all (parts.map (eval ev sight parameters))).and t := by
  induction parts with
  | nil => exact absurd rfl hne
  | cons f parts ih =>
    cases parts with
    | nil =>
      obtain ⟨g, hg, ht⟩ := h f (by simp) rest t rest' hc
      refine ⟨g, by simpa [FilterToken.between, List.intercalate] using hg, ?_⟩
      simpa [Truth.all, Truth.and_true] using ht
    | cons f' parts =>
      obtain ⟨g, hg, ht⟩ := ih (by simp) fun f hf => h f (List.mem_cons_of_mem _ hf)
      obtain ⟨g', hg', ht'⟩ := h f (by simp) _ _ _ (.more hg)
      refine ⟨g', ?_, ?_⟩
      · rw [List.map_cons, List.map_cons, between_cons_cons, List.append_assoc, List.cons_append]
        exact hg'
      · rw [ht', ht, ← Truth.and_assoc]
        rfl

theorem disjunction_chain {parts : List Filter} (hne : parts ≠ [])
    (h : ∀ f ∈ parts, Reads ev sight parameters f) (rest : List (FilterToken ColumnRef)) :
    ∃ g, FilterToken.disjunction (FilterToken.between .or (parts.map tokens) ++ .closeParen :: rest) =
        some (g, .closeParen :: rest) ∧
      g.truth ev sight parameters = Truth.any (parts.map (eval ev sight parameters)) := by
  induction parts with
  | nil => exact absurd rfl hne
  | cons f parts ih =>
    cases parts with
    | nil =>
      obtain ⟨g, hg, ht⟩ := h f (by simp) (.closeParen :: rest) _ _ (.stop (by simp))
      refine ⟨g, ?_, ?_⟩
      · have hg := FilterToken.disjunction_of_end hg (by simp)
        simpa [FilterToken.between, List.intercalate] using hg
      · simpa [Truth.any, Truth.and_true, Truth.or_false] using ht
    | cons f' parts =>
      obtain ⟨g, hg, ht⟩ := ih (by simp) fun f hf => h f (List.mem_cons_of_mem _ hf)
      obtain ⟨g', hg', ht'⟩ := h f (by simp) _ _ _ (continues_or _ _ _
        (FilterToken.between .or ((f' :: parts).map tokens) ++ .closeParen :: rest))
      refine ⟨.or g' g, ?_, ?_⟩
      · rw [List.map_cons, List.map_cons, between_cons_cons, List.append_assoc, List.cons_append,
          ← List.map_cons, FilterToken.disjunction_of_or hg', hg]
        rfl
      · rw [Formula.truth, ht', ht, Truth.and_true]
        rfl

theorem Solid.reads {f : Filter} (hf : Solid f) : Reads ev sight parameters f := by
  induction hf with
  | @test c t ht =>
    intro rest u rest' hc
    rw [tokens, eval]
    exact conjunction_of_operand (FilterToken.operand_of_readTest (t.readTest_tokens ht c rest)) hc
  | @chain parts hne _ ih =>
    intro rest t rest' hc
    rw [tokens, tokensOfAll_eq, eval_chain]
    exact conjunction_chain hne ih hc
  | @group c parts hne _ ih =>
    intro rest t rest' hc
    rw [tokens, tokensOfAll_eq]
    cases c with
    | and =>
      obtain ⟨g, hg, ht⟩ := conjunction_chain hne ih (continues_closeParen _ _ _ rest)
      have hg := FilterToken.operand_paren (FilterToken.disjunction_of_end hg (by simp))
      obtain ⟨g', hg', ht'⟩ := conjunction_of_operand hg hc
      refine ⟨g', by simpa using hg', ?_⟩
      rw [ht', ht, Truth.and_true, eval_group_and]
    | or =>
      obtain ⟨g, hg, ht⟩ := disjunction_chain hne ih rest
      obtain ⟨g', hg', ht'⟩ := conjunction_of_operand (FilterToken.operand_paren hg) hc
      refine ⟨g', by simpa using hg', ?_⟩
      rw [ht', ht, eval_group_or]
  | @negation inner _ ih =>
    intro rest t rest' hc
    obtain ⟨g, hg, ht⟩ := ih _ _ _ (continues_closeParen _ _ _ rest)
    have hg := FilterToken.operand_paren (FilterToken.disjunction_of_end hg (by simp))
    have hnot : FilterToken.operand (.not :: .openParen :: (inner.tokens ++ .closeParen :: rest)) =
        some (.not g, rest) := by
      rw [FilterToken.operand_not, hg]
      rfl
    obtain ⟨g', hg', ht'⟩ := conjunction_of_operand hnot hc
    refine ⟨g', by simpa [tokens] using hg', ?_⟩
    rw [ht', Formula.truth, ht, Truth.and_true, eval]

/-- The tokens of a filter read as an expression with the truth of the filter. -/
theorem Solid.formula {f : Filter} (hf : Solid f) (ev : Evaluation) (sight : Sight)
    (parameters : List (String × Value)) :
    ∃ g, FilterToken.formula? f.tokens = some g ∧
      g.truth ev sight parameters = f.eval ev sight parameters := by
  have hreads : Reads ev sight parameters f := hf.reads
  obtain ⟨g, hg, ht⟩ := hreads [] .true [] (.stop (by simp))
  refine ⟨g, ?_, ht.trans (Truth.and_true _)⟩
  rw [List.append_nil] at hg
  rw [FilterToken.formula?, FilterToken.disjunction_of_end hg (by simp)]

end Filter

/-! ### What a filter names -/

/-- The column or the parameter that a token names. -/
def FilterToken.leaf? {κ : Type} : FilterToken κ → Option (κ ⊕ String)
  | .column c => some (.inl c)
  | .parameter name => some (.inr name)
  | _ => none

/-- The parameters of a test, in the order of its text. -/
def Test.parameters : Test → List String
  | .compare _ p => [p]
  | .member _ p => [p]
  | .between low high => [low, high]
  | .like _ _ p => [p]
  | .pattern _ p => [p]
  | .null _ => []

namespace Filter

/-- The columns and the parameters that the text of a filter names, in order. -/
def leaves (f : Filter) : List (ColumnRef ⊕ String) := f.tokens.filterMap FilterToken.leaf?

def columns (f : Filter) : List ColumnRef := f.leaves.filterMap Sum.getLeft?

def parameters (f : Filter) : List String := f.leaves.filterMap Sum.getRight?

theorem leaves_test (c : ColumnRef) (t : Test) :
    (test c t).leaves = .inl c :: t.parameters.map .inr := by
  rw [leaves, tokens]
  cases t with
  | like negated folded p => cases folded <;> rfl
  | _ => rfl

theorem columns_test (c : ColumnRef) (t : Test) : (test c t).columns = [c] := by
  rw [columns, leaves_test]
  cases t <;> rfl

theorem parameters_test (c : ColumnRef) (t : Test) : (test c t).parameters = t.parameters := by
  rw [parameters, leaves_test]
  cases t <;> rfl

theorem filterMap_between (c : Connective) (parts : List Filter) :
    (FilterToken.between c (parts.map tokens)).filterMap FilterToken.leaf? =
      parts.flatMap leaves := by
  induction parts with
  | nil => rfl
  | cons f parts ih =>
    cases parts with
    | nil => simp [FilterToken.between, leaves]
    | cons f' parts =>
      rw [List.map_cons, List.map_cons, between_cons_cons, List.filterMap_append, List.flatMap_cons,
        List.filterMap_cons_none (by rfl), ← List.map_cons, ih]
      rfl

theorem leaves_chain (parts : List Filter) : (chain parts).leaves = parts.flatMap leaves := by
  rw [leaves, tokens, tokensOfAll_eq, filterMap_between]

theorem leaves_group (c : Connective) (parts : List Filter) :
    (group c parts).leaves = parts.flatMap leaves := by
  rw [leaves, tokens, tokensOfAll_eq]
  simp [List.filterMap_cons, FilterToken.leaf?, filterMap_between]

theorem leaves_negation (inner : Filter) : (negation inner).leaves = inner.leaves := by
  simp [leaves, tokens, List.filterMap_cons, FilterToken.leaf?]

theorem columns_of_leaves {f : Filter} {parts : List Filter} (h : f.leaves = parts.flatMap leaves) :
    f.columns = parts.flatMap columns := by
  rw [columns, h, List.filterMap_flatMap]
  rfl

theorem parameters_of_leaves {f : Filter} {parts : List Filter}
    (h : f.leaves = parts.flatMap leaves) : f.parameters = parts.flatMap parameters := by
  rw [parameters, h, List.filterMap_flatMap]
  rfl

/-! Parts that are put together name what they name on their own, also where there are none. -/

theorem columns_ofParts {build : List Filter → Filter} {parts : List Filter}
    (h : (build parts).leaves = parts.flatMap leaves) :
    (ofParts build parts).toList.flatMap columns = parts.flatMap columns := by
  cases parts with
  | nil => rfl
  | cons f parts => simpa [ofParts] using columns_of_leaves h

theorem parameters_ofParts {build : List Filter → Filter} {parts : List Filter}
    (h : (build parts).leaves = parts.flatMap leaves) :
    (ofParts build parts).toList.flatMap parameters = parts.flatMap parameters := by
  cases parts with
  | nil => rfl
  | cons f parts => simpa [ofParts] using parameters_of_leaves h

theorem solid_ofParts {build : List Filter → Filter} {parts : List Filter}
    (hbuild : parts ≠ [] → (∀ f ∈ parts, Solid f) → Solid (build parts))
    (h : ∀ f ∈ parts, Solid f) : ∀ f ∈ (ofParts build parts).toList, Solid f := by
  cases parts with
  | nil => simp [ofParts]
  | cons f parts => simpa [ofParts] using hbuild (by simp) h

end Filter

end EntityQuery

import EntityQuery.Sample
import EntityQuery.Proofs.Predicate.KeyPath
import EntityQuery.Proofs.Predicate.Laws
import EntityQuery.Proofs.Predicate.Progress
import EntityQuery.Proofs.Query.FilterText
import EntityQuery.Proofs.Query.Operands

/-! Clauses about one column. An object that compares a column is compiled without joins, and its text
reads as an expression whose truth depends on the cell of the column alone. So the laws of the operators
are laws of the texts, however different the texts are that a law compares. -/

namespace EntityQuery

variable {ι : Type} {g : EntityGraph ι}

/-! ### Predicates on one column -/

namespace Predicate

/-- Predicates that compare one column, with values that the operators accept, and their verdicts on its
cells. -/
structure OnColumn (field column : String) (verdicts : List Verdict) (ps : List Predicate) : Prop where
  accepted : ∀ t ∈ fieldTestsOfAll ps, t.refusal? = none
  relationPaths : relationPathsOfAll "" ps = []
  columns : ∀ aliasAt current, ∀ c ∈ columnsOfAll aliasAt current "" ps, c = ⟨current, column⟩
  fieldNames : ∀ name ∈ fieldNamesOfAll ps, name = field
  truths : ∀ matching rowAt row, truths ⟨matching, id⟩ rowAt row "" ps =
    verdicts.map fun v => v matching (row column).1 (row column).2

namespace OnColumn

variable {field column : String} {verdicts : List Verdict} {ps : List Predicate}

theorem nil : OnColumn field column [] [] where
  accepted := by simp [fieldTestsOfAll]
  relationPaths := rfl
  columns := by simp [columnsOfAll]
  fieldNames := by simp [fieldNamesOfAll]
  truths _ _ _ := rfl

/-- Comparisons of the column itself, before other predicates. -/
theorem cons {cs : List Comparison} (hne : cs ≠ [])
    (haccepted : ∀ t ∈ Comparison.fieldTestsOfAll field cs, t.refusal? = none)
    (h : OnColumn field column verdicts ps) :
    OnColumn field column (Comparison.verdict cs :: verdicts) (.field field column cs :: ps) where
  accepted := by
    rw [fieldTestsOfAll, Predicate.fieldTests, List.forall_mem_append]
    exact ⟨haccepted, h.accepted⟩
  relationPaths := h.relationPaths
  columns aliasAt current := by
    rw [columnsOfAll, Predicate.columns, List.forall_mem_append]
    exact ⟨fun c hc => (List.mem_replicate.1 hc).2, h.columns aliasAt current⟩
  fieldNames := by
    rw [fieldNamesOfAll, Predicate.fieldNames, List.forall_mem_append, List.forall_mem_singleton]
    exact ⟨rfl, h.fieldNames⟩
  truths matching rowAt row := by
    rw [Predicate.truths, h.truths]
    cases cs with
    | nil => exact absurd rfl hne
    | cons c rest => rfl

theorem singleton {cs : List Comparison} (hne : cs ≠ [])
    (haccepted : ∀ t ∈ Comparison.fieldTestsOfAll field cs, t.refusal? = none) :
    OnColumn field column [Comparison.verdict cs] [.field field column cs] :=
  cons hne haccepted nil

/-- One operator on several values. -/
theorem tests {op : Operator} {values : List Value} (haccepted : ∀ v ∈ values, op.refusal? v = none) :
    OnColumn field column (values.map op.verdict)
      (values.map fun v => .field field column [.test op v]) := by
  induction values with
  | nil => exact nil
  | cons v rest ih =>
    rw [List.forall_mem_cons] at haccepted
    rw [List.map_cons, List.map_cons, ← Comparison.verdict_test]
    exact cons (List.cons_ne_nil _ _) (List.forall_mem_singleton.2 haccepted.1) (ih haccepted.2)

/-- Predicates that must all hold. -/
theorem all (hne : verdicts ≠ []) (h : OnColumn field column verdicts ps) :
    OnColumn field column [.all verdicts] [.all ps] where
  accepted := by
    rw [fieldTestsOfAll, fieldTestsOfAll, List.append_nil]
    exact h.accepted
  relationPaths := by
    rw [relationPathsOfAll, relationPathsOfAll, List.append_nil]
    exact h.relationPaths
  columns aliasAt current := by
    rw [columnsOfAll, columnsOfAll, List.append_nil]
    exact h.columns aliasAt current
  fieldNames := by
    rw [fieldNamesOfAll, fieldNamesOfAll, List.append_nil]
    exact h.fieldNames
  truths matching rowAt row := by
    rw [Predicate.truths, Predicate.truths, List.append_nil, truth, h.truths]
    cases verdicts with
    | nil => exact absurd rfl hne
    | cons v vs => rfl

theorem anyComparison (hne : verdicts ≠ []) (h : OnColumn field column verdicts ps) :
    anyComparison ps = true := by
  rw [← truths_isEmpty ⟨fun _ _ _ => .unknown, id⟩ (fun _ _ => (.integer, .null))
    (fun _ => (.integer, .null)) "" ps, h.truths]
  simpa using hne

/-- No value is refused and no path is joined, so that compiling can only succeed. -/
theorem exists_run {p : Predicate} (h : OnColumn field column verdicts [p]) (g : EntityGraph ι)
    (dialect : Option String) (e : ι) (root : String) :
    ∃ f c, (p.toFilter g (.ofDialect dialect) "" "").exec (Context.start e root) = (.ok f, c) ∧
      c.tree.joins = [] := by
  have hpaths : p.relationPaths "" = [] := by
    simpa [Predicate.relationPathsOfAll] using h.relationPaths
  have hprogress : Step.Progresses (· = JoinTree.start e root) p.fieldTests False
      (p.toFilter g (.ofDialect dialect) "" "") :=
    toFilter_progresses p (by simp [hpaths])
  rcases hrun : (p.toFilter g (.ofDialect dialect) "" "").exec (Context.start e root) with ⟨result, c⟩
  obtain ⟨htree, hends⟩ := hprogress rfl hrun
  cases hends with
  | @done f => exact ⟨f, c, rfl, congrArg JoinTree.joins htree⟩
  | refused ht hrefusal =>
    rw [h.accepted _ (List.mem_append_left _ ht)] at hrefusal
    cases hrefusal
  | clashed hclash => exact hclash.elim

end OnColumn

end Predicate

/-! ### Objects on one column -/

theorem Comparison.reads_token (op : Operator) (value : Value) (path : String) :
    Reads path (.obj [(op.token, value)]) [.test op value] :=
  KeyPath.readAll_singleton (by rw [OperatorTable.normalize_token, Operator.ofToken?_token]) value

namespace EntityGraph

/-- A predicate object that is compiled without joins to a clause whose text reads as one expression.
Whatever regular expressions mean and whichever rows the aliases stand for, the expression is as true as
the verdict on the cell that the root's row has in the column of the field. Where that column is spelled
legibly and the field is a word, the expression can be read off the characters of the text. -/
def Judges (g : EntityGraph ι) (e : ι) (aliasName dialect : Option String) (quote : String → String)
    (field : String) (data : Value) (verdict : Verdict) : Prop :=
  let c : ColumnRef := ⟨rootAlias aliasName (g.entity e), (g.entity e).columnName field⟩
  ∃ (clause : FilterClause ι) (ts : List (FilterToken ColumnRef)) (φ : Formula ColumnRef),
    g.compilePredicate e aliasName (.ofDialect dialect) quote data = .ok clause ∧
    clause.joins = [] ∧
    clause.text = FilterToken.write (ColumnRef.spell quote) ts ∧
    FilterToken.formula? ts = some φ ∧
    (∀ matching rows, φ.truth ⟨matching, id⟩ (sightOf rows) clause.parameters.values =
      verdict matching (sightOf rows c).1 (sightOf rows c).2) ∧
    (FilterToken.Legible quote c → FilterToken.IsWord field →
      Formula.ofText? clause.text = some φ)

/-- Under the quote of a dialect the expression can be read off the characters of the text, as long as it
keeps the names of the column. -/
theorem Judges.exists_ofText? {g : EntityGraph ι} {e : ι} {aliasName dialect : Option String}
    {d : Dialect} {field : String} {data : Value} {verdict : Verdict}
    (h : g.Judges e aliasName dialect d.quote field data verdict)
    (hkeeps : d.Keeps ⟨rootAlias aliasName (g.entity e), (g.entity e).columnName field⟩)
    (hfield : FilterToken.IsWord field) :
    ∃ (clause : FilterClause ι) (φ : Formula ColumnRef),
      g.compilePredicate e aliasName (.ofDialect dialect) d.quote data = .ok clause ∧
      Formula.ofText? clause.text = some φ ∧
      ∀ matching rows, φ.truth ⟨matching, id⟩ (sightOf rows) clause.parameters.values =
        verdict matching (sightOf rows ⟨rootAlias aliasName (g.entity e),
            (g.entity e).columnName field⟩).1
          (sightOf rows ⟨rootAlias aliasName (g.entity e), (g.entity e).columnName field⟩).2 := by
  obtain ⟨clause, ts, φ, hclause, -, -, -, htruth, hcharacters⟩ := h
  exact ⟨clause, φ, hclause, hcharacters hkeeps.legible hfield, htruth⟩

/-- The object that compares a field. -/
def comparing (field : String) (condition : List (String × Value)) : Value :=
  .obj [(field, .obj condition)]

variable {e : ι} {field : String} {aliasName dialect : Option String} {quote : String → String}

/-- What is read as a predicate on a column is compiled to a clause that judges as the predicate does. -/
theorem judges_of_read {data : Value} {p : Predicate} {verdict : Verdict}
    (hread : g.readPredicate e data = .ok p)
    (h : Predicate.OnColumn field ((g.entity e).columnName field) [verdict] [p]) :
    g.Judges e aliasName dialect quote field data verdict := by
  generalize hroot : rootAlias aliasName (g.entity e) = root
  obtain ⟨f, c, hrun, hjoins⟩ := h.exists_run g dialect e root
  have hbuilds := (Predicate.read_over data hread).compiles (.ofDialect dialect)
    (Context.sound_start _ _) hrun
  have hmeans : (c.clause (Filter.textOf quote f)).Means quote root [p] := by
    have hbuilt := hbuilds.means (OperatorTable.spelled_ofDialect dialect) quote
    rwa [Filter.conjunction_toList] at hbuilt
  obtain ⟨ts, φ, htext, hφ, htruth, hcharacters⟩ :=
    hmeans.reads (h.anyComparison (List.cons_ne_nil _ _))
  refine ⟨_, ts, φ, compilePredicate_eq_ok.2 ⟨p, f, c, hread, by rw [hroot, hrun], rfl⟩, hjoins, htext,
    hφ, fun matching rows => ?_, fun hlegible hfield => ?_⟩
  · have hsame := htruth ⟨matching, id⟩ rows (fun _ => rows root) (by simp [Context.clause, hjoins])
    rw [h.truths] at hsame
    rw [hroot]
    exact (Option.some.inj hsame).trans (Truth.and_true _)
  · rw [hroot] at hlegible
    refine hcharacters (fun _ => root) (by simp [Context.clause, hjoins]) (fun c hc => ?_)
      fun name hname => ?_
    · exact (h.columns _ _ c hc) ▸ hlegible
    · exact (h.fieldNames name hname) ▸ hfield

section Comparing

variable (hrelation : (g.entity e).relation? field = none)
  (hcolumn : (g.entity e).hasColumn field = true)

include hrelation hcolumn

theorem readPredicate_comparing {condition : List (String × Value)} {cs : List Comparison}
    (hcs : ∀ path, Comparison.Reads path (.obj condition) cs) (path : String) :
    Predicate.Reads g e path (comparing field condition)
      (.field field ((g.entity e).columnName field) cs) :=
  Predicate.reads_singleton_iff.2 (.field hrelation hcolumn (hcs _))

/-- An object that compares a column judges as its comparisons do together. -/
theorem judges_comparing {condition : List (String × Value)} {cs : List Comparison}
    (hcs : ∀ path, Comparison.Reads path (.obj condition) cs)
    (haccepted : ∀ t ∈ Comparison.fieldTestsOfAll field cs, t.refusal? = none) :
    g.Judges e aliasName dialect quote field (comparing field condition) (Comparison.verdict cs) :=
  judges_of_read (readPredicate_comparing hrelation hcolumn hcs "")
    (.singleton (Comparison.readAll_proper (hcs "")).1 haccepted)

/-- An object of operators judges as all of them do. -/
theorem judges_tests {tests : List (Operator × Value)} (hne : tests ≠ [])
    (haccepted : ∀ t ∈ tests, t.1.refusal? t.2 = none) :
    g.Judges e aliasName dialect quote field (comparing field (tests.map fun t => (t.1.token, t.2)))
      (Comparison.verdict (tests.map fun t => .test t.1 t.2)) := by
  have hmembers : ∀ path, Comparison.readMembers path (tests.map fun t => (t.1.token, t.2)) =
      .ok (tests.map fun t => .test t.1 t.2) := by
    intro path
    rw [Comparison.readMembers_eq_ok, List.forall₂_map_left_iff, List.forall₂_map_right_iff,
      List.forall₂_same]
    exact fun t _ => .test (OperatorTable.normalize_token t.1)
  refine judges_comparing hrelation hcolumn (fun path => ?_) fun t ht => ?_
  · exact Comparison.readAll_eq_ok.2 ⟨_, rfl, by simpa using hne, hmembers path⟩
  · rw [Comparison.fieldTestsOfAll_eq, List.flatMap_map, List.mem_flatMap] at ht
    obtain ⟨t', ht', hmem⟩ := ht
    obtain rfl := List.mem_singleton.1 hmem
    exact haccepted t' ht'

/-- An object of one operator judges as the operator does. -/
theorem judges_operator (op : Operator) {value : Value} (haccepted : op.refusal? value = none) :
    g.Judges e aliasName dialect quote field (comparing field [(op.token, value)])
      (op.verdict value) := by
  rw [← Comparison.verdict_test]
  exact judges_tests hrelation hcolumn (List.cons_ne_nil (op, value) [])
    (List.forall_mem_singleton.2 haccepted)

/-- Alternatives of one operator each judge as any of them does. -/
theorem judges_alternatives (op : Operator) {values : List Value} (hne : values ≠ [])
    (haccepted : ∀ v ∈ values, op.refusal? v = none) :
    g.Judges e aliasName dialect quote field
      (comparing field [("or", .list (values.map fun v => .obj [(op.token, v)]))])
      (Comparison.verdict [.oneOf (values.map fun v => [.test op v])]) := by
  have hword : Token.normalize "or" = Token.alternatives := by decide
  have hitems : ∀ path, List.Forall₂ (Comparison.Reads path)
      (values.map fun v => .obj [(op.token, v)]) (values.map fun v => [.test op v]) := by
    intro path
    rw [List.forall₂_map_left_iff, List.forall₂_map_right_iff, List.forall₂_same]
    exact fun v _ => Comparison.reads_token op v _
  refine judges_comparing hrelation hcolumn (fun path => ?_) fun t ht => ?_
  · exact Comparison.readAll_eq_ok.2 ⟨_, rfl, List.cons_ne_nil _ _, Comparison.readMembers_eq_ok.2
      (.cons (.oneOf hword (by simpa using hne) (hitems path)) .nil)⟩
  · rw [Comparison.fieldTestsOfAll_eq, List.flatMap_singleton, Comparison.fieldTests,
      Comparison.alternativeFieldTests_eq, List.flatMap_map, List.mem_flatMap] at ht
    obtain ⟨v, hv, hmem⟩ := ht
    obtain rfl := List.mem_singleton.1 hmem
    exact haccepted v hv

/-- Objects of one operator each judge together as all of them do. -/
theorem judges_conjunction (op : Operator) {key : String}
    (hkey : Predicate.ReadsWord g e key .all) {values : List Value} (hne : values ≠ [])
    (haccepted : ∀ v ∈ values, op.refusal? v = none) :
    g.Judges e aliasName dialect quote field
      (.obj [(key, .list (values.map fun v => comparing field [(op.token, v)]))])
      (.all (values.map op.verdict)) := by
  have hitems : List.Forall₂ (Predicate.Reads g e "")
      (values.map fun v => comparing field [(op.token, v)])
      (values.map fun v => .field field ((g.entity e).columnName field) [.test op v]) := by
    rw [List.forall₂_map_left_iff, List.forall₂_map_right_iff, List.forall₂_same]
    exact fun v _ => readPredicate_comparing hrelation hcolumn (fun _ => Comparison.reads_token op v _) ""
  have hread := Predicate.reads_singleton_iff.2 (.all hkey (by simpa using hne) hitems)
  exact judges_of_read hread (.all (by simpa using hne) (.tests haccepted))

end Comparing

/-- The laws of the operators, on any column that no relation hides. Opposed operators judge oppositely.
A range judges as its two bounds do, a list as the equalities with its elements do as alternatives, and
the opposite of a list as the differences from its elements do together, whether a list combines them or
not. Nulls are no exception, be they cells, operands or elements. -/
theorem operator_laws (g : EntityGraph ι) (e : ι) (field : String)
    (hrelation : (g.entity e).relation? field = none)
    (hcolumn : (g.entity e).hasColumn field = true) (aliasName dialect : Option String)
    (quote : String → String) :
    (∀ op op' value, Operator.Opposed op op' → (op = .isIn → value.elements?.isSome = true) →
      ∃ verdict,
        g.Judges e aliasName dialect quote field (comparing field [(op.token, value)]) verdict ∧
        g.Judges e aliasName dialect quote field (comparing field [(op'.token, value)]) verdict.not) ∧
    (∀ low high, ∃ verdict,
      g.Judges e aliasName dialect quote field
        (comparing field [("between", .list [low, high])]) verdict ∧
      g.Judges e aliasName dialect quote field
        (comparing field [("gte", low), ("lte", high)]) verdict) ∧
    (∀ values, values ≠ [] → ∃ verdict,
      g.Judges e aliasName dialect quote field (comparing field [("in", .list values)]) verdict ∧
      g.Judges e aliasName dialect quote field
        (comparing field [("or", .list (values.map fun v => .obj [("eq", v)]))]) verdict) ∧
    (∀ values, values ≠ [] → ∃ differs : Value → Verdict,
      (∀ v ∈ values,
        g.Judges e aliasName dialect quote field (comparing field [("ne", v)]) (differs v)) ∧
      g.Judges e aliasName dialect quote field (comparing field [("notIn", .list values)])
        (.all (values.map differs)) ∧
      ∀ key, Predicate.ReadsWord g e key .all →
        g.Judges e aliasName dialect quote field
          (.obj [(key, .list (values.map fun v => comparing field [("ne", v)]))])
          (.all (values.map differs))) := by
  refine ⟨fun op op' value hop hvalue => ?_, fun low high => ?_, fun values hne => ?_,
    fun values hne => ?_⟩
  · obtain ⟨haccepted, haccepted'⟩ := hop.accepted hvalue
    refine ⟨op.verdict value, judges_operator hrelation hcolumn op haccepted, ?_⟩
    rw [← hop.verdict_eq]
    exact judges_operator hrelation hcolumn op' haccepted'
  · refine ⟨Operator.between.verdict (.list [low, high]),
      judges_operator hrelation hcolumn .between rfl, ?_⟩
    rw [Comparison.verdict_between]
    exact judges_tests hrelation hcolumn (List.cons_ne_nil (.gte, low) [(.lte, high)])
      (by simp [Operator.refusal?])
  · refine ⟨Operator.isIn.verdict (.list values), judges_operator hrelation hcolumn .isIn rfl, ?_⟩
    rw [Comparison.verdict_isIn]
    exact judges_alternatives hrelation hcolumn .eq hne fun _ _ => rfl
  · refine ⟨Operator.ne.verdict, fun v _ => judges_operator hrelation hcolumn .ne rfl, ?_, ?_⟩
    · rw [← Operator.verdict_notIn]
      exact judges_operator hrelation hcolumn .notIn rfl
    · exact fun key hkey => judges_conjunction hrelation hcolumn .ne hkey hne fun _ _ => rfl

end EntityGraph

namespace Sample

open EntityGraph (comparing)

/-- A list of ages, one of which is unknown. -/
def ages : List Value := [.int 30, .null]

/-- Objects that exclude the ages, at once and one by one. -/
def notAges : Value := comparing "age" [("notIn", .list ages)]

def noAge : Value := .obj [("and", .list (ages.map fun v => comparing "age" [("ne", v)]))]

theorem operator_laws_ages : (∃ verdict,
    (mapping.graph fun _ => true).Judges "User" none none id "age" notAges verdict ∧
    (mapping.graph fun _ => true).Judges "User" none none id "age" noAge verdict ∧
    ((mapping.graph fun _ => true).compilePredicate "User" none (.ofDialect none) id
      notAges).toOption.map (·.text) = some "user.age NOT IN :age_0" ∧
    ((mapping.graph fun _ => true).compilePredicate "User" none (.ofDialect none) id
      noAge).toOption.map (·.text) = some "(user.age != :age_0 AND user.age != :age_1)") ∧
    ∃ clause φ, (mapping.graph fun _ => true).compilePredicate "User" none (.ofDialect none)
      Dialect.sqlite.quote notAges = .ok clause ∧ Formula.ofText? clause.text = some φ := by
  constructor
  · obtain ⟨-, -, -, hnone⟩ := EntityGraph.operator_laws (mapping.graph fun _ => true) "User" "age"
      rfl rfl none none id
    obtain ⟨differs, -, hlist, heach⟩ := hnone ages (List.cons_ne_nil _ _)
    exact ⟨_, hlist, heach "and" ⟨by decide, by decide, by decide⟩, by decide +kernel,
      by decide +kernel⟩
  · obtain ⟨-, -, -, hnone⟩ := EntityGraph.operator_laws (mapping.graph fun _ => true) "User" "age"
      rfl rfl none none Dialect.sqlite.quote
    obtain ⟨differs, -, hlist, -⟩ := hnone ages (List.cons_ne_nil _ _)
    have hword : FilterToken.IsWord "age" := by simp [FilterToken.IsWord, FilterToken.isWordChar]
    obtain ⟨clause, φ, hclause, hφ, -⟩ := hlist.exists_ofText? (.inl rfl) hword
    exact ⟨clause, φ, hclause, hφ⟩

end Sample

end EntityQuery

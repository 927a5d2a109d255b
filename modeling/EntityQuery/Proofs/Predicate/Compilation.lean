import EntityQuery.Proofs.Join.Tree
import EntityQuery.Proofs.Predicate.Runs
import EntityQuery.Proofs.Predicate.Truth

/-! Compilation of predicate trees keeps their truth. The filters that a predicate is compiled to name
rows by aliases, the predicate itself by paths; they agree wherever the rows of the aliases are those
of their paths. What is compiled later adds joins and parameters and takes none away, so that the
filters of earlier parts keep their meaning. -/

namespace EntityQuery

variable {ι : Type}

/-! ### What a predicate names -/

namespace Comparison

mutual

/-- The number of tests that a comparison is made of. -/
def tests : Comparison → Nat
  | .test _ _ => 1
  | .oneOf alternatives => alternativeTests alternatives

def testsOfAll : List Comparison → Nat
  | [] => 0
  | c :: rest => tests c + testsOfAll rest

def alternativeTests : List (List Comparison) → Nat
  | [] => 0
  | alternative :: rest => testsOfAll alternative + alternativeTests rest

end

end Comparison

namespace Predicate

variable (aliasAt : String → String)

mutual

/-- The columns that a predicate on the entity at `path`, which stands under `current`, names in
order, where `aliasAt` gives the aliases of relation paths. -/
def columns (current path : String) : Predicate → List ColumnRef
  | .field _ column comparisons => .replicate (Comparison.testsOfAll comparisons) ⟨current, column⟩
  | .relation name condition =>
    columns (aliasAt (Path.child path name)) (Path.child path name) condition
  | .all children => columnsOfAll current path children
  | .any children => columnsOfAll current path children
  | .not child => columns current path child
  | .fields entries => columnsOfAll current path entries

def columnsOfAll (current path : String) : List Predicate → List ColumnRef
  | [] => []
  | p :: rest => columns current path p ++ columnsOfAll current path rest

end

mutual

/-- The fields that a predicate compares. -/
def fieldNames : Predicate → List String
  | .field name _ _ => [name]
  | .relation _ condition => fieldNames condition
  | .all children => fieldNamesOfAll children
  | .any children => fieldNamesOfAll children
  | .not child => fieldNames child
  | .fields entries => fieldNamesOfAll entries

def fieldNamesOfAll : List Predicate → List String
  | [] => []
  | p :: rest => fieldNames p ++ fieldNamesOfAll rest

end

end Predicate

/-! ### Contexts -/

/-- Rows at paths that are the rows of the aliases of these paths. -/
def JoinTree.Assigns {ρ : Type} (t : JoinTree ι) (rows rowAt : String → ρ) : Prop :=
  ∀ path aliasName, t.aliases.get? path = some aliasName → rowAt path = rows aliasName

theorem JoinTree.Assigns.of_extends {ρ : Type} {t t' : JoinTree ι} {rows rowAt : String → ρ}
    (h : t'.Assigns rows rowAt) (ht : t.Extends t') : t.Assigns rows rowAt :=
  fun path aliasName hp => h path aliasName (ht.get? hp)

namespace Context

/-- A context that has grown: it has the same layout, and the aliases and parameters are still there. -/
structure Extends (c c' : Context ι) : Prop where
  tree : c.tree.Extends c'.tree
  layout : c'.layout = c.layout
  parameters : c.parameters.Extends c'.parameters

namespace Extends

variable {c c' c'' : Context ι}

theorem refl (c : Context ι) : c.Extends c := ⟨.refl _, rfl, .refl _⟩

theorem trans (h : c.Extends c') (h' : c'.Extends c'') : c.Extends c'' :=
  ⟨h.tree.trans h'.tree, h'.layout.trans h.layout, h.parameters.trans h'.parameters⟩

end Extends

/-- A context whose joins are aligned and whose parameters have only numbers that are used up. -/
structure Sound (c : Context ι) : Prop where
  tree : c.tree.Aligned
  parameters : ∀ name ∈ Assoc.keys c.parameters.values, ∃ n < c.counter, Parameters.Numbered n name

theorem sound_start (root : ι) (aliasName : String) : (start root aliasName).Sound where
  tree := JoinTree.aligned_start root aliasName
  parameters := by simp [start, Parameters.empty, Assoc.keys]

/-- Names after a number that is not used up yet are free. -/
theorem Sound.not_mem_keys {c : Context ι} (hc : c.Sound) {field name : String}
    (h : Parameters.NamedAfter (field ++ "_" ++ toString c.counter) name) :
    name ∉ Assoc.keys c.parameters.values := by
  intro hmem
  obtain ⟨n, hn, hnumbered⟩ := hc.parameters name hmem
  exact Nat.ne_of_lt hn (hnumbered.unique ⟨field, h⟩)

end Context

/-- The columns under aliases that rows show. -/
def sightOf (rows : String → RowSight) : Sight := fun c => rows c.aliasName c.column

/-! ### Comparisons -/

namespace Comparison

/-- What compiling comparisons of one field does: it binds the parameters of the filters it gives, and
these have the truths of the comparisons as long as the parameters keep their values. The filters can
be read back where the table spells its symbols in a known way. -/
structure Builds (table : OperatorTable) (field : String) (column : ColumnRef)
    (truths : Evaluation → ColumnType → Cell → List Truth)
    (tests : Nat) (c : Context ι) (fs : List Filter) (c' : Context ι) : Prop where
  tree : c'.tree = c.tree
  layout : c'.layout = c.layout
  sound : c'.Sound
  parameters : c.parameters.Extends c'.parameters
  keys : Assoc.keys c'.parameters.values =
    Assoc.keys c.parameters.values ++ fs.flatMap Filter.parameters
  named : ∀ name ∈ fs.flatMap Filter.parameters,
    ∃ n : Nat, Parameters.NamedAfter (field ++ "_" ++ toString n) name
  solid : table.Spelled → ∀ f ∈ fs, f.Solid
  columns : fs.flatMap Filter.columns = .replicate tests column
  truth : ∀ ev q, c'.parameters.Extends q → ∀ rows,
    fs.map (Filter.eval ev (sightOf rows) q.values) =
      truths ev (rows column.aliasName column.column).1 (rows column.aliasName column.column).2

variable {table : OperatorTable} {field : String} {column : ColumnRef} {c c' c'' : Context ι}

theorem builds_nil (hc : c.Sound) : Builds table field column (fun _ _ _ => []) 0 c [] c where
  tree := rfl
  layout := rfl
  sound := hc
  parameters := .refl _
  keys := (List.append_nil _).symm
  named := by simp
  solid := by simp
  columns := rfl
  truth _ _ _ _ := rfl

theorem Builds.append {truths truths' : Evaluation → ColumnType → Cell → List Truth} {n n' : Nat}
    {fs fs' : List Filter} (h : Builds table field column truths n c fs c')
    (h' : Builds table field column truths' n' c' fs' c'') :
    Builds table field column (fun ev t cell => truths ev t cell ++ truths' ev t cell) (n + n') c
      (fs ++ fs') c'' where
  tree := h'.tree.trans h.tree
  layout := h'.layout.trans h.layout
  sound := h'.sound
  parameters := h.parameters.trans h'.parameters
  keys := by rw [h'.keys, h.keys, List.append_assoc, List.flatMap_append]
  named name hname := by
    rw [List.flatMap_append, List.mem_append] at hname
    exact hname.elim (h.named name) (h'.named name)
  solid ht f hf := (List.mem_append.1 hf).elim (h.solid ht f) (h'.solid ht f)
  columns := by rw [List.flatMap_append, h.columns, h'.columns, List.replicate_append_replicate]
  truth ev q hq rows := by
    rw [List.map_append, h.truth ev q (h'.parameters.trans hq) rows,
      h'.truth ev q hq rows]

/-- Filters that are put together into one. -/
theorem Builds.together {truths : Evaluation → ColumnType → Cell → List Truth} {n : Nat}
    {fs : List Filter} {build : List Filter → Filter} (h : Builds table field column truths n c fs c')
    (connect : List Truth → Truth) (hsolid : (∀ f ∈ fs, f.Solid) → (build fs).Solid)
    (hleaves : (build fs).leaves = fs.flatMap Filter.leaves)
    (htruth : ∀ ev sight parameters, (build fs).eval ev sight parameters =
      connect (fs.map (Filter.eval ev sight parameters))) :
    Builds table field column (fun ev t cell => [connect (truths ev t cell)]) n c [build fs] c' where
  tree := h.tree
  layout := h.layout
  sound := h.sound
  parameters := h.parameters
  keys := by simpa [Filter.parameters_of_leaves hleaves] using h.keys
  named := by simpa [Filter.parameters_of_leaves hleaves] using h.named
  solid ht := by simpa using hsolid (h.solid ht)
  columns := by simpa [Filter.columns_of_leaves hleaves] using h.columns
  truth ev q hq rows := by
    rw [List.map_cons, htruth, h.truth ev q hq rows]
    rfl

theorem toFilter_test_builds {op : Operator}
    {value : Value} {f : Filter} (hc : c.Sound)
    (h : (toFilter table column field (.test op value)).exec c = (.ok f, c')) :
    Builds table field column (fun ev t cell => [op.truth ev value t cell]) 1 c [f] c' := by
  obtain ⟨t, p, hp, rfl, rfl⟩ := toFilter_test_eq_ok.1 h
  obtain ⟨symbol, hsymbol, hp⟩ := OperatorTable.toTest_eq_ok hp
  have hbuilds := fun ev => Operator.toTest_builds ev
    (fun name hname => hc.not_mem_keys hname) hp
  let builds := hbuilds ⟨fun _ _ _ => .unknown, id⟩
  constructor
  case tree => rfl
  case layout => rfl
  case sound =>
    refine ⟨hc.tree, fun name hname => ?_⟩
    rw [builds.keys, List.mem_append] at hname
    rcases hname with hold | hnew
    · obtain ⟨n, hn, hnumbered⟩ := hc.parameters name hold
      exact ⟨n, Nat.lt_succ_of_lt hn, hnumbered⟩
    · exact ⟨c.counter, Nat.lt_succ_self _, field, builds.named name hnew⟩
  case parameters => exact builds.grows
  case keys => simpa [Filter.parameters_test] using builds.keys
  case named =>
    intro name hname
    rw [List.flatMap_singleton, Filter.parameters_test] at hname
    exact ⟨c.counter, builds.named name hname⟩
  case solid =>
    intro ht
    simpa using Filter.Solid.test (builds.spelled (ht _ hsymbol))
  case columns => simp [Filter.columns_test]
  case truth =>
    intro ev q hq rows
    simp [Filter.eval, sightOf, (hbuilds ev).truth q hq]

/-- The filter of a comparison has the truth of the comparison. -/
def Compiles (table : OperatorTable) (comparison : Comparison) : Prop :=
  ∀ {ι : Type} {column : ColumnRef} {field : String} {c c' : Context ι} {f : Filter}, c.Sound →
    (toFilter table column field comparison).exec c = (.ok f, c') →
    Builds table field column (fun ev t cell => [comparison.truth ev t cell]) comparison.tests c [f] c'

theorem toFilters_builds {cs : List Comparison}
    (hcs : ∀ comparison ∈ cs, comparison.Compiles table) {fs : List Filter} (hc : c.Sound)
    (h : (toFilters table column field cs).exec c = (.ok fs, c')) :
    Builds table field column (fun ev t cell => truths ev t cell cs) (testsOfAll cs) c fs c' := by
  induction cs generalizing c fs with
  | nil =>
    obtain ⟨rfl, rfl⟩ := toFilters_nil_eq_ok.1 h
    exact builds_nil hc
  | cons comparison cs ih =>
    obtain ⟨f, c₁, fs, hf, hfs, rfl⟩ := toFilters_cons_eq_ok.1 h
    have hfirst := hcs comparison (by simp) hc hf
    have hrest := ih (fun c hc => hcs c (List.mem_cons_of_mem _ hc)) hfirst.sound hfs
    exact hfirst.append hrest

theorem Builds.ne_nil {truths : Evaluation → ColumnType → Cell → List Truth} {n : Nat}
    {fs : List Filter} (h : Builds table field column truths n c fs c')
    (hne : ∀ ev t cell, truths ev t cell ≠ []) :
    fs ≠ [] := by
  rintro rfl
  exact hne _ _ _ (h.truth ⟨fun _ _ _ => .unknown, id⟩ c'.parameters (.refl _)
    fun _ _ => (.integer, .null)).symm

theorem truths_ne_nil {cs : List Comparison} (h : cs ≠ []) (ev : Evaluation) (t : ColumnType)
    (cell : Cell) : truths ev t cell cs ≠ [] := by
  cases cs with
  | nil => exact absurd rfl h
  | cons comparison cs => simp [truths]

theorem alternativesToFilters_builds {alternatives : List (List Comparison)}
    (hne : ∀ alternative ∈ alternatives, alternative ≠ [])
    (hcs : ∀ alternative ∈ alternatives, ∀ comparison ∈ alternative, comparison.Compiles table)
    {fs : List Filter} (hc : c.Sound)
    (h : (alternativesToFilters table column field alternatives).exec c =
      (.ok fs, c')) :
    Builds table field column (fun ev t cell => alternativeTruths ev t cell alternatives)
      (alternativeTests alternatives) c fs c' := by
  induction alternatives generalizing c fs with
  | nil =>
    obtain ⟨rfl, rfl⟩ := alternativesToFilters_nil_eq_ok.1 h
    exact builds_nil hc
  | cons alternative alternatives ih =>
    obtain ⟨parts, c₁, fs, hparts, hfs, rfl⟩ := alternativesToFilters_cons_eq_ok.1 h
    have hchain := toFilters_builds (hcs alternative (by simp)) hc hparts
    have hparts := hchain.ne_nil (truths_ne_nil (hne alternative (by simp)))
    have hfirst := hchain.together .all (.chain hparts) (Filter.leaves_chain parts)
      fun _ _ _ => Filter.eval_chain ..
    have hrest := ih (fun a ha => hne a (List.mem_cons_of_mem _ ha))
      (fun a ha => hcs a (List.mem_cons_of_mem _ ha)) hfirst.sound hfs
    exact hfirst.append hrest

theorem Proper.compiles (table : OperatorTable) {comparison : Comparison}
    (h : comparison.Proper) : comparison.Compiles table := by
  induction h with
  | test =>
    intro ι column field c c' f hc hrun
    exact toFilter_test_builds hc hrun
  | @oneOf alternatives hne hparts _ ih =>
    intro ι column field c c' f hc hrun
    obtain ⟨fs, hfs, rfl⟩ := toFilter_oneOf_eq_ok.1 hrun
    have halternatives := alternativesToFilters_builds hparts ih hc hfs
    have hsome : ∀ ev t cell, alternativeTruths ev t cell alternatives ≠ [] := by
      cases alternatives with
      | nil => exact absurd rfl hne
      | cons a rest => simp [alternativeTruths]
    exact halternatives.together .any (.group (halternatives.ne_nil hsome))
      (Filter.leaves_group .or fs)
      fun _ _ _ => Filter.eval_group_or ..

end Comparison

/-! ### Predicates -/

namespace Predicate

/-- What compiling predicates on the entity at `path`, which stands under `current`, does: the context
grows, and the filters have the truths of the predicates wherever the rows of the aliases are those of
the paths, now and after anything that is compiled later. -/
structure Builds (table : OperatorTable) (current path : String) (ps : List Predicate)
    (c : Context ι) (fs : List Filter)
    (c' : Context ι) : Prop where
  grows : c.Extends c'
  sound : c'.Sound
  keys : Assoc.keys c'.parameters.values =
    Assoc.keys c.parameters.values ++ fs.flatMap Filter.parameters
  named : ∀ name ∈ fs.flatMap Filter.parameters, ∃ field ∈ fieldNamesOfAll ps,
    ∃ n : Nat, Parameters.NamedAfter (field ++ "_" ++ toString n) name
  solid : table.Spelled → ∀ f ∈ fs, f.Solid
  columns : ∀ aliasAt, c'.tree.Assigns id aliasAt →
    fs.flatMap Filter.columns = columnsOfAll aliasAt current path ps
  truth : ∀ ev q, c'.parameters.Extends q → ∀ rows rowAt, c'.tree.Assigns rows rowAt →
    fs.map (Filter.eval ev (sightOf rows) q.values) =
      truths ev rowAt (rows current) path ps

variable {table : OperatorTable} {current path : String} {c c' c'' : Context ι}

theorem builds_nil (hc : c.Sound) : Builds table current path [] c [] c where
  grows := .refl c
  sound := hc
  keys := (List.append_nil _).symm
  named := by simp
  solid := by simp
  columns _ _ := rfl
  truth _ _ _ _ _ _ := rfl

theorem Builds.cons {p : Predicate} {ps : List Predicate} {fs fs' : List Filter}
    (h : Builds table current path [p] c fs c') (h' : Builds table current path ps c' fs' c'') :
    Builds table current path (p :: ps) c (fs ++ fs') c'' where
  grows := h.grows.trans h'.grows
  sound := h'.sound
  keys := by rw [h'.keys, h.keys, List.append_assoc, List.flatMap_append]
  named name hname := by
    rw [List.flatMap_append, List.mem_append] at hname
    rw [fieldNamesOfAll]
    rcases hname with hname | hname
    · obtain ⟨field, hfield, hnamed⟩ := h.named name hname
      rw [fieldNamesOfAll, fieldNamesOfAll, List.append_nil] at hfield
      exact ⟨field, List.mem_append_left _ hfield, hnamed⟩
    · obtain ⟨field, hfield, hnamed⟩ := h'.named name hname
      exact ⟨field, List.mem_append_right _ hfield, hnamed⟩
  solid ht f hf := (List.mem_append.1 hf).elim (h.solid ht f) (h'.solid ht f)
  columns aliasAt hassigns := by
    rw [List.flatMap_append, h.columns aliasAt (hassigns.of_extends h'.grows.tree),
      h'.columns aliasAt hassigns]
    simp [columnsOfAll]
  truth ev q hq rows rowAt hassigns := by
    rw [List.map_append,
      h.truth ev q (h'.grows.parameters.trans hq) rows rowAt
        (hassigns.of_extends h'.grows.tree),
      h'.truth ev q hq rows rowAt hassigns]
    simp [truths]

/-- Predicates that are combined into one. -/
theorem Builds.together {p : Predicate} {ps : List Predicate} {fs : List Filter}
    {build : List Filter → Filter} (h : Builds table current path ps c fs c')
    (connect : List Truth → Truth)
    (hp : ∀ ev rowAt row, Predicate.truth ev rowAt row path p =
      Predicate.together connect (truths ev rowAt row path ps))
    (hcolumns : ∀ aliasAt, Predicate.columns aliasAt current path p =
      columnsOfAll aliasAt current path ps)
    (hnames : p.fieldNames = fieldNamesOfAll ps)
    (hsolid : fs ≠ [] → (∀ f ∈ fs, f.Solid) → (build fs).Solid)
    (hleaves : (build fs).leaves = fs.flatMap Filter.leaves)
    (htruth : ∀ ev sight parameters, (build fs).eval ev sight parameters =
      connect (fs.map (Filter.eval ev sight parameters))) :
    Builds table current path [p] c (Filter.ofParts build fs).toList c' where
  grows := h.grows
  sound := h.sound
  keys := by rw [Filter.parameters_ofParts hleaves, h.keys]
  named := by
    rw [Filter.parameters_ofParts hleaves, fieldNamesOfAll, fieldNamesOfAll, List.append_nil, hnames]
    exact h.named
  solid ht := Filter.solid_ofParts hsolid (h.solid ht)
  columns aliasAt hassigns := by
    rw [Filter.columns_ofParts hleaves, h.columns aliasAt hassigns, columnsOfAll, columnsOfAll,
      List.append_nil, hcolumns]
  truth ev q hq rows rowAt hassigns := by
    have := h.truth ev q hq rows rowAt hassigns
    rw [truths, truths, List.append_nil, hp, ← this]
    cases fs with
    | nil => rfl
    | cons f fs => simp [Filter.ofParts, Predicate.together, htruth]

/-- The filter of a predicate has the truth of the predicate. -/
def Compiles (g : EntityGraph ι) (table : OperatorTable) (p : Predicate) : Prop :=
  ∀ {aliasName path : String} {c c' : Context ι} {f : Option Filter}, c.Sound →
    (toFilter g table aliasName path p).exec c = (.ok f, c') →
    Builds table (if aliasName.isEmpty then c.tree.aliases.root else aliasName) path [p] c f.toList c'

variable {g : EntityGraph ι}

theorem toFilters_builds {ps : List Predicate} (hps : ∀ p ∈ ps, p.Compiles g table)
    {aliasName : String} {fs : List Filter} (hc : c.Sound)
    (h : (toFilters g table aliasName path ps).exec c = (.ok fs, c')) :
    Builds table (if aliasName.isEmpty then c.tree.aliases.root else aliasName) path ps c fs c' := by
  induction ps generalizing c fs with
  | nil =>
    obtain ⟨rfl, rfl⟩ := toFilters_nil_eq_ok.1 h
    exact builds_nil hc
  | cons p ps ih =>
    obtain ⟨f, c₁, fs, hf, hfs, rfl⟩ := toFilters_cons_eq_ok.1 h
    have hfirst := hps p (by simp) hc hf
    have hrest := ih (fun p hp => hps p (List.mem_cons_of_mem _ hp)) hfirst.sound hfs
    rw [hfirst.grows.tree.rootAlias] at hrest
    exact hfirst.cons hrest

theorem compiles_field {name column : String} {comparisons : List Comparison}
    (h : ∀ comparison ∈ comparisons, comparison.Proper) :
    (field name column comparisons).Compiles g table := by
  intro aliasName path c c' f hc hrun
  obtain ⟨fs, hfs, rfl⟩ := toFilter_field_eq_ok.1 hrun
  have hbuilds := Comparison.toFilters_builds (fun comparison hmem => (h comparison hmem).compiles table)
    hc hfs
  have hgrows : c.Extends c' := ⟨hbuilds.tree ▸ .refl _, hbuilds.layout, hbuilds.parameters⟩
  constructor
  case grows => exact hgrows
  case sound => exact hbuilds.sound
  case keys => rw [Filter.parameters_ofParts (Filter.leaves_chain fs), hbuilds.keys]
  case named =>
    rw [Filter.parameters_ofParts (Filter.leaves_chain fs)]
    exact fun used hused => ⟨name, by simp [fieldNamesOfAll, fieldNames], hbuilds.named used hused⟩
  case solid => exact fun ht => Filter.solid_ofParts .chain (hbuilds.solid ht)
  case columns =>
    intro aliasAt _
    rw [Filter.columns_ofParts (Filter.leaves_chain fs), hbuilds.columns]
    simp [columnsOfAll, columns]
  case truth =>
    intro ev q hq rows rowAt _
    have := hbuilds.truth ev q hq rows
    rw [truths, truths, truth, ← this]
    cases fs with
    | nil => rfl
    | cons f fs => simp [Filter.ofParts, together, Filter.eval_chain]

theorem compiles_relation {name : String} {condition : Predicate}
    (h : condition.Compiles g table) : (relation name condition).Compiles g table := by
  intro aliasName path c c' f hc hrun
  obtain ⟨bound, t, hreach, hrun⟩ := toFilter_relation_eq_ok.1 hrun
  obtain ⟨ht, hgrows, hbound⟩ := hc.tree.reach hreach
  have hne : bound.isEmpty = false := by
    obtain ⟨j, hj, -, rfl⟩ := ht.exists_of_get? hbound
    simpa using ht.nonempty j hj
  have hsound : Context.Sound { c with tree := t } := ⟨ht, hc.parameters⟩
  have hbuilds := h hsound hrun
  rw [hne] at hbuilds
  have hhere := hbuilds.grows.tree.get? hbound
  have hextends : c.Extends c' :=
    ⟨hgrows.trans hbuilds.grows.tree, hbuilds.grows.layout, hbuilds.grows.parameters⟩
  constructor
  case grows => exact hextends
  case sound => exact hbuilds.sound
  case keys => exact hbuilds.keys
  case named => simpa [fieldNamesOfAll, fieldNames] using hbuilds.named
  case solid => exact hbuilds.solid
  case columns =>
    intro aliasAt hassigns
    have := hbuilds.columns aliasAt hassigns
    simpa [columnsOfAll, columns, hassigns _ _ hhere] using this
  case truth =>
    intro ev q hq rows rowAt hassigns
    have := hbuilds.truth ev q hq rows rowAt hassigns
    simpa [truths, truth, hassigns _ _ hhere] using this

theorem compiles_not {child : Predicate} (h : child.Compiles g table) :
    child.not.Compiles g table := by
  intro aliasName path c c' f hc hrun
  obtain ⟨f, hf, rfl⟩ := toFilter_not_eq_ok.1 hrun
  have hbuilds := h hc hf
  revert hbuilds
  generalize (if aliasName.isEmpty then c.tree.aliases.root else aliasName) = current
  intro hbuilds
  have hparameters : (f.map Filter.negation).toList.flatMap Filter.parameters =
      f.toList.flatMap Filter.parameters := by
    cases f <;> simp [Filter.parameters, Filter.leaves_negation]
  have hcolumns : (f.map Filter.negation).toList.flatMap Filter.columns =
      f.toList.flatMap Filter.columns := by
    cases f <;> simp [Filter.columns, Filter.leaves_negation]
  constructor
  case grows => exact hbuilds.grows
  case sound => exact hbuilds.sound
  case keys => rw [hparameters, hbuilds.keys]
  case named =>
    rw [hparameters]
    simpa [fieldNamesOfAll, fieldNames] using hbuilds.named
  case solid =>
    intro ht
    have := hbuilds.solid ht
    cases f with
    | none => simp
    | some f => simpa using Filter.Solid.negation (this f (by simp))
  case columns =>
    intro aliasAt hassigns
    rw [hcolumns, hbuilds.columns aliasAt hassigns]
    simp [columnsOfAll, columns]
  case truth =>
    intro ev q hq rows rowAt hassigns
    have := hbuilds.truth ev q hq rows rowAt hassigns
    rw [truths, truths, List.append_nil] at this ⊢
    rw [truth]
    cases htruth : truth ev rowAt (rows current) path child with
    | none => cases f <;> simp_all
    | some t => cases f <;> simp_all [Filter.eval]

theorem Over.compiles (table : OperatorTable) {e : ι} {p : Predicate} (h : p.Over g e) :
    p.Compiles g table := by
  induction h with
  | field _ _ hproper => exact compiles_field hproper
  | relation _ _ ih => exact compiles_relation ih
  | all _ _ ih =>
    intro aliasName path c c' f hc hrun
    obtain ⟨fs, hfs, rfl⟩ := toFilter_all_eq_ok.1 hrun
    exact (toFilters_builds ih hc hfs).together .all (fun _ _ _ => by rw [truth])
      (fun _ => by rw [columns]) (by rw [fieldNames]) .group (Filter.leaves_group _ fs)
      fun _ _ _ => Filter.eval_group_and ..
  | any _ _ ih =>
    intro aliasName path c c' f hc hrun
    obtain ⟨fs, hfs, rfl⟩ := toFilter_any_eq_ok.1 hrun
    exact (toFilters_builds ih hc hfs).together .any (fun _ _ _ => by rw [truth])
      (fun _ => by rw [columns]) (by rw [fieldNames]) .group (Filter.leaves_group _ fs)
      fun _ _ _ => Filter.eval_group_or ..
  | fields _ ih =>
    intro aliasName path c c' f hc hrun
    obtain ⟨fs, hfs, rfl⟩ := toFilter_fields_eq_ok.1 hrun
    exact (toFilters_builds ih hc hfs).together .all (fun _ _ _ => by rw [truth])
      (fun _ => by rw [columns]) (by rw [fieldNames]) .chain (Filter.leaves_chain fs)
      fun _ _ _ => Filter.eval_chain ..
  | not _ ih => exact compiles_not ih

end Predicate

end EntityQuery

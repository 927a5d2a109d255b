import EntityQuery.Proofs.Filter.Template
import EntityQuery.Proofs.Join.Renaming
import EntityQuery.Proofs.Layout.Bare
import EntityQuery.Proofs.Query.Meaning
import EntityQuery.Proofs.Query.WellFormed

/-! Aliases are names only. Two queries that differ in the aliases which their inclusions ask for, planned
under any two root aliases, run through the same stages side by side: the contexts stay alike but for
their aliases, and the filters are written by the same templates. -/

namespace EntityQuery

variable {ι : Type} {g : EntityGraph ι}

namespace Inclusion

mutual

/-- An inclusion that asks for no aliases, nor do the ones below it. -/
def unnamed : Inclusion → Inclusion
  | mk relation _ children => mk relation none (unnamedAll children)

def unnamedAll : List Inclusion → List Inclusion
  | [] => []
  | i :: rest => unnamed i :: unnamedAll rest

end

mutual

theorem unnamed_unnamed (i : Inclusion) : i.unnamed.unnamed = i.unnamed := by
  cases i with
  | mk relation wish children =>
    simp only [unnamed]
    rw [unnamedAll_unnamedAll children]

theorem unnamedAll_unnamedAll (is : List Inclusion) :
    unnamedAll (unnamedAll is) = unnamedAll is := by
  cases is with
  | nil => rfl
  | cons i rest =>
    simp only [unnamedAll]
    rw [unnamed_unnamed i, unnamedAll_unnamedAll rest]

end

end Inclusion

/-- A query whose inclusions ask for no aliases. -/
def Query.unnamed (q : Query) : Query :=
  { q with inclusions := Inclusion.unnamedAll q.inclusions }

theorem Query.unnamed_unnamed (q : Query) : q.unnamed.unnamed = q.unnamed :=
  congrArg (fun is => { q with inclusions := is }) (Inclusion.unnamedAll_unnamedAll q.inclusions)

namespace Context

/-- Contexts that are the same but for their aliases. -/
structure Alike (c c' : Context ι) : Prop where
  tree : c.tree.Alike c'.tree
  layout : c.layout.bare = c'.layout.bare
  parameters : c.parameters = c'.parameters
  counter : c.counter = c'.counter

theorem alike_start (root : ι) (aliasName aliasName' : String) :
    (start root aliasName).Alike (start root aliasName') :=
  ⟨JoinTree.alike_start root aliasName aliasName', rfl, rfl, rfl⟩

end Context

variable {c c' c₁ c₁' c₂ c₂' : Context ι}

/-! ### Inclusions and selections -/

namespace Inclusion

mutual

theorem plan_alike {aliasName aliasName' holder : Option String} {path : String} (i i' : Inclusion)
    {c c' c₁ c₁' : Context ι} (hi : i.unnamed = i'.unnamed) (hc : c.Alike c')
    (h : (plan g aliasName path holder i).exec c = (.ok (), c₁))
    (h' : (plan g aliasName' path holder i').exec c' = (.ok (), c₁')) : c₁.Alike c₁' := by
  cases i with
  | mk relation wish children =>
    cases i' with
    | mk relation' wish' children' =>
      rw [unnamed, unnamed] at hi
      obtain ⟨rfl, -, hchildren⟩ := Inclusion.mk.inj hi
      obtain ⟨bound, t, hreach, b, rfl, hrest⟩ := plan_eq_ok h
      obtain ⟨bound', t', hreach', b', rfl, hrest'⟩ := plan_eq_ok h'
      have htree : t.Alike t' := by
        apply hc.tree.reach _ _ hreach hreach' <;> rfl
      have hlayout : (c.layout.placeAt holder ⟨relation, Path.child path relation, path, bound,
            (nonEmpty? wish).getD relation, [], []⟩ (nonEmpty? wish)).bare =
          (c'.layout.placeAt holder ⟨relation, Path.child path relation, path, bound',
            (nonEmpty? wish').getD relation, [], []⟩ (nonEmpty? wish')).bare := by
        rw [Layout.bare_placeAt, Layout.bare_placeAt, hc.layout]
        rfl
      rw [← Layout.holder_bare, hlayout, Layout.holder_bare] at hrest
      refine planAll_alike children children' hchildren ?_ hrest hrest'
      exact ⟨htree, hlayout, hc.parameters, hc.counter⟩

theorem planAll_alike {aliasName aliasName' holder : Option String} {path : String}
    (is is' : List Inclusion) {c c' c₁ c₁' : Context ι} (his : unnamedAll is = unnamedAll is')
    (hc : c.Alike c')
    (h : (planAll g aliasName path holder is).exec c = (.ok (), c₁))
    (h' : (planAll g aliasName' path holder is').exec c' = (.ok (), c₁')) : c₁.Alike c₁' := by
  cases is with
  | nil =>
    cases is' with
    | nil =>
      obtain ⟨-, rfl⟩ := Prod.mk.inj h
      obtain ⟨-, rfl⟩ := Prod.mk.inj h'
      exact hc
    | cons i' rest' => cases his
  | cons i rest =>
    cases is' with
    | nil => cases his
    | cons i' rest' =>
      obtain ⟨hi, hrest⟩ := List.cons.inj his
      obtain ⟨d, hfirst, hmore⟩ := planAll_cons_eq_ok.1 h
      obtain ⟨d', hfirst', hmore'⟩ := planAll_cons_eq_ok.1 h'
      exact planAll_alike rest rest' hrest (plan_alike i i' hi hc hfirst hfirst') hmore hmore'

end

end Inclusion

namespace Selection

theorem setColumn_alike {path field key : String} (hc : c.Alike c')
    (h : (setColumn path field key).exec c = (.ok (), c₁))
    (h' : (setColumn path field key).exec c' = (.ok (), c₁')) : c₁.Alike c₁' := by
  rcases setColumn_eq_ok h with ⟨hpath, rfl⟩ | ⟨hpath, -, rfl⟩ <;>
    rcases setColumn_eq_ok h' with ⟨hpath', rfl⟩ | ⟨hpath', -, rfl⟩
  · refine ⟨hc.tree, ?_, hc.parameters, hc.counter⟩
    obtain ⟨hcolumns, hbranches⟩ := Layout.mk.inj hc.layout
    show Layout.mk _ _ = Layout.mk _ _
    rw [hcolumns, hbranches]
  · exact absurd hpath hpath'
  · exact absurd hpath' hpath
  · refine ⟨hc.tree, ?_, hc.parameters, hc.counter⟩
    show (Layout.modifyBranch _ _ _).bare = (Layout.modifyBranch _ _ _).bare
    have hf := Layout.bares_columns fun columns => Assoc.set columns field key
    rw [Layout.bare_modifyBranch hf, Layout.bare_modifyBranch hf, hc.layout]

mutual

theorem plan_alike {path : String} (s : Selection) {c c' c₁ c₁' : Context ι} (hc : c.Alike c')
    (h : (plan path s).exec c = (.ok (), c₁)) (h' : (plan path s).exec c' = (.ok (), c₁')) :
    c₁.Alike c₁' := by
  cases s with
  | column field name => exact setColumn_alike hc h h'
  | relation name children =>
    exact planAll_alike children hc (plan_relation_eq_ok h).2 (plan_relation_eq_ok h').2

theorem planAll_alike {path : String} (ss : List Selection) {c c' c₁ c₁' : Context ι}
    (hc : c.Alike c') (h : (planAll path ss).exec c = (.ok (), c₁))
    (h' : (planAll path ss).exec c' = (.ok (), c₁')) : c₁.Alike c₁' := by
  cases ss with
  | nil =>
    obtain ⟨-, rfl⟩ := Prod.mk.inj h
    obtain ⟨-, rfl⟩ := Prod.mk.inj h'
    exact hc
  | cons s rest =>
    obtain ⟨d, hfirst, hrest⟩ := planAll_cons_eq_ok.1 h
    obtain ⟨d', hfirst', hrest'⟩ := planAll_cons_eq_ok.1 h'
    exact planAll_alike rest (plan_alike s hc hfirst hfirst') hrest hrest'

end

end Selection

/-! ### Predicates -/

/-- Two runs side by side that give filters: alike contexts have grown into alike ones, and the filters
are written by the same templates. -/
structure Filter.Agree (c c' c₁ c₁' : Context ι) (fs fs' : List Filter) : Prop where
  alike : c₁.Alike c₁'
  grows : c.tree.Extends c₁.tree
  grows' : c'.tree.Extends c₁'.tree
  written : ∃ templates, Written c₁.tree.aliases templates fs ∧
    Written c₁'.tree.aliases templates fs'

namespace Filter.Agree

variable {fs fs' gs gs' : List Filter}

theorem nil (hc : c.Alike c') : Agree c c' c c' [] [] :=
  ⟨hc, .refl _, .refl _, [], .nil _, .nil _⟩

theorem append (h : Agree c c' c₁ c₁' fs fs') (h₁ : Agree c₁ c₁' c₂ c₂' gs gs') :
    Agree c c' c₂ c₂' (fs ++ gs) (fs' ++ gs') := by
  obtain ⟨templates, hwritten, hwritten'⟩ := h.written
  obtain ⟨more, hmore, hmore'⟩ := h₁.written
  exact ⟨h₁.alike, h.grows.trans h₁.grows, h.grows'.trans h₁.grows', templates ++ more,
    (hwritten.of_extends h₁.grows).append hmore, (hwritten'.of_extends h₁.grows').append hmore'⟩

/-- Filters that are put together in a way that can be done with their templates. -/
theorem change (h : Agree c c' c₁ c₁' fs fs') (combine : List Template → List Template)
    (hcombine : ∀ {a templates}, Written a templates fs → Written a (combine templates) gs)
    (hcombine' : ∀ {a templates}, Written a templates fs' → Written a (combine templates) gs') :
    Agree c c' c₁ c₁' gs gs' := by
  obtain ⟨templates, hwritten, hwritten'⟩ := h.written
  exact ⟨h.alike, h.grows, h.grows', combine templates, hcombine hwritten, hcombine' hwritten'⟩

theorem chain (h : Agree c c' c₁ c₁' fs fs') : Agree c c' c₁ c₁' [.chain fs] [.chain fs'] :=
  h.change (fun templates => [FilterToken.between .and templates]) (·.chain) (·.chain)

theorem group (k : Connective) (h : Agree c c' c₁ c₁' fs fs') :
    Agree c c' c₁ c₁' [.group k fs] [.group k fs'] :=
  h.change (fun templates => [[.openParen] ++ FilterToken.between k templates ++ [.closeParen]])
    (·.group k) (·.group k)

theorem chainOfParts (h : Agree c c' c₁ c₁' fs fs') :
    Agree c c' c₁ c₁' (ofParts .chain fs).toList (ofParts .chain fs').toList :=
  h.change (templateOfParts (FilterToken.between .and)) (fun hw => hw.ofParts hw.chain)
    fun hw => hw.ofParts hw.chain

theorem groupOfParts (k : Connective) (h : Agree c c' c₁ c₁' fs fs') :
    Agree c c' c₁ c₁' (ofParts (.group k) fs).toList (ofParts (.group k) fs').toList :=
  h.change (templateOfParts fun templates =>
      [.openParen] ++ FilterToken.between k templates ++ [.closeParen])
    (fun hw => hw.ofParts (hw.group k)) fun hw => hw.ofParts (hw.group k)

theorem negation {f f' : Option Filter} (h : Agree c c' c₁ c₁' f.toList f'.toList) :
    Agree c c' c₁ c₁' (f.map .negation).toList (f'.map .negation).toList :=
  h.change (List.map fun ts => [.not, .openParen] ++ ts ++ [.closeParen])
    (·.negations) (·.negations)

end Filter.Agree

/-- The entity at a place stands under an alias; an empty one is that of the root. -/
structure Context.StandsAt (c : Context ι) (place : Option String) (aliasName : String) : Prop where
  knows : c.tree.aliases.Knows place
  alias_eq : (if aliasName.isEmpty then c.tree.aliases.root else aliasName) =
    c.tree.aliases.aliasAt place

theorem Context.standsAt_root (c : Context ι) : c.StandsAt none "" where
  knows _ hplace := nomatch hplace
  alias_eq := rfl

theorem Context.StandsAt.of_extends {place : Option String} {aliasName : String}
    (h : c.StandsAt place aliasName) (hgrows : c.tree.Extends c₁.tree) :
    c₁.StandsAt place aliasName where
  knows := hgrows.knows h.knows
  alias_eq := by rw [hgrows.rootAlias, h.alias_eq, hgrows.aliasAt_eq h.knows]

/-- A joined path stands under the alias that it has been given. -/
theorem Context.StandsAt.of_get? {path aliasName : String} (ht : c.tree.Aligned)
    (hget : c.tree.aliases.get? path = some aliasName) : c.StandsAt (some path) aliasName where
  knows other hother := by
    obtain rfl := Option.some.inj hother
    rw [hget]
    rfl
  alias_eq := by
    obtain ⟨j, hj, -, hname⟩ := ht.exists_of_get? hget
    have hne : aliasName.isEmpty = false := by
      simpa [← hname] using ht.nonempty j hj
    rw [hne, if_neg (by simp), Aliases.aliasAt, hget, Option.getD_some]

/-- The column at a place that has an alias, under that alias. -/
structure Context.Refers (c : Context ι) (column : ColumnRef) (place : ColumnPlace) : Prop where
  knows : c.tree.aliases.Knows place.place
  column_eq : column = c.tree.aliases.refAt place

theorem Context.Refers.of_extends {column : ColumnRef} {place : ColumnPlace}
    (h : c.Refers column place) (hgrows : c.tree.Extends c₁.tree) : c₁.Refers column place where
  knows := hgrows.knows h.knows
  column_eq := by rw [h.column_eq, Aliases.refAt, Aliases.refAt, hgrows.aliasAt_eq h.knows]

namespace Comparison

mutual

theorem toFilter_agree {table : OperatorTable} {field : String} {column column' : ColumnRef}
    {place : ColumnPlace} (comparison : Comparison) {c c' c₁ c₁' : Context ι} {f f' : Filter}
    (hc : c.Alike c') (hcolumn : c.Refers column place) (hcolumn' : c'.Refers column' place)
    (h : (toFilter table column field comparison).exec c = (.ok f, c₁))
    (h' : (toFilter table column' field comparison).exec c' = (.ok f', c₁')) :
    Filter.Agree c c' c₁ c₁' [f] [f'] := by
  cases comparison with
  | test op value =>
    obtain ⟨t, p, hp, rfl, rfl⟩ := toFilter_test_eq_ok.1 h
    obtain ⟨t', p', hp', rfl, rfl⟩ := toFilter_test_eq_ok.1 h'
    -- The operator sees the number and the parameters only, which both runs share.
    rw [hc.counter, hc.parameters, hp'] at hp
    obtain ⟨ht, rfl⟩ := Prod.mk.inj hp
    obtain rfl := Except.ok.inj ht
    refine ⟨⟨hc.tree, hc.layout, rfl, congrArg (· + 1) hc.counter⟩, .refl _, .refl _,
      [t'.tokens place], ?_, ?_⟩
    · rw [hcolumn.column_eq]
      exact .test hcolumn.knows t'
    · rw [hcolumn'.column_eq]
      exact .test hcolumn'.knows t'
  | oneOf alternatives =>
    obtain ⟨fs, hfs, rfl⟩ := toFilter_oneOf_eq_ok.1 h
    obtain ⟨fs', hfs', rfl⟩ := toFilter_oneOf_eq_ok.1 h'
    exact (alternativesToFilters_agree alternatives hc hcolumn hcolumn' hfs hfs').group .or

theorem toFilters_agree {table : OperatorTable} {field : String} {column column' : ColumnRef}
    {place : ColumnPlace} (comparisons : List Comparison) {c c' c₁ c₁' : Context ι}
    {fs fs' : List Filter} (hc : c.Alike c') (hcolumn : c.Refers column place)
    (hcolumn' : c'.Refers column' place)
    (h : (toFilters table column field comparisons).exec c = (.ok fs, c₁))
    (h' : (toFilters table column' field comparisons).exec c' = (.ok fs', c₁')) :
    Filter.Agree c c' c₁ c₁' fs fs' := by
  cases comparisons with
  | nil =>
    obtain ⟨rfl, rfl⟩ := toFilters_nil_eq_ok.1 h
    obtain ⟨rfl, rfl⟩ := toFilters_nil_eq_ok.1 h'
    exact .nil hc
  | cons comparison rest =>
    obtain ⟨f, d, fs, hf, hfs, rfl⟩ := toFilters_cons_eq_ok.1 h
    obtain ⟨f', d', fs', hf', hfs', rfl⟩ := toFilters_cons_eq_ok.1 h'
    have hfirst := toFilter_agree comparison hc hcolumn hcolumn' hf hf'
    exact hfirst.append (toFilters_agree rest hfirst.alike (hcolumn.of_extends hfirst.grows)
      (hcolumn'.of_extends hfirst.grows') hfs hfs')

theorem alternativesToFilters_agree {table : OperatorTable} {field : String}
    {column column' : ColumnRef} {place : ColumnPlace} (alternatives : List (List Comparison))
    {c c' c₁ c₁' : Context ι} {fs fs' : List Filter} (hc : c.Alike c')
    (hcolumn : c.Refers column place) (hcolumn' : c'.Refers column' place)
    (h : (alternativesToFilters table column field alternatives).exec c = (.ok fs, c₁))
    (h' : (alternativesToFilters table column' field alternatives).exec c' = (.ok fs', c₁')) :
    Filter.Agree c c' c₁ c₁' fs fs' := by
  cases alternatives with
  | nil =>
    obtain ⟨rfl, rfl⟩ := alternativesToFilters_nil_eq_ok.1 h
    obtain ⟨rfl, rfl⟩ := alternativesToFilters_nil_eq_ok.1 h'
    exact .nil hc
  | cons alternative rest =>
    obtain ⟨parts, d, fs, hparts, hfs, rfl⟩ := alternativesToFilters_cons_eq_ok.1 h
    obtain ⟨parts', d', fs', hparts', hfs', rfl⟩ := alternativesToFilters_cons_eq_ok.1 h'
    have hfirst := toFilters_agree alternative hc hcolumn hcolumn' hparts hparts'
    exact hfirst.chain.append (alternativesToFilters_agree rest hfirst.alike
      (hcolumn.of_extends hfirst.grows) (hcolumn'.of_extends hfirst.grows') hfs hfs')

end

end Comparison

namespace Predicate

mutual

theorem toFilter_agree {table : OperatorTable} {aliasName aliasName' path : String}
    {place : Option String} (p : Predicate) {c c' c₁ c₁' : Context ι} {f f' : Option Filter}
    (hc : c.Alike c') (hat : c.StandsAt place aliasName) (hat' : c'.StandsAt place aliasName')
    (h : (toFilter g table aliasName path p).exec c = (.ok f, c₁))
    (h' : (toFilter g table aliasName' path p).exec c' = (.ok f', c₁')) :
    Filter.Agree c c' c₁ c₁' f.toList f'.toList := by
  cases p with
  | field name column comparisons =>
    obtain ⟨fs, hfs, rfl⟩ := toFilter_field_eq_ok.1 h
    obtain ⟨fs', hfs', rfl⟩ := toFilter_field_eq_ok.1 h'
    rw [hat.alias_eq] at hfs
    rw [hat'.alias_eq] at hfs'
    have hcolumn : c.Refers _ ⟨place, column⟩ := ⟨hat.knows, rfl⟩
    have hcolumn' : c'.Refers _ ⟨place, column⟩ := ⟨hat'.knows, rfl⟩
    exact (Comparison.toFilters_agree comparisons hc hcolumn hcolumn' hfs hfs').chainOfParts
  | relation name condition =>
    obtain ⟨bound, t, hreach, h⟩ := toFilter_relation_eq_ok.1 h
    obtain ⟨bound', t', hreach', h'⟩ := toFilter_relation_eq_ok.1 h'
    have htree : t.Alike t' := by
      apply hc.tree.reach _ _ hreach hreach' <;> rfl
    obtain ⟨ht, hgrows, hbound⟩ := hc.tree.aligned.reach hreach
    obtain ⟨ht', hgrows', hbound'⟩ := hc.tree.aligned'.reach hreach'
    have halike : Context.Alike { c with tree := t } { c' with tree := t' } :=
      ⟨htree, hc.layout, hc.parameters, hc.counter⟩
    have hagree := toFilter_agree condition halike (.of_get? ht hbound) (.of_get? ht' hbound') h h'
    exact ⟨hagree.alike, hgrows.trans hagree.grows, hgrows'.trans hagree.grows', hagree.written⟩
  | all children =>
    obtain ⟨fs, hfs, rfl⟩ := toFilter_all_eq_ok.1 h
    obtain ⟨fs', hfs', rfl⟩ := toFilter_all_eq_ok.1 h'
    exact (toFilters_agree children hc hat hat' hfs hfs').groupOfParts .and
  | any children =>
    obtain ⟨fs, hfs, rfl⟩ := toFilter_any_eq_ok.1 h
    obtain ⟨fs', hfs', rfl⟩ := toFilter_any_eq_ok.1 h'
    exact (toFilters_agree children hc hat hat' hfs hfs').groupOfParts .or
  | not child =>
    obtain ⟨f, hf, rfl⟩ := toFilter_not_eq_ok.1 h
    obtain ⟨f', hf', rfl⟩ := toFilter_not_eq_ok.1 h'
    exact (toFilter_agree child hc hat hat' hf hf').negation
  | fields entries =>
    obtain ⟨fs, hfs, rfl⟩ := toFilter_fields_eq_ok.1 h
    obtain ⟨fs', hfs', rfl⟩ := toFilter_fields_eq_ok.1 h'
    exact (toFilters_agree entries hc hat hat' hfs hfs').chainOfParts

theorem toFilters_agree {table : OperatorTable} {aliasName aliasName' path : String}
    {place : Option String} (ps : List Predicate) {c c' c₁ c₁' : Context ι} {fs fs' : List Filter}
    (hc : c.Alike c') (hat : c.StandsAt place aliasName) (hat' : c'.StandsAt place aliasName')
    (h : (toFilters g table aliasName path ps).exec c = (.ok fs, c₁))
    (h' : (toFilters g table aliasName' path ps).exec c' = (.ok fs', c₁')) :
    Filter.Agree c c' c₁ c₁' fs fs' := by
  cases ps with
  | nil =>
    obtain ⟨rfl, rfl⟩ := toFilters_nil_eq_ok.1 h
    obtain ⟨rfl, rfl⟩ := toFilters_nil_eq_ok.1 h'
    exact .nil hc
  | cons p rest =>
    obtain ⟨f, d, fs, hf, hfs, rfl⟩ := toFilters_cons_eq_ok.1 h
    obtain ⟨f', d', fs', hf', hfs', rfl⟩ := toFilters_cons_eq_ok.1 h'
    have hfirst := toFilter_agree p hc hat hat' hf hf'
    exact hfirst.append (toFilters_agree rest hfirst.alike (hat.of_extends hfirst.grows)
      (hat'.of_extends hfirst.grows') hfs hfs')

end

end Predicate

/-! ### Ordering -/

namespace Query

theorem orderTerm_alike {key : String × Direction} {term term' : OrderTerm} (hc : c.Alike c')
    (h : (orderTerm g key).exec c = (.ok term, c₁))
    (h' : (orderTerm g key).exec c' = (.ok term', c₁')) :
    c₁.Alike c₁' ∧ c.tree.Extends c₁.tree ∧ c'.tree.Extends c₁'.tree := by
  rcases orderTerm_eq_ok.1 h with ⟨hpath, rfl, -, -⟩ | ⟨hpath, -, bound, t, -, -, hreach, rfl, -⟩ <;>
    rcases orderTerm_eq_ok.1 h' with
      ⟨hpath', rfl, -, -⟩ | ⟨hpath', -, bound', t', -, -, hreach', rfl, -⟩
  · exact ⟨hc, .refl _, .refl _⟩
  · exact absurd hpath hpath'
  · exact absurd hpath' hpath
  · exact ⟨⟨hc.tree.reach rfl rfl hreach hreach', hc.layout, hc.parameters, hc.counter⟩,
      (hc.tree.aligned.reach hreach).2.1, (hc.tree.aligned'.reach hreach').2.1⟩

theorem orderTerms_alike {keys : List (String × Direction)} {terms terms' : List OrderTerm}
    (hc : c.Alike c') (h : (orderTerms g keys).exec c = (.ok terms, c₁))
    (h' : (orderTerms g keys).exec c' = (.ok terms', c₁')) :
    c₁.Alike c₁' ∧ c.tree.Extends c₁.tree ∧ c'.tree.Extends c₁'.tree := by
  induction keys generalizing c c' terms terms' with
  | nil =>
    obtain ⟨-, rfl⟩ := Prod.mk.inj h
    obtain ⟨-, rfl⟩ := Prod.mk.inj h'
    exact ⟨hc, .refl _, .refl _⟩
  | cons key keys ih =>
    obtain ⟨term, d, terms, hfirst, hrest, -⟩ := orderTerms_cons_eq_ok.1 h
    obtain ⟨term', d', terms', hfirst', hrest', -⟩ := orderTerms_cons_eq_ok.1 h'
    obtain ⟨halike, hgrows, hgrows'⟩ := orderTerm_alike hc hfirst hfirst'
    obtain ⟨hend, hmore, hmore'⟩ := ih halike hrest hrest'
    exact ⟨hend, hgrows.trans hmore, hgrows'.trans hmore'⟩

/-! ### Plans -/

/-- Two plans of one query but for the aliases: the joins stand at the same paths, with the same
relations and marks, in the same order, those of the clause among them; the clause has the same
parameters; the sort keys and the layout are the same but for their names; and one template writes both
texts, each under the aliases that the plan gives to the places. -/
structure SamePlans (quote : String → String) (p p' : QueryPlan ι) : Prop where
  joins : p.joins.map Join.bare = p'.joins.map Join.bare
  paths : Assoc.keys p.aliases = Assoc.keys p'.aliases
  clauseJoins : p.clause.joins.map Join.bare = p'.clause.joins.map Join.bare
  parameters : p.clause.parameters = p'.clause.parameters
  order : p.order.map unplaced = p'.order.map unplaced
  layout : p.layout.bare = p'.layout.bare
  text : ∃ template : Template,
    (∀ c, .column c ∈ template → p.scope.Knows c.place ∧ p'.scope.Knows c.place) ∧
    p.clause.text = FilterToken.write (fun c => (p.scope.refAt c).spell quote) template ∧
    p'.clause.text = FilterToken.write (fun c => (p'.scope.refAt c).spell quote) template

/-- The aliases of a plan are those of its last stage. -/
theorem Stages.scope_eq {e : ι} {aliasName : Option String} {table : OperatorTable} {q : Query}
    {c₁ c₂ c₃ c₄ : Context ι} {filters : List Filter} {order : List OrderTerm}
    (h : Stages g table q (start g e aliasName) c₁ c₂ c₃ c₄ filters order) (quote : String → String)
    (stable : Bool) (hpredicates : c₂.tree.Extends c₃.tree) (hordering : c₃.tree.Extends c₄.tree) :
    (planOf g e aliasName quote stable q c₃ c₄ filters order).scope = c₄.tree.aliases := by
  have hgrows := ((h.sound (Context.sound_start _ _)).2.trans hpredicates).trans hordering
  exact congrArg (Aliases.mk · c₄.tree.aliases.entries) hgrows.rootAlias.symm

/-- Side by side, the stages of queries that differ only in the aliases which their inclusions ask
for. -/
theorem Stages.agree {e : ι} {aliasName aliasName' : Option String} {table : OperatorTable}
    {q q' : Query} (hq : q.unnamed = q'.unnamed) {c₁ c₂ c₃ c₄ c₁' c₂' c₃' c₄' : Context ι}
    {filters filters' : List Filter} {order order' : List OrderTerm}
    (h : Stages g table q (start g e aliasName) c₁ c₂ c₃ c₄ filters order)
    (h' : Stages g table q' (start g e aliasName') c₁' c₂' c₃' c₄' filters' order') :
    Filter.Agree c₂ c₂' c₃ c₃' filters filters' ∧ c₄.Alike c₄' ∧ c₃.tree.Extends c₄.tree ∧
      c₃'.tree.Extends c₄'.tree := by
  obtain ⟨predicates, inclusions, selections, keys, offset, limit, distinct⟩ := q
  obtain ⟨predicates', inclusions', selections', keys', offset', limit', distinct'⟩ := q'
  obtain ⟨rfl, hinclusions, rfl, rfl, -, -, -⟩ := Query.mk.inj hq
  have hc₁ : c₁.Alike c₁' := Inclusion.planAll_alike _ _ hinclusions
    (Context.alike_start e _ _) h.inclusions h'.inclusions
  have hc₂ : c₂.Alike c₂' := Selection.planAll_alike _ hc₁ h.selections h'.selections
  have hagree := Predicate.toFilters_agree _ hc₂ c₂.standsAt_root c₂'.standsAt_root h.predicates
    h'.predicates
  exact ⟨hagree, orderTerms_alike hagree.alike h.ordering h'.ordering⟩

/-- Queries that differ only in the aliases which their inclusions ask for have the same plans but for
the aliases, under any two aliases of the root. -/
theorem plans_differ_in_aliases {e : ι} {aliasName aliasName' : Option String}
    {table : OperatorTable} {quote : String → String} {stable : Bool} {q q' : Query}
    {p p' : QueryPlan ι} (hq : q.unnamed = q'.unnamed)
    (h : q.plan g e aliasName table quote stable = .ok p)
    (h' : q'.plan g e aliasName' table quote stable = .ok p') : SamePlans quote p p' := by
  have horder := sortTerms_of_plan h
  have horder' := sortTerms_of_plan h'
  have hkeys : q.order = q'.order := (Query.mk.inj hq).2.2.2.1
  obtain ⟨c₁, c₂, c₃, c₄, filters, order, hstages, rfl⟩ := plan_eq_ok.1 h
  obtain ⟨c₁', c₂', c₃', c₄', filters', order', hstages', rfl⟩ := plan_eq_ok.1 h'
  obtain ⟨hagree, hc₄, hgrows, hgrows'⟩ := hstages.agree hq hstages'
  have hscope := hstages.scope_eq quote stable hagree.grows hgrows
  have hscope' := hstages'.scope_eq quote stable hagree.grows' hgrows'
  constructor
  case joins => exact hc₄.tree.joins
  case clauseJoins => exact hagree.alike.tree.joins
  case parameters => exact hagree.alike.parameters
  case layout => exact hc₄.layout
  case order => rw [horder, horder', sortTerms, sortTerms, hkeys]
  case paths =>
    show Assoc.keys c₄.tree.aliases.entries = Assoc.keys c₄'.tree.aliases.entries
    rw [hc₄.tree.aligned.keys_entries, hc₄.tree.aligned'.keys_entries, hc₄.tree.paths]
  case text =>
    obtain ⟨templates, hwritten, hwritten'⟩ := hagree.written
    have hend := (hwritten.of_extends hgrows).conjunction
    have hend' := (hwritten'.of_extends hgrows').conjunction
    rw [hscope, hscope']
    refine ⟨(Filter.templateOfConjunction templates).flatten, fun c hmem => ?_, hend.textOf quote,
      hend'.textOf quote⟩
    obtain ⟨ts, hts, hc⟩ := List.mem_flatten.1 hmem
    exact ⟨hend.known ts hts c hc, hend'.known ts hts c hc⟩

end Query

namespace Sample

/-- Writers without the alias for their posts, the root under an alias of its own. -/
def plainWritersPlan (g : EntityGraph String) : Except QueryError (QueryPlan String) := do
  (← writersQuery g).unnamed.plan g "User" (some "w") (.ofDialect none) id true

theorem plans_differ_in_aliases_writers : ∃ (q : Query) (p p' : QueryPlan String),
    q.unnamed = q.unnamed.unnamed ∧
    q.plan (mapping.graph fun _ => true) "User" none (.ofDialect none) id true = .ok p ∧
    q.unnamed.plan (mapping.graph fun _ => true) "User" (some "w") (.ofDialect none) id true =
      .ok p' ∧
    p.clause.text = "user_profile.bio = :bio_0" ∧ p'.clause.text = "w_profile.bio = :bio_0" ∧
    Query.SamePlans id p p' := by
  obtain ⟨p, hp⟩ := Except.exists_of_isOk
    (show (writersPlan (mapping.graph fun _ => true)).isOk = true by decide +kernel)
  obtain ⟨p', hp'⟩ := Except.exists_of_isOk
    (show (plainWritersPlan (mapping.graph fun _ => true)).isOk = true by decide +kernel)
  have htext : (writersPlan (mapping.graph fun _ => true)).toOption.map (·.clause.text) =
      some "user_profile.bio = :bio_0" := by
    decide +kernel
  have htext' : (plainWritersPlan (mapping.graph fun _ => true)).toOption.map (·.clause.text) =
      some "w_profile.bio = :bio_0" := by
    decide +kernel
  rw [hp] at htext
  rw [hp'] at htext'
  obtain ⟨q, hq, hplan⟩ := Except.bind_eq_ok.1 hp
  obtain ⟨q', hq', hplan'⟩ := Except.bind_eq_ok.1 hp'
  obtain rfl := Except.ok.inj (hq.symm.trans hq')
  exact ⟨q, p, p', q.unnamed_unnamed.symm, hplan, hplan', Option.some.inj htext,
    Option.some.inj htext',
    Query.plans_differ_in_aliases q.unnamed_unnamed.symm hplan hplan'⟩

end Sample

end EntityQuery

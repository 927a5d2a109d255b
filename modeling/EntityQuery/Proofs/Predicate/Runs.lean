import EntityQuery.Filter.OfPredicate
import EntityQuery.Proofs.Step

/-! Runs of compiling, one equation for each kind of comparison and predicate. A successful run is
successful runs of the parts, one after the other. -/

namespace EntityQuery

variable {ι : Type}

namespace Comparison

variable {table : OperatorTable} {column : ColumnRef} {field : String} {c c' : Context ι}

theorem toFilter_test_eq_ok {op : Operator} {value : Value} {f : Filter} :
    (toFilter table column field (.test op value)).exec c = (.ok f, c') ↔
      ∃ t p, (table.toTest op.token (field ++ "_" ++ toString c.counter) value).exec c.parameters =
          (.ok t, p) ∧
        f = .test column t ∧ c' = { c with parameters := p, counter := c.counter + 1 } := by
  simp only [toFilter, Step.bind_eq_ok, Step.exec_get, Step.exec_modify, Step.exec_pure,
    Context.inParameters, Step.within_eq_ok, Prod.mk.injEq, Except.ok.injEq]
  constructor
  · rintro ⟨_, _, ⟨rfl, rfl⟩, _, _, ⟨-, rfl⟩, t, _, ⟨p, h, rfl⟩, rfl, rfl⟩
    exact ⟨t, p, h, rfl, rfl⟩
  · rintro ⟨t, p, h, rfl, rfl⟩
    exact ⟨_, _, ⟨rfl, rfl⟩, (), _, ⟨trivial, rfl⟩, t, _, ⟨p, h, rfl⟩, rfl, rfl⟩

theorem toFilter_oneOf_eq_ok {alternatives : List (List Comparison)} {f : Filter} :
    (toFilter table column field (.oneOf alternatives)).exec c = (.ok f, c') ↔
      ∃ fs, (alternativesToFilters table column field alternatives).exec c = (.ok fs, c') ∧
        f = .group .or fs := by
  rw [toFilter, Step.map_eq_ok]

theorem toFilters_nil_eq_ok {fs : List Filter} :
    (toFilters table column field []).exec c = (.ok fs, c') ↔ fs = [] ∧ c' = c := by
  simp only [toFilters, Step.exec_pure, Prod.mk.injEq, Except.ok.injEq, eq_comm]

theorem toFilters_cons_eq_ok {comparison : Comparison} {rest : List Comparison} {fs : List Filter} :
    (toFilters table column field (comparison :: rest)).exec c = (.ok fs, c') ↔
      ∃ f c₁ gs, (toFilter table column field comparison).exec c = (.ok f, c₁) ∧
        (toFilters table column field rest).exec c₁ = (.ok gs, c') ∧ fs = f :: gs := by
  rw [toFilters, Step.bind_map_eq_ok]

theorem alternativesToFilters_nil_eq_ok {fs : List Filter} :
    (alternativesToFilters table column field []).exec c = (.ok fs, c') ↔ fs = [] ∧ c' = c := by
  simp only [alternativesToFilters, Step.exec_pure, Prod.mk.injEq, Except.ok.injEq, eq_comm]

theorem alternativesToFilters_cons_eq_ok {alternative : List Comparison}
    {rest : List (List Comparison)} {fs : List Filter} :
    (alternativesToFilters table column field (alternative :: rest)).exec c = (.ok fs, c') ↔
      ∃ parts c₁ gs, (toFilters table column field alternative).exec c = (.ok parts, c₁) ∧
        (alternativesToFilters table column field rest).exec c₁ = (.ok gs, c') ∧
        fs = .chain parts :: gs := by
  rw [alternativesToFilters, Step.bind_map_eq_ok]

end Comparison

namespace Predicate

variable {g : EntityGraph ι} {table : OperatorTable} {aliasName path : String} {c c' : Context ι}
  {f : Option Filter}

theorem toFilter_field_eq_ok {name column : String} {comparisons : List Comparison} :
    (toFilter g table aliasName path (field name column comparisons)).exec c = (.ok f, c') ↔
      ∃ fs, (Comparison.toFilters table
          ⟨if aliasName.isEmpty then c.tree.aliases.root else aliasName, column⟩ name
          comparisons).exec c = (.ok fs, c') ∧
        f = Filter.ofParts .chain fs := by
  rw [toFilter, Step.bind_eq_ok]
  constructor
  · rintro ⟨_, _, ⟨⟩, h⟩
    exact Step.map_eq_ok.1 h
  · exact fun h => ⟨c, c, rfl, Step.map_eq_ok.2 h⟩

/-- A condition on a relation joins the relation first. -/
theorem toFilter_relation_eq_ok {name : String} {condition : Predicate} :
    (toFilter g table aliasName path (relation name condition)).exec c = (.ok f, c') ↔
      ∃ bound t, (JoinTree.reach g
          { path := Path.child path name, start := some aliasName }).exec c.tree = (.ok bound, t) ∧
        (toFilter g table bound (Path.child path name) condition).exec { c with tree := t } =
          (.ok f, c') := by
  simp only [toFilter, Step.bind_eq_ok, Context.inTree, Step.within_eq_ok]
  constructor
  · rintro ⟨bound, _, ⟨t, hreach, rfl⟩, h⟩
    exact ⟨bound, t, hreach, h⟩
  · rintro ⟨bound, t, hreach, h⟩
    exact ⟨bound, _, ⟨t, hreach, rfl⟩, h⟩

theorem toFilter_all_eq_ok {children : List Predicate} :
    (toFilter g table aliasName path (all children)).exec c = (.ok f, c') ↔
      ∃ fs, (toFilters g table aliasName path children).exec c = (.ok fs, c') ∧
        f = Filter.ofParts (.group .and) fs := by
  rw [toFilter, Step.map_eq_ok]

theorem toFilter_any_eq_ok {children : List Predicate} :
    (toFilter g table aliasName path (any children)).exec c = (.ok f, c') ↔
      ∃ fs, (toFilters g table aliasName path children).exec c = (.ok fs, c') ∧
        f = Filter.ofParts (.group .or) fs := by
  rw [toFilter, Step.map_eq_ok]

theorem toFilter_fields_eq_ok {entries : List Predicate} :
    (toFilter g table aliasName path (fields entries)).exec c = (.ok f, c') ↔
      ∃ fs, (toFilters g table aliasName path entries).exec c = (.ok fs, c') ∧
        f = Filter.ofParts .chain fs := by
  rw [toFilter, Step.map_eq_ok]

theorem toFilter_not_eq_ok {child : Predicate} :
    (toFilter g table aliasName path (not child)).exec c = (.ok f, c') ↔
      ∃ f', (toFilter g table aliasName path child).exec c = (.ok f', c') ∧
        f = f'.map .negation := by
  rw [toFilter, Step.map_eq_ok]

theorem toFilters_nil_eq_ok {fs : List Filter} :
    (toFilters g table aliasName path []).exec c = (.ok fs, c') ↔ fs = [] ∧ c' = c := by
  simp only [toFilters, Step.exec_pure, Prod.mk.injEq, Except.ok.injEq, eq_comm]

theorem toFilters_cons_eq_ok {p : Predicate} {rest : List Predicate} {fs : List Filter} :
    (toFilters g table aliasName path (p :: rest)).exec c = (.ok fs, c') ↔
      ∃ f c₁ gs, (toFilter g table aliasName path p).exec c = (.ok f, c₁) ∧
        (toFilters g table aliasName path rest).exec c₁ = (.ok gs, c') ∧ fs = f.toList ++ gs := by
  rw [toFilters, Step.bind_map_eq_ok]

end Predicate

end EntityQuery

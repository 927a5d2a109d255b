import EntityQuery.Proofs.Predicate.KeyPath
import EntityQuery.Proofs.Query.Meaning
import EntityQuery.Proofs.Store.OneRoot

/-! Queries narrowed to the record under a key. The equalities of key columns join nothing and show
nothing, so that a narrowed query has a plan where the query has one, with the same joins and the same
layout; it matches what the query matches, of the one record alone. -/

namespace EntityQuery

variable {ι : Type} {g : EntityGraph ι}

namespace Predicate

/-- The equalities of columns of an entity with values. -/
def equalities (e : Entity ι) (key : Row) : List Predicate :=
  key.map fun x => .field x.1 (e.columnName x.1) [.test .eq x.2]

/-- What the object of a key is read as. -/
def ofKey (e : Entity ι) (key : Row) : Predicate := ofEntries (equalities e key)

/-- The object that asks for the values of a key. -/
def keyObject (key : Row) : Value :=
  .obj (key.map fun x => (x.1, .obj [(Operator.eq.token, x.2)]))

/-- Names of a key are those of columns. -/
def NamesColumns (e : Entity ι) (key : Row) : Prop :=
  ∀ x ∈ key, e.relation? x.1 = none ∧ e.hasColumn x.1 = true

theorem readPredicate_keyObject {e : ι} {key : Row} (h : NamesColumns (g.entity e) key) :
    g.readPredicate e (keyObject key) = .ok (ofKey (g.entity e) key) := by
  suffices hmembers : readMembers g e ""
      (key.map fun x => (x.1, Value.obj [(Operator.eq.token, x.2)])) =
        .ok (equalities (g.entity e) key) by
    rw [EntityGraph.readPredicate, keyObject, read, hmembers]
    rfl
  induction key with
  | nil => exact KeyPath.readMembers_nil
  | cons x key ih =>
    obtain ⟨⟨hrelation, hcolumn⟩, hkey⟩ := List.forall_mem_cons.1 h
    have hvalue : Comparison.readAll (Path.child "" x.1) (.obj [(Operator.eq.token, x.2)]) =
        .ok [.test .eq x.2] := KeyPath.readAll_nest_nil _ _
    rw [List.map_cons]
    unfold readMembers
    simp only [hrelation, hcolumn, if_true, hvalue, ih hkey]
    rfl

/-! ### Compiling -/

section Compiling

variable {table : OperatorTable} {symbol : String} {aliasName path : String}

theorem toFilters_append {ps ps' : List Predicate} {fs fs' : List Filter} {c c' c'' : Context ι}
    (h : (toFilters g table aliasName path ps).exec c = (.ok fs, c'))
    (h' : (toFilters g table aliasName path ps').exec c' = (.ok fs', c'')) :
    (toFilters g table aliasName path (ps ++ ps')).exec c = (.ok (fs ++ fs'), c'') := by
  induction ps generalizing fs c with
  | nil =>
    obtain ⟨rfl, rfl⟩ := toFilters_nil_eq_ok.1 h
    exact h'
  | cons p ps ih =>
    obtain ⟨f, d, rest, hfirst, hrest, rfl⟩ := toFilters_cons_eq_ok.1 h
    exact toFilters_cons_eq_ok.2 ⟨f, d, rest ++ fs', hfirst, ih hrest, by rw [List.append_assoc]⟩

/-- Equalities of columns leave the joins and the layout as they are. -/
theorem exists_toFilters_equalities (g : EntityGraph ι) (aliasName path : String)
    (htable : table.get? Operator.eq.token = some (.eq, symbol)) (e : Entity ι) (key : Row)
    (c : Context ι) :
    ∃ fs c', (toFilters g table aliasName path (equalities e key)).exec c = (.ok fs, c') ∧
      c'.tree = c.tree ∧ c'.layout = c.layout := by
  induction key generalizing c with
  | nil => exact ⟨[], c, rfl, rfl, rfl⟩
  | cons x key ih =>
    have hfirst : ((Predicate.field x.1 (e.columnName x.1) [.test .eq x.2]).toFilter g table
        aliasName path).exec c = _ := KeyPath.exec_toFilter_column htable aliasName path c
    obtain ⟨fs, c', hrest, htree, hlayout⟩ := ih _
    exact ⟨_, c', toFilters_cons_eq_ok.2 ⟨_, _, fs, hfirst, hrest, rfl⟩, htree, hlayout⟩

theorem exists_toFilters_ofKey (g : EntityGraph ι) (aliasName path : String)
    (htable : table.get? Operator.eq.token = some (.eq, symbol)) (e : Entity ι) (key : Row)
    (c : Context ι) :
    ∃ fs c', (toFilters g table aliasName path [ofKey e key]).exec c = (.ok fs, c') ∧
      c'.tree = c.tree ∧ c'.layout = c.layout := by
  obtain ⟨fs, c', hexec, htree, hlayout⟩ :=
    exists_toFilters_equalities g aliasName path htable e key c
  have hfields : ∃ fs, (toFilters g table aliasName path [.fields (equalities e key)]).exec c =
      (.ok fs, c') :=
    ⟨_, toFilters_cons_eq_ok.2 ⟨_, c', [], toFilter_fields_eq_ok.2 ⟨fs, hexec, rfl⟩, rfl, rfl⟩⟩
  match key with
  | [] => exact ⟨_, c', hfields.choose_spec, htree, hlayout⟩
  | [x] => exact ⟨fs, c', hexec, htree, hlayout⟩
  | _ :: _ :: _ => exact ⟨_, c', hfields.choose_spec, htree, hlayout⟩

end Compiling

end Predicate

namespace Query

/-! ### Plans -/

theorem exec_orderTerm (key : String × Direction) {c d : Context ι} (htree : d.tree = c.tree) :
    (orderTerm g key).exec d = (((orderTerm g key).exec c).1,
      { d with tree := ((orderTerm g key).exec c).2.tree }) := by
  obtain ⟨tree, layout, parameters, counter⟩ := c
  obtain ⟨_, layout', parameters', counter'⟩ := d
  obtain rfl : _ = tree := htree
  unfold orderTerm
  simp only [Step.exec_bind, Step.exec_get, Context.inTree]
  cases hempty : (Path.parent key.1).isEmpty with
  | true =>
    simp only [if_true, pure_bind]
    split <;> rfl
  | false =>
    simp only [Bool.false_eq_true, if_false, Step.exec_bind, Step.exec_ofExcept]
    cases JoinTree.entityAt g _ (Path.parent key.1) with
    | error cause => rfl
    | ok e =>
      dsimp only
      split
      · rfl
      · simp only [Step.exec_bind, Step.exec_within]
        rcases (JoinTree.reach g { path := Path.parent key.1 }).exec _ with ⟨_ | _, _⟩ <;> rfl

/-- Sort keys look at the joins alone. -/
theorem exec_orderTerms (keys : List (String × Direction)) {c d : Context ι} (htree : d.tree = c.tree) :
    (orderTerms g keys).exec d = (((orderTerms g keys).exec c).1,
      { d with tree := ((orderTerms g keys).exec c).2.tree }) := by
  induction keys generalizing c d with
  | nil => rw [orderTerms, Step.exec_pure, Step.exec_pure, ← htree]
  | cons key keys ih =>
    rw [orderTerms, Step.exec_bind, Step.exec_bind, exec_orderTerm key htree]
    rcases (orderTerm g key).exec c with ⟨cause | term, c₁⟩
    · rfl
    · dsimp only
      rw [Step.exec_bind, Step.exec_bind, ih (c := c₁) (d := { d with tree := c₁.tree }) rfl]
      rcases (orderTerms g keys).exec c₁ with ⟨_ | _, _⟩ <;> rfl

theorem layout_orderTerms {keys : List (String × Direction)} {terms : List OrderTerm} {c c' : Context ι}
    (h : (orderTerms g keys).exec c = (.ok terms, c')) : c'.layout = c.layout :=
  orderTerms_keeps (P := fun d => d.layout = c.layout) (fun _ _ _ _ hlayout _ => hlayout) rfl h

/-- A query has a plan with the same joins and the same layout when it is narrowed by a predicate that
joins nothing. -/
theorem exists_plan_addPredicate {e : ι} {aliasName : Option String} {table : OperatorTable}
    {quote : String → String} {stable : Bool} {q : Query} {p : QueryPlan ι} {predicate : Predicate}
    (hcompiles : ∀ c, ∃ fs c', (Predicate.toFilters g table "" "" [predicate]).exec c = (.ok fs, c') ∧
      c'.tree = c.tree ∧ c'.layout = c.layout)
    (h : q.plan g e aliasName table quote stable = .ok p) (limit : Option Int) :
    ∃ p', ({ q.addPredicate predicate with limit } : Query).plan g e aliasName table quote stable =
        .ok p' ∧
      p.Mirrors p' ∧ p'.offset = q.offset ∧ p'.limit = limit ∧ p'.distinct = q.distinct := by
  obtain ⟨c₁, c₂, c₃, c₄, filters, order, hstages, rfl⟩ := plan_eq_ok.1 h
  obtain ⟨fs, d, hadded, htree, hlayout⟩ := hcompiles c₃
  have hordering := exec_orderTerms (g := g) q.order htree
  rw [hstages.ordering] at hordering
  refine ⟨_, plan_eq_ok.2 ⟨c₁, c₂, d, { d with tree := c₄.tree }, filters ++ fs, order,
    ⟨hstages.inclusions, hstages.selections, ?_, hordering⟩, rfl⟩, ⟨rfl, rfl, rfl, ?_⟩, rfl, rfl, rfl⟩
  · exact Predicate.toFilters_append hstages.predicates hadded
  · exact hlayout.trans (layout_orderTerms hstages.ordering).symm

/-- A query narrowed to a key has a plan with the same joins and the same layout. -/
theorem exists_plan_narrowed {e : ι} {aliasName : Option String} {table : OperatorTable}
    {quote : String → String} {stable : Bool} {q : Query} {p : QueryPlan ι} {symbol : String}
    (htable : table.get? Operator.eq.token = some (.eq, symbol))
    (h : q.plan g e aliasName table quote stable = .ok p) (key : Row) (limit : Option Int) :
    ∃ p', ({ q.addPredicate (.ofKey (g.entity e) key) with limit } : Query).plan g e aliasName table
        quote stable = .ok p' ∧
      p.Mirrors p' ∧ p'.offset = q.offset ∧ p'.limit = limit ∧ p'.distinct = q.distinct :=
  exists_plan_addPredicate (Predicate.exists_toFilters_ofKey g "" "" htable (g.entity e) key) h limit

end Query

end EntityQuery

import EntityQuery.Proofs.Join.Flattening
import EntityQuery.Proofs.Predicate.Bindings
import EntityQuery.Proofs.Predicate.Truth

/-! Predicates that have been read do not go wrong when they are compiled. Nothing that they name is found
missing: they fail only where an operator refuses a value or where two relation paths are made into one
alias, and where no two are they fail just for the values. -/

namespace EntityQuery

variable {ι α β : Type} {g : EntityGraph ι}

/-! ### Values -/

namespace FieldTest

/-- A list or an object of `n` members. -/
def HasMembers (value : Value) (n : Nat) : Prop :=
  (∃ items, value = .list items ∧ items.length = n) ∨ ∃ members, value = .obj members ∧ members.length = n

/-- The operator can do with the value: sets are lists or objects, and a range has two ends. -/
def Accepted (t : FieldTest) : Prop :=
  match t.op with
  | .isIn | .notIn => ∃ n, HasMembers t.value n
  | .between => HasMembers t.value 2
  | _ => True

theorem hasMembers_iff {value : Value} {n : Nat} :
    HasMembers value n ↔ ∃ items, value.elements? = some items ∧ items.length = n := by
  cases value <;> simp [HasMembers, Value.elements?]

theorem refusal?_eq_none_iff {t : FieldTest} : t.refusal? = none ↔ t.Accepted := by
  obtain ⟨field, op, value⟩ := t
  unfold refusal? Accepted
  cases op
  case isIn | notIn =>
    simp only [hasMembers_iff]
    cases hitems : value.elements? <;> simp [Operator.refusal?, hitems]
  case between =>
    simp only [hasMembers_iff]
    rcases hitems : value.elements? with _ | _ | ⟨_, _ | ⟨_, _ | ⟨_, _⟩⟩⟩ <;>
      simp [Operator.refusal?, hitems]
  all_goals simp [Operator.refusal?]

end FieldTest

/-! ### Relation paths -/

namespace Predicate

mutual

/-- The relation paths of a predicate on the entity at `path`. -/
def relationPaths (path : String) : Predicate → List String
  | .field _ _ _ => []
  | .relation name condition =>
    Path.child path name :: relationPaths (Path.child path name) condition
  | .all children => relationPathsOfAll path children
  | .any children => relationPathsOfAll path children
  | .not child => relationPaths path child
  | .fields entries => relationPathsOfAll path entries

def relationPathsOfAll (path : String) : List Predicate → List String
  | [] => []
  | p :: rest => relationPaths path p ++ relationPathsOfAll path rest

end

theorem relationPathsOfAll_eq (path : String) (ps : List Predicate) :
    relationPathsOfAll path ps = ps.flatMap (relationPaths path) := by
  induction ps with
  | nil => rfl
  | cons p rest ih => rw [relationPathsOfAll, ih, List.flatMap_cons]

open JoinTree (leads leads_concat)

/-- The parts of the relation paths of a predicate are relation paths themselves, or lead to where the
predicate is. -/
def Parted (before : List String) (p : Predicate) : Prop :=
  ∀ path ∈ relationPaths (Path.ofSegments before) p, ∀ lead ∈ leads (Path.segments path),
    lead ∈ leads before ∨ lead ∈ relationPaths (Path.ofSegments before) p

theorem parted_of_all {before : List String} {p : Predicate} {ps : List Predicate}
    (hpaths : ∀ path, relationPaths path p = relationPathsOfAll path ps)
    (h : ∀ p ∈ ps, p.Parted before) : p.Parted before := by
  intro path hpath lead hlead
  rw [hpaths, relationPathsOfAll_eq] at hpath ⊢
  obtain ⟨q, hq, hpath⟩ := List.mem_flatMap.1 hpath
  exact (h q hq path hpath lead hlead).imp_right fun hmem => List.mem_flatMap.2 ⟨q, hq, hmem⟩

theorem Over.parted {root e : ι} (hg : g.Navigable root) {p : Predicate} (h : p.Over g e)
    {before : List String} (hbefore : g.entityAlong root before = some e) : p.Parted before := by
  induction h generalizing before with
  | field =>
    intro path hpath
    cases hpath
  | @relation e name r condition hrelation _ ih =>
    have hnext : g.entityAlong root (before ++ [name]) = some r.target := by
      rw [EntityGraph.entityAlong_concat, hbefore, Option.bind_some, hrelation, Option.map_some]
    have hsegments := hg.segments_ofSegments hnext (by simp)
    intro path hpath lead hlead
    rw [relationPaths, ← hg.ofSegments_concat hbefore name] at hpath ⊢
    -- The path of the relation itself adds one part to those that lead to it.
    have hlast : lead ∈ leads (before ++ [name]) → lead ∈ leads before ∨
        lead ∈ Path.ofSegments (before ++ [name]) ::
          relationPaths (Path.ofSegments (before ++ [name])) condition := by
      intro hlead
      rw [leads_concat, List.mem_append, List.mem_singleton] at hlead
      exact hlead.imp_right fun heq => List.mem_cons.2 (.inl heq)
    rcases List.mem_cons.1 hpath with rfl | hpath
    · exact hlast (hsegments ▸ hlead)
    · rcases ih hnext path hpath lead hlead with hlead | hlead
      · exact hlast hlead
      · exact .inr (List.mem_cons_of_mem _ hlead)
  | all _ _ ih => exact parted_of_all (fun _ => rfl) fun p hp => ih p hp hbefore
  | any _ _ ih => exact parted_of_all (fun _ => rfl) fun p hp => ih p hp hbefore
  | not _ ih => exact ih hbefore
  | fields _ ih => exact parted_of_all (fun _ => rfl) fun p hp => ih p hp hbefore

end Predicate

/-! ### How steps end -/

/-- How a step on tests ends: it accepts all values, or it reports one that an operator refuses, or it
reports an alias that names another path. -/
inductive Ends (tests : List FieldTest) (clash : Prop) : Except QueryError α → Prop
  | done {a : α} (h : ∀ t ∈ tests, t.refusal? = none) : Ends tests clash (.ok a)
  | refused {t : FieldTest} {fault : Fault} (ht : t ∈ tests) (h : t.refusal? = some fault) :
      Ends tests clash (.error (.validation fault none))
  | clashed {aliasName existing requested : String} (h : clash) :
      Ends tests clash (.error (.aliasConflict aliasName existing requested))

namespace Step

/-- A step that keeps a property of the joins, and ends in one of the three ways. -/
def Progresses (P : JoinTree ι → Prop) (tests : List FieldTest) (clash : Prop)
    (x : Step (Context ι) α) : Prop :=
  ∀ ⦃c r c'⦄, P c.tree → x.exec c = (r, c') → P c'.tree ∧ Ends tests clash r

variable {P : JoinTree ι → Prop} {tests tests' : List FieldTest} {clash : Prop}
variable {x : Step (Context ι) α}

theorem progresses_pure (a : α) : Progresses (ι := ι) P [] clash (pure a) := by
  rintro c _ _ hc ⟨⟩
  exact ⟨hc, .done (by simp)⟩

theorem Progresses.bind {f : α → Step (Context ι) β} (hx : Progresses P tests clash x)
    (hf : ∀ a, Progresses P tests' clash (f a)) : Progresses P (tests ++ tests') clash (x >>= f) := by
  intro c r c' hc h
  rcases bind_cases h with ⟨e, hfirst, rfl⟩ | ⟨a, c₁, hfirst, hrest⟩
  · obtain ⟨hc', hends⟩ := hx hc hfirst
    refine ⟨hc', ?_⟩
    cases hends with
    | refused ht hrefusal => exact .refused (List.mem_append_left _ ht) hrefusal
    | clashed hclash => exact .clashed hclash
  · obtain ⟨hc₁, hends₁⟩ := hx hc hfirst
    obtain ⟨hc', hends⟩ := hf a hc₁ hrest
    refine ⟨hc', ?_⟩
    cases hends₁ with
    | done haccepted =>
      cases hends with
      | done haccepted' => exact .done (List.forall_mem_append.2 ⟨haccepted, haccepted'⟩)
      | refused ht hrefusal => exact .refused (List.mem_append_right _ ht) hrefusal
      | clashed hclash => exact .clashed hclash

theorem Progresses.map (hx : Progresses P tests clash x) (f : α → β) :
    Progresses P tests clash (x >>= fun a => pure (f a)) := by
  have hbind := hx.bind fun a => progresses_pure (f a)
  rwa [List.append_nil] at hbind

theorem Progresses.both {γ : Type} {y : Step (Context ι) β} (hx : Progresses P tests clash x)
    (hy : Progresses P tests' clash y) (f : α → β → γ) :
    Progresses P (tests ++ tests') clash (x >>= fun a => y >>= fun b => pure (f a b)) :=
  hx.bind fun a => hy.map (f a)

end Step

open Step (Progresses progresses_pure)

variable {dialect : Option String} {P : JoinTree ι → Prop} {clash : Prop}

namespace Comparison

variable {column : ColumnRef} {field : String}

theorem toFilter_test_progresses (op : Operator) (value : Value) :
    Progresses P [⟨field, op, value⟩] clash
      (toFilter (.ofDialect dialect) column field (.test op value)) := by
  intro c r c' hc h
  rw [exec_toFilter_test, OperatorTable.toTest_ofDialect] at h
  cases hrefusal : op.refusal? value with
  | some fault =>
    obtain ⟨hrun, -⟩ := Operator.toTest_of_refusal hrefusal (OperatorTable.matchSymbol dialect)
      (field ++ "_" ++ toString c.counter) c.parameters
    rw [hrun] at h
    obtain ⟨rfl, rfl⟩ := Prod.mk.inj h
    exact ⟨hc, .refused (List.mem_singleton_self _) hrefusal⟩
  | none =>
    obtain ⟨t, hrun, -⟩ := Operator.exists_toTest hrefusal (OperatorTable.matchSymbol dialect)
      (field ++ "_" ++ toString c.counter) c.parameters
    rw [hrun] at h
    obtain ⟨rfl, rfl⟩ := Prod.mk.inj h
    exact ⟨hc, .done (List.forall_mem_singleton.2 hrefusal)⟩

mutual

theorem toFilter_progresses (comparison : Comparison) : Progresses P (fieldTests field comparison)
    clash (toFilter (.ofDialect dialect) column field comparison) := by
  cases comparison with
  | test op value => exact toFilter_test_progresses op value
  | oneOf alternatives =>
    rw [toFilter, fieldTests]
    exact (alternativesToFilters_progresses alternatives).map _

theorem toFilters_progresses (comparisons : List Comparison) :
    Progresses P (fieldTestsOfAll field comparisons) clash
      (toFilters (.ofDialect dialect) column field comparisons) := by
  cases comparisons with
  | nil => exact progresses_pure []
  | cons c rest =>
    rw [toFilters, fieldTestsOfAll]
    exact (toFilter_progresses c).both (toFilters_progresses rest) _

theorem alternativesToFilters_progresses (alternatives : List (List Comparison)) :
    Progresses P (alternativeFieldTests field alternatives) clash
      (alternativesToFilters (.ofDialect dialect) column field alternatives) := by
  cases alternatives with
  | nil => exact progresses_pure []
  | cons alternative rest =>
    rw [alternativesToFilters, alternativeFieldTests]
    exact (toFilters_progresses alternative).both (alternativesToFilters_progresses rest) _

end

end Comparison

namespace Predicate

/-- Requests for paths. -/
def requestsFor (paths : List String) : List JoinRequest := paths.map fun path => { path }

/-- A tree on which paths from a root entity can be joined: it is honest, and its aliases are all made
from the paths. -/
structure Joinable (g : EntityGraph ι) (root : ι) (paths : List String) (t : JoinTree ι) :
    Prop extends JoinTree.Honest g t where
  root : t.root = root
  plain : t.Plain (requestsFor paths)

variable {root : ι} {paths : List String}

/-- Joining one of the paths keeps the tree, and fails only where two parts of paths collide. -/
theorem reach_progresses (hg : g.Navigable root) {request : JoinRequest} (hpath : request.path ∈ paths)
    (hunnamed : request.aliasName = none)
    (hvalid : (g.entityAlong root (Path.segments request.path)).isSome = true) :
    Progresses (Joinable g root paths) [] (Collide (requestsFor paths))
      (Context.inTree (JoinTree.reach g request)) := by
  intro c r c' hc h
  rw [Context.inTree, Step.exec_within] at h
  obtain ⟨rfl, rfl⟩ := Prod.mk.inj h
  have hroot := hc.root
  obtain ⟨hhonest, hcases⟩ := hc.toHonest.exec_reach (hroot ▸ hg.named) request
  obtain ⟨hplain, hconflict⟩ := hc.plain.exec_reach_of_passes (g := g) hunnamed fun path hpasses =>
    ⟨{ path := request.path }, List.mem_map.2 ⟨request.path, hpath, rfl⟩, hpasses⟩
  have hgrows := (hc.aligned.exec_reach g request).2
  refine ⟨⟨hhonest, hgrows.root.trans hroot, hplain⟩, ?_⟩
  rcases hcases (hroot ▸ hvalid) with hok | ⟨aliasName, existing, requested, herror⟩
  · obtain ⟨bound, hbound⟩ := Except.exists_of_isOk hok
    rw [hbound]
    exact .done (by simp)
  · rw [herror]
    exact .clashed (hconflict _ _ _ herror)

mutual

/-- Compiling a predicate makes progress where joining each of its relation paths does. -/
theorem toFilter_progresses {aliasName path : String} (p : Predicate)
    (hreach : ∀ sub ∈ relationPaths path p, ∀ start,
      Progresses P [] clash (Context.inTree (JoinTree.reach g { path := sub, start }))) :
    Progresses P p.fieldTests clash (toFilter g (.ofDialect dialect) aliasName path p) := by
  cases p with
  | field name column comparisons =>
    rw [toFilter, fieldTests]
    intro c r c' hc h
    rcases Step.bind_cases h with ⟨_, ⟨⟩, -⟩ | ⟨_, _, ⟨⟩, hrest⟩
    exact (Comparison.toFilters_progresses _).map _ hc hrest
  | relation name condition =>
    rw [relationPaths, List.forall_mem_cons] at hreach
    rw [toFilter, fieldTests, ← List.nil_append (fieldTests _)]
    exact (hreach.1 _).bind fun bound => toFilter_progresses condition hreach.2
  | all children =>
    rw [toFilter, fieldTests]
    exact (toFilters_progresses children hreach).map _
  | any children =>
    rw [toFilter, fieldTests]
    exact (toFilters_progresses children hreach).map _
  | not child =>
    rw [toFilter, fieldTests]
    exact (toFilter_progresses child hreach).map _
  | fields entries =>
    rw [toFilter, fieldTests]
    exact (toFilters_progresses entries hreach).map _

theorem toFilters_progresses {aliasName path : String} (ps : List Predicate)
    (hreach : ∀ sub ∈ relationPathsOfAll path ps, ∀ start,
      Progresses P [] clash (Context.inTree (JoinTree.reach g { path := sub, start }))) :
    Progresses P (fieldTestsOfAll ps) clash
      (toFilters g (.ofDialect dialect) aliasName path ps) := by
  cases ps with
  | nil => exact progresses_pure []
  | cons p rest =>
    rw [relationPathsOfAll, List.forall_mem_append] at hreach
    rw [toFilters, fieldTestsOfAll]
    exact (toFilter_progresses p hreach.1).both (toFilters_progresses rest hreach.2) _

end

/-- The relation paths of a predicate over the entity at the end of a chain of relations lead to
entities. -/
theorem Over.entityAlong_isSome (hg : g.Navigable root) {e : ι} {p : Predicate} (h : p.Over g e)
    (before : List String) (hbefore : g.entityAlong root before = some e) :
    ∀ path ∈ relationPaths (Path.ofSegments before) p,
      (g.entityAlong root (Path.segments path)).isSome = true := by
  induction h generalizing before with
  | field =>
    intro path hpath
    cases hpath
  | @relation e name r condition hrelation _ ih =>
    have hnext : g.entityAlong root (before ++ [name]) = some r.target := by
      rw [EntityGraph.entityAlong_concat, hbefore, Option.bind_some, hrelation, Option.map_some]
    rw [relationPaths, ← hg.ofSegments_concat hbefore name, List.forall_mem_cons,
      hg.segments_ofSegments hnext (by simp), hnext]
    exact ⟨rfl, ih _ hnext⟩
  | all _ _ ih | any _ _ ih | fields _ ih =>
    intro path hpath
    rw [relationPaths, relationPathsOfAll_eq] at hpath
    obtain ⟨p, hp, hpath⟩ := List.mem_flatMap.1 hpath
    exact ih p hp before hbefore path hpath
  | not _ ih => exact ih before hbefore

/-- Compiling a predicate over the entity at the end of a chain of relations makes progress. -/
theorem Over.progresses (hg : g.Navigable root) {e : ι} {p : Predicate} (h : p.Over g e)
    (before : List String) (hbefore : g.entityAlong root before = some e)
    (hpaths : relationPaths (Path.ofSegments before) p ⊆ paths) (aliasName : String) :
    Progresses (Joinable g root paths) p.fieldTests (Collide (requestsFor paths))
      (toFilter g (.ofDialect dialect) aliasName (Path.ofSegments before) p) :=
  toFilter_progresses p fun sub hsub _ => reach_progresses hg (hpaths hsub) rfl
    (h.entityAlong_isSome hg before hbefore sub hsub)

end Predicate

/-! ### Compiling what was read -/

/-- No two of the paths are made into one alias. -/
def AliasesApart (rootAlias : String) (paths : List String) : Prop :=
  ∀ path ∈ paths, ∀ path' ∈ paths, path ≠ path' →
    (Aliases.start rootAlias).synthesize path ≠ (Aliases.start rootAlias).synthesize path'

theorem Predicate.Over.not_aliasesApart {e : ι} {p : Predicate} (hg : g.Navigable e) (h : p.Over g e)
    (hcollide : Collide (Predicate.requestsFor (p.relationPaths ""))) (rootAlias : String) :
    ¬ AliasesApart rootAlias (p.relationPaths "") := by
  have hmem : ∀ path, (∃ request ∈ Predicate.requestsFor (p.relationPaths ""), request.Passes path) →
      path ∈ p.relationPaths "" := by
    rintro path ⟨request, hrequest, hpasses⟩
    obtain ⟨whole, hwhole, rfl⟩ := List.mem_map.1 hrequest
    have hparted : p.Parted [] := h.parted hg rfl
    exact (hparted whole hwhole path hpasses).resolve_left List.not_mem_nil
  obtain ⟨path, path', hne, hflat, hpath, hpath'⟩ := hcollide
  intro hapart
  exact hapart path (hmem path hpath) path' (hmem path' hpath') hne
    ((Aliases.synthesize_eq_iff _ path path').2 hflat)

/-- How compiling a predicate ends that has been read: nothing that it names is missing, and where its
aliases are apart it fails only for values that operators refuse. -/
structure Predicate.Progress (p : Predicate) (rootAlias : String)
    (result : Except QueryError (FilterClause ι)) : Prop where
  errors : ∀ cause, result = .error cause → (∃ fault, cause = .validation fault none) ∨
    ∃ aliasName existing requested, cause = .aliasConflict aliasName existing requested
  isOk_iff : AliasesApart rootAlias (p.relationPaths "") →
    (result.isOk = true ↔ ∀ t ∈ p.fieldTests, t.Accepted)
  refused : AliasesApart rootAlias (p.relationPaths "") → (∃ t ∈ p.fieldTests, ¬ t.Accepted) →
    ∃ t ∈ p.fieldTests, ∃ fault, t.refusal? = some fault ∧ result = .error (.validation fault none)

theorem Ends.progress {p : Predicate} {rootAlias : String}
    {result : Except QueryError (FilterClause ι)}
    (h : Ends p.fieldTests (¬ AliasesApart rootAlias (p.relationPaths "")) result) :
    p.Progress rootAlias result := by
  cases h with
  | done haccepted =>
    have hall : ∀ t ∈ p.fieldTests, t.Accepted := fun t ht =>
      FieldTest.refusal?_eq_none_iff.1 (haccepted t ht)
    exact ⟨nofun, fun _ => ⟨fun _ => hall, fun _ => rfl⟩,
      fun _ ⟨t, ht, hnot⟩ => absurd (hall t ht) hnot⟩
  | @refused t fault ht hrefusal =>
    have hnot : ¬ t.Accepted := by
      rw [← FieldTest.refusal?_eq_none_iff, hrefusal]
      simp
    refine ⟨fun cause h => .inl ⟨fault, (Except.error.inj h).symm⟩, fun _ => ?_,
      fun _ _ => ⟨t, ht, fault, hrefusal, rfl⟩⟩
    exact ⟨nofun, fun hall => absurd (hall t ht) hnot⟩
  | clashed hclash =>
    exact ⟨fun cause h => .inr ⟨_, _, _, (Except.error.inj h).symm⟩,
      fun hapart => absurd hapart hclash, fun hapart => absurd hapart hclash⟩

/-- A predicate that has been read does not go wrong when it is compiled. -/
theorem compilePredicate_progress {e : ι} (hg : g.Navigable e) {data : Value} {p : Predicate}
    (hp : g.readPredicate e data = .ok p) (aliasName dialect : Option String)
    (quote : String → String) :
    p.Progress (rootAlias aliasName (g.entity e))
      (g.compilePredicate e aliasName (.ofDialect dialect) quote data) := by
  have hover := Predicate.read_over data hp
  generalize hroot : rootAlias aliasName (g.entity e) = root
  have hjoinable : Predicate.Joinable g e (p.relationPaths "") (JoinTree.start e root) :=
    ⟨JoinTree.honest_start g e root, rfl, JoinTree.plain_start _ e root⟩
  rcases hrun : (p.toFilter g (.ofDialect dialect) "" "").exec (Context.start e root) with ⟨result, c⟩
  obtain ⟨-, hends⟩ := hover.progresses hg [] rfl (List.Subset.refl _) "" (c := Context.start e root)
    hjoinable hrun
  have hcompiled : g.compilePredicate e aliasName (.ofDialect dialect) quote data =
      result.map fun f => c.clause (Filter.textOf quote f) := by
    rw [EntityGraph.compilePredicate, hp, hroot]
    simp only [bind, Except.bind, hrun]
    cases result <;> rfl
  rw [hcompiled]
  apply Ends.progress
  have hclash := fun hcollide => hover.not_aliasesApart hg hcollide root
  cases hends with
  | done haccepted => exact .done haccepted
  | refused ht hrefusal => exact .refused ht hrefusal
  | clashed hcollide => exact .clashed (hclash hcollide)

namespace Sample

/-- An entity with a nameless relation to another one, which does not know its other relation. -/
def detour : EntityGraph Bool where
  entity
    | true => ⟨"Root", [("id", "id")], ["id"], [⟨"", false, false⟩, ⟨"x", true, false⟩]⟩
    | false => ⟨"Far", [("id", "id")], ["id"], [⟨"back", true, false⟩]⟩

/-- Conditions on both relations of the first entity. -/
def bothWays : Value :=
  .obj [("", .obj [("id", .obj [("eq", .int 1)])]), ("x", .obj [("id", .obj [("in", .list [])])])]

/-- Below the other entity nothing is in the way: the aliases are apart, and the conditions compile. -/
theorem compilePredicate_progress_detour : detour.Navigable false ∧
    ∃ p, detour.readPredicate false (.obj [("back", bothWays)]) = .ok p ∧
      p.relationPaths "" = ["back", "back.", "back.x"] ∧
      p.Progress (rootAlias none (detour.entity false))
        (detour.compilePredicate false none (.ofDialect none) id (.obj [("back", bothWays)])) ∧
      (detour.compilePredicate false none (.ofDialect none) id
        (.obj [("back", bothWays)])).isOk = true := by
  have hnavigable : detour.Navigable false := ⟨by decide, by decide⟩
  have hread : (detour.readPredicate false (.obj [("back", bothWays)])).toOption.map (fun p =>
      (p.relationPaths "", p.fieldTests.all fun t => t.refusal?.isNone)) =
        some (["back", "back.", "back.x"], true) := by decide +kernel
  obtain ⟨p, hp, hshown⟩ := Option.map_eq_some_iff.1 hread
  replace hp := Except.eq_ok_of_toOption hp
  obtain ⟨hpaths, hall⟩ := Prod.mk.inj hshown
  have hprogress := compilePredicate_progress hnavigable hp none none id
  refine ⟨hnavigable, p, hp, hpaths, hprogress, (hprogress.isOk_iff ?_).2 fun t ht => ?_⟩
  · rw [hpaths]
    unfold AliasesApart
    decide +kernel
  · exact FieldTest.refusal?_eq_none_iff.1 (Option.isNone_iff_eq_none.1 (List.all_eq_true.1 hall t ht))

/-- The target of a nameless relation of the root takes its place, whose path is empty too. -/
theorem detour_goes_wrong :
    (∀ e, ∀ r ∈ (detour.entity e).relations, '.' ∉ r.name.toList) ∧
    (detour.readPredicate true bothWays).isOk = true ∧
    detour.compilePredicate true none (.ofDialect none) id bothWays =
      .error (.relationNotFound "x" "Far" ["back"] (some "x")) := by
  refine ⟨by decide, by decide +kernel, ?_⟩
  rfl

end Sample

end EntityQuery

import EntityQuery.Session
import EntityQuery.Proofs.Store.Roots
import EntityQuery.Proofs.Store.Shaping

/-! Queries as a session puts them together. Whatever calls have built a query, it has been read on its
model, so that its plans are scoped and their layouts follow the relations of the model. -/

namespace EntityQuery

variable {ι : Type} [DecidableEq ι]

namespace BoundQuery

/-- Queries that the calls of a session put together. -/
inductive Built : BoundQuery ι → Prop
  | fresh {s : Session ι} {e : ι} {b : BoundQuery ι} (h : s.queryOn e = .ok b) : Built b
  | filtered {b b' : BoundQuery ι} {data : Value} (hb : Built b) (h : b.filtered data = .ok b') :
    Built b'
  | including {b b' : BoundQuery ι} {data : Value} (hb : Built b) (h : b.including data = .ok b') :
    Built b'
  | selecting {b b' : BoundQuery ι} {data : Value} (hb : Built b) (h : b.selecting data = .ok b') :
    Built b'
  | orderBy {b : BoundQuery ι} (hb : Built b) (key : String) (d : Direction) : Built (b.orderBy key d)
  | thenBy {b : BoundQuery ι} (hb : Built b) (key : String) (d : Direction) : Built (b.thenBy key d)
  | distinct {b : BoundQuery ι} (hb : Built b) : Built b.distinct
  | skip {b b' : BoundQuery ι} {count : Value} (hb : Built b) (h : b.skip count = .ok b') : Built b'
  | take {b b' : BoundQuery ι} {count : Value} (hb : Built b) (h : b.take count = .ok b') : Built b'

variable {b b' : BoundQuery ι}

omit [DecidableEq ι] in
theorem queryOn_eq_ok {s : Session ι} {e : ι} (h : s.queryOn e = .ok b) :
    ∃ e', s.catalogue.get (s.mapping.model e).name = .ok e' ∧ b = ⟨s, e', .empty⟩ := by
  obtain ⟨e', he, h⟩ := Except.bind_eq_ok.1 h
  exact ⟨e', he, (Except.ok.inj h).symm⟩

theorem filtered_eq_ok {data : Value} (h : b.filtered data = .ok b') :
    ∃ p, b.session.graph.readPredicate b.model data = .ok p ∧ b' = b.modify (·.addPredicate p) := by
  obtain ⟨p, hp, h⟩ := Except.bind_eq_ok.1 h
  exact ⟨p, hp, (Except.ok.inj h).symm⟩

theorem filtered_of_read {data : Value} {p : Predicate}
    (h : b.session.graph.readPredicate b.model data = .ok p) :
    b.filtered data = .ok (b.modify (·.addPredicate p)) :=
  Except.bind_eq_ok.2 ⟨p, h, rfl⟩

theorem including_eq_ok {data : Value} (h : b.including data = .ok b') :
    ∃ is, b.session.graph.readInclusion b.model data = .ok is ∧
      b' = b.modify (·.addInclusions is) := by
  obtain ⟨is, his, h⟩ := Except.bind_eq_ok.1 h
  exact ⟨is, his, (Except.ok.inj h).symm⟩

theorem selecting_eq_ok {data : Value} (h : b.selecting data = .ok b') :
    ∃ ss, b' = b.modify (·.addSelections ss) := by
  obtain ⟨ss, -, h⟩ := Except.bind_eq_ok.1 h
  exact ⟨ss, (Except.ok.inj h).symm⟩

omit [DecidableEq ι] in
theorem skip_eq_ok {count : Value} (h : b.skip count = .ok b') :
    ∃ n, b' = b.modify (·.paginate none (some n)) := by
  obtain ⟨n, -, h⟩ := Except.bind_eq_ok.1 h
  exact ⟨n, (Except.ok.inj h).symm⟩

omit [DecidableEq ι] in
theorem take_eq_ok {count : Value} (h : b.take count = .ok b') :
    ∃ n, b' = b.modify (·.paginate (some n) none) := by
  obtain ⟨n, -, h⟩ := Except.bind_eq_ok.1 h
  exact ⟨n, (Except.ok.inj h).symm⟩

/-- The predicates and the inclusions of a built query have been read on its model. -/
theorem Built.readOn (h : b.Built) : b.query.ReadOn b.session.graph b.model := by
  induction h with
  | fresh h =>
    obtain ⟨e, -, rfl⟩ := queryOn_eq_ok h
    exact ⟨by simp [Query.empty], by simp [Query.empty]⟩
  | @filtered b _ data _ h ih =>
    obtain ⟨p, hp, rfl⟩ := filtered_eq_ok h
    refine ⟨fun p' hp' => ?_, ih.inclusions⟩
    rcases List.mem_append.1 hp' with hp' | hp'
    · exact ih.predicates p' hp'
    · obtain rfl := List.mem_singleton.1 hp'
      exact ⟨data, hp⟩
  | @including b _ data _ h ih =>
    obtain ⟨is, his, rfl⟩ := including_eq_ok h
    refine ⟨ih.predicates, fun i hi => ?_⟩
    rcases List.mem_append.1 hi with hi | hi
    · exact ih.inclusions i hi
    · exact ⟨data, is, his, hi⟩
  | selecting _ h ih =>
    obtain ⟨ss, rfl⟩ := selecting_eq_ok h
    exact ⟨ih.predicates, ih.inclusions⟩
  | orderBy _ _ _ ih => exact ⟨ih.predicates, ih.inclusions⟩
  | thenBy _ _ _ ih => exact ⟨ih.predicates, ih.inclusions⟩
  | distinct _ ih => exact ⟨ih.predicates, ih.inclusions⟩
  | skip _ h ih =>
    obtain ⟨n, rfl⟩ := skip_eq_ok h
    exact ⟨ih.predicates, ih.inclusions⟩
  | take _ h ih =>
    obtain ⟨n, rfl⟩ := take_eq_ok h
    exact ⟨ih.predicates, ih.inclusions⟩

/-! ### Plans -/

/-- The query whose plan is that of a bound query: the settings bound its limit. -/
def clamped (b : BoundQuery ι) : Query :=
  { b.query with limit := b.session.settings.clamp b.query.limit }

omit [DecidableEq ι] in
theorem clamp_of_unbounded {s : Settings} (h : s.maxResults = none) (limit : Option Int) :
    s.clamp limit = limit := by
  unfold Settings.clamp
  rw [h]

omit [DecidableEq ι] in
theorem clamped_eq (b : BoundQuery ι) :
    (if b.session.settings.clamp b.query.limit = b.query.limit then b.query
      else b.query.paginate (b.session.settings.clamp b.query.limit) none) = b.clamped := by
  split
  · next hsame => rw [clamped, hsame]
  · next hdiffers =>
    cases hlimit : b.session.settings.clamp b.query.limit with
    | none =>
      -- Only where nothing bounds the limit is there none.
      have hnone : b.query.limit = none := by
        unfold Settings.clamp at hlimit
        split at hlimit
        · exact hlimit
        · cases hlimit
        · cases hlimit
      exact absurd (hlimit.trans hnone.symm) hdiffers
    | some n => simp [clamped, Query.paginate, hlimit]

omit [DecidableEq ι] in
/-- How the dialect of a session quotes names. -/
def quoting (b : BoundQuery ι) : Except QueryError (String → String) :=
  match b.session.dialectName with
  | some name => do return (← Dialect.ofName name).quote
  | none => pure id

theorem plan_eq_ok_iff {p : QueryPlan ι} : b.plan = .ok p ↔ ∃ quote, b.quoting = .ok quote ∧
    b.clamped.plan b.session.graph b.model (some b.rootAlias) b.session.operators quote
      b.session.settings.stableOrdering = .ok p := by
  rw [← Except.bind_eq_ok]
  unfold plan quoting
  dsimp only
  rw [clamped_eq]
  cases b.session.dialectName with
  | none => rfl
  | some name =>
    dsimp only
    cases Dialect.ofName name <;> rfl

theorem plan_eq_ok {p : QueryPlan ι} (h : b.plan = .ok p) : ∃ quote,
    b.clamped.plan b.session.graph b.model (some b.rootAlias) b.session.operators quote
      b.session.settings.stableOrdering = .ok p := by
  obtain ⟨quote, -, h⟩ := plan_eq_ok_iff.1 h
  exact ⟨quote, h⟩

/-- What a plan of a built query is good for. -/
structure Planned (b : BoundQuery ι) (p : QueryPlan ι) : Prop where
  entity : p.entity = b.model
  scope : p.Scoped
  layout : p.layout.Follows b.session.mapping p.entity
  offset : p.offset = b.query.offset
  limit : p.limit = b.session.settings.clamp b.query.limit

theorem Built.planned (hb : b.Built) (hm : b.session.mapping.Proper) {p : QueryPlan ι}
    (h : b.plan = .ok p) : b.Planned p := by
  obtain ⟨quote, h⟩ := plan_eq_ok h
  have hread : b.clamped.ReadOn b.session.graph b.model :=
    ⟨hb.readOn.predicates, hb.readOn.inclusions⟩
  have hg : b.session.graph.DotFree := hm.dotFree _
  obtain ⟨c₁, c₂, c₃, c₄, filters, order, hstages, rfl⟩ := Query.plan_eq_ok.1 h
  have hcoherent := (hstages.coherent hg hread).2.coherent
  have hroot : c₄.tree.root = b.model := (hstages.tree_extends hg hread).root
  refine ⟨rfl, (hstages.wellFormed hg hread).scoped, ?_, rfl, rfl⟩
  exact hroot ▸ hcoherent.follows hm

end BoundQuery

end EntityQuery

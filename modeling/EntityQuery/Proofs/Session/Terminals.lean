import EntityQuery.Proofs.Session.Building
import EntityQuery.Proofs.Store.Engine

/-! The operations that run a query agree on its roots. Counting gives the number of roots that match,
asking for any tells whether there are some, listing without a page shows each of them once, and
deleting removes just them. Pages, orderings, inclusions and distinctness do not matter. Each of them runs
a statement of its own, which may be refused. -/

namespace EntityQuery

variable {ι : Type} [DecidableEq ι]

namespace BoundQuery

variable {b : BoundQuery ι} {p : QueryPlan ι}

theorem ready_eq (h : b.plan = .ok p) (hconnected : b.session.connected = true) (db : Database ι)
    (statement : QueryPlan ι → Statement ι) :
    b.ready db statement = db.run b.session.mapping (statement p) p := by
  rw [ready, h]
  simp only [Session.requireEngine, hconnected, if_true]
  rfl

theorem ready_eq_ok {db : Database ι} {statement : QueryPlan ι → Statement ι} {p : QueryPlan ι}
    (h : b.ready db statement = .ok p) :
    b.plan = .ok p ∧ b.session.connected = true ∧ db.Runs b.session.mapping (statement p) := by
  obtain ⟨p', hplan, h⟩ := Except.bind_eq_ok.1 h
  obtain ⟨_, hengine, h⟩ := Except.bind_eq_ok.1 h
  obtain ⟨_, haccept, h⟩ := Except.bind_eq_ok.1 h
  obtain rfl := Except.ok.inj h
  refine ⟨hplan, ?_, Database.accept_eq_ok_iff.1 haccept⟩
  unfold Session.requireEngine at hengine
  split at hengine
  · assumption
  · cases hengine

/-- Running a query lists some roots, one row for each, unless its statement is refused. -/
def Lists (b : BoundQuery ι) (db : Database ι) (roots : List Record) : Prop :=
  ∃ p rows, b.plan = .ok p ∧ b.toList db = db.run b.session.mapping (.list p) rows ∧
    roots = p.roots b.session.mapping db ∧ List.Forall₂ (p.Shows b.session.mapping db) roots rows

/-- The statements of a query with the plan `p` tell of the roots that match, unless they are refused:
one counts them, and where there is no page another one lists each of them once. -/
structure Tells (b : BoundQuery ι) (db : Database ι) (p : QueryPlan ι) : Prop where
  count : b.count db =
    db.run b.session.mapping (.count p.whole) (p.matching b.session.mapping db).ncard
  toList : b.query.offset = none → b.query.limit = none → b.session.settings.maxResults = none →
    ∃ roots, b.Lists db roots ∧ roots.Nodup ∧
      ∀ r, r ∈ roots ↔ r ∈ p.matching b.session.mapping db

/-- What the operations that run a query with the plan `p` have to do with the roots that match. Each
gives its result, unless its statement is refused. -/
structure Agrees (b : BoundQuery ι) (db : Database ι) (p : QueryPlan ι) : Prop extends
    Tells b db p where
  finite : (p.matching b.session.mapping db).Finite
  any : ∃ found, b.any db = db.run b.session.mapping (.any p.whole) found ∧
    (found = true ↔ (p.matching b.session.mapping db).Nonempty)
  deleteBy : ∀ path value b' p', b.byPath path value = .ok b' → b'.plan = .ok p' →
    ∃ n db', b.deleteBy db path value =
        db.run b.session.mapping (.delete p'.whole) (n, db') ∧
      p'.entity = b.model ∧ p'.Removes b.session.mapping db n db'

theorem count_eq (h : b.plan = .ok p) (hconnected : b.session.connected = true) (db : Database ι) :
    b.count db = db.run b.session.mapping (.count p.whole) (p.count b.session.mapping db) := by
  rw [count, ready_eq h hconnected]
  exact Database.run_bind_pure p _

theorem any_eq (h : b.plan = .ok p) (hconnected : b.session.connected = true) (db : Database ι) :
    b.any db = db.run b.session.mapping (.any p.whole) (p.any b.session.mapping db) := by
  rw [any, ready_eq h hconnected]
  exact Database.run_bind_pure p _

theorem toList_eq (h : b.plan = .ok p) (hconnected : b.session.connected = true) {db : Database ι}
    {rows : List Row} (hrows : p.shapedRows b.session.mapping db = .ok rows) :
    b.toList db = db.run b.session.mapping (.list p) rows := by
  rw [toList, ready_eq h hconnected, Database.run_bind, hrows]
  rfl

theorem deleteAll_eq (h : b.plan = .ok p) (hconnected : b.session.connected = true)
    (db : Database ι) : b.deleteAll db =
      db.run b.session.mapping (.delete p.whole) (p.delete b.session.mapping db) := by
  rw [deleteAll, ready_eq h hconnected]
  exact Database.run_bind_pure p _

/-- A query whose layout follows its model lists the roots of its plan. -/
theorem lists_roots (h : b.plan = .ok p) (hconnected : b.session.connected = true)
    (hlayout : p.layout.Follows b.session.mapping p.entity) (db : Database ι) :
    b.Lists db (p.roots b.session.mapping db) := by
  obtain ⟨rows, hrows, hshown⟩ := QueryPlan.exists_shapedRows db hlayout
  exact ⟨p, rows, h, toList_eq h hconnected hrows, rfl, hshown⟩

/-- Where the statement of a listing can be run, there is a row for each of its roots. -/
theorem Lists.exists_rows {db : Database ι} {roots : List Record} (hlists : b.Lists db roots)
    (hready : b.ready db .list = .ok p) : ∃ rows, b.toList db = .ok rows ∧
      List.Forall₂ (p.Shows b.session.mapping db) roots rows := by
  obtain ⟨p', rows, hp', hrows, -, hshown⟩ := hlists
  obtain ⟨hp, -, hruns⟩ := ready_eq_ok hready
  obtain rfl := Except.ok.inj (hp.symm.trans hp')
  exact ⟨rows, hrows.trans (hruns.run_eq rows), hshown⟩

/-- The first row of a query shows the one root that it lists when it is limited to one. -/
theorem first_eq_of_lists {db : Database ι} {r : Record} (h : (b.limited 1).Lists db [r]) :
    ∃ p row, (b.limited 1).plan = .ok p ∧ b.first db = db.run b.session.mapping (.list p) row ∧
      p.Shows b.session.mapping db r row := by
  obtain ⟨p, rows, hplan, hrows, -, hshown⟩ := h
  obtain ⟨row, _, hrow, hnil, rfl⟩ := List.forall₂_cons_left_iff.1 hshown
  obtain rfl := List.forall₂_nil_left_iff.1 hnil
  refine ⟨p, row, hplan, ?_, hrow⟩
  rw [first, first?, hrows, Database.run_bind_pure, Database.run_bind]
  rfl

theorem filtered_session {b' : BoundQuery ι} {data : Value} (h : b.filtered data = .ok b') :
    b'.session = b.session ∧ b'.model = b.model := by
  obtain ⟨p, -, rfl⟩ := filtered_eq_ok h
  exact ⟨rfl, rfl⟩

/-- A query tells of the roots that match, where no two records of a table share a key. -/
theorem Built.tells (hb : b.Built) (hm : b.session.mapping.Proper)
    (hconnected : b.session.connected = true) {db : Database ι} (hdb : db.Keyed b.session.mapping)
    (h : b.plan = .ok p) : b.Tells db p := by
  have hplanned := hb.planned hm h
  constructor
  case count => rw [count_eq h hconnected, hplanned.scope.count_eq hdb]
  case toList =>
    intro hoffset hlimit hmax
    have hlimit' : p.limit = none := by
      rw [hplanned.limit, clamp_of_unbounded hmax, hlimit]
    exact ⟨p.roots b.session.mapping db, lists_roots h hconnected hplanned.layout db,
      hplanned.scope.roots_nodup,
      fun r => hplanned.scope.mem_roots_of_unpaged hdb (hplanned.offset.trans hoffset) hlimit'⟩

/-- The operations that run a query agree on its roots, where no two records of a table share a key. -/
theorem terminals_agree (hb : b.Built) (hm : b.session.mapping.Proper)
    (hconnected : b.session.connected = true) {db : Database ι} (hdb : db.Keyed b.session.mapping)
    (h : b.plan = .ok p) : b.Agrees db p := by
  have hplanned := hb.planned hm h
  constructor
  case toTells => exact hb.tells hm hconnected hdb h
  case finite =>
    exact (List.finite_toSet (db p.entity)).subset fun r hr => QueryPlan.matching_subset hr
  case any =>
    exact ⟨p.any b.session.mapping db, any_eq h hconnected db, hplanned.scope.any_iff⟩
  case deleteBy =>
    intro path value b' p' hb' h'
    obtain ⟨hsession, hmodel⟩ := filtered_session hb'
    have hplanned' := (Built.filtered hb hb').planned (hsession ▸ hm) h'
    refine ⟨_, _, ?_, hplanned'.entity.trans hmodel, hplanned'.scope.delete_removes hdb⟩
    rw [deleteBy, hb', ← hsession]
    exact deleteAll_eq h' (hsession ▸ hconnected) db

end BoundQuery

namespace Sample

theorem proper : mapping.Proper where
  names e := by
    have hmodels : ∀ m ∈ models, (m.columns.map (·.field) ++ m.links.map (·.name)).Nodup := by
      decide +kernel
    rcases mapping_cases e with hmodel | hmodel
    · exact hmodels _ hmodel
    · rw [hmodel]
      exact List.nodup_nil
  segments e l hl := by
    rcases mapping_cases e with hmodel | hmodel
    · exact isSegment_of_mem_links _ hmodel l hl
    · rw [hmodel] at hl
      exact absurd hl (by simp)

theorem records_keyed : records.Keyed mapping := by
  intro e
  change ((table e).map _).Nodup
  unfold table
  split <;> first | exact List.nodup_nil | decide +kernel

/-- A session on all models of the sample. -/
def session : Session String where
  mapping := mapping
  catalogue := Session.catalogueOf mapping names
  settings := .usual
  table := none
  repositories := []
  connected := true

/-- A query that counts its roots has been built and planned. -/
theorem exists_counted {query : Except QueryError (BoundQuery String)} {n : Nat}
    (h : (do (← query).count records).toOption = some n) :
    ∃ (b : BoundQuery String) (p : QueryPlan String), query = .ok b ∧ b.plan = .ok p ∧
      b.count records = .ok n := by
  obtain ⟨b, hb, hcount⟩ := Except.bind_eq_ok.1 (Except.eq_ok_of_toOption h)
  obtain ⟨p, hready, -⟩ := Except.bind_eq_ok.1 hcount
  exact ⟨b, p, hb, (BoundQuery.ready_eq_ok hready).1, hcount⟩

/-! Refusals of statements, told from an outcome that is evaluated. -/

theorem eq_integerTooLarge {α : Type} {x : Except QueryError α}
    (h : (x matches .error .integerTooLarge) = true) : x = .error .integerTooLarge := by
  split at h
  · rfl
  · cases h

theorem eq_ambiguousColumn {α : Type} {x : Except QueryError α} {column : String}
    (h : (match x with
      | .error (.ambiguousColumn c) => c == column
      | _ => false) = true) : x = .error (.ambiguousColumn column) := by
  split at h
  · rw [beq_iff_eq.1 h]
  · cases h

/-- Members, whose keys have two columns, of the teams that are not blue. -/
def membersQuery : Except QueryError (BoundQuery String) := do
  let b ← session.queryOn "Member"
  let b ← b.filtered (.obj [("team", .obj [("title", .obj [("ne", .str "blue")])])])
  let b ← b.including (.obj [("team", .bool true)])
  return b.orderBy "team.title" .descending

theorem membersQuery_built {b : BoundQuery String} (h : membersQuery = .ok b) :
    b.Built ∧ b.session = session := by
  obtain ⟨b₁, h₁, h⟩ := Except.bind_eq_ok.1 h
  obtain ⟨b₂, h₂, h⟩ := Except.bind_eq_ok.1 h
  obtain ⟨b₃, h₃, h⟩ := Except.bind_eq_ok.1 h
  obtain rfl := Except.ok.inj h
  refine ⟨(((BoundQuery.Built.fresh h₁).filtered h₂).including h₃).orderBy _ _, ?_⟩
  obtain ⟨is, -, rfl⟩ := BoundQuery.including_eq_ok h₃
  obtain ⟨e, -, rfl⟩ := BoundQuery.queryOn_eq_ok h₁
  exact (BoundQuery.filtered_session h₂).1

theorem terminals_agree_members : ∃ (b : BoundQuery String) (p : QueryPlan String),
    membersQuery = .ok b ∧ b.plan = .ok p ∧ b.count records = .ok 2 ∧ b.Agrees records p := by
  have hcount : (do (← membersQuery).count records).toOption = some 2 := by decide +kernel
  obtain ⟨b, p, hb, hp, hcount⟩ := exists_counted hcount
  obtain ⟨hbuilt, hsession⟩ := membersQuery_built hb
  exact ⟨b, p, hb, hp, hcount, BoundQuery.terminals_agree hbuilt (hsession ▸ proper)
    (congrArg Session.connected hsession) (hsession ▸ records_keyed) hp⟩

/-- Users who are older than any integer of 64 bits. -/
def agelessUsers : Except QueryError (BoundQuery String) := do
  (← session.queryOn "User").filtered (.obj [("age", .obj [("gt", .int 0x8000000000000000)])])

/-- No user is that old, but they are not counted either: the statement is refused. -/
theorem wide_operand_refused : ∃ (b : BoundQuery String) (p : QueryPlan String),
    agelessUsers = .ok b ∧ b.plan = .ok p ∧ b.count records = .error .integerTooLarge ∧
      b.count records ≠ .ok (p.matching b.session.mapping records).ncard := by
  have hplan : (do (← agelessUsers).plan).isOk = true := by decide +kernel
  have hrefused : (do (← agelessUsers).count records) = .error .integerTooLarge :=
    eq_integerTooLarge (by decide +kernel)
  obtain ⟨p, hp⟩ := Except.exists_of_isOk hplan
  obtain ⟨b, hb, hp⟩ := Except.bind_eq_ok.1 hp
  rw [hb] at hrefused
  change b.count records = _ at hrefused
  exact ⟨b, p, hb, hp, hrefused, by rw [hrefused]; nofun⟩

end Sample

end EntityQuery

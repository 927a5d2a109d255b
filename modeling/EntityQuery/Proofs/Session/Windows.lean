import EntityQuery.Proofs.Session.Terminals
import EntityQuery.Proofs.Store.Paging

/-! Windows over the roots of a query. Skipping a multiple of `n` and taking `n` cuts the roots that
match into windows: each is full but for the last ones, no root is in two of them, and together they
hold the roots that are listed without a page. -/

namespace EntityQuery

variable {ι : Type}

theorem Query.plan_page {g : EntityGraph ι} {e : ι} {aliasName : Option String}
    {table : OperatorTable} {quote : String → String} {stable : Bool} {q : Query} {p : QueryPlan ι}
    (h : q.plan g e aliasName table quote stable = .ok p) (offset limit : Option Int) :
    ({ q with offset, limit } : Query).plan g e aliasName table quote stable =
      .ok (p.page offset limit) := by
  obtain ⟨c₁, c₂, c₃, c₄, filters, order, hstages, rfl⟩ := plan_eq_ok.1 h
  exact plan_eq_ok.2 ⟨c₁, c₂, c₃, c₄, filters, order,
    ⟨hstages.inclusions, hstages.selections, hstages.predicates, hstages.ordering⟩, rfl⟩

/-- SQLite runs a listing on any page whose place and size fit into 64 bits, if it runs it at all. -/
theorem Database.Runs.page {m : Mapping ι} {db : Database ι} {p : QueryPlan ι} {matching : Matching}
    (h : db.Runs m (.list p)) (hengine : db.engine = .sqlite matching) {offset limit : Option Int}
    (hoffset : ∀ n ∈ offset, Cell.fitsWord n = true) (hlimit : ∀ n ∈ limit, Cell.fitsWord n = true) :
    db.Runs m (.list (p.page offset limit)) := by
  have hlisted : db.engine.listed = id := by rw [hengine]; rfl
  have hbound := h.operands
  have hrefusal := h.engine
  have hbound' : ∀ v ∈ (p.page offset limit).operands id, v.Bindable := by
    intro v hv
    rcases List.mem_append.1 hv with hfilter | hpage
    · refine hbound v ?_
      rw [hlisted]
      exact List.mem_append_left _ hfilter
    · obtain ⟨n, hn, rfl⟩ := List.mem_map.1 hpage
      refine ⟨rfl, fun n' hn' => ?_⟩
      obtain rfl := Value.int.inj hn'
      rcases List.mem_append.1 hn with hn | hn
      · exact hlimit n (Option.mem_toList.1 hn)
      · exact hoffset n (Option.mem_toList.1 hn)
  rw [hlisted] at hbound
  rw [hengine] at hrefusal
  refine ⟨hlisted ▸ hbound', ?_⟩
  rw [hengine]
  -- Neither the columns nor the patterns of a plan depend on its page.
  exact (QueryPlan.refusalBySQLite?_eq_none_iff hbound').2
    ((QueryPlan.refusalBySQLite?_eq_none_iff hbound).1 hrefusal)

variable [DecidableEq ι]

namespace BoundQuery

variable {b : BoundQuery ι} {p : QueryPlan ι}

/-- A bound query with another page. -/
def paged (b : BoundQuery ι) (offset limit : Option Int) : BoundQuery ι :=
  b.modify fun q => { q with offset, limit }

/-- Another page changes a plan in its page alone, where the settings bound the limit. -/
theorem plan_paged_clamped (h : b.plan = .ok p) (offset limit : Option Int) :
    (b.paged offset limit).plan = .ok (p.page offset (b.session.settings.clamp limit)) := by
  obtain ⟨quote, hquote, h⟩ := plan_eq_ok_iff.1 h
  exact plan_eq_ok_iff.2 ⟨quote, hquote, Query.plan_page h offset _⟩

theorem plan_paged (hmax : b.session.settings.maxResults = none) (h : b.plan = .ok p)
    (offset limit : Option Int) : (b.paged offset limit).plan = .ok (p.page offset limit) := by
  rw [plan_paged_clamped h, clamp_of_unbounded hmax]

omit [DecidableEq ι] in
/-- The plan of a query that skips nothing is its own page. -/
theorem Planned.page_eq (h : b.Planned p) (hoffset : b.query.offset = none) :
    p.page none (b.session.settings.clamp b.query.limit) = p := by
  have hpage : p.page p.offset p.limit = p := rfl
  rwa [h.offset, h.limit, hoffset] at hpage

omit [DecidableEq ι] in
theorem readCount_natCast (caller : String) (n : Nat) :
    readCount caller (.int (n : Int)) = .ok (n : Int) := by
  have hn : ¬ (n : Int) < 0 := by omega
  rw [readCount, if_neg hn]
  rfl

/-- The query that skips some roots and takes the next ones. -/
def slice (b : BoundQuery ι) (skipped taken : Nat) : Except QueryError (BoundQuery ι) := do
  (← b.skip (.int skipped)).take (.int taken)

omit [DecidableEq ι] in
theorem slice_eq (b : BoundQuery ι) (skipped taken : Nat) :
    b.slice skipped taken = .ok (b.paged (some (skipped : Int)) (some (taken : Int))) := by
  have hskip : b.skip (.int (skipped : Int)) =
      .ok (b.modify (·.paginate none (some (skipped : Int)))) :=
    Except.bind_eq_ok.2 ⟨_, readCount_natCast _ _, rfl⟩
  exact Except.bind_eq_ok.2 ⟨_, hskip, Except.bind_eq_ok.2 ⟨_, readCount_natCast _ _, rfl⟩⟩

/-- The window number `k` of those of `n` roots each. -/
def window (b : BoundQuery ι) (n k : Nat) : Except QueryError (BoundQuery ι) := do
  (← b.skip (.int (k * n : Nat))).take (.int n)

omit [DecidableEq ι] in
theorem window_eq (b : BoundQuery ι) (n k : Nat) :
    b.window n k = .ok (b.paged (some ((k * n : Nat) : Int)) (some (n : Int))) :=
  slice_eq b (k * n) n

/-- The windows of `n` roots each cut the `total` roots of a query into parts. Each of them is listed
unless its statement is refused, as it is where its place does not fit into 64 bits. -/
structure Cuts (b : BoundQuery ι) (db : Database ι) (n total : Nat) (roots : List Record)
    (page : Nat → List Record) : Prop where
  lists : ∀ k, ∃ w, b.window n k = .ok w ∧ w.Lists db (page k)
  length : ∀ k, (page k).length = min n (total - k * n)
  nodup : ∀ k, (page k).Nodup
  apart : ∀ k k' r, r ∈ page k → r ∈ page k' → k = k'
  whole : ∀ r, r ∈ roots ↔ ∃ k, k * n < total ∧ r ∈ page k

/-- The windows of a query without a page cut its roots into parts, however many rows its joins make
of a root. -/
theorem windows_partition (hb : b.Built) (hm : b.session.mapping.Proper)
    (hconnected : b.session.connected = true) {db : Database ι} (hdb : db.Keyed b.session.mapping)
    (hoffset : b.query.offset = none) (hlimit : b.query.limit = none)
    (hmax : b.session.settings.maxResults = none) (h : b.plan = .ok p) :
    ∃ total roots, b.count db = db.run b.session.mapping (.count p.whole) total ∧
      b.Lists db roots ∧ ∀ n, 0 < n → ∃ page, b.Cuts db n total roots page := by
  have hplanned := hb.planned hm h
  have hscope := hplanned.scope
  refine ⟨_, _, count_eq h hconnected db, lists_roots h hconnected hplanned.layout db, ?_⟩
  intro n hn
  let cut (k : Nat) : QueryPlan ι := p.page (some ((k * n : Nat) : Int)) (some (n : Int))
  have hmem : ∀ k r, r ∈ (cut k).roots b.session.mapping db ↔ r ∈ p.matching b.session.mapping db ∧
      (p.rootModel b.session.mapping).key r ∈ windowOf n k (p.pageOrder b.session.mapping db) :=
    fun k r => hscope.mem_roots_page hdb rfl
  have hkeys : ∀ k,
      (((cut k).roots b.session.mapping db).map (p.rootModel b.session.mapping).key).Perm
        (windowOf n k (p.pageOrder b.session.mapping db)) := fun k => hscope.keys_page_perm hdb rfl
  have horder := p.pageOrder_perm hdb
  refine ⟨fun k => (cut k).roots b.session.mapping db, ?_⟩
  constructor
  case lists =>
    intro k
    have hplan := plan_paged hmax h (some ((k * n : Nat) : Int)) (some (n : Int))
    exact ⟨_, window_eq b n k, lists_roots hplan hconnected hplanned.layout db⟩
  case length =>
    intro k
    have hlength := (hkeys k).length_eq
    rw [List.length_map, length_windowOf, horder.length_eq] at hlength
    exact hlength
  case nodup => exact fun k => (hscope.page _ _).roots_nodup
  case apart =>
    intro k k' r hr hr'
    have hnodup := horder.nodup_iff.2 QueryPlan.matchedKeys_nodup
    exact eq_of_mem_windowOf hnodup ((hmem k r).1 hr).2 ((hmem k' r).1 hr').2
  case whole =>
    intro r
    have hall := hscope.mem_roots_of_unpaged hdb (hplanned.offset.trans hoffset)
      (hplanned.limit.trans ((clamp_of_unbounded hmax _).trans hlimit)) (r := r)
    rw [hall]
    constructor
    · intro hr
      have hkey := horder.symm.subset (hscope.mem_matchedKeys_iff.2 ⟨r, hr, rfl⟩)
      obtain ⟨k, hk⟩ := (exists_windowOf_iff hn).2 hkey
      have hlength := List.length_pos_of_mem hk
      rw [length_windowOf, horder.length_eq] at hlength
      exact ⟨k, by change k * n < (p.matchedKeys b.session.mapping db).length; omega,
        (hmem k r).2 ⟨hr, hk⟩⟩
    · rintro ⟨k, -, hk⟩
      exact ((hmem k r).1 hk).1

end BoundQuery

namespace Sample

/-- Users with their posts, the ones with the last titles first. -/
def usersQuery : Except QueryError (BoundQuery String) := do
  let b ← session.queryOn "User"
  let b ← b.including (.obj [("posts", .bool true)])
  return b.orderBy "posts.title" .descending

theorem usersQuery_built {b : BoundQuery String} (h : usersQuery = .ok b) :
    b.Built ∧ b.session = session ∧ b.query.offset = none ∧ b.query.limit = none := by
  obtain ⟨b₁, h₁, h⟩ := Except.bind_eq_ok.1 h
  obtain ⟨b₂, h₂, h⟩ := Except.bind_eq_ok.1 h
  obtain rfl := Except.ok.inj h
  refine ⟨((BoundQuery.Built.fresh h₁).including h₂).orderBy _ _, ?_⟩
  obtain ⟨is, -, rfl⟩ := BoundQuery.including_eq_ok h₂
  obtain ⟨e, -, rfl⟩ := BoundQuery.queryOn_eq_ok h₁
  exact ⟨rfl, rfl, rfl⟩

theorem windows_partition_users : ∃ (b : BoundQuery String) (roots : List Record),
    usersQuery = .ok b ∧ b.count records = .ok 15 ∧ b.Lists records roots ∧
      ∃ page, b.Cuts records 4 15 roots page ∧ ∀ k : Nat, Cell.fitsWord (k * 4 : Nat) = true →
        ∃ w rows, b.window 4 k = .ok w ∧ w.toList records = .ok rows ∧
          rows.length = min 4 (15 - k * 4) := by
  have hcount : (do (← usersQuery).count records).toOption = some 15 := by decide +kernel
  have hready : (do (← usersQuery).ready records .list).isOk = true := by decide +kernel
  obtain ⟨b, p, hb, hp, hcount⟩ := exists_counted hcount
  rw [hb] at hready
  obtain ⟨p', hready⟩ := Except.exists_of_isOk hready
  obtain ⟨hp', -, hruns⟩ := BoundQuery.ready_eq_ok hready
  obtain rfl := Except.ok.inj (hp.symm.trans hp')
  obtain ⟨hbuilt, hsession, hoffset, hlimit⟩ := usersQuery_built hb
  have hproper : b.session.mapping.Proper := hsession ▸ proper
  have hkeyed : records.Keyed b.session.mapping := by rw [hsession]; exact records_keyed
  have hmax : b.session.settings.maxResults = none := congrArg (·.settings.maxResults) hsession
  obtain ⟨total, roots, htotal, hlists, hcuts⟩ := BoundQuery.windows_partition hbuilt
    hproper (congrArg Session.connected hsession) hkeyed hoffset hlimit hmax hp
  obtain ⟨-, rfl⟩ := Database.run_eq_ok_iff.1 (htotal.symm.trans hcount)
  obtain ⟨page, hpage⟩ := hcuts 4 (by decide)
  refine ⟨b, roots, hb, hcount, hlists, page, hpage, fun k hk => ?_⟩
  obtain ⟨w, hw, p', rows, hplan, hrows, -, hshown⟩ := hpage.lists k
  obtain rfl := Except.ok.inj ((BoundQuery.window_eq b 4 k).symm.trans hw)
  obtain rfl := Except.ok.inj ((BoundQuery.plan_paged hmax hp _ _).symm.trans hplan)
  have hlisted : records.Runs b.session.mapping
      (.list (p.page (some ((k * 4 : Nat) : Int)) (some 4))) :=
    hruns.page rfl (by simpa using hk) (by decide)
  exact ⟨_, rows, hw, hrows.trans (hlisted.run_eq rows), by rw [← hshown.length_eq, hpage.length]⟩

/-- All users are listed, but not a window of them whose place does not fit into 64 bits. -/
theorem far_window_refused : ∃ b w : BoundQuery String,
    usersQuery = .ok b ∧ b.count records = .ok 15 ∧ b.window 1 0x8000000000000000 = .ok w ∧
      w.plan.isOk = true ∧ w.toList records = .error .integerTooLarge := by
  have hcount : (do (← usersQuery).count records).toOption = some 15 := by decide +kernel
  have hplan : (do (← (← usersQuery).window 1 0x8000000000000000).plan).isOk = true := by
    decide +kernel
  have hrefused : (do (← (← usersQuery).window 1 0x8000000000000000).toList records) =
      .error .integerTooLarge := eq_integerTooLarge (by decide +kernel)
  obtain ⟨b, p, hb, hp, hcount⟩ := exists_counted hcount
  rw [hb] at hplan hrefused
  change (b.window 1 0x8000000000000000 >>= fun w => w.plan).isOk = true at hplan
  change (b.window 1 0x8000000000000000 >>= fun w => w.toList records) = _ at hrefused
  rw [BoundQuery.window_eq] at hplan hrefused
  exact ⟨b, _, hb, hcount, BoundQuery.window_eq b _ _, hplan, hrefused⟩

end Sample

end EntityQuery

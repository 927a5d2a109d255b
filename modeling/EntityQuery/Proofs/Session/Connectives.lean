import EntityQuery.Proofs.Query.Exclusion
import EntityQuery.Proofs.Session.Lookups

/-! Connectives of filters. Asking for one of two predicates matches the roots that either matches, and
asking for the opposite of a predicate matches other roots than the predicate does, within limits: a
predicate that compares nothing is dropped from under a connective, and a root that forks has rows that
match as well as rows that do not. What a query matches is told by its statements, unless they are
refused. -/

namespace EntityQuery

variable {ι : Type} [DecidableEq ι]

namespace BoundQuery

variable {b c₁ c₂ c₃ : BoundQuery ι} {p₁ p₂ p₃ : QueryPlan ι} {db : Database ι} {data data' : Value}

/-- A filtered query matches what its predicate selects. -/
theorem Built.exists_matching_filtered (hb : b.Built) (hm : b.session.mapping.Proper)
    (h : b.filtered data = .ok c₁) (hp : c₁.plan = .ok p₁) (db : Database ι) :
    ∃ q, b.session.graph.readPredicate b.model data = .ok q ∧
      p₁.matching b.session.mapping db =
        (b.query.addPredicate q).selected b.session.mapping db b.session.graph b.model := by
  have hmatching := (hb.filtered h).matching_eq ((filtered_session h).1 ▸ hm) hp db
  obtain ⟨q, hq, rfl⟩ := filtered_eq_ok h
  exact ⟨q, hq, hmatching⟩

theorem Built.tells_filtered (hb : b.Built) (hm : b.session.mapping.Proper)
    (h : b.filtered data = .ok c₁) (hp : c₁.plan = .ok p₁)
    (hconnected : b.session.connected = true) (hdb : db.Keyed b.session.mapping) :
    c₁.Tells db p₁ := by
  obtain ⟨hsession, -⟩ := filtered_session h
  exact (hb.filtered h).tells (hsession ▸ hm) (hsession ▸ hconnected) (hsession ▸ hdb) hp

/-! ### Alternatives -/

/-- A plan for one of two predicates matches what the plans for either match, where both predicates
compare anything or neither does; one that compares nothing does not count beside another. -/
structure Unites (m : Mapping ι) (db : Database ι) (q q' : Predicate) (p₁ p₂ p₃ : QueryPlan ι) :
    Prop where
  union : q.hasComparison = q'.hasComparison →
    p₃.matching m db = p₁.matching m db ∪ p₂.matching m db
  first : q'.hasComparison = false → p₃.matching m db = p₁.matching m db
  second : q.hasComparison = false → p₃.matching m db = p₂.matching m db

/-- Asking for one of two predicates unites what they match, but for predicates that compare nothing. -/
theorem or_unites (hb : b.Built) (hm : b.session.mapping.Proper) (h₁ : b.filtered data = .ok c₁)
    (h₂ : b.filtered data' = .ok c₂) (h₃ : b.filtered (Predicate.orObject data data') = .ok c₃)
    (hp₁ : c₁.plan = .ok p₁) (hp₂ : c₂.plan = .ok p₂) (hp₃ : c₃.plan = .ok p₃) (db : Database ι) :
    ∃ q q', b.session.graph.readPredicate b.model data = .ok q ∧
      b.session.graph.readPredicate b.model data' = .ok q' ∧
      Unites b.session.mapping db q q' p₁ p₂ p₃ ∧
      (b.session.connected = true → db.Keyed b.session.mapping →
        c₁.Tells db p₁ ∧ c₂.Tells db p₂ ∧ c₃.Tells db p₃) := by
  obtain ⟨q₁, hq₁, hmatching₁⟩ := hb.exists_matching_filtered hm h₁ hp₁ db
  obtain ⟨q₂, hq₂, hmatching₂⟩ := hb.exists_matching_filtered hm h₂ hp₂ db
  obtain ⟨q₃, hq₃, hmatching₃⟩ := hb.exists_matching_filtered hm h₃ hp₃ db
  obtain ⟨q, q', hq, hq', rfl⟩ := Predicate.exists_of_reads_orObject hq₃
  obtain rfl := Except.ok.inj (Eq.trans (Eq.symm hq) hq₁)
  obtain rfl := Except.ok.inj (Eq.trans (Eq.symm hq') hq₂)
  refine ⟨q, q', hq₁, hq₂, ?_, fun hconnected hdb => ⟨hb.tells_filtered hm h₁ hp₁ hconnected hdb,
    hb.tells_filtered hm h₂ hp₂ hconnected hdb, hb.tells_filtered hm h₃ hp₃ hconnected hdb⟩⟩
  constructor <;> rw [hmatching₃]
  case union => exact fun h => by rw [hmatching₁, hmatching₂, Query.selected_or h]
  case first => exact fun h => by rw [hmatching₁, Query.selected_or_of_no_comparison (.inr rfl) h]
  case second => exact fun h => by rw [hmatching₂, Query.selected_or_of_no_comparison (.inl rfl) h]

end BoundQuery

namespace Sample

theorem exists_users : ∃ b : BoundQuery String, session.queryOn "User" = .ok b ∧ b.Built ∧
    b.session = session ∧ b.model = "User" := by
  have hentity : (session.catalogue.get (session.mapping.model "User").name).toOption = some "User" := by
    decide +kernel
  have hquery : (session.queryOn "User").isOk = true := by decide +kernel
  obtain ⟨b, hb⟩ := Except.exists_of_isOk hquery
  refine ⟨b, hb, .fresh hb, ?_⟩
  obtain ⟨e, he, rfl⟩ := BoundQuery.queryOn_eq_ok hb
  exact ⟨rfl, Except.ok.inj (he.symm.trans (Except.eq_ok_of_toOption hentity))⟩

/-- The keys of the users that match a predicate object, and can be counted. -/
def keysWhere (data : Value) : Except QueryError (List (List Cell)) := do
  let b ← session.queryOn "User"
  let c ← b.filtered data
  let p ← c.ready records (.count ·.whole)
  return p.matchedKeys mapping records

theorem exists_plan_of_keysWhere {b : BoundQuery String} (hb : session.queryOn "User" = .ok b)
    (hsession : b.session = session) (hmodel : b.model = "User") {data : Value}
    {keys : List (List Cell)} (h : (keysWhere data).toOption = some keys) :
    ∃ c p, b.filtered data = .ok c ∧ c.plan = .ok p ∧ c.count records = .ok keys.length ∧
      ∀ r ∈ records "User", (r ∈ p.matching b.session.mapping records ↔ user.key r ∈ keys) := by
  obtain ⟨b', hb', h⟩ := Except.bind_eq_ok.1 (Except.eq_ok_of_toOption h)
  obtain rfl := Except.ok.inj (hb.symm.trans hb')
  obtain ⟨c, hc, h⟩ := Except.bind_eq_ok.1 h
  obtain ⟨p, hready, h⟩ := Except.bind_eq_ok.1 h
  obtain rfl := Except.ok.inj h
  obtain ⟨hp, hconnected, hruns⟩ := BoundQuery.ready_eq_ok hready
  obtain ⟨hsession', hmodel'⟩ := BoundQuery.filtered_session hc
  have hcount : c.count records = .ok (p.matchedKeys mapping records).length := by
    rw [BoundQuery.count_eq hp hconnected, hruns.run_eq, hsession', hsession]
    rfl
  refine ⟨c, p, hc, hp, hcount, fun r hr => ?_⟩
  have hplanned := ((BoundQuery.Built.fresh hb).filtered hc).planned
    (hsession' ▸ hsession ▸ proper) hp
  have hentity : p.entity = "User" := hplanned.entity.trans (hmodel'.trans hmodel)
  have hmatching := hplanned.scope.contains_matchedKeys_iff records_keyed (hentity ▸ hr)
  have hroot : p.rootModel mapping = user := congrArg mapping.model hentity
  rw [hroot, List.contains_iff_mem] at hmatching
  rw [hsession]
  exact hmatching.symm

/-- Users with a name. -/
def named (name : String) : Value := .obj [("name", .obj [("eq", .str name)])]

/-- Users who have a post with a value in a field. -/
def posting (field : String) (value : Value) : Value :=
  .obj [("posts", .obj [(field, .obj [("eq", value)])])]

/-- The authors of posts that are published or have a title are those of published posts and those of
posts with the title, for whichever posts of theirs these are. -/
theorem or_unites_posting : ∃ (b c₁ c₂ c₃ : BoundQuery String) (p₁ p₂ p₃ : QueryPlan String),
    session.queryOn "User" = .ok b ∧ b.filtered (posting "published" (.bool true)) = .ok c₁ ∧
    b.filtered (posting "title" (.str "hello")) = .ok c₂ ∧
    b.filtered (Predicate.orObject (posting "published" (.bool true)) (posting "title" (.str "hello"))) =
      .ok c₃ ∧
    c₁.plan = .ok p₁ ∧ c₂.plan = .ok p₂ ∧ c₃.plan = .ok p₃ ∧
    c₁.count records = .ok 3 ∧ c₂.count records = .ok 1 ∧ c₃.count records = .ok 3 ∧
    p₃.matching b.session.mapping records =
      p₁.matching b.session.mapping records ∪ p₂.matching b.session.mapping records := by
  obtain ⟨b, hb, hbuilt, hsession, hmodel⟩ := exists_users
  have h₁ : (keysWhere (posting "published" (.bool true))).toOption =
      some [[.int 1], [.int 2], [.int 4]] := by decide +kernel
  have h₂ : (keysWhere (posting "title" (.str "hello"))).toOption = some [[.int 4]] := by decide +kernel
  have h₃ : (keysWhere (Predicate.orObject (posting "published" (.bool true))
      (posting "title" (.str "hello")))).toOption = some [[.int 1], [.int 2], [.int 4]] := by
    decide +kernel
  obtain ⟨c₁, p₁, hc₁, hp₁, hcount₁, -⟩ := exists_plan_of_keysWhere hb hsession hmodel h₁
  obtain ⟨c₂, p₂, hc₂, hp₂, hcount₂, -⟩ := exists_plan_of_keysWhere hb hsession hmodel h₂
  obtain ⟨c₃, p₃, hc₃, hp₃, hcount₃, -⟩ := exists_plan_of_keysWhere hb hsession hmodel h₃
  obtain ⟨q, q', hq, hq', hunites, -⟩ := BoundQuery.or_unites hbuilt (hsession ▸ proper) hc₁ hc₂ hc₃
    hp₁ hp₂ hp₃ records
  have hcompare : (do
      let q ← session.graph.readPredicate "User" (posting "published" (.bool true))
      let q' ← session.graph.readPredicate "User" (posting "title" (.str "hello"))
      return (q.hasComparison, q'.hasComparison)).toOption = some (true, true) := by decide +kernel
  rw [hsession, hmodel] at hq hq'
  rw [hq, hq'] at hcompare
  obtain ⟨hcompares, hcompares'⟩ := Prod.mk.inj (Option.some.inj hcompare)
  exact ⟨b, c₁, c₂, c₃, p₁, p₂, p₃, hb, hc₁, hc₂, hc₃, hp₁, hp₂, hp₃, hcount₁, hcount₂, hcount₃,
    hunites.union (hcompares.trans hcompares'.symm)⟩

/-- The second user. -/
def jane : Record := record user [.int 2, .text "jane", .text "jane@example.com", .int 25]

/-- The empty object alone matches all users, but beside another alternative it does not count. -/
theorem or_drops_empty : ∃ (b c₁ c₂ c₃ : BoundQuery String) (p₁ p₂ p₃ : QueryPlan String),
    session.queryOn "User" = .ok b ∧ b.filtered (.obj []) = .ok c₁ ∧
    b.filtered (named "john") = .ok c₂ ∧
    b.filtered (Predicate.orObject (.obj []) (named "john")) = .ok c₃ ∧
    c₁.plan = .ok p₁ ∧ c₂.plan = .ok p₂ ∧ c₃.plan = .ok p₃ ∧
    c₁.count records = .ok 15 ∧ c₂.count records = .ok 1 ∧ c₃.count records = .ok 1 ∧
    jane ∈ p₁.matching b.session.mapping records ∧ jane ∉ p₃.matching b.session.mapping records ∧
    p₃.matching b.session.mapping records ≠
      p₁.matching b.session.mapping records ∪ p₂.matching b.session.mapping records := by
  obtain ⟨b, hb, -, hsession, hmodel⟩ := exists_users
  have h₁ : (keysWhere (.obj [])).toOption = some ((records "User").map user.key) := by decide +kernel
  have h₂ : (keysWhere (named "john")).toOption = some [[.int 1]] := by decide +kernel
  have h₃ : (keysWhere (Predicate.orObject (.obj []) (named "john"))).toOption = some [[.int 1]] := by
    decide +kernel
  obtain ⟨c₁, p₁, hc₁, hp₁, hcount₁, hmatching₁⟩ := exists_plan_of_keysWhere hb hsession hmodel h₁
  obtain ⟨c₂, p₂, hc₂, hp₂, hcount₂, -⟩ := exists_plan_of_keysWhere hb hsession hmodel h₂
  obtain ⟨c₃, p₃, hc₃, hp₃, hcount₃, hmatching₃⟩ := exists_plan_of_keysWhere hb hsession hmodel h₃
  have hjane : jane ∈ records "User" := by decide +kernel
  have hfirst := (hmatching₁ jane hjane).2 (List.mem_map_of_mem hjane)
  have hthird : jane ∉ p₃.matching b.session.mapping records := by
    rw [hmatching₃ jane hjane]
    decide +kernel
  refine ⟨b, c₁, c₂, c₃, p₁, p₂, p₃, hb, hc₁, hc₂, hc₃, hp₁, hp₂, hp₃, hcount₁, hcount₂, hcount₃, hfirst,
    hthird, fun hunion => ?_⟩
  exact hthird (hunion ▸ Set.mem_union_left _ hfirst)

end Sample

namespace BoundQuery

/-! ### Opposites -/

/-- Plans for a predicate `q` and for its opposite match different roots, where it compares anything, but
for roots that fork on the way to a column that it compares. -/
structure Excludes (b : BoundQuery ι) (db : Database ι) (q : Predicate) (p₁ p₂ : QueryPlan ι) : Prop where
  /-- The opposite of what compares nothing is dropped. -/
  dropped : q.hasComparison = false →
    p₂.matching b.session.mapping db = p₁.matching b.session.mapping db
  forks : q.hasComparison = true → ∀ r ∈ p₁.matching b.session.mapping db,
    r ∈ p₂.matching b.session.mapping db → ∃ column ∈ Predicate.columnsByPath [q],
      Forks b.session.mapping db b.session.graph b.model r (Path.chain column.aliasName)
  /-- Nothing forks where the relations to these columns lead to one record each. -/
  disjoint : q.hasComparison = true → db.Single b.session.mapping →
    (∀ column ∈ Predicate.columnsByPath [q],
      b.session.graph.ToOneAlong b.model (Path.chain column.aliasName)) →
    ∀ r ∈ p₁.matching b.session.mapping db, r ∉ p₂.matching b.session.mapping db

variable {b c₁ c₂ : BoundQuery ι} {p₁ p₂ : QueryPlan ι} {db : Database ι} {data : Value}

theorem excludes_of_matching (hm : b.session.mapping.Proper) {q : Predicate}
    (hq : b.session.graph.readPredicate b.model data = .ok q)
    (hmatching₁ : p₁.matching b.session.mapping db =
      (b.query.addPredicate q).selected b.session.mapping db b.session.graph b.model)
    (hmatching₂ : p₂.matching b.session.mapping db =
      (b.query.addPredicate (.not q)).selected b.session.mapping db b.session.graph b.model) :
    b.Excludes db q p₁ p₂ := by
  have hforks : q.hasComparison = true → ∀ r ∈ p₁.matching b.session.mapping db,
      r ∈ p₂.matching b.session.mapping db → ∃ column ∈ Predicate.columnsByPath [q],
        Forks b.session.mapping db b.session.graph b.model r (Path.chain column.aliasName) := by
    intro hcompares r hr hr'
    exact Query.exists_forks_of_not (hm.dotFree _) (Predicate.read_over data hq) hcompares
      (hmatching₁ ▸ hr) (hmatching₂ ▸ hr')
  refine ⟨fun hnone => ?_, hforks, fun hcompares hsingle hone r hr hr' => ?_⟩
  · rw [hmatching₁, hmatching₂, Query.selected_of_no_comparison hnone]
    exact Query.selected_of_no_comparison hnone
  · obtain ⟨column, hcolumn, hfork⟩ := hforks hcompares r hr hr'
    exact hsingle.not_forks hm (hone column hcolumn) r hfork

/-- Asking for the opposite of a predicate excludes what the predicate matches, but for roots that fork
and for predicates that compare nothing; and unless it asks for a relation or a column of that name. -/
theorem not_excludes (hb : b.Built) (hm : b.session.mapping.Proper) (h₁ : b.filtered data = .ok c₁)
    (h₂ : b.filtered (Predicate.notObject data) = .ok c₂) (hp₁ : c₁.plan = .ok p₁)
    (hp₂ : c₂.plan = .ok p₂) (db : Database ι) :
    ∃ q q₂, b.session.graph.readPredicate b.model data = .ok q ∧
      b.session.graph.readPredicate b.model (Predicate.notObject data) = .ok q₂ ∧
      (q₂ = .not q ∧ b.Excludes db q p₁ p₂ ∨ (∃ condition, q₂ = .relation "not" condition) ∨
        ∃ column comparisons, q₂ = .field "not" column comparisons) ∧
      (b.session.connected = true → db.Keyed b.session.mapping →
        c₁.Tells db p₁ ∧ c₂.Tells db p₂) := by
  obtain ⟨q, hq, hmatching₁⟩ := hb.exists_matching_filtered hm h₁ hp₁ db
  obtain ⟨q₂, hq₂, hmatching₂⟩ := hb.exists_matching_filtered hm h₂ hp₂ db
  refine ⟨q, q₂, hq, hq₂, ?_, fun hconnected hdb =>
    ⟨hb.tells_filtered hm h₁ hp₁ hconnected hdb, hb.tells_filtered hm h₂ hp₂ hconnected hdb⟩⟩
  rcases Predicate.cases_of_reads_notObject hq hq₂ with rfl | hname
  · exact .inl ⟨rfl, excludes_of_matching hm hq hmatching₁ hmatching₂⟩
  · exact .inr hname

end BoundQuery

namespace Sample

/-- Users whose profile has a text. -/
def describedAs (bio : String) : Value :=
  .obj [("profile", .obj [("bio", .obj [("eq", .str bio)])])]

/-- No user has several profiles, so that writers are not among the others. -/
theorem not_excludes_writers : ∃ (b c₁ c₂ : BoundQuery String) (p₁ p₂ : QueryPlan String),
    session.queryOn "User" = .ok b ∧ b.filtered (describedAs "Writer") = .ok c₁ ∧
    b.filtered (Predicate.notObject (describedAs "Writer")) = .ok c₂ ∧
    c₁.plan = .ok p₁ ∧ c₂.plan = .ok p₂ ∧
    c₁.count records = .ok 1 ∧ c₂.count records = .ok 1 ∧
    ∀ r ∈ p₁.matching b.session.mapping records, r ∉ p₂.matching b.session.mapping records := by
  obtain ⟨b, hb, hbuilt, hsession, hmodel⟩ := exists_users
  have h₁ : (keysWhere (describedAs "Writer")).toOption = some [[.int 1]] := by decide +kernel
  have h₂ : (keysWhere (Predicate.notObject (describedAs "Writer"))).toOption = some [[.int 4]] := by
    decide +kernel
  obtain ⟨c₁, p₁, hc₁, hp₁, hcount₁, -⟩ := exists_plan_of_keysWhere hb hsession hmodel h₁
  obtain ⟨c₂, p₂, hc₂, hp₂, hcount₂, -⟩ := exists_plan_of_keysWhere hb hsession hmodel h₂
  obtain ⟨q, q₂, hq, hq₂, hcases, -⟩ := BoundQuery.not_excludes hbuilt (hsession ▸ proper) hc₁ hc₂ hp₁ hp₂
    records
  have hcompare : (do
      let q ← session.graph.readPredicate "User" (describedAs "Writer")
      return (q.hasComparison, Predicate.columnsByPath [q])).toOption =
        some (true, [⟨"profile", "bio"⟩]) := by decide +kernel
  rw [hsession, hmodel] at hq hq₂
  rw [hq] at hcompare
  obtain ⟨hcompares, hcolumns⟩ := Prod.mk.inj (Option.some.inj hcompare)
  have hnot : (do
      match ← session.graph.readPredicate "User" (Predicate.notObject (describedAs "Writer")) with
      | .not _ => return true
      | _ => return false).toOption = some true := by decide +kernel
  rw [hq₂] at hnot
  obtain ⟨-, hexcludes⟩ := hcases.resolve_right (by rintro (⟨_, rfl⟩ | ⟨_, _, rfl⟩) <;> cases hnot)
  refine ⟨b, c₁, c₂, p₁, p₂, hb, hc₁, hc₂, hp₁, hp₂, hcount₁, hcount₂,
    hexcludes.disjoint hcompares ?_ ?_⟩
  · rw [hsession]
    exact records_single
  · rw [hcolumns, hsession, hmodel]
    decide +kernel

/-- The first user. -/
def john : Record := record user [.int 1, .text "john", .text "john@example.com", .int 30]

/-- Of the posts of one user one is published and another one is not, so that he is matched both by the
condition and by its opposite. -/
theorem not_includes_forked : ∃ (b c₁ c₂ : BoundQuery String) (p₁ p₂ : QueryPlan String),
    session.queryOn "User" = .ok b ∧ b.filtered (posting "published" (.bool true)) = .ok c₁ ∧
    b.filtered (Predicate.notObject (posting "published" (.bool true))) = .ok c₂ ∧
    c₁.plan = .ok p₁ ∧ c₂.plan = .ok p₂ ∧
    c₁.count records = .ok 3 ∧ c₂.count records = .ok 2 ∧
    john ∈ p₁.matching b.session.mapping records ∧ john ∈ p₂.matching b.session.mapping records := by
  obtain ⟨b, hb, -, hsession, hmodel⟩ := exists_users
  have h₁ : (keysWhere (posting "published" (.bool true))).toOption =
      some [[.int 1], [.int 2], [.int 4]] := by decide +kernel
  have h₂ : (keysWhere (Predicate.notObject (posting "published" (.bool true)))).toOption =
      some [[.int 1], [.int 4]] := by decide +kernel
  obtain ⟨c₁, p₁, hc₁, hp₁, hcount₁, hmatching₁⟩ := exists_plan_of_keysWhere hb hsession hmodel h₁
  obtain ⟨c₂, p₂, hc₂, hp₂, hcount₂, hmatching₂⟩ := exists_plan_of_keysWhere hb hsession hmodel h₂
  have hjohn : john ∈ records "User" := by decide +kernel
  refine ⟨b, c₁, c₂, p₁, p₂, hb, hc₁, hc₂, hp₁, hp₂, hcount₁, hcount₂, (hmatching₁ john hjohn).2 ?_,
    (hmatching₂ john hjohn).2 ?_⟩ <;> decide +kernel

end Sample

end EntityQuery

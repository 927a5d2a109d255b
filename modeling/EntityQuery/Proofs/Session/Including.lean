import EntityQuery.Proofs.Session.Meaning

/-! Including and selecting do not change which roots come back. Inclusions add joins, which multiply
rows, and make pages be cut over roots in place of rows; the roots, their order and their number stay. What
may change is whether a statement is run at all: an inclusion can bring in an alias that the engine takes
for another one. -/

namespace EntityQuery

variable {ι : Type} [DecidableEq ι]

namespace BoundQuery

variable {b b' b'' : BoundQuery ι} {p p' : QueryPlan ι}

/-- A query and the same query with inclusions and selections list the same roots in the same order, and
agree on their number and on whether there are any, wherever their statements are not refused. -/
theorem roots_including_selecting (hb : b.Built) (hm : b.session.mapping.Proper)
    (hconnected : b.session.connected = true)
    (hstable : b.session.settings.stableOrdering = true) (hdistinct : b.query.distinct = false)
    {db : Database ι} (hdb : db.Apart b.session.mapping) {inclusions selections : Value}
    (hincluding : b.including inclusions = .ok b') (hselecting : b'.selecting selections = .ok b'')
    (h : b.plan = .ok p) (h' : b''.plan = .ok p') :
    (∃ roots, b.Lists db roots ∧ b''.Lists db roots) ∧
    (∃ n, b.count db = db.run b.session.mapping (.count p.whole) n ∧
      b''.count db = db.run b.session.mapping (.count p'.whole) n) ∧
    ∃ found, b.any db = db.run b.session.mapping (.any p.whole) found ∧
      b''.any db = db.run b.session.mapping (.any p'.whole) found := by
  have hb'' : b''.Built := (hb.including hincluding).selecting hselecting
  obtain ⟨is, -, rfl⟩ := including_eq_ok hincluding
  obtain ⟨ss, rfl⟩ := selecting_eq_ok hselecting
  have hplanned := hb.planned hm h
  have hplanned' := hb''.planned hm h'
  -- Predicates, sort keys and page of the two queries are the same.
  have hmatching : p'.matching b.session.mapping db = p.matching b.session.mapping db :=
    (hb''.matching_eq hm h' db).trans (hb.matching_eq hm h db).symm
  refine ⟨?_, ?_, ?_⟩
  · have hroots : p.roots b.session.mapping db = p'.roots b.session.mapping db :=
      (hb.renders hm hdistinct h db).roots_eq_roots (hb''.renders hm hdistinct h' db) hdb
        hdb (coversKey_sortTerms hstable) (hplanned.offset.trans hplanned'.offset.symm)
        (hplanned.limit.trans hplanned'.limit.symm)
    refine ⟨_, lists_roots h hconnected hplanned.layout db, ?_⟩
    rw [hroots]
    exact lists_roots h' hconnected hplanned'.layout db
  · refine ⟨_, count_eq h hconnected db, ?_⟩
    rw [hplanned.scope.count_eq hdb.keyed, ← hmatching, ← hplanned'.scope.count_eq hdb.keyed]
    exact count_eq h' hconnected db
  · have hfound : p'.any b.session.mapping db = p.any b.session.mapping db := by
      rw [Bool.eq_iff_iff, hplanned'.scope.any_iff, hplanned.scope.any_iff, hmatching]
    refine ⟨_, any_eq h hconnected db, ?_⟩
    rw [← hfound]
    exact any_eq h' hconnected db

end BoundQuery

namespace Sample

/-- The first three users by the titles of their posts, of those who have posted or are old enough. -/
def writersPage : Except QueryError (BoundQuery String) := do
  let b ← session.queryOn "User"
  let b ← b.filtered (.obj [("or", .list [
    .obj [("posts", .obj [("published", .obj [("eq", .bool true)])])],
    .obj [("age", .obj [("gt", .int 35)])]])])
  (b.orderBy "posts.title" .descending).take (.int 3)

/-- Posts under an alias of their own, with their comments, and profiles. -/
def postsAndProfiles : Value :=
  .obj [("posts", .obj [("as", .str "p"), ("include", .obj [("comments", .bool true)])]),
    ("profile", .bool true)]

/-- Names with the titles of posts. -/
def namesAndTitles : Value :=
  .obj [("name", .bool true), ("posts", .obj [("title", .bool true)])]

theorem writersPage_built {b : BoundQuery String} (h : writersPage = .ok b) :
    b.Built ∧ b.session = session ∧ b.query.distinct = false := by
  obtain ⟨b₁, h₁, h⟩ := Except.bind_eq_ok.1 h
  obtain ⟨b₂, h₂, h⟩ := Except.bind_eq_ok.1 h
  have hb₂ := (BoundQuery.Built.fresh h₁).filtered h₂
  refine ⟨(hb₂.orderBy "posts.title" .descending).take h, ?_⟩
  obtain ⟨n, rfl⟩ := BoundQuery.take_eq_ok h
  obtain ⟨q, -, rfl⟩ := BoundQuery.filtered_eq_ok h₂
  obtain ⟨e, -, rfl⟩ := BoundQuery.queryOn_eq_ok h₁
  exact ⟨rfl, rfl⟩

theorem roots_including_selecting_writers : ∃ b b' b'' : BoundQuery String,
    writersPage = .ok b ∧ b.including postsAndProfiles = .ok b' ∧
    b'.selecting namesAndTitles = .ok b'' ∧
    (∃ roots, b.Lists records roots ∧ b''.Lists records roots) ∧
    b.count records = .ok 14 ∧ b''.count records = .ok 14 := by
  have hcount : (do (← writersPage).count records).toOption = some 14 := by decide +kernel
  have hcount' : (do
      let b ← writersPage
      let b ← b.including postsAndProfiles
      (← b.selecting namesAndTitles).count records).toOption = some 14 := by decide +kernel
  obtain ⟨b, p, hb, hp, hcount⟩ := exists_counted hcount
  obtain ⟨b₁, hb₁, hcount'⟩ := Except.bind_eq_ok.1 (Except.eq_ok_of_toOption hcount')
  obtain rfl := Except.ok.inj (hb.symm.trans hb₁)
  obtain ⟨b', hb', hcount'⟩ := Except.bind_eq_ok.1 hcount'
  obtain ⟨b'', hb'', hcount'⟩ := Except.bind_eq_ok.1 hcount'
  obtain ⟨p', hready, -⟩ := Except.bind_eq_ok.1 hcount'
  obtain ⟨hbuilt, hsession, hdistinct⟩ := writersPage_built hb
  have hproper : b.session.mapping.Proper := hsession ▸ proper
  have hapart : records.Apart b.session.mapping := by rw [hsession]; exact records_apart
  obtain ⟨hlists, -, -⟩ := BoundQuery.roots_including_selecting hbuilt hproper
    (congrArg Session.connected hsession) (congrArg (·.settings.stableOrdering) hsession) hdistinct
    hapart hb' hb'' hp (BoundQuery.ready_eq_ok hready).1
  exact ⟨b, b', b'', hb, hb', hb'', hlists, hcount, hcount'⟩

/-- Users with their posts under the alias of the root, but for the case of a letter. -/
def postsAsUser : Value := .obj [("posts", .obj [("as", .str "User")])]

def clashing : Except QueryError (BoundQuery String) := do
  (← (← session.queryOn "User").including postsAsUser).selecting (.obj [])

/-- All users are counted, but not where posts are included under an alias that is theirs in another
case: both queries have plans, and the statements of one are refused. -/
theorem inclusion_under_root_alias : ∃ (b b' b'' : BoundQuery String) (p p' : QueryPlan String),
    session.queryOn "User" = .ok b ∧ b.including postsAsUser = .ok b' ∧
    b'.selecting (.obj []) = .ok b'' ∧ b.plan = .ok p ∧ b''.plan = .ok p' ∧
    b.count records = .ok 15 ∧ b''.count records = .error (.ambiguousColumn "user.id") ∧
    b''.toList records = .error (.ambiguousColumn "user.id") := by
  have hcount : (do (← session.queryOn "User").count records).toOption = some 15 := by decide +kernel
  have hplan : (do (← clashing).plan).isOk = true := by decide +kernel
  have hrefused : (do (← clashing).count records) = .error (.ambiguousColumn "user.id") :=
    eq_ambiguousColumn (by decide +kernel)
  have hunlisted : (do (← clashing).toList records) = .error (.ambiguousColumn "user.id") :=
    eq_ambiguousColumn (by decide +kernel)
  obtain ⟨b, p, hb, hp, hcount⟩ := exists_counted hcount
  obtain ⟨p', hplan⟩ := Except.exists_of_isOk hplan
  obtain ⟨b'', hclashing, hp'⟩ := Except.bind_eq_ok.1 hplan
  rw [hclashing] at hrefused hunlisted
  obtain ⟨b₁, hb₁, h⟩ := Except.bind_eq_ok.1 hclashing
  obtain rfl := Except.ok.inj (hb.symm.trans hb₁)
  obtain ⟨b', hb', hb''⟩ := Except.bind_eq_ok.1 h
  exact ⟨b, b', b'', p, p', hb, hb', hb'', hp, hp', hcount, hrefused, hunlisted⟩

end Sample

end EntityQuery

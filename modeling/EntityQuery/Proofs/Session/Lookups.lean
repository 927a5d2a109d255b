import EntityQuery.Proofs.Query.Keys
import EntityQuery.Proofs.Session.Pages
import EntityQuery.Proofs.Session.Scope

/-! Roots looked up by their keys. A lookup by the key of a listed root finds the root, assembled from the
rows of this root alone. A record that stands under several roots is one and shows what all the rows of a
result join to it, so that the lookup shows what the listing shows where the root is self-contained. Listing
and lookup are statements of their own, which may be refused. -/

namespace EntityQuery

theorem Settings.Valid.clamp_one {s : Settings} (h : s.Valid) : s.clamp (some 1) = some 1 := by
  have hpos := h.capped_pos (le_refl 1)
  have hle : s.capped 1 ≤ 1 := by
    unfold capped clamp
    split
    · exact le_refl 1
    · next hlimit => cases hlimit
    · next hlimit =>
      obtain rfl := Option.some.inj hlimit
      exact min_le_left _ _
  rw [clamp_some, le_antisymm hle hpos]

variable {ι : Type} [DecidableEq ι]

namespace BoundQuery

variable {b : BoundQuery ι} {p : QueryPlan ι} {db : Database ι} {r : Record}

/-! ### Keys -/

/-- The key of a root as a caller gives it. -/
def idOf (b : BoundQuery ι) (r : Record) : Value := EntityQuery.idOf b.session.mapping b.model r

/-- The query on the record under the key of a root. -/
def narrowed (b : BoundQuery ι) (r : Record) : BoundQuery ι :=
  b.modify (·.addPredicate (.ofKey b.entity (shownKey b.session.mapping b.model r)))

theorem keyValues_idOf (hkey : (b.session.mapping.model b.model).primaryKey ≠ []) (r : Record) :
    b.keyValues (b.idOf r) = .ok (shownKey b.session.mapping b.model r) := by
  have hfields : b.entity.primaryKey = (b.session.mapping.model b.model).primaryKey := rfl
  have hzip : ∀ fields : List String, ∀ f : String → Value,
      fields.zip (fields.map f) = fields.map fun field => (field, f field) := by
    intro fields f
    rw [← List.zip_map', List.map_id']
  unfold keyValues idOf EntityQuery.idOf shownKey
  rw [hfields, List.map_map]
  match (b.session.mapping.model b.model).primaryKey, hkey with
  | [field], _ => rfl
  | field :: field' :: rest, _ =>
    refine (if_pos ?_).trans (congrArg Except.ok (hzip (field :: field' :: rest) _))
    simp

theorem filtered_keyObject (hm : b.session.mapping.Proper)
    (hdb : db.Identified b.session.mapping b.model) (r : Record) :
    b.filtered (Predicate.keyObject (shownKey b.session.mapping b.model r)) = .ok (b.narrowed r) :=
  filtered_of_read (Predicate.readPredicate_keyObject (hdb.namesColumns hm r))

theorem byKey_idOf (hm : b.session.mapping.Proper) (hdb : db.Identified b.session.mapping b.model)
    (r : Record) : b.byKey (b.idOf r) = .ok (b.narrowed r) :=
  Except.bind_eq_ok.2 ⟨_, keyValues_idOf hdb.key r, filtered_keyObject hm hdb r⟩

theorem Built.narrowed (hb : b.Built) (hm : b.session.mapping.Proper)
    (hdb : db.Identified b.session.mapping b.model) (r : Record) : (b.narrowed r).Built :=
  hb.filtered (filtered_keyObject hm hdb r)

/-! ### Plans -/

/-- The branches of a layout stand where their names put them. -/
theorem Built.placed (hb : b.Built) (hm : b.session.mapping.Proper) (h : b.plan = .ok p) :
    p.layout.Placed := by
  obtain ⟨quote, h⟩ := plan_eq_ok h
  obtain ⟨c₁, c₂, c₃, c₄, filters, order, hstages, rfl⟩ := Query.plan_eq_ok.1 h
  exact (hstages.coherent (hm.dotFree _) hb.readOn_clamped).2.coherent.layout

/-- The first of the narrowed query is planned by a plan that is pinned to the root. -/
theorem Built.exists_pins (hb : b.Built) (hm : b.session.mapping.Proper)
    (hsettings : b.session.settings.Valid) {symbol : String}
    (htable : b.session.operators.get? Operator.eq.token = some (.eq, symbol))
    (hapart : db.Apart b.session.mapping) (hdb : db.Identified b.session.mapping b.model)
    (hoffset : b.query.offset = none) (hlimit : b.query.limit = none)
    (hdistinct : b.query.distinct = false) (h : b.plan = .ok p) (hr : r ∈ db b.model) :
    ∃ p', ((b.narrowed r).limited 1).plan = .ok p' ∧ p.Pins b.session.mapping db p' r := by
  obtain ⟨quote, hquote, hplan⟩ := plan_eq_ok_iff.1 h
  obtain ⟨p', hplan', hpins⟩ := Query.exists_pins (q := b.clamped) hb.readOn_clamped hm htable hapart hdb
    hoffset hdistinct hplan hr
  have hclamped : ((b.narrowed r).limited 1).clamped =
      b.clamped.pinned b.session.mapping b.entity b.model r := by
    have hquery : ((b.narrowed r).limited 1).query.limit = some 1 := by
      have hnarrowed : (b.narrowed r).query.limit = none := hlimit
      rw [BoundQuery.limited, hnarrowed]
      rfl
    rw [clamped, hquery]
    exact congrArg (fun limit => { (b.narrowed r).query with limit }) hsettings.clamp_one
  exact ⟨p', plan_eq_ok_iff.2 ⟨quote, hquote, hclamped ▸ hplan'⟩, hpins⟩

/-! ### Lookups -/

/-- The listing shows a root as a row. The lookup by its key finds the root as it is assembled from its
own rows, up to the order of lists, which is the row of the listing where the root is self-contained,
unless the statement of the lookup is refused. -/
structure Refinds (b : BoundQuery ι) (db : Database ι) (p : QueryPlan ι) (r : Record) (row : Row) :
    Prop where
  shows : p.Shows b.session.mapping db r row
  finds : ∃ b' p' alone found, b.byKey (b.idOf r) = .ok b' ∧ (b'.limited 1).plan = .ok p' ∧
    b.find db (b.idOf r) = db.run b.session.mapping (.list p') found ∧
    p.ShowsAlone b.session.mapping db r alone ∧ Row.Alike alone found ∧
      (p.SelfContained b.session.mapping db r → Row.Alike row found)

/-- Where the statement of a lookup can be run, it finds the root. -/
theorem Refinds.exists_found {row : Row} (h : b.Refinds db p r row)
    (hready : (do ((← b.byKey (b.idOf r)).limited 1).ready db .list).isOk = true) :
    ∃ alone found, b.find db (b.idOf r) = .ok found ∧
      p.ShowsAlone b.session.mapping db r alone ∧ Row.Alike alone found := by
  obtain ⟨b', p', alone, found, hkey, hplan, hfind, halone, halike, -⟩ := h.finds
  obtain ⟨p'', hready⟩ := Except.exists_of_isOk hready
  rw [hkey] at hready
  obtain ⟨hplan', -, hruns⟩ := ready_eq_ok hready
  obtain rfl := Except.ok.inj (hplan.symm.trans hplan')
  obtain ⟨-, hsession⟩ : b'.model = b.model ∧ b'.session = b.session := by
    obtain ⟨key, -, hfiltered⟩ := Except.bind_eq_ok.1 hkey
    exact (filtered_session hfiltered).symm
  change db.Runs b'.session.mapping _ at hruns
  rw [hsession] at hruns
  exact ⟨alone, found, hfind.trans (hruns.run_eq found), halone, halike⟩

section Roots

variable {symbol : String} (hb : b.Built) (hm : b.session.mapping.Proper)
variable (hconnected : b.session.connected = true) (hsettings : b.session.settings.Valid)
variable (htable : b.session.operators.get? Operator.eq.token = some (.eq, symbol))
variable (hapart : db.Apart b.session.mapping) (hsingle : db.Single b.session.mapping)
variable (hdb : db.Identified b.session.mapping b.model) (hoffset : b.query.offset = none)
variable (hlimit : b.query.limit = none) (hdistinct : b.query.distinct = false) (h : b.plan = .ok p)

include hb hm hconnected hsettings htable hapart hsingle hdb hoffset hlimit hdistinct h

/-- A root of a result is found again by its key. -/
theorem Built.refinds (hr : r ∈ p.roots b.session.mapping db) {row : Row}
    (hrow : p.Shows b.session.mapping db r row) : b.Refinds db p r row := by
  have hplanned := hb.planned hm h
  obtain ⟨quote, hplan⟩ := plan_eq_ok h
  have hmem : r ∈ db b.model := hplanned.entity ▸
    QueryPlan.matching_subset (hplanned.scope.roots_subset hr)
  obtain ⟨p', hplan', hpins⟩ :=
    hb.exists_pins hm hsettings htable hapart hdb hoffset hlimit hdistinct h hmem
  have hplanned' := ((hb.narrowed hm hdb r).limited (n := 1) (by omega)).planned hm hplan'
  have hlists := lists_roots hplan' hconnected hplanned'.layout db
  have hsession : ((b.narrowed r).limited 1).session = b.session := rfl
  rw [hsession, hpins.roots_eq hplanned.scope hplanned'.scope hapart.keyed hr] at hlists
  obtain ⟨p'', found, hplan'', hfirst, hshows⟩ := first_eq_of_lists hlists
  obtain rfl := Except.ok.inj (hplan'.symm.trans hplan'')
  obtain ⟨alone, found', halone, hfound', halike, hself⟩ := hpins.exists_shown (hb.wellFormed hm hplan)
    hplanned'.scope hm hapart.keyed hsingle hr hplanned.layout
  obtain rfl := Except.ok.inj (hshows.symm.trans hfound')
  have hfind : b.find db (b.idOf r) = db.run b.session.mapping (.list p') found := by
    rw [find, byKey_idOf hm hdb r]
    exact hfirst
  exact ⟨hrow, _, p', alone, found, byKey_idOf hm hdb r, hplan', hfind, halone, halike, hself row hrow⟩

/-- Each root of a listing without a page is found again by its key. Where the predicates spare what the
listing loads, every root is self-contained. -/
theorem lookups_refind :
    ∃ rows, b.toList db = db.run b.session.mapping (.list p) rows ∧
      List.Forall₂ (b.Refinds db p) (p.roots b.session.mapping db) rows ∧
      (p.Spares b.query.predicates →
        ∀ r ∈ p.roots b.session.mapping db, p.SelfContained b.session.mapping db r) := by
  obtain ⟨quote, hplan⟩ := plan_eq_ok h
  obtain ⟨p₀, rows, hp₀, hrows, -, hshown⟩ := lists_roots h hconnected (hb.planned hm h).layout db
  obtain rfl := Except.ok.inj (h.symm.trans hp₀)
  refine ⟨rows, hrows, forall₂_imp_of_mem hshown fun r hr row hrow => ?_, fun hspares r hr => ?_⟩
  · exact hb.refinds hm hconnected hsettings htable hapart hsingle hdb hoffset hlimit hdistinct h hr hrow
  · exact (hb.wellFormed hm hplan).selfContained hm hapart.keyed
      ((Query.distinct_of_plan hplan).trans hdistinct) hspares (hb.placed hm h) hr

end Roots

end BoundQuery

namespace Sample

theorem records_single : records.Single mapping := by
  refine Database.single_of_apart fun owner => ?_
  have hmodels : ∀ model ∈ models, ∀ link ∈ model.links, link.toMany = false →
      link.through.isNone = true ∧
      ∃ columns ∈ link.condition.equal, (records link.target).Pairwise fun t t' =>
        ((Model.cellNamed t columns.2.name).between columns.1.type columns.2.type).compare
          ((Model.cellNamed t' columns.2.name).between columns.1.type columns.2.type) ≠ .eq := by
    decide +kernel
  rcases mapping_cases owner with hmodel | hmodel
  · exact hmodels _ hmodel
  · rw [hmodel]
    exact fun link hlink => absurd hlink List.not_mem_nil

theorem posts_identified : records.Identified mapping "Post" where
  key := by decide +kernel
  columns := by
    have hcells : ∀ r ∈ records "Post", ∃ n, Model.cellNamed r "id" = .int n := by
      intro r hr
      change r ∈ table "Post" at hr
      simp only [table, List.mem_cons, List.not_mem_nil, or_false] at hr
      rcases hr with rfl | rfl | rfl | rfl | rfl <;> exact ⟨_, rfl⟩
    intro field hfield
    obtain rfl := List.mem_singleton.1 hfield
    refine ⟨⟨"id", "id", .integer, .null⟩, rfl, rfl, fun r hr => ?_⟩
    obtain ⟨n, hn⟩ := hcells r hr
    rw [hn]
    exact ⟨nofun, rfl, nofun⟩

/-- Posts that match, with their authors and all posts of theirs. -/
def postsWhere (data : Value) : Except QueryError (BoundQuery String) := do
  let b ← session.queryOn "Post"
  let b ← b.filtered data
  b.including (.obj [("author", .obj [("include", .obj [("posts", .bool true)])])])

theorem postsWhere_built {data : Value} {b : BoundQuery String} (h : postsWhere data = .ok b) :
    b.Built ∧ ∃ q : Query, b = ⟨session, "Post", q⟩ ∧
      q.offset = none ∧ q.limit = none ∧ q.distinct = false := by
  obtain ⟨b₁, h₁, h⟩ := Except.bind_eq_ok.1 h
  obtain ⟨b₂, h₂, h₃⟩ := Except.bind_eq_ok.1 h
  refine ⟨((BoundQuery.Built.fresh h₁).filtered h₂).including h₃, ?_⟩
  obtain ⟨is, -, rfl⟩ := BoundQuery.including_eq_ok h₃
  obtain ⟨p, -, rfl⟩ := BoundQuery.filtered_eq_ok h₂
  obtain ⟨e, he, rfl⟩ := BoundQuery.queryOn_eq_ok h₁
  have hpost : session.catalogue.get (session.mapping.model "Post").name = .ok "Post" := by rfl
  obtain rfl := Except.ok.inj (hpost.symm.trans he)
  exact ⟨_, rfl, rfl, rfl, rfl⟩

theorem session_valid : session.settings.Valid := nofun

theorem session_operators : ∃ symbol,
    session.operators.get? Operator.eq.token = some (.eq, symbol) := ⟨_, rfl⟩

/-- The query on published posts compares a column of the root alone, so that each of the three is shown
with all posts of its author in both ways. -/
theorem lookups_refind_published : ∃ (b : BoundQuery String) (p : QueryPlan String),
    postsWhere (.obj [("published", .obj [("eq", .bool true)])]) = .ok b ∧ b.plan = .ok p ∧
    p.count mapping records = 3 ∧ ∃ rows, b.toList records = .ok rows ∧
      List.Forall₂ (b.Refinds records p) (p.roots mapping records) rows ∧
      ∀ r ∈ p.roots mapping records, p.SelfContained mapping records r := by
  have hrun : (do
      let b ← postsWhere (.obj [("published", .obj [("eq", .bool true)])])
      let p ← b.ready records .list
      return decide (p.Spares b.query.predicates ∧ p.count mapping records = 3)).toOption =
        some true := by decide +kernel
  obtain ⟨b, hb, hrun⟩ := Except.bind_eq_ok.1 (Except.eq_ok_of_toOption hrun)
  obtain ⟨p, hready, hrun⟩ := Except.bind_eq_ok.1 hrun
  obtain ⟨hp, -, hruns⟩ := BoundQuery.ready_eq_ok hready
  obtain ⟨hspares, hcount⟩ := of_decide_eq_true (Except.ok.inj hrun)
  obtain ⟨hbuilt, q, rfl, hoffset, hlimit, hdistinct⟩ := postsWhere_built hb
  obtain ⟨symbol, htable⟩ := session_operators
  obtain ⟨rows, hrows, hrefinds, hself⟩ := BoundQuery.lookups_refind hbuilt proper rfl session_valid
    htable records_apart records_single posts_identified hoffset hlimit hdistinct hp
  exact ⟨_, p, hb, hp, hcount, rows, hrows.trans (hruns.run_eq rows), hrefinds, hself hspares⟩

/-- The post with a number, by a filter that asks the same of a post of its author. -/
def asOwn (n : Int) : Value :=
  .obj [("id", .obj [("eq", .int n)]), ("author", .obj [("posts", .obj [("id", .obj [("eq", .int n)])])])]

/-- The first of the posts. -/
def hello : Record := record post [.int 1, .text "Hello", .int 1, .int 1]

/-- How many posts a post's author is shown with. -/
def postsShown (row : Row) : Nat :=
  match Value.member row "author" with
  | .obj author =>
    match Value.member author "posts" with
    | .list posts => posts.length
    | _ => 0
  | _ => 0

theorem postsShown_eq {row row' : Row} (h : Row.Alike row row') : postsShown row = postsShown row' := by
  have hauthor := h.member "author"
  unfold postsShown
  generalize Value.member row "author" = author at hauthor
  generalize Value.member row' "author" = author' at hauthor
  cases hauthor with
  | refl => rfl
  | list => rfl
  | @obj members members' hmembers =>
    have hposts := Row.Alike.member hmembers "posts"
    dsimp only
    generalize Value.member members "posts" = posts at hposts
    generalize Value.member members' "posts" = posts' at hposts
    cases hposts with
    | refl => rfl
    | list hperm hitems => exact hperm.length_eq.trans hitems.length_eq
    | obj => rfl

/-- The first two posts, each of which matches with itself as a post of their author. -/
def ownPosts : Except QueryError (BoundQuery String) :=
  postsWhere (.obj [("or", .list [asOwn 1, asOwn 2])])

/-- The rows of both posts join more posts to their author than those of the first one alone. -/
theorem exists_ownPosts : ∃ (b : BoundQuery String) (p : QueryPlan String) (row alone : Row),
    ownPosts = .ok b ∧ b.plan = .ok p ∧ hello ∈ p.roots mapping records ∧
    p.Shows mapping records hello row ∧ p.ShowsAlone mapping records hello alone ∧
    postsShown row ≠ postsShown alone := by
  have hrun : (do
      let b ← ownPosts
      let p ← b.plan
      let rows := p.matchedRows mapping records
      let own := rows.filter fun row : JoinedRow => row.record? p.rootAlias = some hello
      let row ← p.layout.shape (p.assemble mapping rows p.entity hello p.layout.branches)
      let alone ← p.layout.shape (p.assemble mapping own p.entity hello p.layout.branches)
      return decide (p.MatchesInOrder mapping records ∧ own ≠ [] ∧
        postsShown row ≠ postsShown alone)).toOption = some true := by decide +kernel
  obtain ⟨b, hb, hrun⟩ := Except.bind_eq_ok.1 (Except.eq_ok_of_toOption hrun)
  obtain ⟨p, hp, hrun⟩ := Except.bind_eq_ok.1 hrun
  obtain ⟨row, hrow, hrun⟩ := Except.bind_eq_ok.1 hrun
  obtain ⟨alone, halone, hrun⟩ := Except.bind_eq_ok.1 hrun
  obtain ⟨horder, hown, hposts⟩ := of_decide_eq_true (Except.ok.inj hrun)
  rw [← horder.resultRows_eq] at hrow halone hown
  obtain ⟨hbuilt, q, rfl, -⟩ := postsWhere_built hb
  obtain ⟨own, hown⟩ := List.exists_mem_of_ne_nil _ hown
  exact ⟨_, p, row, alone, hb, hp, ((hbuilt.planned proper hp).scope.mem_roots_iff records_keyed).2
    ⟨own, QueryPlan.mem_ownRows.1 hown⟩, hrow, halone, hposts⟩

/-- The listing shows both posts under the one author, the lookup of a post shows this post alone. -/
theorem lookups_miss_relatives : ∃ (b : BoundQuery String) (p : QueryPlan String) (r : Record)
    (rows : List Row) (row found : Row), ownPosts = .ok b ∧
    b.query.offset = none ∧ b.query.limit = none ∧ b.query.distinct = false ∧ b.plan = .ok p ∧
    r ∈ p.roots mapping records ∧ b.toList records = .ok rows ∧ row ∈ rows ∧
    p.Shows mapping records r row ∧ b.find records (b.idOf r) = .ok found ∧ ¬ Row.Alike row found := by
  have hready : (do (← ownPosts).ready records .list).isOk = true := by decide +kernel
  have hlookup : (do
      let b ← ownPosts
      ((← b.byKey (b.idOf hello)).limited 1).ready records .list).isOk = true := by decide +kernel
  obtain ⟨b, p, row, alone, hb, hp, hr, hrow, halone, hposts⟩ := exists_ownPosts
  obtain ⟨hbuilt, q, rfl, hoffset, hlimit, hdistinct⟩ := postsWhere_built hb
  obtain ⟨symbol, htable⟩ := session_operators
  rw [hb] at hready hlookup
  obtain ⟨alone', found, hfound, halone', halike⟩ := (hbuilt.refinds proper rfl session_valid htable
    records_apart records_single posts_identified hoffset hlimit hdistinct hp hr hrow).exists_found
    hlookup
  obtain rfl := Except.ok.inj (halone.symm.trans halone')
  obtain ⟨p', hready⟩ := Except.exists_of_isOk hready
  obtain ⟨hp', -⟩ := BoundQuery.ready_eq_ok hready
  obtain rfl := Except.ok.inj (hp.symm.trans hp')
  obtain ⟨rows, hrows, hshown⟩ := (BoundQuery.lists_roots hp rfl
    (hbuilt.planned proper hp).layout records).exists_rows hready
  have hlisted : row ∈ rows := by
    obtain ⟨i, hi⟩ := List.mem_iff_get.1 hr
    have hlt : i < rows.length := hshown.length_eq ▸ i.2
    have hget : p.Shows mapping records hello rows[i] := hi ▸ hshown.get i.2 hlt
    exact Except.ok.inj (hrow.symm.trans hget) ▸ List.get_mem _ _
  refine ⟨_, p, hello, rows, row, found, hb, hoffset, hlimit, hdistinct, hp, hr, hrows, hlisted, hrow,
    hfound, fun hsame => hposts ?_⟩
  exact (postsShown_eq hsame).trans (postsShown_eq halike).symm

end Sample

end EntityQuery

import EntityQuery.Proofs.Session.Connectives
import EntityQuery.Proofs.Session.KeyPaths
import EntityQuery.Proofs.Store.Like

/-! Filters that look for a value in a text. The value is a pattern wherever it is looked for: characters
that patterns give a meaning of their own keep it, and a value without such characters is found where it
stands, letters of the ASCII alphabet in either case. A statement with a pattern that is too long is
refused. -/

namespace EntityQuery

namespace Test

/-- A match succeeds on the cells whose texts fit the pattern. -/
theorem evalLike_eq_true_iff {cell : Cell} {pattern : String} :
    evalLike false cell (.str pattern) = .true ↔
      ∃ s, cell.text? = some s ∧ Like.fitsText pattern s = true := by
  cases htext : cell.text? with
  | none =>
    have heval : evalLike false cell (.str pattern) = .unknown := by
      rw [evalLike, htext]
    simp [heval]
  | some s =>
    have heval : evalLike false cell (.str pattern) = .ofBool (Like.fitsText pattern s) := by
      rw [evalLike, htext]
      rfl
    rw [heval]
    cases hfits : Like.fitsText pattern s <;> simp [Truth.ofBool, hfits]

end Test

namespace Operator

/-- Where an operator looks for its value in a text, if it does. -/
def place? : Operator → Option Like.Place
  | .contains => some .anywhere
  | .startsWith => some .start
  | .endsWith => some .finish
  | _ => none

variable {op : Operator} {place : Like.Place}

theorem toTest_of_place (h : op.place? = some place) (symbol key value : String) :
    op.toTest symbol key (.str value) =
      bound key (.str (place.around value)) (.like false false) := by
  cases op <;> cases h <;> rfl

theorem truth_of_place (h : op.place? = some place) (ev : Evaluation) (value : String)
    (type : ColumnType) (cell : Cell) :
    op.truth ev (.str value) type cell = Test.evalLike false cell (.str (place.around value)) := by
  cases op <;> cases h <;> rfl

/-- An operator that looks for a value is true on the cells in whose texts it is found. -/
theorem truth_eq_true_iff (h : op.place? = some place) (ev : Evaluation) (value : String)
    (type : ColumnType) (cell : Cell) : op.truth ev (.str value) type cell = .true ↔
      ∃ s, cell.text? = some s ∧ place.Finds value s := by
  rw [truth_of_place h, Test.evalLike_eq_true_iff]
  simp only [Like.Place.fitsText_around_iff]

end Operator

/-- An operator that is found by some token is found by its own. -/
theorem OperatorTable.get?_eq_some {table : OperatorTable} {token symbol : String} {op : Operator}
    (h : table.get? token = some (op, symbol)) :
    Operator.ofToken? (Token.normalize token) = some op ∧ table.get? op.token = some (op, symbol) := by
  unfold get? at h ⊢
  cases hop : Operator.ofToken? (Token.normalize token) with
  | none =>
    rw [hop] at h
    cases h
  | some op' =>
    rw [hop] at h
    obtain ⟨symbol', hsymbol, hpair⟩ := Option.map_eq_some_iff.1 h
    obtain ⟨rfl, rfl⟩ := Prod.mk.inj hpair
    rw [normalize_token, Operator.ofToken?_token]
    exact ⟨rfl, h⟩

variable {ι : Type}

namespace KeyPath

variable {g : EntityGraph ι} {e owner : ι} {relations : List String} {field token value : String}
variable {op : Operator} {table : OperatorTable} {symbol : String} {place : Like.Place}

/-- The object that asks for a text by an operator on a column at the end of some relations. -/
def asking (relations : List String) (field token value : String) : Value :=
  along relations (.obj [(field, .obj [(token, .str value)])])

/-- What the object that asks for a text is read as. -/
def asked (relations : List String) (field column : String) (op : Operator) (value : String) :
    Predicate :=
  relations.foldr .relation (.field field column [.test op (.str value)])

theorem readPredicate_asking (halong : g.entityAlong e relations = some owner)
    (hrelation : (g.entity owner).relation? field = none)
    (hcolumn : (g.entity owner).hasColumn field = true)
    (hop : Operator.ofToken? (Token.normalize token) = some op) (value : String) :
    g.readPredicate e (asking relations field token value) =
      .ok (asked relations field ((g.entity owner).columnName field) op value) := by
  refine read_along halong (fun here => ?_) ""
  rw [read_column hrelation hcolumn, readAll_singleton hop]
  rfl

/-- Asking for a text in a column of the root joins nothing. -/
theorem exists_toFilters_asked (htable : table.get? op.token = some (op, symbol))
    (hplace : op.place? = some place) (field column value : String) (c : Context ι) :
    ∃ fs c', (Predicate.toFilters g table "" "" [asked [] field column op value]).exec c = (.ok fs, c') ∧
      c'.tree = c.tree ∧ c'.layout = c.layout := by
  have htest : ∀ key p, (table.toTest op.token key (.str value)).exec p =
      (.ok (.like false false key), p.bind key (.str (place.around value)) false) := by
    intro key p
    rw [OperatorTable.toTest, htable]
    dsimp only
    rw [Operator.toTest_of_place hplace]
    rfl
  exact ⟨_, _, Predicate.toFilters_cons_eq_ok.2 ⟨_, _, [], exec_toFilter_test htest "" "" c, rfl, rfl⟩,
    rfl, rfl⟩

end KeyPath

/-! ### Roots -/

/-- A record has a text in a column, and the text has a property. Numbers are texts by their digits. -/
def HasText (t : Record) (column : String) (P : String → Prop) : Prop :=
  ∃ s, (Model.cellNamed t column).text? = some s ∧ P s

/-- Asking for a text is true on an unfolding with a record at the end of the relations in whose text the
value is found. -/
theorem allTrue_asked {m : Mapping ι} {g : EntityGraph ι} {e owner : ι} (hg : g.DotFree)
    {records : String → Option Record} {relations : List String} {op : Operator} {place : Like.Place}
    (halong : g.entityAlong e relations = some owner) (hplace : op.place? = some place)
    (field column value : String) :
    AllTrue m db g e [KeyPath.asked relations field column op value] records ↔
      ∃ t, records (Path.ofSegments relations) = some t ∧ HasText t column (place.Finds value) := by
  rw [KeyPath.asked, allTrue_test hg halong, Operator.truth_eq_true_iff hplace]
  unfold sightAt
  cases records (Path.ofSegments relations) with
  | none => simp [Cell.text?]
  | some t => simp [HasText]

variable [DecidableEq ι]

namespace BoundQuery

variable {b c : BoundQuery ι} {relations : List String} {field token symbol : String} {op : Operator}
variable {place : Like.Place} {owner : ι}

/-- The roots of which an unfolding satisfies the query and has, at the end of some relations, a record
with a text that has a property. -/
def withText (b : BoundQuery ι) (db : Database ι) (relations : List String) (column : String)
    (P : String → Prop) : Set Record :=
  {r | ∃ records, Satisfies b.session.mapping db b.session.graph b.model b.query.predicates records ∧
    records "" = some r ∧
    ∃ t, records (Path.ofSegments relations) = some t ∧ HasText t column P}

theorem withText_nil (db : Database ι) (column : String) (P : String → Prop) :
    b.withText db [] column P = {r ∈ b.selected db | HasText r column P} := by
  ext r
  constructor
  · rintro ⟨records, hsatisfies, hroot, t, ht, htext⟩
    obtain rfl := Option.some.inj (hroot.symm.trans ht)
    exact ⟨⟨records, hsatisfies, hroot⟩, htext⟩
  · rintro ⟨⟨records, hsatisfies, hroot⟩, htext⟩
    exact ⟨records, hsatisfies, hroot, r, hroot, htext⟩

/-- A query that is filtered by a text in a column, at the end of some relations. What it matches is told
by its statements, unless they are refused. -/
structure LooksFor (b c : BoundQuery ι) (relations : List String) (column : String)
    (P : String → Prop) : Prop where
  matching : ∀ p, c.plan = .ok p → ∀ db,
    p.matching b.session.mapping db = b.withText db relations column P
  tells : ∀ p, c.plan = .ok p → ∀ db : Database ι, b.session.connected = true →
    db.Keyed b.session.mapping → c.Tells db p
  /-- Roots are narrowed by a text of their own, and the query has a plan still. -/
  root : relations = [] → ∀ p, b.plan = .ok p → ∃ p', c.plan = .ok p' ∧ ∀ db,
    p'.matching b.session.mapping db = {r ∈ p.matching b.session.mapping db | HasText r column P}

section Asking

variable (hb : b.Built) (hm : b.session.mapping.Proper)
variable (htoken : b.session.operators.get? token = some (op, symbol)) (hplace : op.place? = some place)
variable (halong : b.session.graph.entityAlong b.model relations = some owner)
variable (hcolumn : (b.session.graph.entity owner).hasColumn field = true) {value : String}

include hm htoken halong hcolumn

theorem readPredicate_asking (value : String) :
    b.session.graph.readPredicate b.model (KeyPath.asking relations field token value) =
      .ok (KeyPath.asked relations field ((b.session.graph.entity owner).columnName field) op value) := by
  obtain ⟨hop, -⟩ := OperatorTable.get?_eq_some htoken
  exact KeyPath.readPredicate_asking halong (hm.relation?_of_hasColumn hcolumn) hcolumn hop value

include hb hplace

theorem matching_asking (h : b.filtered (KeyPath.asking relations field token value) = .ok c)
    {p : QueryPlan ι} (hp : c.plan = .ok p) (db : Database ι) : p.matching b.session.mapping db =
      b.withText db relations ((b.session.graph.entity owner).columnName field) (place.Finds value) := by
  obtain ⟨q, hq, hselected⟩ := hb.exists_matching_filtered hm h hp db
  obtain rfl := Except.ok.inj ((readPredicate_asking hm htoken halong hcolumn value).symm.trans hq)
  have hdotFree : b.session.graph.DotFree := hm.dotFree _
  rw [hselected]
  ext r
  rw [Query.mem_selected_addPredicate]
  refine exists_congr fun records => and_congr_right fun _ => ?_
  rw [allTrue_asked hdotFree halong hplace, and_comm]

theorem looksFor_asking (h : b.filtered (KeyPath.asking relations field token value) = .ok c) :
    b.LooksFor c relations ((b.session.graph.entity owner).columnName field) (place.Finds value) := by
  constructor
  case matching =>
    exact fun p hp db => matching_asking hb hm htoken hplace halong hcolumn h hp db
  case tells => exact fun p hp db hconnected hdb => hb.tells_filtered hm h hp hconnected hdb
  case root =>
    -- A test of the root joins nothing, so that what the query has planned so far stands.
    rintro rfl p hp
    obtain ⟨-, htable⟩ := OperatorTable.get?_eq_some htoken
    obtain ⟨quote, hquote, hplan⟩ := plan_eq_ok_iff.1 hp
    obtain ⟨p', hplan', -⟩ := Query.exists_plan_addPredicate
      (KeyPath.exists_toFilters_asked htable hplace field _ value) hplan b.clamped.limit
    have hp' : c.plan = .ok p' := by
      obtain ⟨q, hq, rfl⟩ := filtered_eq_ok h
      obtain rfl := Except.ok.inj ((readPredicate_asking hm htoken halong hcolumn value).symm.trans hq)
      exact plan_eq_ok_iff.2 ⟨quote, hquote, hplan'⟩
    refine ⟨p', hp', fun db => ?_⟩
    rw [matching_asking hb hm htoken hplace halong hcolumn h hp' db, withText_nil, hb.matching_eq hm hp db]

/-- Filters match a value as a pattern, at the place that the operator looks for it; a value that is
literal is found where it stands. -/
theorem texts_match_patterns (value : String) :
    (∃ c, b.filtered (KeyPath.asking relations field token value) = .ok c ∧
      b.LooksFor c relations ((b.session.graph.entity owner).columnName field) (place.Finds value)) ∧
    (Like.Place.IsLiteral value → ∀ s : String, '\x00' ∉ s.toList →
      (place.Finds value s ↔ place.FindsLiterally value s)) := by
  have hfiltered := filtered_of_read (readPredicate_asking hm htoken halong hcolumn value)
  constructor
  · exact ⟨_, hfiltered, looksFor_asking hb hm htoken hplace halong hcolumn hfiltered⟩
  · exact fun hvalue s hs => Like.Place.finds_iff_of_literal hvalue hs

end Asking

end BoundQuery

namespace Sample

/-- Some letters are found in the titles of posts in either case, and the authors of these are matched. -/
theorem texts_match_patterns_titles : ∃ (b c : BoundQuery String) (p : QueryPlan String),
    session.queryOn "User" = .ok b ∧
    b.filtered (KeyPath.asking ["posts"] "title" "contains" "ELLO") = .ok c ∧ c.plan = .ok p ∧
    c.count records = .ok 2 ∧
    (∀ r ∈ records "User", r ∈ p.matching b.session.mapping records ↔
      user.key r ∈ [[Cell.int 1], [Cell.int 4]]) ∧
    p.matching b.session.mapping records =
      b.withText records ["posts"] "title" (Like.Place.anywhere.Finds "ELLO") ∧
    ∀ s : String, '\x00' ∉ s.toList →
      (Like.Place.anywhere.Finds "ELLO" s ↔ Like.Place.anywhere.FindsLiterally "ELLO" s) := by
  obtain ⟨b, hb, hbuilt, hsession, hmodel⟩ := exists_users
  have hkeys : (keysWhere (KeyPath.asking ["posts"] "title" "contains" "ELLO")).toOption =
      some [[.int 1], [.int 4]] := by decide +kernel
  obtain ⟨c, p, hc, hp, hcount, hmatching⟩ := exists_plan_of_keysWhere hb hsession hmodel hkeys
  have htoken : b.session.operators.get? "contains" = some (.contains, "REGEXP") := by
    rw [hsession]
    decide +kernel
  have halong : b.session.graph.entityAlong b.model ["posts"] = some "Post" := by
    rw [hsession, hmodel]
    decide +kernel
  have hcolumn : (b.session.graph.entity "Post").hasColumn "title" = true := by
    rw [hsession]
    decide +kernel
  have hname : (b.session.graph.entity "Post").columnName "title" = "title" := by
    rw [hsession]
    decide +kernel
  obtain ⟨⟨c', hc', hlooks⟩, hliteral⟩ :=
    BoundQuery.texts_match_patterns hbuilt (hsession ▸ proper) htoken rfl halong hcolumn "ELLO"
  obtain rfl := Except.ok.inj (hc.symm.trans hc')
  rw [hname] at hlooks
  have hvalue : Like.Place.IsLiteral "ELLO" := by decide +kernel
  exact ⟨b, c, p, hb, hc, hp, hcount, hmatching, hlooks.matching p hp records, hliteral hvalue⟩

/-- The first user is matched by values that his name does not contain: wildcards keep their meaning, and
a NUL ends the pattern. -/
theorem wildcards_match : ∃ b : BoundQuery String, session.queryOn "User" = .ok b ∧
    Model.cellNamed john "name" = .text "john" ∧
    ∀ value ∈ ["_", "o%n", "\x00n"], ¬ Like.Place.anywhere.FindsLiterally value "john" ∧
      ∃ (c : BoundQuery String) (p : QueryPlan String),
        b.filtered (KeyPath.asking [] "name" "contains" value) = .ok c ∧ c.plan = .ok p ∧
        (c.count records).isOk = true ∧ john ∈ p.matching b.session.mapping records := by
  obtain ⟨b, hb, -, hsession, hmodel⟩ := exists_users
  have hrun : ∀ value ∈ ["_", "o%n", "\x00n"], (do
      let keys ← keysWhere (KeyPath.asking [] "name" "contains" value)
      return keys.contains (user.key john)).toOption = some true := by decide +kernel
  have hstrange : ∀ value ∈ ["_", "o%n", "\x00n"],
      ¬ (value.toList.map Like.read).map Char.toLower ⊆
        ("john".toList.map Like.read).map Char.toLower := by decide +kernel
  refine ⟨b, hb, rfl, fun value hvalue => ⟨?_, ?_⟩⟩
  · rintro ⟨part, hpart, hsame⟩
    exact hstrange value hvalue (hsame ▸ List.map_subset _ hpart.subset)
  · obtain ⟨keys, hkeys, hkey⟩ := Except.bind_eq_ok.1 (Except.eq_ok_of_toOption (hrun value hvalue))
    obtain ⟨c, p, hc, hp, hcount, hmatching⟩ :=
      exists_plan_of_keysWhere hb hsession hmodel (congrArg Except.toOption hkeys)
    have hjohn : user.key john ∈ keys := List.contains_iff_mem.1 (Except.ok.inj hkey)
    exact ⟨c, p, hc, hp, by rw [hcount]; rfl, (hmatching john (by decide +kernel)).2 hjohn⟩

end Sample

end EntityQuery

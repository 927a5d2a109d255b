import Mathlib.Data.List.Forall2
import EntityQuery.Sample
import EntityQuery.Proofs.Query.Coherent

/-! Plans are well formed. Whatever a query asks for, its joins hang together under aliases of their
own, the joins that load something are those that the layout shows, and whatever names an alias names
that of its path. -/

namespace EntityQuery

variable {ι : Type} {g : EntityGraph ι}

/-- The predicates and the inclusions of a query have been read on an entity. -/
structure Query.ReadOn (g : EntityGraph ι) (e : ι) (q : Query) : Prop where
  predicates : ∀ p ∈ q.predicates, ∃ data, g.readPredicate e data = .ok p
  inclusions : ∀ i ∈ q.inclusions, ∃ data is, g.readInclusion e data = .ok is ∧ i ∈ is

/-! ### Columns by path -/

namespace Predicate

/-- The columns that predicates on a root entity name, each with the path of its entity in the place
of an alias. -/
def columnsByPath (ps : List Predicate) : List ColumnRef := columnsOfAll id "" "" ps

mutual

theorem columns_eq_map (aliasAt : String → String) (path : String) (p : Predicate) :
    columns aliasAt (aliasAt path) path p =
      (columns id path path p).map fun c => ⟨aliasAt c.aliasName, c.column⟩ := by
  cases p with
  | field name column comparisons => rw [columns, columns, List.map_replicate]
  | relation name condition =>
    rw [columns, columns]
    exact columns_eq_map aliasAt _ condition
  | all children => rw [columns, columns, columnsOfAll_eq_map aliasAt path children]
  | any children => rw [columns, columns, columnsOfAll_eq_map aliasAt path children]
  | not child => rw [columns, columns, columns_eq_map aliasAt path child]
  | fields entries => rw [columns, columns, columnsOfAll_eq_map aliasAt path entries]

theorem columnsOfAll_eq_map (aliasAt : String → String) (path : String) (ps : List Predicate) :
    columnsOfAll aliasAt (aliasAt path) path ps =
      (columnsOfAll id path path ps).map fun c => ⟨aliasAt c.aliasName, c.column⟩ := by
  cases ps with
  | nil => rfl
  | cons p rest =>
    rw [columnsOfAll, columnsOfAll, List.map_append, columns_eq_map aliasAt path p,
      columnsOfAll_eq_map aliasAt path rest]

end

end Predicate

theorem Filter.columns_conjunction (fs : List Filter) :
    (conjunction fs).toList.flatMap columns = fs.flatMap columns := by
  match fs with
  | [] => rfl
  | [f] => simp [conjunction]
  | f :: f' :: rest =>
    have hconj : conjunction (f :: f' :: rest) =
        some (.chain ((f :: f' :: rest).map fun f => .group .and [f])) := rfl
    rw [hconj, Option.toList_some, List.flatMap_singleton, columns_of_leaves (leaves_chain _),
      List.flatMap_map]
    refine List.flatMap_congr fun f _ => ?_
    rw [columns_of_leaves (leaves_group .and [f]), List.flatMap_singleton]

/-! ### Joins of a rooted tree -/

namespace JoinTree.Rooted

variable {t : JoinTree ι}

theorem names_nodup (ht : t.Rooted g) : (t.aliases.root :: t.joins.map (·.aliasName)).Nodup := by
  refine List.nodup_cons.2 ⟨fun hmem => ?_, ht.aligned.names⟩
  obtain ⟨j, hj, hname⟩ := List.mem_map.1 hmem
  exact ht.aliasName_ne_root hj hname

end JoinTree.Rooted

/-! ### Branches of a coherent context -/

namespace Context.Coherent

variable {c : Context ι}

/-- A branch has the alias of its path, which is not the empty one. -/
theorem aliasFor_of_mem_walk (hc : c.Coherent g) {b : Branch} (hb : b ∈ c.layout.walk) :
    c.tree.aliases.aliasFor b.path = .ok b.aliasName := by
  have hget := hc.aliases b.path b.aliasName (List.mem_map.2 ⟨b, hb, rfl⟩)
  obtain ⟨j, hj, hpath, -⟩ := hc.tree.aligned.exists_of_get? hget
  exact Aliases.aliasFor_of_get? (hpath ▸ hc.tree.path_ne_empty hj) hget

/-- Where something gives the aliases of all paths that have one, it gives those of joined paths. -/
theorem assigns (hc : c.Coherent g) {t : JoinTree ι} (hgrows : c.tree.Extends t)
    {aliasAt : String → String}
    (h : ∀ path aliasName, t.aliases.aliasFor path = .ok aliasName → aliasAt path = aliasName) :
    c.tree.Assigns id aliasAt := by
  intro path aliasName hget
  obtain ⟨j, hj, hpath, -⟩ := hc.tree.aligned.exists_of_get? hget
  have hne : path ≠ "" := hpath ▸ hc.tree.path_ne_empty hj
  exact h path aliasName (Aliases.aliasFor_of_get? hne (hgrows.get? hget))

theorem selected_iff (hc : c.Coherent g) (path : String) :
    c.tree.Selected path ↔ ∃ b ∈ c.layout.walk, b.path = path := by
  rw [hc.selected path]
  constructor
  · rintro ⟨aliasName, hnode⟩
    obtain ⟨b, hb, hnode⟩ := List.mem_map.1 hnode
    exact ⟨b, hb, congrArg Prod.fst hnode⟩
  · rintro ⟨b, hb, rfl⟩
    exact ⟨b.aliasName, List.mem_map.2 ⟨b, hb, rfl⟩⟩

/-- With a path all its parts are selected. -/
theorem selected_of_mem_leads (hg : g.DotFree) (hc : c.Coherent g) {path above : String}
    (h : c.tree.Selected path)
    (habove : above ∈ JoinTree.leads (Path.segments path)) : c.tree.Selected above := by
  obtain ⟨aliasName, hnode⟩ := (hc.selected path).1 h
  obtain ⟨j, hj, rfl, -⟩ := h
  have hentity := EntityGraph.entityAlong_of_relationAlong (hc.tree.relation j hj)
  obtain ⟨n, hpos, hn, rfl⟩ := JoinTree.mem_leads.1 habove
  rw [← Path.ofSegments_segments j.path] at hnode
  exact (hc.selected _).2
    (hc.layout.exists_of_prefix (hg.isSegment_of_entityAlong hentity) hnode hpos hn)

end Context.Coherent

/-! ### Well-formed plans -/

/-- The aliases that a plan gives to paths. -/
def QueryPlan.scope (p : QueryPlan ι) : Aliases := ⟨p.rootAlias, p.aliases⟩

/-- Joins, aliases, filter, sort keys and layout of a plan fit together. The plan is that of a query on
the entity `e` with some predicates. -/
structure QueryPlan.WellFormed (g : EntityGraph ι) (e : ι) (quote : String → String)
    (predicates : List Predicate) (p : QueryPlan ι) : Prop where
  entity : p.entity = e
  names : (p.rootAlias :: p.joins.map (·.aliasName)).Nodup
  paths : (p.joins.map (·.path)).Nodup
  relation : ∀ j ∈ p.joins, g.relationAlong e (Path.segments j.path) = some j.relation
  parent_root : ∀ j ∈ p.joins, (Path.segments j.path).length = 1 → j.parent = p.rootAlias
  parent_join : ∀ before j after, p.joins = before ++ j :: after →
    1 < (Path.segments j.path).length →
      ∃ k ∈ before, k.path = j.parentPath ∧ k.aliasName = j.parent
  aliases : p.aliases = p.joins.map fun j => (j.path, j.aliasName)
  clause_joins : p.clause.joins <+: p.joins
  clause_text : p.clause.text = Filter.textOf quote p.filter
  filter : List.Forall₂
    (fun named c => p.scope.aliasFor named.aliasName = .ok c.aliasName ∧ c.column = named.column)
    (Predicate.columnsByPath predicates) (p.filter.toList.flatMap Filter.columns)
  order : ∀ term ∈ p.order, p.scope.aliasFor term.path = .ok term.aliasName
  layout : ∀ b ∈ p.layout.walk, p.scope.aliasFor b.path = .ok b.aliasName
  selected : ∀ j ∈ p.joins, j.selected = true ↔ ∃ b ∈ p.layout.walk, b.path = j.path
  above : ∀ j ∈ p.joins, j.selected = true → ∀ path ∈ JoinTree.leads (Path.segments j.path),
    (∃ k ∈ p.joins, k.path = path ∧ k.selected = true) ∧ ∃ b ∈ p.layout.walk, b.path = path

namespace Query

/-- Columns that do not change with the aliases of paths without one are under the aliases of their
paths. -/
theorem forall₂_columnsByPath {a : Aliases} {ps : List Predicate} {columns : List ColumnRef}
    (h : ∀ aliasAt : String → String,
      (∀ path aliasName, a.aliasFor path = .ok aliasName → aliasAt path = aliasName) →
      columns = Predicate.columnsOfAll aliasAt a.root "" ps) :
    List.Forall₂ (fun named c => a.aliasFor named.aliasName = .ok c.aliasName ∧ c.column = named.column)
      (Predicate.columnsByPath ps) columns := by
  let aliasAt (other path : String) : String := (a.aliasFor path).toOption.getD other
  have hcolumns : ∀ other, columns = (Predicate.columnsByPath ps).map fun c =>
      ⟨aliasAt other c.aliasName, c.column⟩ := by
    intro other
    rw [h (aliasAt other) fun path aliasName hpath => by simp [aliasAt, hpath, Except.toOption]]
    exact Predicate.columnsOfAll_eq_map (aliasAt other) "" ps
  have hsame := (hcolumns "").symm.trans (hcolumns "other")
  rw [List.map_inj_left] at hsame
  rw [hcolumns "", List.forall₂_map_right_iff, List.forall₂_same]
  intro c hc
  refine ⟨?_, rfl⟩
  have hname : aliasAt "" c.aliasName = aliasAt "other" c.aliasName := by
    simpa using congrArg ColumnRef.aliasName (hsame c hc)
  simp only [aliasAt] at hname ⊢
  cases hpath : a.aliasFor c.aliasName with
  | ok aliasName => rfl
  | error _ => simp [hpath, Except.toOption] at hname

theorem of_mem_tiebreak {e : Entity ι} {rootAlias : String} {terms : List OrderTerm} {term : OrderTerm}
    (h : term ∈ tiebreak e rootAlias terms) : term.path = "" ∧ term.aliasName = rootAlias := by
  obtain ⟨field, -, rfl⟩ := List.mem_map.1 h
  exact ⟨rfl, rfl⟩

/-- The context after each stage of a plan is coherent; ordering changes the tree at its end only. -/
theorem Stages.coherent (hg : g.DotFree) {table : OperatorTable} {e : ι} {aliasName : Option String}
    {q : Query} (hq : q.ReadOn g e) {c₁ c₂ c₃ c₄ : Context ι} {filters : List Filter}
    {order : List OrderTerm}
    (h : Stages g table q (start g e aliasName) c₁ c₂ c₃ c₄ filters order) :
    c₃.Coherent g ∧ Orders g c₃ order c₄ := by
  have hc₀ : (start g e aliasName).Coherent g := Context.coherent_start (hg.navigable e).named _
  have hover : ∀ i ∈ q.inclusions, i.Over g e := by
    intro i hi
    obtain ⟨data, is, hread, hmem⟩ := hq.inclusions i hi
    exact Inclusion.over_of_readInclusion hread i hmem
  have hbelow : Inclusion.Below (start g e aliasName) [] none none :=
    ⟨by simp, fun _ => rfl, fun hne => absurd rfl hne, .inl ⟨rfl, rfl⟩⟩
  have hc₁ := (Inclusion.planAll_coherent hg q.inclusions hover hc₀ hbelow h.inclusions).1
  have hc₂ := Selection.planAll_coherent q.selections hc₁ h.selections
  have hread : ∀ p ∈ q.predicates, p.Over g e := by
    intro p hp
    obtain ⟨data, hdata⟩ := hq.predicates p hp
    exact Predicate.read_over data hdata
  have hroot : ∀ s ∈ ([] : List String), Path.IsSegment s := by simp
  have hc₃ : c₃.Coherent g := Predicate.toFilters_coherent
    (fun p hp => (hread p hp).keepsCoherent hg table) (fun p hp => (hread p hp).compiles table)
    hc₂ hroot (fun _ => rfl) (fun hne => absurd rfl hne) h.predicates
  exact ⟨hc₃, orderTerms_orders hc₃ h.ordering⟩

theorem Stages.predicates_build {table : OperatorTable} {e : ι} {aliasName : Option String}
    {q : Query} (hq : q.ReadOn g e) {c₁ c₂ c₃ c₄ : Context ι} {filters : List Filter}
    {order : List OrderTerm}
    (h : Stages g table q (start g e aliasName) c₁ c₂ c₃ c₄ filters order) :
    Predicate.Builds table (rootAlias aliasName (g.entity e)) "" q.predicates c₂ filters c₃ := by
  obtain ⟨hsound, hgrows⟩ := h.sound (Context.sound_start _ _)
  have hbuilds := Predicate.toFilters_builds (fun p hp =>
    have ⟨data, hdata⟩ := hq.predicates p hp
    (Predicate.read_over data hdata).compiles table) hsound h.predicates
  have hroot : c₂.tree.aliases.root = rootAlias aliasName (g.entity e) := hgrows.rootAlias
  rwa [hroot] at hbuilds

/-- The tree of a plan has grown from that of the root alone. -/
theorem Stages.tree_extends (hg : g.DotFree) {table : OperatorTable} {e : ι}
    {aliasName : Option String} {q : Query} (hq : q.ReadOn g e) {c₁ c₂ c₃ c₄ : Context ι}
    {filters : List Filter} {order : List OrderTerm}
    (h : Stages g table q (start g e aliasName) c₁ c₂ c₃ c₄ filters order) :
    (start g e aliasName).tree.Extends c₄.tree :=
  ((h.sound (Context.sound_start _ _)).2.trans (h.predicates_build hq).grows.tree).trans
    (h.coherent hg hq).2.grows

theorem Stages.wellFormed (hg : g.DotFree) {e : ι} {aliasName : Option String}
    {table : OperatorTable} {quote : String → String} {stable : Bool} {q : Query} (hq : q.ReadOn g e)
    {c₁ c₂ c₃ c₄ : Context ι} {filters : List Filter} {order : List OrderTerm}
    (hstages : Stages g table q (start g e aliasName) c₁ c₂ c₃ c₄ filters order) :
    (planOf g e aliasName quote stable q c₃ c₄ filters order).WellFormed g e quote q.predicates := by
  obtain ⟨hc₃, horders⟩ := hstages.coherent hg hq
  have hbuilds := hstages.predicates_build hq
  have hextends := hstages.tree_extends hg hq
  have hc₄ := horders.coherent
  have haligned := hc₄.tree.aligned
  have hroot : c₄.tree.root = e := hextends.root
  have hscope : (planOf g e aliasName quote stable q c₃ c₄ filters order).scope = c₄.tree.aliases :=
    congrArg (Aliases.mk · c₄.tree.aliases.entries) hextends.rootAlias.symm
  have hname : c₄.tree.aliases.root = rootAlias aliasName (g.entity e) := hextends.rootAlias
  constructor
  case entity => rfl
  case names =>
    have hnames := hc₄.tree.names_nodup
    rwa [hname] at hnames
  case paths => exact hc₄.tree.aligned.paths
  case relation => exact fun j hj => hroot ▸ hc₄.tree.relation j hj
  case parent_root => exact fun j hj hone => (hc₄.tree.parent_root hj hone).trans hname
  case parent_join => exact fun before j after hjoins => hc₄.tree.parent_join hjoins
  case aliases => exact hc₄.tree.aligned.entries
  case clause_joins => exact horders.joins
  case clause_text => rfl
  case filter =>
    rw [hscope]
    refine forall₂_columnsByPath fun aliasAt haliasAt => ?_
    have hcolumns := hbuilds.columns aliasAt (hc₃.assigns horders.grows haliasAt)
    rw [← hname, ← Filter.columns_conjunction] at hcolumns
    exact hcolumns
  case order =>
    rw [hscope]
    intro term hterm
    rcases List.mem_append.1 hterm with hterm | hterm
    · exact horders.located term hterm
    · split at hterm
      · obtain ⟨hpath, haliasName⟩ := of_mem_tiebreak hterm
        rw [hpath, haliasName, ← hname]
        rfl
      · simp at hterm
  case layout => rw [hscope]; exact fun b hb => hc₄.aliasFor_of_mem_walk hb
  case selected =>
    exact fun j hj => (hc₄.tree.aligned.selected_iff hj).symm.trans (hc₄.selected_iff j.path)
  case above =>
    intro j hj hselected path hpath
    have habove := hc₄.selected_of_mem_leads hg ⟨j, hj, rfl, hselected⟩ hpath
    exact ⟨habove, (hc₄.selected_iff path).1 habove⟩

/-- Every plan of a query that has been read on an entity is well formed. -/
theorem plan_wellFormed (hg : g.DotFree) {e : ι} {aliasName : Option String} {table : OperatorTable}
    {quote : String → String} {stable : Bool} {q : Query} {p : QueryPlan ι} (hq : q.ReadOn g e)
    (h : q.plan g e aliasName table quote stable = .ok p) : p.WellFormed g e quote q.predicates := by
  obtain ⟨c₁, c₂, c₃, c₄, filters, order, hstages, rfl⟩ := plan_eq_ok.1 h
  exact hstages.wellFormed hg hq

end Query

namespace Sample

theorem mapping_cases (e : String) :
    mapping.model e ∈ models ∨ mapping.model e = ⟨e, [], [], []⟩ := by
  rw [mapping]
  dsimp only
  cases h : models.find? (·.name = e) with
  | none => exact .inr rfl
  | some m => exact .inl (List.mem_of_find?_eq_some h)

theorem isSegment_of_mem_links : ∀ m ∈ models, ∀ l ∈ m.links, Path.IsSegment l.name := by
  unfold Path.IsSegment
  decide +kernel

theorem dotFree (registered : String → Bool) : (mapping.graph registered).DotFree := by
  intro e r hr
  obtain ⟨l, hl, rfl⟩ := List.mem_map.1 hr
  have hmem := (List.mem_filter.1 hl).1
  rcases mapping_cases e with hmodel | hmodel
  · exact isSegment_of_mem_links _ hmodel l hmem
  · rw [hmodel] at hmem
    exact absurd hmem (by simp)

/-- Posts under an alias of their own, with their comments. -/
def postsWithComments : Value :=
  .obj [("posts", .obj [("as", .str "p"), ("include", .obj [("comments", .bool true)])])]

/-- Users whose profile says that they write. -/
def writers : Value := .obj [("profile", .obj [("bio", .obj [("eq", .str "Writer")])])]

/-- Writers with their posts and comments, by the titles of the posts. -/
def writersQuery (g : EntityGraph String) : Except QueryError Query := do
  let is ← g.readInclusion "User" postsWithComments
  let p ← g.readPredicate "User" writers
  return ((Query.empty.addInclusions is).addPredicate p).orderBy "posts.title" .descending

theorem writersQuery_readOn {g : EntityGraph String} {q : Query} (h : writersQuery g = .ok q) :
    q.ReadOn g "User" := by
  simp only [writersQuery, Except.bind_eq_ok] at h
  obtain ⟨is, his, p, hp, h⟩ := h
  obtain rfl := Except.ok.inj h
  constructor
  · intro p' hp'
    obtain rfl : p' = p := by simpa [Query.orderBy, Query.addPredicate, Query.addInclusions,
      Query.empty] using hp'
    exact ⟨_, hp⟩
  · intro i hi
    exact ⟨_, is, his, by simpa [Query.orderBy, Query.addPredicate, Query.addInclusions,
      Query.empty] using hi⟩

def writersPlan (g : EntityGraph String) : Except QueryError (QueryPlan String) := do
  (← writersQuery g).plan g "User" none (.ofDialect none) id true

theorem plan_wellFormed_writers : ∃ (q : Query) (p : QueryPlan String),
    q.plan (mapping.graph fun _ => true) "User" none (.ofDialect none) id true = .ok p ∧
    p.joins.map (fun j => (j.path, j.aliasName, j.selected)) =
      [("posts", "p", true), ("posts.comments", "user_posts_comments", true),
        ("profile", "user_profile", false)] ∧
    p.WellFormed (mapping.graph fun _ => true) "User" id q.predicates := by
  obtain ⟨p, hp⟩ := Except.exists_of_isOk
    (show (writersPlan (mapping.graph fun _ => true)).isOk = true by decide +kernel)
  have hjoins : (writersPlan (mapping.graph fun _ => true)).toOption.map (fun p =>
      p.joins.map fun j => (j.path, j.aliasName, j.selected)) =
      some [("posts", "p", true), ("posts.comments", "user_posts_comments", true),
        ("profile", "user_profile", false)] := by
    decide +kernel
  rw [hp] at hjoins
  obtain ⟨q, hq, hplan⟩ := Except.bind_eq_ok.1 hp
  exact ⟨q, p, hplan, Option.some.inj hjoins,
    Query.plan_wellFormed (dotFree _) (writersQuery_readOn hq) hplan⟩

end Sample

end EntityQuery

import EntityQuery.Proofs.Inclusion.Rereading
import EntityQuery.Proofs.Inclusion.Visits
import EntityQuery.Proofs.Join.Honest
import EntityQuery.Proofs.Query.WellFormed

/-! Inclusions merge into one layout. Whatever trees of relations are included at the root, in however many
calls, the layout has one branch for each path of the trees, and including the same again changes
nothing. -/

namespace EntityQuery

variable {ι : Type} {g : EntityGraph ι}

/-- The alias of a path, empty where it has none. -/
def JoinTree.nameOf (t : JoinTree ι) (path : String) : String := (t.aliases.get? path).getD ""

/-- The path of the branch that takes what is placed below a chain; none stands for the root. -/
def Layout.holderAt (segs : List String) : Option String :=
  if segs = [] then none else some (Path.ofSegments segs)

open JoinTree (leads leads_concat)
open Layout (holderAt)

/-- A visit whose path is joined and loaded. -/
structure Visit.Loaded (t : JoinTree ι) (v : Visit) : Prop where
  segments : Path.segments (Path.ofSegments v.chain) = v.chain
  selected : t.Selected (Path.ofSegments v.chain)

namespace Visit.Loaded

variable {t t' : JoinTree ι} {v : Visit}

theorem mono (h : v.Loaded t) (hkeeps : ∀ path, t.Selected path → t'.Selected path) : v.Loaded t' :=
  ⟨h.segments, hkeeps _ h.selected⟩

theorem get?_eq (h : v.Loaded t) (ht : t.Aligned) :
    t.aliases.get? (Path.ofSegments v.chain) = some (t.nameOf (Path.ofSegments v.chain)) := by
  obtain ⟨j, hj, hpath, -⟩ := h.selected
  have hget := ht.get?_of_mem hj
  rw [hpath] at hget
  rw [JoinTree.nameOf, hget]
  rfl

theorem exists_entityAlong (h : v.Loaded t) (ht : t.Honest g) :
    ∃ e, g.entityAlong t.root v.chain = some e := by
  obtain ⟨e, he, -⟩ := ht.reached _ _ (h.get?_eq ht.aligned)
  exact ⟨e, h.segments ▸ he⟩

end Visit.Loaded

/-! ### One visit -/

/-- The layout and the joins are those of visits at a root entity. -/
structure Context.Merged (g : EntityGraph ι) (root : ι) (c : Context ι) (vs : List Visit) : Prop where
  tree : c.tree.Honest g
  root : c.tree.root = root
  layout : c.layout.Distinct
  columns : c.layout.rootColumns = []
  closed : Visit.Closed vs
  loaded : ∀ v ∈ vs, v.Loaded c.tree
  views : ∀ segs, c.layout.view segs = Visit.view c.tree.nameOf vs segs

namespace Context.Merged

variable {root : ι} {c : Context ι} {vs : List Visit} {before : List String}

theorem start {tree : JoinTree ι} (htree : tree.Honest g) (parameters : Parameters) (counter : Nat) :
    Merged g tree.root ⟨tree, .empty, parameters, counter⟩ [] where
  tree := htree
  root := rfl
  layout := Layout.distinct_empty
  columns := rfl
  closed := by simp [Visit.Closed]
  loaded := by simp
  views segs := by
    refine (Branch.view_of_nil segs).trans ?_
    simp [Visit.view, Visit.Opens, Visit.level, Visit.namesBelow]

/-- The branch at a path is that of the visits of its chain. -/
theorem map_leaf_branch? (hc : c.Merged g root vs) {path name : String}
    (h : Path.segments path = before ++ [name]) : (c.layout.branch? path).map Branch.leaf =
      if ∃ v ∈ vs, v.chain = before ++ [name] then some (Visit.branch c.tree.nameOf vs before name)
      else none := by
  have hopens : (∃ v ∈ vs, v.chain = before ++ [name]) → Visit.Opens vs before := by
    rintro ⟨v, hv, hchain⟩
    rw [← (Visit.chain_eq_iff.1 hchain).1]
    exact hc.closed v hv
  rw [Layout.map_leaf_branch? _ h, hc.views, Visit.view]
  by_cases hbefore : Visit.Opens vs before
  · rw [if_pos hbefore, Option.bind_some, Visit.find?_level]
    simp only [Visit.mem_namesBelow]
  · rw [if_neg hbefore, if_neg (mt hopens hbefore)]
    rfl

theorem isSome_branch? (hc : c.Merged g root vs) {v : Visit} (hv : v ∈ vs) :
    (c.layout.branch? (Path.ofSegments v.chain)).isSome = true := by
  rw [← Option.isSome_map (f := Branch.leaf), hc.map_leaf_branch? (hc.loaded v hv).segments,
    if_pos ⟨v, hv, rfl⟩]
  rfl

theorem segments_of_opens (hc : c.Merged g root vs) (hbefore : Visit.Opens vs before)
    (hne : before ≠ []) : Path.segments (Path.ofSegments before) = before := by
  obtain ⟨v, hv, rfl⟩ := hbefore.resolve_left hne
  exact (hc.loaded v hv).segments

theorem holds (hc : c.Merged g root vs) (hbefore : Visit.Opens vs before) :
    c.layout.Holds before (holderAt before) := by
  unfold holderAt
  split
  · next hnil => exact .inl ⟨hnil, rfl⟩
  · next hne =>
    obtain ⟨v, hv, rfl⟩ := hbefore.resolve_left hne
    exact .inr ⟨hne, rfl, hc.isSome_branch? hv⟩

theorem exists_entityAlong (hc : c.Merged g root vs) (hbefore : Visit.Opens vs before) :
    ∃ e, g.entityAlong root before = some e := by
  rcases hbefore with rfl | ⟨v, hv, rfl⟩
  · exact ⟨root, rfl⟩
  · exact hc.root ▸ (hc.loaded v hv).exists_entityAlong hc.tree

theorem holder_eq (hg : g.Navigable root) (hc : c.Merged g root vs) {v : Visit} (hv : v ∈ vs) :
    c.layout.holder (Path.ofSegments v.chain) = holderAt v.chain := by
  obtain ⟨e, he⟩ := hc.exists_entityAlong (.inr ⟨v, hv, rfl⟩)
  have hne : v.chain ≠ [] := by simp [Visit.chain]
  have hpath : (Path.ofSegments v.chain).isEmpty = false := by
    have hhead := EntityGraph.head?_ne_of_entityAlong hg.named he
    simpa [Path.ofSegments_eq_empty_iff_of_head hhead] using hne
  rw [Layout.holder, hc.isSome_branch? hv, hpath, holderAt, if_neg hne]
  rfl

/-- Joining a relation for loading and placing its branch adds a visit. -/
theorem visit (hg : g.Navigable root) (hc : c.Merged g root vs) {v : Visit}
    (hbefore : Visit.Opens vs v.before) (hname : '.' ∉ v.name.toList) {request : JoinRequest}
    (hpath : request.path = Path.ofSegments v.chain) (hselect : request.select = true) {bound : String}
    {t : JoinTree ι} (hreach : (JoinTree.reach g request).exec c.tree = (.ok bound, t)) :
    Merged g root { c with
      tree := t
      layout := c.layout.placeAt (holderAt v.before)
        ⟨v.name, Path.ofSegments v.chain, Path.ofSegments v.before, bound, v.wish.getD v.name, [], []⟩
        v.wish } (vs ++ [v]) := by
  have hnamed : (g.entity c.tree.root).relation? "" = none := hc.root ▸ hg.named
  have harrives := hc.tree.reach hnamed hreach
  have hsegments : Path.segments (Path.ofSegments v.chain) = v.chain := by
    refine Path.segments_ofSegments (by simp [Visit.chain]) fun s hs => ?_
    rcases List.mem_append.1 hs with hs | hs
    · rw [← hc.segments_of_opens hbefore (List.ne_nil_of_mem hs)] at hs
      exact Path.not_mem_of_mem_segments hs
    · exact List.mem_singleton.1 hs ▸ hname
  have hloaded : v.Loaded t := ⟨hsegments, hpath ▸ harrives.selected hselect⟩
  have hbound : bound = t.nameOf (Path.ofSegments v.chain) := by
    rw [JoinTree.nameOf, ← hpath, harrives.bound]
    rfl
  have hkept : ∀ u ∈ vs, c.tree.nameOf (Path.ofSegments u.chain) = t.nameOf (Path.ofSegments u.chain) := by
    intro u hu
    have hget := (hc.loaded u hu).get?_eq hc.tree.aligned
    rw [JoinTree.nameOf, JoinTree.nameOf, hget, harrives.grows.get? hget]
  constructor
  case tree => exact harrives.honest
  case root => exact harrives.grows.root.trans hc.root
  case layout => exact hc.layout.placeAt _ (Branch.distinct_of_leaf rfl rfl) _
  case columns => exact (Layout.rootColumns_placeAt _ _ _ _).trans hc.columns
  case closed => exact hc.closed.concat hbefore
  case loaded =>
    rw [List.forall_mem_append, List.forall_mem_singleton]
    exact ⟨fun u hu => (hc.loaded u hu).mono harrives.keeps, hloaded⟩
  case views =>
    intro segs
    rw [Layout.view_placeAt (hc.segments_of_opens hbefore) (hc.holds hbefore) rfl, hc.views, hc.views,
      Visit.view_congr hkept, Visit.view_congr hkept, Visit.view_concat t.nameOf hc.closed hbefore, hbound]
    split
    · next hthere => rw [hthere]
    · rfl

end Context.Merged

/-! ### Runs -/

namespace Inclusion

open Context (Merged)

variable {root : ι} {c : Context ι} {aliasName holder wish : Option String} {relation : String}

theorem exec_plan_of_reach {path bound : String} {children : List Inclusion} {t : JoinTree ι}
    (hreach : (JoinTree.reach g
      { path := Path.child path relation, start := aliasName, select := true,
        aliasName := wish }).exec c.tree = (.ok bound, t)) {layout : Layout}
    (hlayout : layout = c.layout.placeAt holder ⟨relation, Path.child path relation, path, bound,
      (nonEmpty? wish).getD relation, [], []⟩ (nonEmpty? wish)) :
    (plan g aliasName path holder (mk relation wish children)).exec c =
      (planAll g (some bound) (Path.child path relation) (layout.holder (Path.child path relation))
        children).exec { c with tree := t, layout } := by
  subst hlayout
  rw [plan, Step.exec_bind, Context.inTree, Step.exec_within, hreach]
  cases children with
  | nil => rfl
  | cons i rest => rfl

mutual

/-- A run of an inclusion adds its visits. -/
theorem plan_merged (hg : g.Navigable root) (i : Inclusion) {before : List String}
    {aliasName : Option String} {vs : List Visit} {c c' : Context ι} (hc : c.Merged g root vs)
    (hbefore : Visit.Opens vs before) (hi : ∀ v ∈ visits before i, '.' ∉ v.name.toList)
    (h : (plan g aliasName (Path.ofSegments before) (holderAt before) i).exec c = (.ok (), c')) :
    c'.Merged g root (vs ++ visits before i) := by
  cases i with
  | mk relation wish children =>
    rw [visits, List.forall_mem_cons] at hi
    obtain ⟨bound, t, hreach, c₁, rfl, hrest⟩ := plan_eq_ok h
    obtain ⟨e, he⟩ := hc.exists_entityAlong hbefore
    have hhere := hg.ofSegments_concat he relation
    have hvisit := hc.visit hg (v := ⟨before, relation, nonEmpty? wish⟩) hbefore hi.1 hhere.symm rfl
      hreach
    have hholder := hvisit.holder_eq hg (List.mem_append_right vs (List.mem_singleton_self _))
    have hchildren := (congrArg (fun holder => (planAll g (some bound)
      (Path.ofSegments (before ++ [relation])) holder children).exec _) hholder).symm.trans
        (hhere ▸ hrest)
    rw [visits, List.append_cons]
    exact planAll_merged hg children hvisit (Visit.opens_concat.2 (.inr rfl)) hi.2 hchildren

theorem planAll_merged (hg : g.Navigable root) (is : List Inclusion) {before : List String}
    {aliasName : Option String} {vs : List Visit} {c c' : Context ι} (hc : c.Merged g root vs)
    (hbefore : Visit.Opens vs before) (his : ∀ v ∈ visitsOfAll before is, '.' ∉ v.name.toList)
    (h : (planAll g aliasName (Path.ofSegments before) (holderAt before) is).exec c = (.ok (), c')) :
    c'.Merged g root (vs ++ visitsOfAll before is) := by
  cases is with
  | nil =>
    obtain ⟨-, rfl⟩ := Prod.mk.inj h
    rwa [visitsOfAll, List.append_nil]
  | cons i rest =>
    rw [visitsOfAll, List.forall_mem_append] at his
    obtain ⟨c₁, hfirst, hrest⟩ := planAll_cons_eq_ok.1 h
    have hc₁ := plan_merged hg i hc hbefore his.1 hfirst
    rw [visitsOfAll, ← List.append_assoc]
    exact planAll_merged hg rest hc₁ (hbefore.mono _) his.2 hrest

end

mutual

/-- An inclusion whose visits are loaded joins nothing. -/
theorem plan_again (i : Inclusion) {c : Context ι} (hc : c.tree.Honest g)
    (hnamed : (g.entity c.tree.root).relation? "" = none)
    {before : List String} (hbefore : ∀ path ∈ leads before, c.tree.Selected path)
    (hi : ∀ v ∈ visits before i, v.Loaded c.tree) (aliasName holder : Option String) :
    ∃ layout, (plan g aliasName (Path.ofSegments before) holder i).exec c =
      (.ok (), { c with layout }) := by
  cases i with
  | mk relation wish children =>
    rw [visits, List.forall_mem_cons] at hi
    obtain ⟨hloaded, hchildren⟩ := hi
    obtain ⟨e, he⟩ := hloaded.exists_entityAlong hc
    have hhead : before.head? ≠ some "" := by
      intro hhead
      refine EntityGraph.head?_ne_of_entityAlong hnamed he ?_
      rw [Visit.chain, List.head?_append, hhead]
      rfl
    have hhere := Path.ofSegments_concat_of_head hhead relation
    have hleads : ∀ path ∈ leads (before ++ [relation]), c.tree.Selected path := by
      rw [leads_concat, List.forall_mem_append, List.forall_mem_singleton]
      exact ⟨hbefore, hloaded.selected⟩
    have hreach : (JoinTree.reach g
        { path := Path.child (Path.ofSegments before) relation, start := aliasName, select := true,
          aliasName := wish }).exec c.tree =
        (.ok (c.tree.nameOf (Path.ofSegments (before ++ [relation]))), c.tree) := by
      rw [← hhere]
      refine hc.exec_reach_of_selected hnamed (hloaded.get?_eq hc.aligned) ?_
      exact hloaded.segments.symm ▸ hleads
    rw [exec_plan_of_reach hreach rfl, ← hhere]
    refine planAll_again children ?_ ?_ ?_ ?_ _ _
    exacts [hc, hnamed, hleads, hchildren]

theorem planAll_again (is : List Inclusion) {c : Context ι} (hc : c.tree.Honest g)
    (hnamed : (g.entity c.tree.root).relation? "" = none)
    {before : List String} (hbefore : ∀ path ∈ leads before, c.tree.Selected path)
    (his : ∀ v ∈ visitsOfAll before is, v.Loaded c.tree) (aliasName holder : Option String) :
    ∃ layout, (planAll g aliasName (Path.ofSegments before) holder is).exec c =
      (.ok (), { c with layout }) := by
  cases is with
  | nil => exact ⟨c.layout, rfl⟩
  | cons i rest =>
    rw [visitsOfAll, List.forall_mem_append] at his
    obtain ⟨layout, hfirst⟩ := plan_again i hc hnamed hbefore his.1 aliasName holder
    rw [planAll, Step.exec_bind, hfirst]
    exact planAll_again rest (c := { c with layout }) hc hnamed hbefore his.2 aliasName holder

end

theorem planAll_append (aliasName : Option String) (path : String) (holder : Option String)
    (is js : List Inclusion) : planAll g aliasName path holder (is ++ js) =
      planAll g aliasName path holder is >>= fun _ => planAll g aliasName path holder js := by
  induction is with
  | nil => rw [List.nil_append, planAll, pure_bind]
  | cons i rest ih => rw [List.cons_append, planAll, ih, planAll, bind_assoc]

/-- Inclusions of the root in several calls are planned as those of one call. -/
theorem forM_planRoot (g : EntityGraph ι) (calls : List (List Inclusion)) :
    forM calls (planRoot g) = planRoot g calls.flatten := by
  induction calls with
  | nil => rfl
  | cons is rest ih =>
    rw [List.forM_cons, List.flatten_cons, ih, planRoot, planRoot, planRoot, planAll_append]

/-- The names in trees of inclusions hold no dots. -/
def Undotted (is : List Inclusion) : Prop := ∀ v ∈ visitsOfAll [] is, '.' ∉ v.name.toList

instance (is : List Inclusion) : Decidable (Undotted is) :=
  inferInstanceAs (Decidable (∀ v ∈ visitsOfAll [] is, '.' ∉ v.name.toList))

theorem Over.visits_undotted {e : ι} (hg : g.Undotted) {i : Inclusion} (h : i.Over g e)
    (before : List String) : ∀ v ∈ visits before i, '.' ∉ v.name.toList := by
  induction h generalizing before with
  | mk hrelation _ ih =>
    rw [visits, List.forall_mem_cons, visitsOfAll_eq]
    refine ⟨hg.not_mem_of_relation? hrelation, fun v hv => ?_⟩
    obtain ⟨i, hi, hv⟩ := List.mem_flatMap.1 hv
    exact ih i hi _ v hv

/-- What is read as inclusions on an entity has undotted names, as the graph has. -/
theorem undotted_of_read {e : ι} (hg : g.Undotted) {data : Value} {is : List Inclusion}
    (h : g.readInclusion e data = .ok is) : Undotted is := by
  intro v hv
  rw [visitsOfAll_eq] at hv
  obtain ⟨i, hi, hv⟩ := List.mem_flatMap.1 hv
  exact (over_of_readInclusion h i hi).visits_undotted hg [] v hv

theorem undotted_of_readInclusion {root e : ι} (hg : g.Navigable root) {data : Value}
    {is : List Inclusion} (h : g.readInclusion e data = .ok is) : Undotted is :=
  undotted_of_read hg.undotted h

theorem planRoot_again (hg : g.Navigable root) {is : List Inclusion}
    (his : Undotted is) (hc : c.Merged g root (visitsOfAll [] is)) :
    (planRoot g is).exec c = (.ok (), c) := by
  have hnamed : (g.entity c.tree.root).relation? "" = none := hc.root ▸ hg.named
  obtain ⟨layout, hrun⟩ := planAll_again is hc.tree hnamed (by simp [leads]) hc.loaded none none
  have hagain : Merged g root { c with layout } _ := planAll_merged hg is hc (.inl rfl) his hrun
  have hsame : c.layout = layout := by
    refine hc.layout.ext hagain.layout (hc.columns.trans hagain.columns.symm) fun segs => ?_
    rw [hc.views, hagain.views, Visit.view_append_self]
  rw [hsame.symm] at hrun
  exact hrun

end Inclusion

/-! ### What the layout shows -/

/-- A branch that is what visits of its path come to. -/
structure Branch.Records (b : Branch) (t : JoinTree ι) (vs : List Visit) (path : String) : Prop where
  path_eq : b.path = path
  parentPath_eq : b.parentPath = Path.parent path
  name_eq : b.name = Path.last path
  outputKey_eq : b.outputKey = (Visit.lastWish vs (Path.segments path)).getD b.name
  children_eq : b.children.map (·.name) = Visit.namesBelow vs (Path.segments path)
  columns_eq : b.columns = []
  registered : t.aliases.get? path = some b.aliasName
  loaded : ∃ j ∈ t.joins, j.path = path ∧ j.aliasName = b.aliasName ∧ j.selected = true

/-- A layout that has the branches of visits and no others. -/
structure Layout.Records (l : Layout) (t : JoinTree ι) (vs : List Visit) : Prop where
  columns : l.rootColumns = []
  root : l.branches.map (·.name) = Visit.namesBelow vs []
  isSome_branch?_iff : ∀ path, (l.branch? path).isSome = true ↔ ∃ v ∈ vs, v.chain = Path.segments path
  branches : ∀ path b, l.branch? path = some b → b.Records t vs path

namespace Context.Merged

variable {root : ι} {c : Context ι} {vs : List Visit} {segs : List String} {bs : List Branch}

/-- The names below a chain are those of the visits behind it. -/
theorem map_name_of_childrenAt (hc : c.Merged g root vs)
    (h : Branch.childrenAt c.layout.branches segs = some bs) :
    bs.map (·.name) = Visit.namesBelow vs segs := by
  have hview : c.layout.view segs = some (bs.map Branch.leaf) := by
    rw [Layout.view, Branch.view, h]
    rfl
  rw [hc.views, Visit.view] at hview
  split at hview
  · rw [← Visit.map_name_level c.tree.nameOf, Option.some.inj hview, List.map_map]
    rfl
  · cases hview

theorem branch?_records (hc : c.Merged g root vs) {path : String} {b : Branch}
    (h : c.layout.branch? path = some b) : b.Records c.tree vs path := by
  obtain ⟨before, name, hpath⟩ := Path.exists_segments_eq_concat path
  have hleaf := hc.map_leaf_branch? hpath
  rw [h, Option.map_some] at hleaf
  split at hleaf
  case isFalse => cases hleaf
  case isTrue hvisited =>
    obtain ⟨v, hv, hchain⟩ := hvisited
    have hb : b.leaf = Visit.branch c.tree.nameOf vs before name := Option.some.inj hleaf
    have hsame : Path.ofSegments (before ++ [name]) = path := by rw [← hpath, Path.ofSegments_segments]
    have hloaded := hc.loaded v hv
    have hget := hloaded.get?_eq hc.tree.aligned
    rw [hchain, hsame] at hget
    have halias : b.aliasName = c.tree.nameOf path :=
      (congrArg (·.aliasName) hb).trans (congrArg c.tree.nameOf hsame)
    have hname : b.name = name := congrArg (·.name) hb
    constructor
    case path_eq => exact (congrArg (·.path) hb).trans hsame
    case parentPath_eq =>
      rw [Path.parent, hpath, List.dropLast_concat]
      exact congrArg (·.parentPath) hb
    case name_eq => rw [Path.last, hpath, List.getLastD_concat, hname]
    case outputKey_eq =>
      rw [hpath, hname]
      exact congrArg (·.outputKey) hb
    case children_eq => exact hc.map_name_of_childrenAt (Branch.childrenAt_of_at? h)
    case columns_eq => exact congrArg (·.columns) hb
    case registered => rw [hget, halias]
    case loaded =>
      obtain ⟨j, hj, hjpath, hselected⟩ := hloaded.selected
      rw [hchain, hsame] at hjpath
      have hjoined := hc.tree.aligned.get?_of_mem hj
      rw [hjpath, hget] at hjoined
      exact ⟨j, hj, hjpath, (Option.some.inj hjoined).symm.trans halias.symm, hselected⟩

theorem records (hc : c.Merged g root vs) : c.layout.Records c.tree vs where
  columns := hc.columns
  root := hc.map_name_of_childrenAt rfl
  isSome_branch?_iff path := by
    obtain ⟨before, name, hpath⟩ := Path.exists_segments_eq_concat path
    rw [← Option.isSome_map (f := Branch.leaf), hc.map_leaf_branch? hpath, hpath]
    split <;> simp [*]
  branches _ _ := hc.branch?_records

end Context.Merged

namespace Inclusion

/-- Inclusions at the root of an empty layout, over joins that any requests have made. -/
theorem planRoot_merged {root : ι} (hg : g.Navigable root) {is : List Inclusion} (his : Undotted is)
    (rootAlias : String) (requests : List JoinRequest) {parameters : Parameters} {counter : Nat}
    {c : Context ι} (h : (planRoot g is).exec ⟨(JoinTree.answers g requests (.start root rootAlias)).2,
      .empty, parameters, counter⟩ = (.ok (), c)) : c.Merged g root (visitsOfAll [] is) := by
  have hhonest := (JoinTree.honest_start g root rootAlias).answers hg.named requests
  have hroot := (JoinTree.answers_root g root rootAlias requests).1
  have hstart := Context.Merged.start hhonest parameters counter
  rw [hroot] at hstart
  exact planAll_merged hg is hstart (.inl rfl) his h

/-- Inclusions planned twice come to what they come to when they are planned once, also where they fail. -/
theorem exec_planRoot_append_self {root : ι} (hg : g.Navigable root) {is : List Inclusion}
    (his : Undotted is) (rootAlias : String) :
    (planRoot g (is ++ is)).exec (.start root rootAlias) =
      (planRoot g is).exec (.start root rootAlias) := by
  rw [planRoot, planAll_append, Step.exec_bind, ← planRoot]
  rcases hrun : (planRoot g is).exec (.start root rootAlias) with ⟨_ | _, c⟩
  · rfl
  · exact planRoot_again hg his (planRoot_merged hg his rootAlias [] hrun)

end Inclusion

theorem Query.planParts_of_inclusions (table : OperatorTable) (quote : String → String) {q : Query}
    {inclusions : List Inclusion} {c : Context ι}
    (h : (Inclusion.planRoot g inclusions).exec c = (Inclusion.planRoot g q.inclusions).exec c) :
    (planParts g table quote { q with inclusions }).exec c = (planParts g table quote q).exec c := by
  rw [planParts, Step.exec_bind, h, planParts, Step.exec_bind]

/-- Inclusions merge. On an entity whose relations all have names, any calls that succeed on an empty
layout, with trees of undotted names, leave one branch for each path of the trees; the same calls again
change nothing, and a query that holds its inclusions twice has the plan that it has without. -/
theorem Inclusion.merge_into_one_layout {root : ι} (hg : g.Navigable root) :
    (∀ (rootAlias : String) (requests : List JoinRequest) (parameters : Parameters) (counter : Nat)
      (calls : List (List Inclusion)) (c : Context ι), Undotted calls.flatten →
      (forM calls (planRoot g)).exec ⟨(JoinTree.answers g requests (.start root rootAlias)).2, .empty,
        parameters, counter⟩ = (.ok (), c) →
      c.layout.Records c.tree (visitsOfAll [] calls.flatten) ∧
        (forM calls (planRoot g)).exec c = (.ok (), c)) ∧
    ∀ (q : Query) (aliasName : Option String) (table : OperatorTable) (quote : String → String)
      (stable : Bool), Undotted q.inclusions →
      (q.addInclusions q.inclusions).plan g root aliasName table quote stable =
        q.plan g root aliasName table quote stable := by
  constructor
  · intro rootAlias requests parameters counter calls c hcalls hrun
    rw [forM_planRoot] at hrun ⊢
    have hmerged := planRoot_merged hg hcalls rootAlias requests hrun
    exact ⟨hmerged.records, planRoot_again hg hcalls hmerged⟩
  · intro q aliasName table quote stable hq
    have hparts := Query.planParts_of_inclusions table quote
      (exec_planRoot_append_self hg hq (rootAlias aliasName (g.entity root)))
    rw [Query.plan, Query.addInclusions, hparts, Query.plan]

namespace Sample

/-- Posts of users in three calls, under two names and with different relations below. -/
def overlapping : List (List Inclusion) :=
  [[.mk "posts" (some "articles") [.mk "comments" none []]],
    [.mk "profile" none [], .mk "posts" none [.mk "author" none [], .mk "comments" none []]],
    [.mk "posts" (some "stories") []]]

theorem merge_into_one_layout_overlapping : (mapping.graph fun _ => true).Navigable "User" ∧
    Inclusion.Undotted overlapping.flatten ∧
    (∃ c, (forM overlapping (Inclusion.planRoot (mapping.graph fun _ => true))).exec
        ⟨(JoinTree.answers (mapping.graph fun _ => true) [{ path := "profile" }]
          (.start "User" "user")).2, .empty, .empty, 0⟩ = (.ok (), c) ∧
      c.layout.Records c.tree (Inclusion.visitsOfAll [] overlapping.flatten) ∧
      (forM overlapping (Inclusion.planRoot (mapping.graph fun _ => true))).exec c = (.ok (), c)) ∧
    ∃ is, (mapping.graph fun _ => true).readInclusion "User" articlesWithComments = .ok is ∧
      Inclusion.Undotted is ∧
      ((Query.empty.addInclusions is).addInclusions is).plan (mapping.graph fun _ => true) "User" none
          (.ofDialect none) id true =
        (Query.empty.addInclusions is).plan (mapping.graph fun _ => true) "User" none
          (.ofDialect none) id true := by
  have hnavigable := (dotFree fun _ => true).navigable "User"
  obtain ⟨hcalls, hqueries⟩ := Inclusion.merge_into_one_layout hnavigable
  refine ⟨hnavigable, ?_⟩
  have hundotted : Inclusion.Undotted overlapping.flatten := by decide
  obtain ⟨c, hc⟩ : ∃ c, (forM overlapping (Inclusion.planRoot (mapping.graph fun _ => true))).exec
      ⟨(JoinTree.answers (mapping.graph fun _ => true) [{ path := "profile" }]
        (.start "User" "user")).2, .empty, .empty, 0⟩ = (.ok (), c) :=
    Step.exists_of_toOption (by decide +kernel)
  obtain ⟨is, his⟩ := Except.exists_of_isOk
    (show ((mapping.graph fun _ => true).readInclusion "User" articlesWithComments).isOk = true by
      decide +kernel)
  have hread := Inclusion.undotted_of_readInclusion hnavigable his
  exact ⟨hundotted, ⟨c, hc, hcalls _ _ _ _ overlapping c hundotted hc⟩, is, his, hread,
    hqueries (Query.empty.addInclusions is) none (.ofDialect none) id true hread⟩

/-- The nameless relation of the root, with a relation of its target below. -/
def behindNameless : List Inclusion := [.mk "" none [.mk "next" none []]]

/-- A path of two relations, given as one name. -/
def pathAsName : List Inclusion := [.mk "posts.comments" none []]

/-- Two inclusions succeed without a branch at their path. What is included below a nameless relation of
the root is shown at the root, and a path given as one name is no way to its own branch. -/
theorem inclusions_misplaced :
    ((∀ e, ∀ r ∈ (namelessGraph.entity e).relations, '.' ∉ r.name.toList) ∧
      Inclusion.Undotted behindNameless ∧
      (∃ v ∈ Inclusion.visitsOfAll [] behindNameless, Path.ofSegments v.chain = ".next") ∧
      ∃ c, (forM [behindNameless] (Inclusion.planRoot namelessGraph)).exec (.start false "root") =
          (.ok (), c) ∧
        c.layout.branch? ".next" = none ∧
        c.layout.branches.map (fun b => (b.name, b.children.map (·.name))) =
          [("", []), ("next", [])]) ∧
    (mapping.graph fun _ => true).Navigable "User" ∧
    (∃ v ∈ Inclusion.visitsOfAll [] pathAsName, Path.ofSegments v.chain = "posts.comments") ∧
    ∃ c, (forM [pathAsName] (Inclusion.planRoot (mapping.graph fun _ => true))).exec
        (.start "User" "user") = (.ok (), c) ∧
      c.layout.branch? "posts.comments" = none := by
  constructor
  · obtain ⟨c, hc⟩ : ∃ c, (forM [behindNameless] (Inclusion.planRoot namelessGraph)).exec
        (.start false "root") = (.ok (), c) :=
      Step.exists_of_toOption (by decide +kernel)
    have hlost : (((forM [behindNameless] (Inclusion.planRoot namelessGraph)).exec
        (.start false "root")).2.layout.branch? ".next").isNone = true := by
      decide +kernel
    have hshown : ((forM [behindNameless] (Inclusion.planRoot namelessGraph)).exec
        (.start false "root")).2.layout.branches.map (fun b => (b.name, b.children.map (·.name))) =
          [("", []), ("next", [])] := by
      decide +kernel
    rw [hc] at hlost hshown
    refine ⟨by decide, by decide, by decide +kernel, c, hc, ?_, hshown⟩
    exact Option.isNone_iff_eq_none.1 hlost
  · obtain ⟨c, hc⟩ : ∃ c, (forM [pathAsName] (Inclusion.planRoot (mapping.graph fun _ => true))).exec
        (.start "User" "user") = (.ok (), c) :=
      Step.exists_of_toOption (by decide +kernel)
    have hlost : (((forM [pathAsName] (Inclusion.planRoot (mapping.graph fun _ => true))).exec
        (.start "User" "user")).2.layout.branch? "posts.comments").isNone = true := by
      decide +kernel
    rw [hc] at hlost
    exact ⟨(dotFree fun _ => true).navigable "User", by decide +kernel, c, hc,
      Option.isNone_iff_eq_none.1 hlost⟩

end Sample

end EntityQuery

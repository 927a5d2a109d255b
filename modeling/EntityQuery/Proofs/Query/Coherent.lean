import EntityQuery.Proofs.Inclusion
import EntityQuery.Proofs.Join.Rooted
import EntityQuery.Proofs.Layout.Placement
import EntityQuery.Proofs.Query.Stages

/-! Coherence of the context in which a query is planned: the joins, their aliases and the layout of
the result tell of the same paths. Each stage of a plan keeps it. -/

namespace EntityQuery

variable {ι : Type} {g : EntityGraph ι}

/-- The tree of joins is rooted and the layout is placed; each branch has the alias of its path, and
the selected paths are those of the branches. -/
structure Context.Coherent (g : EntityGraph ι) (c : Context ι) : Prop where
  sound : c.Sound
  tree : c.tree.Rooted g
  layout : c.layout.Placed
  aliases : ∀ path aliasName, (path, aliasName) ∈ c.layout.nodes →
    c.tree.aliases.get? path = some aliasName
  selected : ∀ path, c.tree.Selected path ↔ ∃ aliasName, (path, aliasName) ∈ c.layout.nodes

namespace Context

theorem coherent_start {root : ι} (hroot : (g.entity root).relation? "" = none) (aliasName : String) :
    (start root aliasName).Coherent g := by
  have hnodes : (start root aliasName).layout.nodes = [] := rfl
  have hjoins : (start root aliasName).tree.joins = [] := rfl
  refine ⟨sound_start root aliasName, JoinTree.rooted_start hroot aliasName, Layout.placed_empty,
    ?_, fun path => ?_⟩
  · simp [hnodes]
  · simp [hnodes, JoinTree.Selected, hjoins]

variable {c c' : Context ι}

/-- Joining a path that is not loaded keeps a context coherent. -/
theorem Coherent.reach {request : JoinRequest} {t : JoinTree ι} {bound : String}
    (hc : c.Coherent g) (hselect : request.select = false)
    (h : JoinTree.Reached g request c.tree t bound) : Coherent g { c with tree := t } where
  sound := ⟨h.rooted.aligned, hc.sound.parameters⟩
  tree := h.rooted
  layout := hc.layout
  aliases path aliasName hnode := h.grows.get? (hc.aliases path aliasName hnode)
  selected path := by
    rw [h.selected path, hc.selected path]
    simp [hselect]

/-- Layouts with the same nodes serve alike. -/
theorem Coherent.of_nodes {layout : Layout} (hc : c.Coherent g) (hlayout : layout.Placed)
    (hnodes : ∀ x, x ∈ layout.nodes ↔ x ∈ c.layout.nodes) :
    Coherent g { c with layout := layout } where
  sound := ⟨hc.sound.tree, hc.sound.parameters⟩
  tree := hc.tree
  layout := hlayout
  aliases path aliasName hnode := hc.aliases path aliasName ((hnodes _).1 hnode)
  selected path := by
    rw [hc.selected path]
    simp only [hnodes]

end Context

/-- A request for one segment more than a chain that is the root or joined. -/
theorem JoinTree.anchors_child {t : JoinTree ι} {segs : List String}
    (hsegs : ∀ s ∈ segs, Path.IsSegment s) {name : String} (hname : Path.IsSegment name)
    {request : JoinRequest} (hpath : request.path = Path.child (Path.ofSegments segs) name)
    (hroot : segs = [] → nonEmpty? request.start = none)
    (hjoined : segs ≠ [] → ∃ a, t.aliases.get? (Path.ofSegments segs) = some a) :
    t.Anchors request := by
  by_cases hne : segs = []
  · left
    rw [hroot hne, Option.getD_none]
  · right
    obtain ⟨a, ha⟩ := hjoined hne
    have hall : ∀ s ∈ segs ++ [name], Path.IsSegment s := by
      simpa [or_imp, forall_and] using ⟨hsegs, hname⟩
    have hsegments : Path.segments request.path = segs ++ [name] := by
      rw [hpath, ← Path.ofSegments_concat hsegs,
        Path.segments_ofSegments (by simp) fun s hs => (hall s hs).2]
    have hcontains :
        t.aliases.contains (Path.ofSegments ((segs ++ [name]).take segs.length)) = true := by
      rw [List.take_left, Aliases.contains, Assoc.contains_eq_isSome]
      exact Option.isSome_iff_exists.2 ⟨a, ha⟩
    have hpos := List.length_pos_iff.2 hne
    have hlength : segs.length ≤ (segs ++ [name]).length := by
      rw [List.length_append]
      exact Nat.le_add_right _ _
    have hle := le_joinedLength hpos hlength hcontains
    rw [lead, hsegments, Ne, Path.ofSegments_eq_empty_iff fun s hs => hall s (List.mem_of_mem_take hs),
      List.take_eq_nil_iff, not_or]
    exact ⟨by omega, by simp⟩

/-! ### Inclusions -/

namespace Inclusion

/-- Where inclusions are planned: at the root, or below a branch that is there. -/
structure Below (c : Context ι) (segs : List String) (aliasName holder : Option String) : Prop where
  segments : ∀ s ∈ segs, Path.IsSegment s
  root : segs = [] → aliasName = none
  node : segs ≠ [] → ∃ a, (Path.ofSegments segs, a) ∈ c.layout.nodes
  holder : c.layout.Holds segs holder

theorem Below.mono {c c' : Context ι} (hc : c.Coherent g) (hc' : c'.Coherent g)
    (hnodes : c.layout.nodes ⊆ c'.layout.nodes) {segs : List String}
    {aliasName holder : Option String} (h : Below c segs aliasName holder) :
    Below c' segs aliasName holder where
  segments := h.segments
  root := h.root
  node hne := (h.node hne).imp fun _ ha => hnodes ha
  holder := by
    refine h.holder.imp_right fun ⟨hne, hsome, hbranch⟩ => ⟨hne, hsome, ?_⟩
    rw [hc'.layout.isSome_branch?_iff]
    exact ((hc.layout.isSome_branch?_iff _).1 hbranch).imp fun _ ha => hnodes ha

/-- A proper part of a path below a node is a part of the path of the node, which is a node too. -/
theorem Below.of_mem_leads {c : Context ι} (hc : c.Coherent g) {segs : List String}
    {aliasName holder : Option String} (h : Below c segs aliasName holder) {relation path : String}
    (hlead : path ∈ JoinTree.leads (segs ++ [relation])) :
    path = Path.ofSegments (segs ++ [relation]) ∨ ∃ a, (path, a) ∈ c.layout.nodes := by
  obtain ⟨n, hpos, hn, rfl⟩ := JoinTree.mem_leads.1 hlead
  by_cases hlast : n = (segs ++ [relation]).length
  · left
    rw [hlast, List.take_length]
  · right
    have hle : n ≤ segs.length := by
      rw [List.length_append, List.length_singleton] at hn hlast
      omega
    have hne : segs ≠ [] := by
      rintro rfl
      rw [List.length_nil] at hle
      omega
    obtain ⟨a, ha⟩ := h.node hne
    rw [List.take_append_of_le_length hle]
    exact hc.layout.exists_of_prefix h.segments ha hpos hle

/-- Joining one inclusion and placing its branch keeps a context coherent. -/
theorem step_coherent {c : Context ι} (hc : c.Coherent g) {segs : List String}
    {aliasName holder wish : Option String} {relation bound : String} {t : JoinTree ι}
    (hbelow : Below c segs aliasName holder) (hrelation : Path.IsSegment relation)
    (hreach : (JoinTree.reach g
      { path := Path.child (Path.ofSegments segs) relation, start := aliasName, select := true,
        aliasName := wish }).exec c.tree = (.ok bound, t)) {c₁ : Context ι}
    (hc₁ : c₁ = { c with
      tree := t
      layout := c.layout.placeAt holder ⟨relation, Path.child (Path.ofSegments segs) relation,
        Path.ofSegments segs, bound, (nonEmpty? wish).getD relation, [], []⟩ (nonEmpty? wish) }) :
    c₁.Coherent g ∧ c.layout.nodes ⊆ c₁.layout.nodes ∧
      Below c₁ (segs ++ [relation]) (some bound)
        (c₁.layout.holder (Path.child (Path.ofSegments segs) relation)) := by
  have hjoined : segs ≠ [] → ∃ a, c.tree.aliases.get? (Path.ofSegments segs) = some a :=
    fun hne => (hbelow.node hne).imp fun a ha => hc.aliases _ a ha
  have hanchors : c.tree.Anchors
      { path := Path.child (Path.ofSegments segs) relation, start := aliasName, select := true,
        aliasName := wish } :=
    JoinTree.anchors_child hbelow.segments hrelation rfl (fun h => by rw [hbelow.root h]; rfl) hjoined
  have hreached := hc.tree.reach hanchors hreach
  have hhere := Path.ofSegments_concat hbelow.segments relation
  have hall : ∀ s ∈ segs ++ [relation], Path.IsSegment s := by
    simpa [or_imp, forall_and] using ⟨hbelow.segments, hrelation⟩
  have hsegments : Path.segments (Path.child (Path.ofSegments segs) relation) = segs ++ [relation] := by
    rw [← hhere, Path.segments_ofSegments (by simp) fun s hs => (hall s hs).2]
  have hplaced : Branch.Placed segs ⟨relation, Path.child (Path.ofSegments segs) relation,
      Path.ofSegments segs, bound, (nonEmpty? wish).getD relation, [], []⟩ :=
    .mk hrelation hhere.symm rfl .nil (by simp)
  obtain ⟨hlayout, hnodes⟩ := hc.layout.placeAt hbelow.segments hbelow.holder hplaced rfl
    (fun a ha => by
      have := (hreached.grows.get? (hc.aliases _ a ha)).symm.trans hreached.bound
      exact Option.some.inj this) (nonEmpty? wish)
  subst hc₁
  have hcoherent : Context.Coherent g { c with
      tree := t
      layout := c.layout.placeAt holder ⟨relation, Path.child (Path.ofSegments segs) relation,
        Path.ofSegments segs, bound, (nonEmpty? wish).getD relation, [], []⟩ (nonEmpty? wish) } := by
    refine ⟨⟨hreached.rooted.aligned, hc.sound.parameters⟩, hreached.rooted, hlayout, ?_, ?_⟩
    · intro path a hnode
      rcases (hnodes _).1 hnode with hold | hnew
      · exact hreached.grows.get? (hc.aliases path a hold)
      · obtain ⟨rfl, rfl⟩ := Prod.mk.inj hnew
        exact hreached.bound
    · intro path
      rw [hreached.selected path, hc.selected path]
      simp only [hnodes, JoinRequest.Passes, hsegments, true_and]
      constructor
      · rintro (⟨a, ha⟩ | hlead)
        · exact ⟨a, .inl ha⟩
        · rcases hbelow.of_mem_leads hc hlead with rfl | ⟨a, ha⟩
          · exact ⟨bound, .inr (by rw [hhere])⟩
          · exact ⟨a, .inl ha⟩
      · rintro ⟨a, ha | ha⟩
        · exact .inl ⟨a, ha⟩
        · right
          rw [(Prod.mk.inj ha).1, ← hhere]
          exact JoinTree.mem_leads_self (by simp)
  refine ⟨hcoherent, fun x hx => (hnodes x).2 (.inl hx), hall, by simp, fun _ => ⟨bound, ?_⟩, ?_⟩
  · rw [hhere]
    exact (hnodes _).2 (.inr rfl)
  · have hbranch := (hlayout.isSome_branch?_iff _).2 ⟨bound, (hnodes _).2 (.inr rfl)⟩
    rw [← hhere] at hbranch ⊢
    exact Layout.holds_holder hall (by simp) hbranch

mutual

theorem plan_coherent (hg : g.DotFree) {e : ι} (i : Inclusion) (hi : i.Over g e) {c c' : Context ι}
    (hc : c.Coherent g) {segs : List String} {aliasName holder : Option String}
    (hbelow : Below c segs aliasName holder)
    (h : (plan g aliasName (Path.ofSegments segs) holder i).exec c = (.ok (), c')) :
    c'.Coherent g ∧ c.layout.nodes ⊆ c'.layout.nodes := by
  cases hi with
  | @mk _ relation wish children r hrelation hchildren =>
    obtain ⟨bound, t, hreach, c₁, hc₁, hrest⟩ := plan_eq_ok h
    obtain ⟨hcoherent, hnodes, hbelow₁⟩ :=
      step_coherent hc hbelow (hg.isSegment hrelation) hreach hc₁
    rw [← Path.ofSegments_concat hbelow.segments] at hrest hbelow₁
    obtain ⟨hc', hnodes'⟩ := planAll_coherent hg children hchildren hcoherent hbelow₁ hrest
    exact ⟨hc', fun x hx => hnodes' (hnodes hx)⟩

theorem planAll_coherent (hg : g.DotFree) {e : ι} (is : List Inclusion) (hi : ∀ i ∈ is, i.Over g e)
    {c c' : Context ι} (hc : c.Coherent g) {segs : List String} {aliasName holder : Option String}
    (hbelow : Below c segs aliasName holder)
    (h : (planAll g aliasName (Path.ofSegments segs) holder is).exec c = (.ok (), c')) :
    c'.Coherent g ∧ c.layout.nodes ⊆ c'.layout.nodes := by
  cases is with
  | nil =>
    obtain ⟨-, rfl⟩ := Prod.mk.inj h
    exact ⟨hc, fun _ hx => hx⟩
  | cons i rest =>
    obtain ⟨c₁, hfirst, hrest⟩ := planAll_cons_eq_ok.1 h
    obtain ⟨hc₁, hnodes⟩ := plan_coherent hg i (hi i (by simp)) hc hbelow hfirst
    obtain ⟨hc', hnodes'⟩ :=
      planAll_coherent hg rest (fun i h => hi i (List.mem_cons_of_mem _ h)) hc₁
      (hbelow.mono hc hc₁ hnodes) hrest
    exact ⟨hc', fun x hx => hnodes' (hnodes hx)⟩

end

end Inclusion

/-! ### Selections -/

theorem Selection.setColumn_coherent {c c' : Context ι} {path field key : String}
    (hc : c.Coherent g) (h : (setColumn path field key).exec c = (.ok (), c')) : c'.Coherent g := by
  rcases setColumn_eq_ok h with ⟨-, rfl⟩ | ⟨-, -, rfl⟩
  · exact hc.of_nodes hc.layout fun x => Iff.rfl
  · obtain ⟨hlayout, hnodes⟩ := hc.layout.modifyColumns path fun columns => Assoc.set columns field key
    exact hc.of_nodes hlayout hnodes

theorem Selection.planAll_coherent {c c' : Context ι} {path : String} (ss : List Selection)
    (hc : c.Coherent g) (h : (planAll path ss).exec c = (.ok (), c')) : c'.Coherent g :=
  planAll_keeps (fun _ _ _ _ _ => setColumn_coherent) ss hc h

/-! ### Predicates -/

namespace Predicate

variable {table : OperatorTable}

/-- Compiling a predicate on the entity at the end of a joined chain keeps a context coherent. -/
def KeepsCoherent (g : EntityGraph ι) (table : OperatorTable) (p : Predicate) : Prop :=
  ∀ {c c' : Context ι} {segs : List String} {aliasName : String} {f : Option Filter},
    c.Coherent g → (∀ s ∈ segs, Path.IsSegment s) → (segs = [] → aliasName = "") →
    (segs ≠ [] → c.tree.aliases.get? (Path.ofSegments segs) = some aliasName) →
    (toFilter g table aliasName (Path.ofSegments segs) p).exec c = (.ok f, c') → c'.Coherent g

theorem toFilters_coherent {ps : List Predicate} (hps : ∀ p ∈ ps, p.KeepsCoherent g table)
    (hcompiles : ∀ p ∈ ps, p.Compiles g table) {c c' : Context ι} {segs : List String}
    {aliasName : String} {fs : List Filter} (hc : c.Coherent g)
    (hsegs : ∀ s ∈ segs, Path.IsSegment s) (hroot : segs = [] → aliasName = "")
    (hjoined : segs ≠ [] → c.tree.aliases.get? (Path.ofSegments segs) = some aliasName)
    (h : (toFilters g table aliasName (Path.ofSegments segs) ps).exec c = (.ok fs, c')) :
    c'.Coherent g := by
  induction ps generalizing c fs with
  | nil =>
    obtain ⟨-, rfl⟩ := toFilters_nil_eq_ok.1 h
    exact hc
  | cons p ps ih =>
    obtain ⟨f, c₁, fs, hf, hfs, rfl⟩ := toFilters_cons_eq_ok.1 h
    have hc₁ := hps p (by simp) hc hsegs hroot hjoined hf
    have hgrows := (hcompiles p (by simp) hc.sound hf).grows
    exact ih (fun p hp => hps p (List.mem_cons_of_mem _ hp))
      (fun p hp => hcompiles p (List.mem_cons_of_mem _ hp)) hc₁
      (fun hne => hgrows.tree.get? (hjoined hne)) hfs

theorem Over.keepsCoherent (hg : g.DotFree) (table : OperatorTable) {e : ι} {p : Predicate}
    (h : p.Over g e) : p.KeepsCoherent g table := by
  induction h with
  | @field e name comparisons _ _ hproper =>
    intro c c' segs aliasName f hc hsegs hroot hjoined hrun
    obtain ⟨fs, hfs, rfl⟩ := toFilter_field_eq_ok.1 hrun
    have hbuilds := Comparison.toFilters_builds
      (fun comparison hmem => (hproper comparison hmem).compiles table) hc.sound hfs
    constructor
    · exact hbuilds.sound
    · rw [hbuilds.tree]; exact hc.tree
    · rw [hbuilds.layout]; exact hc.layout
    · rw [hbuilds.tree, hbuilds.layout]; exact hc.aliases
    · rw [hbuilds.tree, hbuilds.layout]; exact hc.selected
  | @relation e name r condition hrelation _ ih =>
    intro c c' segs aliasName f hc hsegs hroot hjoined hrun
    obtain ⟨bound, t, hreach, hrun⟩ := toFilter_relation_eq_ok.1 hrun
    have hname := hg.isSegment hrelation
    have hanchors : c.tree.Anchors
        { path := Path.child (Path.ofSegments segs) name, start := some aliasName } :=
      JoinTree.anchors_child hsegs hname rfl (fun h => by rw [hroot h]; rfl)
        fun hne => ⟨aliasName, hjoined hne⟩
    have hreached := hc.tree.reach hanchors hreach
    have hhere := Path.ofSegments_concat hsegs name
    rw [← hhere] at hrun
    refine ih (hc.reach rfl hreached) ?_ (by simp) (fun _ => ?_) hrun
    · simpa [or_imp, forall_and] using ⟨hsegs, hname⟩
    · rw [hhere]
      exact hreached.bound
  | all _ hps ih =>
    intro c c' segs aliasName f hc hsegs hroot hjoined hrun
    obtain ⟨fs, hfs, -⟩ := toFilter_all_eq_ok.1 hrun
    exact toFilters_coherent ih (fun p hp => (hps p hp).compiles table) hc hsegs hroot hjoined hfs
  | any _ hps ih =>
    intro c c' segs aliasName f hc hsegs hroot hjoined hrun
    obtain ⟨fs, hfs, -⟩ := toFilter_any_eq_ok.1 hrun
    exact toFilters_coherent ih (fun p hp => (hps p hp).compiles table) hc hsegs hroot hjoined hfs
  | fields hps ih =>
    intro c c' segs aliasName f hc hsegs hroot hjoined hrun
    obtain ⟨fs, hfs, -⟩ := toFilter_fields_eq_ok.1 hrun
    exact toFilters_coherent ih (fun p hp => (hps p hp).compiles table) hc hsegs hroot hjoined hfs
  | not _ ih =>
    intro c c' segs aliasName f hc hsegs hroot hjoined hrun
    obtain ⟨f, hf, -⟩ := toFilter_not_eq_ok.1 hrun
    exact ih hc hsegs hroot hjoined hf

end Predicate

/-! ### Ordering -/

namespace Query

/-- What ordering does to a coherent context: it adds joins at the end. -/
structure Orders (g : EntityGraph ι) (c : Context ι) (terms : List OrderTerm) (c' : Context ι) :
    Prop where
  coherent : c'.Coherent g
  grows : c.tree.Extends c'.tree
  joins : c.tree.joins <+: c'.tree.joins
  layout : c'.layout = c.layout
  located : ∀ term ∈ terms, c'.tree.aliases.aliasFor term.path = .ok term.aliasName

theorem orderTerm_orders {c c' : Context ι} (hc : c.Coherent g)
    {key : String × Direction} {term : OrderTerm} (h : (orderTerm g key).exec c = (.ok term, c')) :
    Orders g c [term] c' := by
  rcases orderTerm_eq_ok.1 h with ⟨-, rfl, -, rfl⟩ | ⟨hpath, e, bound, t, -, -, hreach, rfl, rfl⟩
  · refine ⟨hc, .refl _, List.prefix_refl _, rfl, fun term hterm => ?_⟩
    obtain rfl := List.mem_singleton.1 hterm
    rfl
  · have hreached := hc.tree.reach (.inl rfl) hreach
    refine ⟨hc.reach rfl hreached, hreached.grows, hreached.unselected rfl, rfl, fun term hterm => ?_⟩
    obtain rfl := List.mem_singleton.1 hterm
    exact Aliases.aliasFor_of_get? hpath hreached.bound

theorem orderTerms_orders {keys : List (String × Direction)} {c c' : Context ι}
    (hc : c.Coherent g) {terms : List OrderTerm}
    (h : (orderTerms g keys).exec c = (.ok terms, c')) : Orders g c terms c' := by
  induction keys generalizing c terms with
  | nil =>
    obtain ⟨rfl, rfl⟩ := orderTerms_nil_eq_ok.1 h
    exact ⟨hc, .refl _, List.prefix_refl _, rfl, by simp⟩
  | cons key keys ih =>
    obtain ⟨term, c₁, terms, hfirst, hrest, rfl⟩ := orderTerms_cons_eq_ok.1 h
    have h₁ := orderTerm_orders hc hfirst
    have h₂ := ih h₁.coherent hrest
    refine ⟨h₂.coherent, h₁.grows.trans h₂.grows, h₁.joins.trans h₂.joins,
      h₂.layout.trans h₁.layout, fun term hterm => ?_⟩
    rcases List.mem_cons.1 hterm with rfl | hterm
    · exact h₂.grows.aliasFor (h₁.located _ (by simp))
    · exact h₂.located _ hterm

end Query

end EntityQuery

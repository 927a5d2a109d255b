import EntityQuery.Layout.Traversal
import EntityQuery.Proofs.Inclusion.Merging
import EntityQuery.Proofs.Layout.Outline
import EntityQuery.Proofs.Selection.Planning

/-! Walking through a layout and asking for a path. The walk by a stack meets each branch before those below
it, and the branches of one level in order; in a layout that was planned, the path of a branch that it
meets leads to the branch, and no other path leads anywhere. -/

namespace EntityQuery

namespace Branch

/-! ### The walk by a stack -/

/-- What a stack holds, from its end to its front, is walked branch by branch. -/
theorem drain_eq (stack : List Branch) : drain stack = walkAll stack.reverse := by
  induction hlength : (walkAll stack).length using Nat.strongRecOn generalizing stack with
  | ind n ih =>
    rw [drain]
    split
    · next hnone =>
      obtain rfl : stack = [] := by simpa [turn?] using hnone
      rfl
    · next b rest hturn =>
      have hshorter := length_of_turn? hturn
      rw [ih _ (by omega) rest rfl]
      rcases List.eq_nil_or_concat stack with rfl | ⟨stack, top, rfl⟩
      · cases hturn
      · rw [List.concat_eq_append] at hturn ⊢
        rw [turn?_concat] at hturn
        obtain ⟨rfl, rfl⟩ := Prod.mk.inj (Option.some.inj hturn)
        rw [List.reverse_append, List.reverse_reverse, walkAll_append, List.reverse_append,
          List.reverse_singleton, List.singleton_append, walkAll, walk_eq, List.cons_append]

/-! ### Branches that stand at their paths -/

/-- A branch behind a chain of names, with all that is below it: each path is the chain that leads to its
branch, and names at one level are distinct. -/
inductive Stands : List String → Branch → Prop
  | mk {before : List String} {b : Branch} (hpath : Path.segments b.path = before ++ [b.name])
    (hnames : (b.children.map (·.name)).Nodup)
    (hchildren : ∀ c ∈ b.children, Stands (before ++ [b.name]) c) : Stands before b

theorem mem_walkAll_iff_exists_walk {bs : List Branch} {x : Branch} :
    x ∈ walkAll bs ↔ ∃ b ∈ bs, x ∈ walk b := by
  rw [walkAll_eq_flatMap, List.mem_flatMap]

/-- A path below a branch starts with the chain of the branch. -/
theorem Stands.isPrefix {before : List String} {b : Branch} (h : Stands before b) :
    ∀ x ∈ walk b, before ++ [b.name] <+: Path.segments x.path := by
  induction h with
  | @mk before b hpath hnames hchildren ih =>
    intro x hx
    rw [walk_eq, List.mem_cons] at hx
    rcases hx with rfl | hx
    · exact hpath ▸ List.prefix_refl _
    · obtain ⟨c, hc, hx⟩ := mem_walkAll_iff_exists_walk.1 hx
      exact (List.prefix_append _ [c.name]).trans (ih c hc x hx)

/-- Branches of one level under different names have no paths in common. -/
theorem disjoint_paths {before : List String} {b c : Branch} (hb : Stands before b)
    (hc : Stands before c) (hne : b.name ≠ c.name) :
    List.Disjoint ((walk b).map (·.path)) ((walk c).map (·.path)) := by
  intro path hpath hpath'
  obtain ⟨x, hx, rfl⟩ := List.mem_map.1 hpath
  obtain ⟨y, hy, heq⟩ := List.mem_map.1 hpath'
  have hx' := hb.isPrefix x hx
  have hy' := hc.isPrefix y hy
  rw [heq] at hy'
  have hsame := (List.prefix_of_prefix_length_le hx' hy' (by simp)).eq_of_length (by simp)
  exact hne (List.singleton_inj.1 (List.append_cancel_left hsame))

theorem nodup_paths_of_level {before : List String} {bs : List Branch}
    (hnames : (bs.map (·.name)).Nodup) (hstands : ∀ b ∈ bs, Stands before b)
    (h : ∀ b ∈ bs, ((walk b).map (·.path)).Nodup) : ((walkAll bs).map (·.path)).Nodup := by
  rw [walkAll_eq_flatMap, List.map_flatMap, List.nodup_flatMap]
  refine ⟨h, ?_⟩
  refine (List.pairwise_map.1 hnames).imp_of_mem fun {b c} hb hc hne => ?_
  exact disjoint_paths (hstands b hb) (hstands c hc) hne

theorem Stands.nodup_paths {before : List String} {b : Branch} (h : Stands before b) :
    ((walk b).map (·.path)).Nodup := by
  induction h with
  | @mk before b hpath hnames hchildren ih =>
    rw [walk_eq, List.map_cons, List.nodup_cons]
    refine ⟨fun hmem => ?_, nodup_paths_of_level hnames hchildren ih⟩
    -- A path below the branch is longer than its own.
    obtain ⟨x, hx, heq⟩ := List.mem_map.1 hmem
    obtain ⟨c, hc, hx⟩ := mem_walkAll_iff_exists_walk.1 hx
    have hlength := ((hchildren c hc).isPrefix x hx).length_le
    rw [heq, hpath, List.length_append, List.length_singleton] at hlength
    omega

theorem Stands.exists_at? {before : List String} {p : Branch} (h : Stands before p) {x : Branch}
    (hx : x ∈ walkAll p.children) : ∃ segs, segs ≠ [] ∧ at? p.children segs = some x := by
  induction h generalizing x with
  | @mk before p _ hnames _ ih =>
    obtain ⟨c, hc, rfl | hx⟩ := mem_walkAll.1 hx
    · exact ⟨[x.name], by simp, find?_of_mem hnames hc⟩
    · obtain ⟨segs, hne, hat⟩ := ih c hc hx
      refine ⟨c.name :: segs, by simp, ?_⟩
      rw [at?_cons _ _ hne, find?_of_mem hnames hc, Option.bind_some, hat]

/-- What stands at a chain is a branch of the tree. -/
theorem mem_walkAll_of_at? {bs : List Branch} {segs : List String} {b : Branch}
    (h : at? bs segs = some b) : b ∈ walkAll bs := by
  induction segs generalizing bs with
  | nil => cases h
  | cons name rest ih =>
    by_cases hrest : rest = []
    · subst hrest
      exact mem_walkAll.2 ⟨b, (find?_eq_some h).1, .inl rfl⟩
    · rw [at?_cons bs name hrest, Option.bind_eq_some_iff] at h
      obtain ⟨p, hp, h⟩ := h
      exact mem_walkAll.2 ⟨p, (find?_eq_some hp).1, .inr (ih h)⟩

/-- Branches stand at their paths where the outline says so. -/
theorem stands_of_outline {before : List String} (b : Branch)
    (hpath : Path.segments b.path = before ++ [b.name])
    (h : ∀ segs entries, outline b.children segs = some entries → (entries.map Prod.fst).Nodup ∧
      ∀ e ∈ entries, Path.segments e.2 = before ++ b.name :: segs ++ [e.1]) : Stands before b := by
  have hlevel := h [] (b.children.map entry) rfl
  have hnames : (b.children.map (·.name)).Nodup := by
    have hfst := hlevel.1
    rwa [List.map_map] at hfst
  refine .mk hpath hnames fun c hc => ?_
  refine stands_of_outline c (hlevel.2 _ (List.mem_map_of_mem hc)) fun segs entries hentries => ?_
  have hbelow := h (c.name :: segs) entries
  rw [outline_cons, find?_of_mem hnames hc, Option.bind_some] at hbelow
  simpa using hbelow hentries
termination_by sizeOf b
decreasing_by
  have hsize := List.sizeOf_lt_of_mem hc
  cases b
  simp only [Branch.mk.sizeOf_spec] at hsize ⊢
  omega

end Branch

namespace Layout

open Branch

variable {l l' : Layout}

theorem traverse_eq (l : Layout) : l.traverse = walkAll l.branches := by
  rw [traverse, drain_eq, List.reverse_reverse]

namespace Addressed

theorem names (h : l.Addressed) : (l.branches.map (·.name)).Nodup := by
  have hfst := (h [] (l.branches.map entry) rfl).1
  rwa [List.map_map] at hfst

theorem stands (h : l.Addressed) : ∀ b ∈ l.branches, Stands [] b := by
  intro b hb
  have hpath := (h [] (l.branches.map entry) rfl).2 _ (List.mem_map_of_mem hb)
  refine stands_of_outline b hpath fun segs entries hentries => ?_
  have hbelow := h (b.name :: segs) entries
  rw [outline, outline_cons, find?_of_mem h.names hb, Option.bind_some] at hbelow
  exact hbelow hentries

theorem nodup_paths (h : l.Addressed) : ((walkAll l.branches).map (·.path)).Nodup :=
  nodup_paths_of_level h.names h.stands fun b hb => (h.stands b hb).nodup_paths

/-- A branch of the layout stands at its own path and nowhere else. -/
theorem at?_eq_some_iff (h : l.Addressed) {segs : List String} {b : Branch} :
    at? l.branches segs = some b ↔ b ∈ walkAll l.branches ∧ Path.segments b.path = segs := by
  constructor
  · exact fun hat => ⟨mem_walkAll_of_at? hat, h.segments_path hat⟩
  · rintro ⟨hmem, rfl⟩
    have hchain : ∃ segs, at? l.branches segs = some b := by
      obtain ⟨p, hp, rfl | hmem⟩ := mem_walkAll.1 hmem
      · exact ⟨[b.name], find?_of_mem h.names hp⟩
      · obtain ⟨segs, hne, hat⟩ := (h.stands p hp).exists_at? hmem
        refine ⟨p.name :: segs, ?_⟩
        rw [at?_cons _ _ hne, find?_of_mem h.names hp, Option.bind_some, hat]
    obtain ⟨segs, hat⟩ := hchain
    rwa [h.segments_path hat]

theorem branch?_eq_some_iff (h : l.Addressed) {path : String} {b : Branch} :
    l.branch? path = some b ↔ b ∈ walkAll l.branches ∧ b.path = path := by
  rw [branch?, h.at?_eq_some_iff]
  refine and_congr_right fun _ => ⟨fun hsegs => ?_, congrArg Path.segments⟩
  rw [← Path.ofSegments_segments b.path, hsegs, Path.ofSegments_segments]

end Addressed

end Layout

/-! ### Planning -/

namespace Inclusion

open Layout (chainOf segments_child segments_ofSegments_chainOf holds_chainOf)

variable {ι : Type} {g : EntityGraph ι}

/-- An inclusion stops with the layout as it was where its relation cannot be joined; else it places its
branch and goes on with what is below. -/
theorem exec_plan_cases (g : EntityGraph ι) (aliasName : Option String) (path : String)
    (holder : Option String) (relation : String) (wish : Option String) (children : List Inclusion)
    (c : Context ι) :
    ((plan g aliasName path holder (mk relation wish children)).exec c).2.layout = c.layout ∨
    ∃ (b : Branch) (c₁ : Context ι), b.name = relation ∧ b.path = Path.child path relation ∧
      b.children = [] ∧ c₁.layout = c.layout.placeAt holder b (nonEmpty? wish) ∧
      (plan g aliasName path holder (mk relation wish children)).exec c =
        (planAll g (some b.aliasName) b.path (c₁.layout.holder b.path) children).exec c₁ := by
  rcases hreach : (JoinTree.reach g
    { path := Path.child path relation, start := aliasName, select := true,
      aliasName := wish }).exec c.tree with ⟨cause | bound, tree⟩
  · left
    rw [plan, Step.exec_bind, Context.inTree, Step.exec_within, hreach]
  · exact .inr ⟨⟨relation, _, path, bound, (nonEmpty? wish).getD relation, [], []⟩,
      { c with tree, layout := _ }, rfl, rfl, rfl, rfl, exec_plan_of_reach hreach rfl⟩

mutual

/-- Inclusions of undotted names place branches at their paths and behind those that are there, whatever
their outcome. -/
theorem plan_addressed (g : EntityGraph ι) (aliasName : Option String) (i : Inclusion)
    {before : List String} {c : Context ι} {holder : Option String} {path : String} (hc : c.layout.Addressed)
    (hholds : c.layout.Holds (chainOf path) holder)
    (hi : ∀ v ∈ visits before i, '.' ∉ v.name.toList) :
    ((plan g aliasName path holder i).exec c).2.layout.Addressed ∧
      c.layout.Grows ((plan g aliasName path holder i).exec c).2.layout := by
  cases i with
  | mk relation wish children =>
    rw [visits, List.forall_mem_cons] at hi
    rcases exec_plan_cases g aliasName path holder relation wish children c with
      hsame | ⟨b, c₁, rfl, hpath, hleaf, hlayout, hrun⟩
    · rw [hsame]
      exact ⟨hc, .refl _⟩
    · have hchain := segments_ofSegments_chainOf path
      have hb : Path.segments b.path = chainOf path ++ [b.name] := hpath ▸ segments_child hi.1 path
      have hplaced := hc.placeAt hchain hholds hleaf hb (nonEmpty? wish)
      have hgrows := Layout.Grows.placeAt hchain hholds hleaf (nonEmpty? wish)
      have hfound := Layout.isSome_at?_placeAt hchain hholds hleaf (nonEmpty? wish)
      rw [← hlayout] at hplaced hgrows hfound
      rw [← hb] at hfound
      have hrest := planAll_addressed g (some b.aliasName) children hplaced
        (holds_chainOf (.inr hfound)) hi.2
      rw [hrun]
      exact ⟨hrest.1, hgrows.trans hrest.2⟩

theorem planAll_addressed (g : EntityGraph ι) (aliasName : Option String) (is : List Inclusion)
    {before : List String} {c : Context ι} {holder : Option String} {path : String} (hc : c.layout.Addressed)
    (hholds : c.layout.Holds (chainOf path) holder)
    (his : ∀ v ∈ visitsOfAll before is, '.' ∉ v.name.toList) :
    ((planAll g aliasName path holder is).exec c).2.layout.Addressed ∧
      c.layout.Grows ((planAll g aliasName path holder is).exec c).2.layout := by
  cases is with
  | nil => exact ⟨hc, .refl _⟩
  | cons i rest =>
    rw [visitsOfAll, List.forall_mem_append] at his
    have hfirst := plan_addressed g aliasName i hc hholds his.1
    rw [planAll, Step.exec_bind]
    rcases hrun : (plan g aliasName path holder i).exec c with ⟨cause | _, c₁⟩ <;>
      rw [hrun] at hfirst
    · exact hfirst
    · have hrest := planAll_addressed g aliasName rest hfirst.1
        (hfirst.2.holds hholds) his.2
      exact ⟨hrest.1, hfirst.2.trans hrest.2⟩

end

end Inclusion

namespace Selection

variable {ι : Type}

theorem blank_setColumn (c : Context ι) (path field key : String) :
    ((setColumn path field key).exec c).2.blank = c.blank := by
  by_cases hpath : path = "" ∨ (c.layout.branch? path).isSome = true
  · rw [exec_setColumn hpath]
    exact congrArg (fun layout => { c with layout }) (Layout.blank_withColumns c.layout path _)
  · rw [not_or, Bool.not_eq_true, Option.isSome_eq_false_iff] at hpath
    rw [setColumn, Step.exec_bind, Step.exec_get]
    dsimp only
    rw [if_neg (by simpa using hpath.1), if_pos hpath.2]
    rfl

mutual

/-- Selections at any path set columns only, whatever their outcome. -/
theorem keeps_blank_plan (path : String) (s : Selection) :
    (plan path s : Step (Context ι) Unit).Keeps Context.blank := by
  intro c
  cases s with
  | column field name => exact blank_setColumn c path field _
  | relation name children =>
    rw [exec_plan_relation]
    split
    · exact keeps_blank_planAll (Path.child path name) children c
    · rfl

theorem keeps_blank_planAll (path : String) (ss : List Selection) :
    (planAll path ss : Step (Context ι) Unit).Keeps Context.blank := by
  cases ss with
  | nil => exact .pure ()
  | cons s rest =>
    rw [planAll]
    exact .bind (keeps_blank_plan path s) fun _ => keeps_blank_planAll path rest

end

end Selection

/-! ### Planned layouts -/

variable {ι : Type} {g : EntityGraph ι}

/-- What planning does to a context next, whatever the outcome: it includes trees of undotted names, as all
that are read on an undotted graph are, at the root or at a path with a branch; it selects columns at a
path; or it leaves the layout alone. -/
inductive Context.Plans (g : EntityGraph ι) (c : Context ι) : Context ι → Prop
  | inclusion {path : String} (hpath : path = "" ∨ (c.layout.branch? path).isSome = true)
      (aliasName : Option String) {is : List Inclusion} (his : Inclusion.Undotted is) :
      Plans g c ((Inclusion.planAll g aliasName path (c.layout.holder path) is).exec c).2
  | selection (path : String) (ss : List Selection) :
      Plans g c ((Selection.planAll path ss).exec c).2
  | apart (tree : JoinTree ι) (parameters : Parameters) (counter : Nat) :
      Plans g c ⟨tree, c.layout, parameters, counter⟩

/-- Contexts that planning leads to from an empty layout. -/
inductive Context.Planned (g : EntityGraph ι) : Context ι → Prop
  | start {c : Context ι} (h : c.layout = .empty) : Planned g c
  | next {c c' : Context ι} (h : Planned g c) (hplans : c.Plans g c') : Planned g c'

namespace Context

variable {c c' : Context ι}

theorem Plans.addressed (h : c.Plans g c') (hc : c.layout.Addressed) :
    c'.layout.Addressed ∧ c.layout.Grows c'.layout := by
  cases h with
  | inclusion hpath aliasName his =>
    exact Inclusion.planAll_addressed g aliasName _ hc (Layout.holds_chainOf hpath) his
  | selection path ss =>
    have hblank : ((Selection.planAll path ss).exec c).2.layout.blank = c.layout.blank :=
      congrArg Context.layout (Selection.keeps_blank_planAll path ss c)
    exact ⟨hc.of_blank hblank, .of_blank hblank⟩
  | apart tree parameters counter => exact ⟨hc, .refl _⟩

theorem Planned.addressed (h : c.Planned g) : c.layout.Addressed := by
  induction h with
  | start h => exact h ▸ Layout.addressed_empty
  | next _ hplans ih => exact (hplans.addressed ih).1

/-- In a planned layout the walk by a stack meets the branches as they are nested, each one once; their
paths are distinct, each leads to its branch and to no other, and no other path leads to a branch. What is
planned next leaves the branches of a level in their order. -/
theorem Planned.walk_finds_branches (h : c.Planned g) :
    c.layout.traverse = Branch.walkAll c.layout.branches ∧
    (∀ segs b, Branch.at? c.layout.branches segs = some b ↔
      b ∈ c.layout.traverse ∧ Path.segments b.path = segs) ∧
    (c.layout.traverse.map (·.path)).Nodup ∧
    (∀ b ∈ c.layout.traverse, c.layout.branch? b.path = some b) ∧
    (∀ path, path ∉ c.layout.traverse.map (·.path) → c.layout.branch? path = none) ∧
    ∀ c', c.Plans g c' → c.layout.Grows c'.layout := by
  have haddressed := h.addressed
  rw [Layout.traverse_eq]
  refine ⟨rfl, fun segs b => haddressed.at?_eq_some_iff, haddressed.nodup_paths, ?_, ?_,
    fun c' hplans => (hplans.addressed haddressed).2⟩
  · exact fun b hb => haddressed.branch?_eq_some_iff.2 ⟨hb, rfl⟩
  · intro path hpath
    rw [Option.eq_none_iff_forall_ne_some]
    intro b hb
    obtain ⟨hmem, rfl⟩ := haddressed.branch?_eq_some_iff.1 hb
    exact hpath (List.mem_map_of_mem hmem)

end Context

namespace Sample

/-- Posts with their relations and a profile. -/
def toured : Context String :=
  ((Inclusion.planAll (mapping.graph fun _ => true) none "" (Layout.empty.holder "")
    overlapping.flatten).exec (.start "User" "user")).2

/-- Below comments a relation that they have and one that they have not. -/
def deeper : List Inclusion := [.mk "post" none [], .mk "replies" none []]

/-- What is left when the second one fails. -/
def touredDeeper : Context String :=
  ((Inclusion.planAll (mapping.graph fun _ => true) none "posts.comments"
    (toured.layout.holder "posts.comments") deeper).exec toured).2

def touredLabelled : Context String :=
  ((Selection.planAll "posts" [.column "title" none]).exec touredDeeper).2

theorem walk_finds_branches_toured :
    touredLabelled.Planned (mapping.graph fun _ => true) ∧
    touredLabelled.layout.walk.map (·.path) =
      ["posts", "posts.comments", "posts.comments.post", "posts.author", "profile"] ∧
    touredLabelled.layout.traverse = touredLabelled.layout.walk ∧
    ∀ b ∈ touredLabelled.layout.traverse, touredLabelled.layout.branch? b.path = some b := by
  have hstart : (Context.start "User" "user").Planned (mapping.graph fun _ => true) := .start rfl
  have htoured : toured.Planned (mapping.graph fun _ => true) :=
    hstart.next (.inclusion (.inl rfl) none (by decide))
  have hdeeper : touredDeeper.Planned (mapping.graph fun _ => true) :=
    htoured.next (.inclusion (.inr (by decide +kernel)) none (by decide))
  have hlabelled : touredLabelled.Planned (mapping.graph fun _ => true) :=
    hdeeper.next (.selection "posts" [.column "title" none])
  obtain ⟨hwalk, -, -, hfound, -⟩ := hlabelled.walk_finds_branches
  exact ⟨hlabelled, by decide +kernel, hwalk, hfound⟩

end Sample

end EntityQuery

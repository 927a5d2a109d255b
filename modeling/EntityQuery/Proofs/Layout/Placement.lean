import EntityQuery.Layout.Planning
import EntityQuery.Proofs.Assoc
import EntityQuery.Proofs.Path

/-! Layouts whose branches stand where their names put them. Below one branch names are distinct, so
that a path leads to at most one branch; placing a branch adds the node of its path and no other. -/

namespace EntityQuery

namespace Branch

/-- A branch below the end of a chain of names, with all that is below it. -/
inductive Placed : List String → Branch → Prop
  | mk {before : List String} {b : Branch} (hname : Path.IsSegment b.name)
    (hpath : b.path = Path.ofSegments (before ++ [b.name]))
    (hparent : b.parentPath = Path.ofSegments before) (hnames : (b.children.map (·.name)).Nodup)
    (hchildren : ∀ c ∈ b.children, Placed (before ++ [b.name]) c) : Placed before b

/-- The branches at one level. -/
structure AllPlaced (before : List String) (bs : List Branch) : Prop where
  names : (bs.map (·.name)).Nodup
  placed : ∀ b ∈ bs, Placed before b

namespace Placed

variable {before : List String} {b : Branch}

theorem isSegment (h : Placed before b) : Path.IsSegment b.name := by cases h; assumption

theorem path (h : Placed before b) : b.path = Path.ofSegments (before ++ [b.name]) := by
  cases h; assumption

theorem parentPath (h : Placed before b) : b.parentPath = Path.ofSegments before := by
  cases h; assumption

theorem children (h : Placed before b) : AllPlaced (before ++ [b.name]) b.children := by
  cases h with
  | mk _ _ _ hnames hchildren => exact ⟨hnames, hchildren⟩

end Placed

/-! ### Branches by name and by chain -/

theorem find?_eq_some {bs : List Branch} {name : String} {b : Branch}
    (h : find? bs name = some b) : b ∈ bs ∧ b.name = name :=
  ⟨List.mem_of_find?_eq_some h, by simpa using List.find?_some h⟩

theorem find?_of_mem {bs : List Branch} (hn : (bs.map (·.name)).Nodup) {b : Branch} (hb : b ∈ bs) :
    find? bs b.name = some b :=
  find?_of_nodup hn hb

theorem find?_eq_none_iff {bs : List Branch} {name : String} :
    find? bs name = none ↔ name ∉ bs.map (·.name) := by
  simp [find?, List.find?_eq_none]

theorem at?_cons (bs : List Branch) (name : String) {rest : List String} (hne : rest ≠ []) :
    at? bs (name :: rest) = (find? bs name).bind fun b => at? b.children rest := by
  cases rest with
  | nil => exact absurd rfl hne
  | cons s rest => rfl

theorem walk_eq (b : Branch) : walk b = b :: walkAll b.children := by
  cases b; rfl

theorem mem_walkAll {bs : List Branch} {x : Branch} :
    x ∈ walkAll bs ↔ ∃ b ∈ bs, x = b ∨ x ∈ walkAll b.children := by
  induction bs with
  | nil => simp [walkAll]
  | cons b rest ih => simp [walkAll, walk_eq, ih, or_assoc]

/-- What stands at a chain is a branch of the tree whose path is the chain. -/
theorem AllPlaced.of_at? {before segs : List String} {bs : List Branch} (h : AllPlaced before bs)
    {b : Branch} (hb : at? bs segs = some b) :
    b ∈ walkAll bs ∧ b.path = Path.ofSegments (before ++ segs) ∧ segs ≠ [] ∧
      ∀ s ∈ segs, Path.IsSegment s := by
  induction segs generalizing before bs with
  | nil => simp [at?] at hb
  | cons name rest ih =>
    by_cases hrest : rest = []
    · subst hrest
      obtain ⟨hmem, rfl⟩ := find?_eq_some hb
      exact ⟨mem_walkAll.2 ⟨b, hmem, .inl rfl⟩, (h.placed b hmem).path, by simp,
        by simpa using (h.placed b hmem).isSegment⟩
    · rw [at?_cons bs name hrest, Option.bind_eq_some_iff] at hb
      obtain ⟨p, hp, hb⟩ := hb
      obtain ⟨hmem, rfl⟩ := find?_eq_some hp
      obtain ⟨hwalk, hpath, -, hsegs⟩ := ih (h.placed p hmem).children hb
      refine ⟨mem_walkAll.2 ⟨p, hmem, .inr hwalk⟩, by simpa using hpath, by simp, ?_⟩
      simpa using ⟨(h.placed p hmem).isSegment, hsegs⟩

theorem AllPlaced.children_at? {before segs : List String} {bs : List Branch}
    (h : AllPlaced before bs) {b : Branch} (hb : at? bs segs = some b) :
    AllPlaced (before ++ segs) b.children := by
  induction segs generalizing before bs with
  | nil => simp [at?] at hb
  | cons name rest ih =>
    by_cases hrest : rest = []
    · subst hrest
      obtain ⟨hmem, rfl⟩ := find?_eq_some hb
      exact (h.placed b hmem).children
    · rw [at?_cons bs name hrest, Option.bind_eq_some_iff] at hb
      obtain ⟨p, hp, hb⟩ := hb
      obtain ⟨hmem, rfl⟩ := find?_eq_some hp
      simpa using ih (h.placed p hmem).children hb

theorem Placed.exists_at? {before : List String} {p : Branch} (h : Placed before p) {x : Branch}
    (hx : x ∈ walkAll p.children) : ∃ segs, segs ≠ [] ∧ at? p.children segs = some x := by
  induction h generalizing x with
  | @mk before p _ _ _ hnames _ ih =>
    obtain ⟨c, hc, rfl | hx⟩ := mem_walkAll.1 hx
    · exact ⟨[x.name], by simp, find?_of_mem hnames hc⟩
    · obtain ⟨segs, hne, hat⟩ := ih c hc hx
      refine ⟨c.name :: segs, by simp, ?_⟩
      rw [at?_cons _ _ hne, find?_of_mem hnames hc, Option.bind_some, hat]

/-- Every branch of a tree stands at some chain. -/
theorem AllPlaced.exists_at? {before : List String} {bs : List Branch} (h : AllPlaced before bs)
    {x : Branch} (hx : x ∈ walkAll bs) : ∃ segs, at? bs segs = some x := by
  obtain ⟨b, hb, rfl | hx⟩ := mem_walkAll.1 hx
  · exact ⟨[x.name], find?_of_mem h.names hb⟩
  · obtain ⟨segs, hne, hat⟩ := (h.placed b hb).exists_at? hx
    refine ⟨b.name :: segs, ?_⟩
    rw [at?_cons _ _ hne, find?_of_mem h.names hb, Option.bind_some, hat]

theorem at?_take {bs : List Branch} {segs : List String} {b : Branch} (hb : at? bs segs = some b)
    {n : Nat} (hpos : 0 < n) (hn : n ≤ segs.length) : ∃ p, at? bs (segs.take n) = some p := by
  induction segs generalizing bs n with
  | nil => simp [at?] at hb
  | cons name rest ih =>
    obtain ⟨n, rfl⟩ : ∃ m, n = m + 1 := ⟨n - 1, by omega⟩
    rw [List.take_succ_cons]
    by_cases hrest : rest = []
    · subst hrest
      exact ⟨b, by simpa using hb⟩
    · rw [at?_cons bs name hrest, Option.bind_eq_some_iff] at hb
      obtain ⟨p, hp, hb⟩ := hb
      by_cases hzero : n = 0
      · subst hzero
        exact ⟨p, hp⟩
      · have hle : n ≤ rest.length := by simpa using hn
        obtain ⟨q, hq⟩ := ih hb (Nat.pos_of_ne_zero hzero) hle
        refine ⟨q, ?_⟩
        rw [at?_cons, hp, Option.bind_some, hq]
        rw [Ne, List.take_eq_nil_iff, not_or]
        exact ⟨hzero, hrest⟩

/-! ### Nodes -/

/-- The paths of the branches of a tree, each with its alias. -/
def nodes (bs : List Branch) : List (String × String) :=
  (walkAll bs).map fun b => (b.path, b.aliasName)

theorem mem_nodes {bs : List Branch} {x : String × String} :
    x ∈ nodes bs ↔ ∃ b ∈ bs, x = (b.path, b.aliasName) ∨ x ∈ nodes b.children := by
  simp only [nodes, List.mem_map]
  constructor
  · rintro ⟨y, hy, rfl⟩
    obtain ⟨b, hb, rfl | hy⟩ := mem_walkAll.1 hy
    · exact ⟨y, hb, .inl rfl⟩
    · exact ⟨b, hb, .inr ⟨y, hy, rfl⟩⟩
  · rintro ⟨b, hb, rfl | ⟨y, hy, rfl⟩⟩
    · exact ⟨b, mem_walkAll.2 ⟨b, hb, .inl rfl⟩, rfl⟩
    · exact ⟨y, mem_walkAll.2 ⟨b, hb, .inr hy⟩, rfl⟩

theorem nodes_children_subset {bs : List Branch} {segs : List String} {b : Branch}
    (h : at? bs segs = some b) : nodes b.children ⊆ nodes bs := by
  induction segs generalizing bs with
  | nil => simp [at?] at h
  | cons name rest ih =>
    intro x hx
    by_cases hrest : rest = []
    · subst hrest
      exact mem_nodes.2 ⟨b, (find?_eq_some h).1, .inr hx⟩
    · rw [at?_cons bs name hrest, Option.bind_eq_some_iff] at h
      obtain ⟨p, hp, h⟩ := h
      exact mem_nodes.2 ⟨p, (find?_eq_some hp).1, .inr (ih h hx)⟩

/-! ### Changing a branch -/

theorem modify_eq_map {bs : List Branch} (hn : (bs.map (·.name)).Nodup) (name : String)
    (f : Branch → Branch) :
    modify name f bs = bs.map fun b => if b.name = name then f b else b := by
  induction bs with
  | nil => rfl
  | cons b rest ih =>
    obtain ⟨hb, hn⟩ := List.nodup_cons.1 hn
    rw [modify, List.map_cons]
    split
    · next h =>
      have hrest : rest.map (fun c => if c.name = name then f c else c) = rest := by
        refine (List.map_congr_left fun c hc => ?_).trans (List.map_id _)
        exact if_neg fun hc' => hb (List.mem_map.2 ⟨c, hc, hc'.trans h.symm⟩)
      rw [hrest]
    · rw [ih hn]

/-- Changes of branches that keep what says where they stand. -/
structure Keeps (f : Branch → Branch) : Prop where
  name : ∀ b, (f b).name = b.name
  path : ∀ b, (f b).path = b.path
  parentPath : ∀ b, (f b).parentPath = b.parentPath
  aliasName : ∀ b, (f b).aliasName = b.aliasName

/-- A change of the children of one branch. -/
def withChildren (f : List Branch → List Branch) (b : Branch) : Branch :=
  { b with children := f b.children }

theorem keeps_withChildren (f : List Branch → List Branch) : Keeps (withChildren f) :=
  ⟨fun _ => rfl, fun _ => rfl, fun _ => rfl, fun _ => rfl⟩

theorem modifyAt_cons (f : Branch → Branch) (name : String) {rest : List String} (hne : rest ≠ [])
    (bs : List Branch) :
    modifyAt f (name :: rest) bs = modify name (withChildren (modifyAt f rest)) bs := by
  cases rest with
  | nil => exact absurd rfl hne
  | cons s rest => rfl

theorem Placed.of_keeps {before : List String} {b b' : Branch} (h : Placed before b)
    (hname : b'.name = b.name) (hpath : b'.path = b.path) (hparent : b'.parentPath = b.parentPath)
    (hchildren : AllPlaced (before ++ [b.name]) b'.children) : Placed before b' := by
  refine .mk (hname ▸ h.isSegment) ?_ (hparent.trans h.parentPath) hchildren.names ?_
  · rw [hpath, hname, h.path]
  · rw [hname]
    exact hchildren.placed

/-- A change of one branch at a level keeps the level placed, if it keeps what is below it so. -/
theorem AllPlaced.modify {before : List String} {bs : List Branch} (h : AllPlaced before bs)
    {name : String} {f : Branch → Branch} (hf : Keeps f)
    (hchildren : ∀ b, find? bs name = some b → AllPlaced (before ++ [name]) (f b).children) :
    AllPlaced before (modify name f bs) := by
  rw [modify_eq_map h.names]
  constructor
  · have hnames : (bs.map fun b => if b.name = name then f b else b).map (·.name) =
        bs.map (·.name) := by
      rw [List.map_map]
      refine List.map_congr_left fun b _ => ?_
      rw [Function.comp_apply]
      split
      · exact hf.name b
      · rfl
    rw [hnames]
    exact h.names
  · intro c hc
    obtain ⟨b, hb, rfl⟩ := List.mem_map.1 hc
    split
    · next hname =>
      subst hname
      exact (h.placed b hb).of_keeps (hf.name b) (hf.path b) (hf.parentPath b)
        (hchildren b (find?_of_mem h.names hb))
    · exact h.placed b hb

theorem AllPlaced.modifyAt {before segs : List String} {bs : List Branch} (h : AllPlaced before bs)
    {f : Branch → Branch} (hf : Keeps f)
    (hchildren : ∀ b, at? bs segs = some b → AllPlaced (before ++ segs) (f b).children) :
    AllPlaced before (modifyAt f segs bs) := by
  induction segs generalizing before bs with
  | nil => exact h
  | cons name rest ih =>
    by_cases hrest : rest = []
    · subst hrest
      exact h.modify hf hchildren
    · rw [modifyAt_cons f name hrest]
      refine h.modify (keeps_withChildren _) fun b hb => ?_
      obtain ⟨hmem, rfl⟩ := find?_eq_some hb
      refine ih (h.placed b hmem).children fun c hc => ?_
      rw [List.append_assoc, List.singleton_append]
      refine hchildren c ?_
      rw [at?_cons bs _ hrest, hb, Option.bind_some, hc]

theorem AllPlaced.mem_nodes_modify {before : List String} {bs : List Branch} {name : String}
    {f : Branch → Branch} {x : String × String} (h : AllPlaced before bs) (hf : Keeps f)
    (hmore : ∀ b, find? bs name = some b → x ∈ nodes b.children → x ∈ nodes (f b).children) :
    x ∈ nodes (Branch.modify name f bs) ↔
      x ∈ nodes bs ∨ ∃ b, find? bs name = some b ∧ x ∈ nodes (f b).children := by
  rw [modify_eq_map h.names]
  constructor
  · intro hx
    obtain ⟨c, hc, hxc⟩ := mem_nodes.1 hx
    obtain ⟨b, hb, rfl⟩ := List.mem_map.1 hc
    split at hxc
    · next hname =>
      subst hname
      rw [hf.path, hf.aliasName] at hxc
      rcases hxc with hxc | hxc
      · exact .inl (mem_nodes.2 ⟨b, hb, .inl hxc⟩)
      · exact .inr ⟨b, find?_of_mem h.names hb, hxc⟩
    · exact .inl (mem_nodes.2 ⟨b, hb, hxc⟩)
  · rintro (hx | ⟨b, hb, hx⟩)
    · obtain ⟨b, hb, hxb⟩ := mem_nodes.1 hx
      refine mem_nodes.2 ⟨_, List.mem_map_of_mem hb, ?_⟩
      split
      · next hname =>
        subst hname
        rw [hf.path, hf.aliasName]
        exact hxb.imp_right fun hxb => hmore b (find?_of_mem h.names hb) hxb
      · exact hxb
    · obtain ⟨hmem, rfl⟩ := find?_eq_some hb
      exact mem_nodes.2 ⟨_, List.mem_map_of_mem hmem, by rw [if_pos rfl]; exact .inr hx⟩

/-- A change of the branch at the end of a chain adds what it adds below the branch. -/
theorem AllPlaced.mem_nodes_modifyAt {before segs : List String} {bs : List Branch}
    {f : Branch → Branch} {x : String × String} (h : AllPlaced before bs) (hf : Keeps f)
    (hmore : ∀ b, at? bs segs = some b → x ∈ nodes b.children → x ∈ nodes (f b).children) :
    x ∈ nodes (Branch.modifyAt f segs bs) ↔
      x ∈ nodes bs ∨ ∃ b, at? bs segs = some b ∧ x ∈ nodes (f b).children := by
  induction segs generalizing before bs with
  | nil => simp [Branch.modifyAt, at?]
  | cons name rest ih =>
    by_cases hrest : rest = []
    · subst hrest
      exact h.mem_nodes_modify hf hmore
    · have hat : ∀ b, at? bs (name :: rest) = some b ↔
          ∃ p, find? bs name = some p ∧ at? p.children rest = some b := fun b => by
        rw [at?_cons bs name hrest, Option.bind_eq_some_iff]
      have hinner : ∀ p, find? bs name = some p →
          (x ∈ nodes (Branch.modifyAt f rest p.children) ↔
            x ∈ nodes p.children ∨ ∃ b, at? p.children rest = some b ∧ x ∈ nodes (f b).children) := by
        intro p hp
        have hplaced := (h.placed p (find?_eq_some hp).1).children
        exact ih hplaced fun b hb => hmore b ((hat b).2 ⟨p, hp, hb⟩)
      rw [modifyAt_cons f name hrest, h.mem_nodes_modify (keeps_withChildren _) fun p hp hx =>
        (hinner p hp).2 (.inl hx)]
      constructor
      · rintro (hx | ⟨p, hp, hx⟩)
        · exact .inl hx
        · rcases (hinner p hp).1 hx with hx | ⟨b, hb, hx⟩
          · exact .inl (mem_nodes.2 ⟨p, (find?_eq_some hp).1, .inr hx⟩)
          · exact .inr ⟨b, (hat b).2 ⟨p, hp, hb⟩, hx⟩
      · rintro (hx | ⟨b, hb, hx⟩)
        · exact .inl hx
        · obtain ⟨p, hp, hb⟩ := (hat b).1 hb
          exact .inr ⟨p, hp, (hinner p hp).2 (.inr ⟨b, hb, hx⟩)⟩

/-! ### Placing a branch -/

theorem keeps_outputKey (key : String) : Keeps fun b => { b with outputKey := key } :=
  ⟨fun _ => rfl, fun _ => rfl, fun _ => rfl, fun _ => rfl⟩

theorem AllPlaced.place {before : List String} {bs : List Branch} (h : AllPlaced before bs)
    {b : Branch} (hb : Placed before b) (rename : Option String) :
    AllPlaced before (place bs b rename) := by
  unfold Branch.place
  split
  · next hnone =>
    rw [find?_eq_none_iff] at hnone
    refine ⟨?_, fun c hc => ?_⟩
    · simpa [List.nodup_append, h.names] using hnone
    · rcases List.mem_append.1 hc with hc | hc
      · exact h.placed c hc
      · exact List.mem_singleton.1 hc ▸ hb
  · split
    · next key =>
      refine h.modify (keeps_outputKey key) fun c hc => ?_
      obtain ⟨hmem, hname⟩ := find?_eq_some hc
      exact hname ▸ (h.placed c hmem).children
    · exact h

/-- A branch without children adds its node, where a branch of its name has its alias already. -/
theorem AllPlaced.mem_nodes_place {before : List String} {bs : List Branch} {x : String × String}
    (h : AllPlaced before bs) {b : Branch} (hb : Placed before b) (hleaf : b.children = [])
    (hsame : ∀ old ∈ bs, old.name = b.name → old.aliasName = b.aliasName) (rename : Option String) :
    x ∈ nodes (Branch.place bs b rename) ↔ x ∈ nodes bs ∨ x = (b.path, b.aliasName) := by
  have hold : ∀ old, find? bs b.name = some old → (b.path, b.aliasName) ∈ nodes bs := by
    intro old hfind
    obtain ⟨hmem, hname⟩ := find?_eq_some hfind
    refine mem_nodes.2 ⟨old, hmem, .inl ?_⟩
    rw [hb.path, (h.placed old hmem).path, hname, hsame old hmem hname]
  unfold Branch.place
  split
  · simp only [@mem_nodes (bs ++ [b]), List.mem_append, List.mem_singleton, or_and_right,
      exists_or, exists_eq_left, hleaf, ← mem_nodes]
    simp [nodes, walkAll]
  · next old hfind =>
    have hmem := hold old hfind
    split
    · next key =>
      rw [h.mem_nodes_modify (keeps_outputKey key) fun _ _ hx => hx]
      constructor
      · rintro (hx | ⟨c, hc, hx⟩)
        · exact .inl hx
        · exact .inl (mem_nodes.2 ⟨c, (find?_eq_some hc).1, .inr hx⟩)
      · rintro (hx | rfl)
        · exact .inl hx
        · exact .inl hmem
    · constructor
      · exact .inl
      · rintro (hx | rfl)
        · exact hx
        · exact hmem

end Branch

namespace Layout

open Branch

/-- A layout whose branches stand where their names put them. -/
def Placed (l : Layout) : Prop := AllPlaced [] l.branches

/-- The paths of the branches, each with its alias. -/
def nodes (l : Layout) : List (String × String) := Branch.nodes l.branches

theorem placed_empty : Layout.empty.Placed := ⟨.nil, by simp [Layout.empty]⟩

variable {l : Layout}

/-- The branch at a path is there exactly if some branch has the path. -/
theorem Placed.isSome_branch?_iff (h : l.Placed) (path : String) :
    (l.branch? path).isSome = true ↔ ∃ aliasName, (path, aliasName) ∈ l.nodes := by
  rw [Option.isSome_iff_exists]
  constructor
  · rintro ⟨b, hb⟩
    obtain ⟨hmem, hpath, -⟩ := AllPlaced.of_at? h hb
    rw [List.nil_append, Path.ofSegments_segments] at hpath
    exact ⟨b.aliasName, List.mem_map.2 ⟨b, hmem, by rw [hpath]⟩⟩
  · rintro ⟨aliasName, hnode⟩
    obtain ⟨b, hmem, hb⟩ := List.mem_map.1 hnode
    obtain ⟨segs, hat⟩ := AllPlaced.exists_at? h hmem
    obtain ⟨-, hpath, hne, hsegs⟩ := AllPlaced.of_at? h hat
    refine ⟨b, ?_⟩
    rw [branch?, ← (Prod.mk.inj hb).1, hpath, List.nil_append,
      Path.segments_ofSegments hne fun s hs => (hsegs s hs).2, hat]

/-- The parts of the path of a branch are paths of branches. -/
theorem Placed.exists_of_prefix (h : l.Placed) {segs : List String}
    (hsegs : ∀ s ∈ segs, Path.IsSegment s) {aliasName : String}
    (hnode : (Path.ofSegments segs, aliasName) ∈ l.nodes) {n : Nat} (hpos : 0 < n)
    (hn : n ≤ segs.length) : ∃ a, (Path.ofSegments (segs.take n), a) ∈ l.nodes := by
  have hne : segs ≠ [] := by
    rintro rfl
    rw [List.length_nil] at hn
    omega
  obtain ⟨b, hb⟩ := Option.isSome_iff_exists.1 ((h.isSome_branch?_iff _).2 ⟨aliasName, hnode⟩)
  rw [branch?, Path.segments_ofSegments hne fun s hs => (hsegs s hs).2] at hb
  obtain ⟨p, hp⟩ := at?_take hb hpos hn
  obtain ⟨hmem, hpath, -⟩ := AllPlaced.of_at? h hp
  exact ⟨p.aliasName, List.mem_map.2 ⟨p, hmem, by rw [hpath, List.nil_append]⟩⟩

/-- Nothing but columns of a branch changes. -/
theorem Placed.modifyColumns (h : l.Placed) (path : String)
    (f : List (String × String) → List (String × String)) :
    (l.modifyBranch path fun b => { b with columns := f b.columns }).Placed ∧
      ∀ x, x ∈ (l.modifyBranch path fun b => { b with columns := f b.columns }).nodes ↔
        x ∈ l.nodes := by
  have hkeeps : Keeps fun b => { b with columns := f b.columns } :=
    ⟨fun _ => rfl, fun _ => rfl, fun _ => rfl, fun _ => rfl⟩
  refine ⟨AllPlaced.modifyAt h hkeeps fun b hb => (AllPlaced.children_at? h hb :), fun x => ?_⟩
  rw [nodes, modifyBranch, AllPlaced.mem_nodes_modifyAt h hkeeps fun _ _ hx => hx]
  constructor
  · rintro (hx | ⟨b, hb, hx⟩)
    · exact hx
    · exact nodes_children_subset hb hx
  · exact .inl

/-- The branch that takes what is placed below a chain: none at the root, else the one at its end. -/
def Holds (l : Layout) (segs : List String) (holder : Option String) : Prop :=
  (segs = [] ∧ holder = none) ∨
    (segs ≠ [] ∧ holder = some (Path.ofSegments segs) ∧
      (l.branch? (Path.ofSegments segs)).isSome = true)

theorem holds_holder {l : Layout} {segs : List String} (hsegs : ∀ s ∈ segs, Path.IsSegment s)
    (hne : segs ≠ []) (hbranch : (l.branch? (Path.ofSegments segs)).isSome = true) :
    l.Holds segs (l.holder (Path.ofSegments segs)) := by
  have hpath : (Path.ofSegments segs).isEmpty = false := by
    simpa using mt (Path.ofSegments_eq_empty_iff hsegs).1 hne
  refine .inr ⟨hne, ?_, hbranch⟩
  rw [holder, hpath, hbranch]
  rfl

/-- Placing a branch without children below a chain adds its node. -/
theorem Placed.placeAt (h : l.Placed) {segs : List String} (hsegs : ∀ s ∈ segs, Path.IsSegment s)
    {holder : Option String} (hholder : l.Holds segs holder) {b : Branch} (hb : Branch.Placed segs b)
    (hleaf : b.children = []) (hsame : ∀ a, (b.path, a) ∈ l.nodes → a = b.aliasName)
    (rename : Option String) :
    (l.placeAt holder b rename).Placed ∧
      ∀ x, x ∈ (l.placeAt holder b rename).nodes ↔ x ∈ l.nodes ∨ x = (b.path, b.aliasName) := by
  have hlevel : ∀ bs, AllPlaced segs bs → Branch.nodes bs ⊆ l.nodes →
      ∀ old ∈ bs, old.name = b.name → old.aliasName = b.aliasName := by
    intro bs hbs hsubset old hold hname
    refine hsame _ (hsubset (mem_nodes.2 ⟨old, hold, .inl ?_⟩))
    rw [hb.path, (hbs.placed old hold).path, hname]
  rcases hholder with ⟨rfl, rfl⟩ | ⟨hne, rfl, hsome⟩
  · refine ⟨AllPlaced.place h hb rename, fun x => ?_⟩
    exact AllPlaced.mem_nodes_place h hb hleaf (hlevel _ h fun _ hx => hx) rename
  · have hpath : Path.segments (Path.ofSegments segs) = segs :=
      Path.segments_ofSegments hne fun s hs => (hsegs s hs).2
    have hplace : ∀ p, at? l.branches segs = some p → AllPlaced segs p.children ∧
        ∀ x, x ∈ Branch.nodes (place p.children b rename) ↔
          x ∈ Branch.nodes p.children ∨ x = (b.path, b.aliasName) := by
      intro p hp
      have hchildren : AllPlaced segs p.children := AllPlaced.children_at? h hp
      exact ⟨hchildren, fun x => hchildren.mem_nodes_place hb hleaf
        (hlevel _ hchildren (nodes_children_subset hp)) rename⟩
    have hkeeps := keeps_withChildren fun cs => place cs b rename
    rw [Layout.placeAt, modifyBranch, hpath]
    refine ⟨AllPlaced.modifyAt h hkeeps fun p hp => (hplace p hp).1.place hb rename, fun x => ?_⟩
    refine (AllPlaced.mem_nodes_modifyAt h hkeeps fun p hp hx =>
      ((hplace p hp).2 x).2 (.inl hx)).trans ?_
    constructor
    · rintro (hx | ⟨p, hp, hx⟩)
      · exact .inl hx
      · exact (((hplace p hp).2 x).1 hx).imp_left fun hx => nodes_children_subset hp hx
    · rintro (hx | hx)
      · exact .inl hx
      · obtain ⟨p, hp⟩ := Option.isSome_iff_exists.1 hsome
        rw [branch?, hpath] at hp
        exact .inr ⟨p, hp, ((hplace p hp).2 x).2 (.inr hx)⟩

end Layout

end EntityQuery

import EntityQuery.Proofs.Layout.Placement

/-! Layouts without their names: the branches with their columns, but no aliases and no output keys.
Planning changes the bare layout in the same way whatever names are asked for. -/

namespace EntityQuery

namespace Branch

/-! ### Maps of branches -/

theorem find?_map {e : Branch → Branch} (hname : ∀ b, (e b).name = b.name) (bs : List Branch)
    (name : String) : find? (bs.map e) name = (find? bs name).map e := by
  rw [find?, find?, List.find?_map]
  congr 2
  funext b
  rw [Function.comp_apply, hname]

/-- A change of a branch goes along with a map of the branches of its level. -/
theorem map_modify {e f f' : Branch → Branch} (hname : ∀ b, (e b).name = b.name)
    (hf : ∀ b, e (f b) = f' (e b)) (name : String) (bs : List Branch) :
    (modify name f bs).map e = modify name f' (bs.map e) := by
  induction bs with
  | nil => rfl
  | cons b rest ih =>
    rw [modify, List.map_cons, modify, hname]
    split
    · rw [List.map_cons, hf]
    · rw [List.map_cons, ih]

/-- A map of branches that keeps their names and maps what is below them in the same way. -/
structure Deep (e : Branch → Branch) : Prop where
  name : ∀ b, (e b).name = b.name
  children : ∀ b, (e b).children = b.children.map e
  withChildren : ∀ f f' b, (f b.children).map e = f' (b.children.map e) →
    e (withChildren f b) = withChildren f' (e b)

namespace Deep

variable {e : Branch → Branch}

theorem at?_map (he : Deep e) (bs : List Branch) (segs : List String) :
    at? (bs.map e) segs = (at? bs segs).map e := by
  induction segs generalizing bs with
  | nil => rfl
  | cons name rest ih =>
    by_cases hrest : rest = []
    · subst hrest
      exact find?_map he.name bs name
    · rw [at?_cons _ _ hrest, at?_cons _ _ hrest, find?_map he.name]
      cases find? bs name with
      | none => rfl
      | some b => exact (congrArg (at? · rest) (he.children b)).trans (ih b.children)

theorem map_modifyAt (he : Deep e) {f f' : Branch → Branch} (hf : ∀ b, e (f b) = f' (e b))
    (segs : List String) (bs : List Branch) :
    (modifyAt f segs bs).map e = modifyAt f' segs (bs.map e) := by
  induction segs generalizing bs with
  | nil => rfl
  | cons name rest ih =>
    by_cases hrest : rest = []
    · subst hrest
      exact map_modify he.name hf name bs
    · rw [modifyAt_cons f name hrest, modifyAt_cons f' name hrest]
      exact map_modify he.name (fun b => he.withChildren _ _ b (ih b.children)) name bs

end Deep

/-! ### Branches without names -/

mutual

/-- A branch without aliases and output keys, and all below it. -/
def bare : Branch → Branch
  | ⟨name, path, parentPath, _, _, columns, children⟩ =>
    ⟨name, path, parentPath, "", "", columns, bareAll children⟩

def bareAll : List Branch → List Branch
  | [] => []
  | b :: rest => bare b :: bareAll rest

end

theorem bareAll_eq_map (bs : List Branch) : bareAll bs = bs.map bare := by
  induction bs with
  | nil => rfl
  | cons b rest ih => rw [bareAll, ih, List.map_cons]

@[simp] theorem bare_name (b : Branch) : b.bare.name = b.name := by cases b; rfl

@[simp] theorem bare_children (b : Branch) : b.bare.children = bareAll b.children := by cases b; rfl

theorem deep_bare : Deep bare where
  name := bare_name
  children b := by rw [bare_children, bareAll_eq_map]
  withChildren f f' b h := by
    cases b
    rw [← bareAll_eq_map, ← bareAll_eq_map] at h
    exact congrArg (Branch.mk _ _ _ "" "" _) h

theorem find?_bareAll (bs : List Branch) (name : String) :
    find? (bareAll bs) name = (find? bs name).map bare := by
  rw [bareAll_eq_map, find?_map bare_name]

theorem at?_bareAll (bs : List Branch) (segs : List String) :
    at? (bareAll bs) segs = (at? bs segs).map bare := by
  rw [bareAll_eq_map, deep_bare.at?_map]

/-! ### Changes -/

/-- Changes of branches that come to the same once the names are taken off. -/
def Bares (f f' : Branch → Branch) : Prop := ∀ b, (f b).bare = f' b.bare

theorem bareAll_modify {f f' : Branch → Branch} (hf : Bares f f') (name : String)
    (bs : List Branch) : bareAll (modify name f bs) = modify name f' (bareAll bs) := by
  rw [bareAll_eq_map, bareAll_eq_map, map_modify bare_name hf]

theorem bareAll_modifyAt {f f' : Branch → Branch} (hf : Bares f f') (segs : List String)
    (bs : List Branch) : bareAll (modifyAt f segs bs) = modifyAt f' segs (bareAll bs) := by
  rw [bareAll_eq_map, bareAll_eq_map, deep_bare.map_modifyAt hf]

theorem modify_id (name : String) (bs : List Branch) : modify name id bs = bs := by
  induction bs with
  | nil => rfl
  | cons b rest ih => rw [modify, ih, id_eq, ite_self]

/-- Placing a branch leaves the bare one at the end, unless its name is there already. -/
theorem bareAll_place (bs : List Branch) (b : Branch) (rename : Option String) :
    bareAll (place bs b rename) = place (bareAll bs) b.bare none := by
  have hkey : ∀ key, Bares (fun old : Branch => { old with outputKey := key }) id := by
    rintro key ⟨⟩
    rfl
  unfold place
  rw [bare_name, find?_bareAll]
  cases find? bs b.name with
  | none =>
    show bareAll (bs ++ [b]) = bareAll bs ++ [b.bare]
    rw [bareAll_eq_map, bareAll_eq_map, List.map_append, List.map_singleton]
  | some _ =>
    cases rename with
    | none => rfl
    | some key => exact (bareAll_modify (hkey key) b.name bs).trans (modify_id b.name _)

end Branch

namespace Layout

/-- A layout without aliases and output keys of relations. -/
def bare (l : Layout) : Layout := ⟨l.rootColumns, Branch.bareAll l.branches⟩

variable {l l' : Layout}

theorem isSome_branch?_bare (l : Layout) (path : String) :
    (l.bare.branch? path).isSome = (l.branch? path).isSome := by
  rw [branch?, branch?, bare, Branch.at?_bareAll, Option.isSome_map]

theorem holder_bare (l : Layout) (path : String) : l.bare.holder path = l.holder path := by
  rw [holder, holder, isSome_branch?_bare]

theorem bare_modifyBranch {f f' : Branch → Branch} (hf : Branch.Bares f f') (l : Layout)
    (path : String) : (l.modifyBranch path f).bare = l.bare.modifyBranch path f' :=
  congrArg (Layout.mk l.rootColumns) (Branch.bareAll_modifyAt hf (Path.segments path) l.branches)

theorem bare_placeAt (l : Layout) (holder : Option String) (b : Branch) (rename : Option String) :
    (l.placeAt holder b rename).bare = l.bare.placeAt holder b.bare none := by
  cases holder with
  | none => exact congrArg (Layout.mk l.rootColumns) (Branch.bareAll_place l.branches b rename)
  | some path =>
    apply bare_modifyBranch
    rintro ⟨⟩
    exact congrArg (Branch.mk _ _ _ "" "" _) (Branch.bareAll_place _ b rename)

theorem bares_columns (f : List (String × String) → List (String × String)) :
    Branch.Bares (fun b => { b with columns := f b.columns })
      fun b => { b with columns := f b.columns } := by
  rintro ⟨⟩
  rfl

end Layout

end EntityQuery

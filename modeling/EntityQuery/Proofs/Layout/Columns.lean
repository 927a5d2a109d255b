import EntityQuery.Proofs.Layout.Views

/-! The columns of a layout, one map for each chain of names, and the layout without them. Setting a column
changes the map of one chain; placing a branch changes none, since a new branch has no columns. -/

namespace EntityQuery

namespace Branch

mutual

/-- A branch without columns, and all below it. -/
def blank : Branch → Branch
  | ⟨name, path, parentPath, aliasName, outputKey, _, children⟩ =>
    ⟨name, path, parentPath, aliasName, outputKey, [], blankAll children⟩

def blankAll : List Branch → List Branch
  | [] => []
  | b :: rest => blank b :: blankAll rest

end

theorem blankAll_eq_map (bs : List Branch) : blankAll bs = bs.map blank := by
  induction bs with
  | nil => rfl
  | cons b rest ih => rw [blankAll, ih, List.map_cons]

@[simp] theorem blank_name (b : Branch) : b.blank.name = b.name := by cases b; rfl

theorem deep_blank : Deep blank where
  name := blank_name
  children b := by
    rw [← blankAll_eq_map]
    cases b
    rfl
  withChildren f f' b h := by
    cases b
    rw [← blankAll_eq_map, ← blankAll_eq_map] at h
    exact congrArg (Branch.mk _ _ _ _ _ []) h

/-- A branch with other columns. -/
def withColumns (f : List (String × String) → List (String × String)) (b : Branch) : Branch :=
  { b with columns := f b.columns }

@[simp] theorem blank_withColumns (f : List (String × String) → List (String × String)) (b : Branch) :
    (b.withColumns f).blank = b.blank := by
  cases b
  rfl

theorem modifyAt_id (segs : List String) (bs : List Branch) : modifyAt id segs bs = bs := by
  induction segs generalizing bs with
  | nil => rfl
  | cons name rest ih =>
    by_cases hrest : rest = []
    · subst hrest
      exact modify_id name bs
    · have hchildren : withChildren (modifyAt id rest) = id := by
        funext b
        cases b
        rw [withChildren, ih, id_eq]
      rw [modifyAt_cons id name hrest, hchildren, modify_id]

theorem blankAll_modifyAt (f : List (String × String) → List (String × String)) (segs : List String)
    (bs : List Branch) : blankAll (modifyAt (withColumns f) segs bs) = blankAll bs := by
  have hsame : ∀ b, (withColumns f b).blank = id b.blank := blank_withColumns f
  rw [blankAll_eq_map, blankAll_eq_map, deep_blank.map_modifyAt hsame, modifyAt_id]

end Branch

namespace Level

open Branch

/-- The columns at the end of a chain of names below a level, none where no branch stands. -/
def columnsAt : Level → List String → List (String × String)
  | l, [] => l.columns
  | l, name :: rest =>
    match find? l.branches name with
    | none => []
    | some b => columnsAt b.level rest

variable {columns : List (String × String)} {bs : List Branch} {b : Branch} {segs : List String}

theorem columnsAt_of_none (columns : List (String × String)) {name : String}
    (h : find? bs name = none) (rest : List String) :
    columnsAt ⟨columns, bs⟩ (name :: rest) = [] := by
  rw [columnsAt, h]

theorem columnsAt_of_some (columns : List (String × String)) {name : String}
    (h : find? bs name = some b) (rest : List String) :
    columnsAt ⟨columns, bs⟩ (name :: rest) = columnsAt b.level rest := by
  rw [columnsAt, h]

theorem columnsAt_empty (segs : List String) : columnsAt ⟨[], []⟩ segs = [] := by
  cases segs <;> rfl

theorem columnsAt_of_at? (columns : List (String × String)) (h : at? bs segs = some b) :
    columnsAt ⟨columns, bs⟩ segs = b.columns := by
  induction segs generalizing columns bs with
  | nil => simp [at?] at h
  | cons name rest ih =>
    by_cases hrest : rest = []
    · subst hrest
      exact columnsAt_of_some columns h []
    · rw [at?_cons bs name hrest, Option.bind_eq_some_iff] at h
      obtain ⟨p, hp, h⟩ := h
      rw [columnsAt_of_some columns hp]
      exact ih p.columns h

/-- A change of the columns of one branch shows at its chain only. -/
theorem columnsAt_modifyAt (f : List (String × String) → List (String × String))
    (h : (at? bs segs).isSome = true) (segs' : List String) :
    columnsAt ⟨columns, modifyAt (withColumns f) segs bs⟩ segs' =
      if segs' = segs then f (columnsAt ⟨columns, bs⟩ segs') else columnsAt ⟨columns, bs⟩ segs' := by
  induction segs generalizing columns bs segs' with
  | nil => cases h
  | cons name rest ih =>
    cases segs' with
    | nil => rfl
    | cons name' rest' =>
      by_cases hrest : rest = []
      · subst hrest
        rw [modifyAt, columnsAt, columnsAt, find?_modify (f := withColumns f) fun _ => rfl]
        obtain ⟨b, hb⟩ := Option.isSome_iff_exists.1 h
        by_cases hname : name' = name
        · subst hname
          rw [if_pos rfl, show find? bs name' = some b from hb]
          cases rest' with
          | nil => rw [if_pos rfl]; rfl
          | cons _ _ => rw [if_neg (by simp)]; rfl
        · rw [if_neg hname, if_neg (by simp [hname])]
      · rw [modifyAt_cons _ name hrest, columnsAt, columnsAt, find?_modify (withChildren_name _)]
        rw [at?_cons bs name hrest] at h
        by_cases hname : name' = name
        · subst hname
          cases hfind : find? bs name' with
          | none => rw [hfind] at h; cases h
          | some b =>
            rw [hfind] at h
            have hbelow : columnsAt (withChildren (modifyAt (withColumns f) rest) b).level rest' =
                if rest' = rest then f (columnsAt b.level rest') else columnsAt b.level rest' :=
              ih h rest'
            simpa using hbelow
        · rw [if_neg hname, if_neg (by simp [hname])]

theorem columnsAt_place (hcolumns : b.columns = []) (hchildren : b.children = [])
    (rename : Option String) (segs : List String) :
    columnsAt ⟨columns, place bs b rename⟩ segs = columnsAt ⟨columns, bs⟩ segs := by
  cases segs with
  | nil => rfl
  | cons name rest =>
    cases hfind : find? bs b.name with
    | some old =>
      rw [place_of_some hfind, columnsAt, columnsAt, find?_modify (f := renamed rename) fun _ => rfl]
      by_cases hname : name = b.name
      · rw [if_pos hname]
        cases find? bs name <;> rfl
      · rw [if_neg hname]
    | none =>
      have hlevel : b.level = ⟨[], []⟩ := by rw [level, hcolumns, hchildren]
      have hadd : find? (bs ++ [b]) name = (find? bs name).or (find? [b] name) := List.find?_append
      rw [place_of_none hfind]
      cases hname : find? bs name with
      | some p =>
        rw [hname, Option.some_or] at hadd
        rw [columnsAt_of_some columns hname, columnsAt_of_some columns hadd]
      | none =>
        rw [hname, Option.none_or] at hadd
        rw [columnsAt_of_none columns hname]
        cases hb : find? [b] name with
        | none => exact columnsAt_of_none columns (hadd.trans hb) rest
        | some p =>
          have hp : p = b := List.mem_singleton.1 (find?_eq_some hb).1
          rw [columnsAt_of_some columns (hadd.trans hb), hp, hlevel, columnsAt_empty]

theorem columnsAt_changeAt {f : List Branch → List Branch}
    (hf : ∀ columns bs segs, columnsAt ⟨columns, f bs⟩ segs = columnsAt ⟨columns, bs⟩ segs)
    (before segs : List String) :
    columnsAt ⟨columns, changeAt f before bs⟩ segs = columnsAt ⟨columns, bs⟩ segs := by
  induction before generalizing columns bs segs with
  | nil => exact hf columns bs segs
  | cons name before ih =>
    cases segs with
    | nil => rfl
    | cons name' rest =>
      rw [changeAt, columnsAt, columnsAt, find?_modify (withChildren_name _)]
      by_cases hname : name' = name
      · rw [if_pos hname]
        cases find? bs name' with
        | none => rfl
        | some b => exact ih rest
      · rw [if_neg hname]

end Level

namespace Layout

variable {l l' : Layout}

/-- A layout without its columns. -/
def blank (l : Layout) : Layout := ⟨[], Branch.blankAll l.branches⟩

theorem isSome_branch?_blank (l : Layout) (path : String) :
    (l.blank.branch? path).isSome = (l.branch? path).isSome := by
  rw [branch?, branch?, blank, Branch.blankAll_eq_map, Branch.deep_blank.at?_map, Option.isSome_map]

/-- Layouts that differ in columns only have branches at the same paths. -/
theorem isSome_branch?_of_blank (h : l.blank = l'.blank) (path : String) :
    (l.branch? path).isSome = (l'.branch? path).isSome := by
  rw [← isSome_branch?_blank, h, isSome_branch?_blank]

/-- The columns at a chain of names, those of the root at the empty one. -/
def columnsAt (l : Layout) (segs : List String) : List (String × String) := l.level.columnsAt segs

theorem columnsAt_placeAt {b : Branch} (hcolumns : b.columns = []) (hchildren : b.children = [])
    (l : Layout) (holder rename : Option String) (segs : List String) :
    (l.placeAt holder b rename).columnsAt segs = l.columnsAt segs := by
  cases holder with
  | none => exact Level.columnsAt_place hcolumns hchildren rename segs
  | some path =>
    have hplace : (l.placeAt (some path) b rename).branches =
        Branch.changeAt (Branch.place · b rename) (Path.segments path) l.branches :=
      Branch.modifyAt_withChildren (Branch.place · b rename) (Path.segments_ne_nil path) l.branches
    show Level.columnsAt ⟨l.rootColumns, (l.placeAt (some path) b rename).branches⟩ segs = _
    rw [hplace]
    exact Level.columnsAt_changeAt
      (fun _ _ => Level.columnsAt_place hcolumns hchildren rename) (Path.segments path) segs

/-! ### Setting a column -/

/-- The chain of names at which the columns of a path are set. -/
def chainOf (path : String) : List String := if path = "" then [] else Path.segments path

theorem chainOf_of_ne {path : String} (h : path ≠ "") : chainOf path = Path.segments path := if_neg h

theorem chainOf_inj {path path' : String} (h : chainOf path = chainOf path') :
    path = path' := by
  unfold chainOf at h
  split at h <;> split at h
  · next hpath hpath' => rw [hpath, hpath']
  · exact absurd h.symm (Path.segments_ne_nil path')
  · exact absurd h (Path.segments_ne_nil path)
  · rw [← Path.ofSegments_segments path, h, Path.ofSegments_segments]

/-- Sets the columns of the root, for the empty path, or else of the branch at a path. -/
def withColumns (l : Layout) (path : String) (f : List (String × String) → List (String × String)) :
    Layout :=
  if path = "" then { l with rootColumns := f l.rootColumns }
  else l.modifyBranch path (Branch.withColumns f)

theorem blank_withColumns (l : Layout) (path : String)
    (f : List (String × String) → List (String × String)) : (l.withColumns path f).blank = l.blank := by
  unfold withColumns
  split
  · rfl
  · exact congrArg (Layout.mk []) (Branch.blankAll_modifyAt f (Path.segments path) l.branches)

theorem columnsAt_withColumns {path : String} (h : path = "" ∨ (l.branch? path).isSome = true)
    (f : List (String × String) → List (String × String)) (segs : List String) :
    (l.withColumns path f).columnsAt segs =
      if segs = chainOf path then f (l.columnsAt segs) else l.columnsAt segs := by
  by_cases hpath : path = ""
  · subst hpath
    rw [withColumns, if_pos rfl, chainOf, if_pos rfl]
    cases segs with
    | nil => rfl
    | cons name rest => exact (if_neg (by simp)).symm
  · rw [withColumns, if_neg hpath, chainOf_of_ne hpath]
    exact Level.columnsAt_modifyAt f (h.resolve_left hpath) segs

end Layout

end EntityQuery

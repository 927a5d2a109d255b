import EntityQuery.Proofs.Layout.Bare
import EntityQuery.Proofs.Layout.Levels

/-! Layouts seen level by level. A view shows the branches at the end of a chain of names without what is
below them; placing a branch changes the view at one chain and opens one more, and a layout without
repeated names is known from its views. -/

namespace EntityQuery

namespace Branch

/-- A branch without the branches below it. -/
def leaf (b : Branch) : Branch := { b with children := [] }

/-- The branches below the end of a chain of names. -/
def childrenAt : List Branch → List String → Option (List Branch)
  | bs, [] => some bs
  | bs, name :: rest => (find? bs name).bind fun b => childrenAt b.children rest

/-- The branches below the end of a chain, each without what is below it. -/
def view (bs : List Branch) (segs : List String) : Option (List Branch) :=
  (childrenAt bs segs).map (·.map leaf)

variable {bs : List Branch} {b : Branch} {name : String} {segs : List String}

@[simp] theorem leaf_name (b : Branch) : b.leaf.name = b.name := rfl

theorem withChildren_name (f : List Branch → List Branch) (b : Branch) :
    (withChildren f b).name = b.name := rfl

theorem view_cons (bs : List Branch) (name : String) (rest : List String) :
    view bs (name :: rest) = (find? bs name).bind fun b => view b.children rest := by
  rw [view, childrenAt, Option.map_bind]
  rfl

theorem view_of_nil (segs : List String) : view [] segs = if segs = [] then some [] else none := by
  cases segs <;> rfl

/-- What stands at the end of a chain stands below the chain before. -/
theorem at?_concat (bs : List Branch) (before : List String) (name : String) :
    at? bs (before ++ [name]) = (childrenAt bs before).bind (find? · name) := by
  induction before generalizing bs with
  | nil => rfl
  | cons s before ih =>
    rw [List.cons_append, at?_cons bs s (by simp), childrenAt, Option.bind_assoc]
    exact congrArg _ (funext fun b => ih b.children)

theorem childrenAt_of_at? (h : at? bs segs = some b) : childrenAt bs segs = some b.children := by
  induction segs generalizing bs with
  | nil => simp [at?] at h
  | cons name rest ih =>
    by_cases hrest : rest = []
    · subst hrest
      rw [childrenAt, show find? bs name = some b from h]
      rfl
    · rw [at?_cons bs name hrest, Option.bind_eq_some_iff] at h
      obtain ⟨p, hp, h⟩ := h
      rw [childrenAt, hp, Option.bind_some, ih h]

theorem find?_map_leaf (bs : List Branch) (name : String) :
    find? (bs.map leaf) name = (find? bs name).map leaf :=
  List.find?_map ..

theorem map_leaf_at?_concat (bs : List Branch) (before : List String) (name : String) :
    (at? bs (before ++ [name])).map leaf = (view bs before).bind (find? · name) := by
  rw [at?_concat, view, Option.map_bind, Option.bind_map]
  exact congrArg _ (funext fun bs => (find?_map_leaf bs name).symm)

/-! ### Changes below a chain -/

/-- Changes the branches below the end of a chain of names. -/
def changeAt (f : List Branch → List Branch) : List String → List Branch → List Branch
  | [], bs => f bs
  | name :: rest, bs => modify name (withChildren (changeAt f rest)) bs

theorem modifyAt_withChildren (f : List Branch → List Branch) (hne : segs ≠ []) (bs : List Branch) :
    modifyAt (withChildren f) segs bs = changeAt f segs bs := by
  induction segs generalizing bs with
  | nil => exact absurd rfl hne
  | cons name rest ih =>
    by_cases hrest : rest = []
    · subst hrest
      rfl
    · rw [modifyAt_cons _ name hrest, changeAt, funext fun bs => ih hrest bs]

theorem find?_cons (b : Branch) (rest : List Branch) (name : String) :
    find? (b :: rest) name = if b.name = name then some b else find? rest name := by
  rw [find?, List.find?_cons]
  split
  · next h => rw [if_pos (of_decide_eq_true h)]
  · next h => rw [if_neg (of_decide_eq_false h), find?]

theorem find?_modify {f : Branch → Branch} (hf : ∀ b, (f b).name = b.name) (bs : List Branch)
    (name other : String) : find? (modify name f bs) other =
      if other = name then (find? bs other).map f else find? bs other := by
  induction bs with
  | nil =>
    rw [modify]
    split <;> rfl
  | cons b rest ih =>
    rw [modify]
    by_cases hb : b.name = name
    · rw [if_pos hb, find?_cons, find?_cons, hf, hb]
      by_cases hother : other = name
      · rw [if_pos hother.symm, if_pos hother, if_pos hother.symm, Option.map_some]
      · rw [if_neg (Ne.symm hother), if_neg hother, if_neg (Ne.symm hother)]
    · rw [if_neg hb, find?_cons, find?_cons, ih]
      by_cases hother : b.name = other
      · rw [if_pos hother, if_pos hother, if_neg fun h => hb (hother.trans h)]
      · rw [if_neg hother, if_neg hother]

theorem map_leaf_modify {f f' : Branch → Branch} (hf : ∀ b, (f b).leaf = f' b.leaf) (name : String)
    (bs : List Branch) : (modify name f bs).map leaf = modify name f' (bs.map leaf) := by
  induction bs with
  | nil => rfl
  | cons b rest ih =>
    rw [modify, List.map_cons, modify, leaf_name]
    split
    · rw [List.map_cons, hf]
    · rw [List.map_cons, ih]

theorem map_leaf_modify_withChildren (f : List Branch → List Branch) (name : String)
    (bs : List Branch) : (modify name (withChildren f) bs).map leaf = bs.map leaf := by
  have hsame : ∀ b, (withChildren f b).leaf = id b.leaf := fun _ => rfl
  rw [map_leaf_modify hsame, modify_id]

/-- A branch under another output name, where one is asked for. -/
def renamed (rename : Option String) (b : Branch) : Branch :=
  { b with outputKey := rename.getD b.outputKey }

theorem place_of_none (h : find? bs b.name = none) (rename : Option String) :
    place bs b rename = bs ++ [b] := by
  unfold place
  rw [h]

/-- Placing a branch whose name is there renames the output of the one that has it. -/
theorem place_of_some {old : Branch} (h : find? bs b.name = some old) (rename : Option String) :
    place bs b rename = modify b.name (renamed rename) bs := by
  have hid : renamed none = id := by
    funext b
    cases b
    rfl
  unfold place
  rw [h]
  cases rename with
  | none => rw [hid, modify_id]
  | some key => rfl

theorem map_leaf_place (hb : b.children = []) (rename : Option String) (bs : List Branch) :
    (place bs b rename).map leaf = place (bs.map leaf) b rename := by
  have hleaf : b.leaf = b := by
    cases b
    cases hb
    rfl
  have hfind' := find?_map_leaf bs b.name
  cases hfind : find? bs b.name with
  | none =>
    rw [hfind] at hfind'
    rw [place_of_none hfind, place_of_none hfind', List.map_append, List.map_singleton, hleaf]
  | some old =>
    rw [hfind] at hfind'
    rw [place_of_some hfind, place_of_some hfind']
    exact map_leaf_modify (f := renamed rename) (fun _ => rfl) b.name bs

/-- Placing a branch opens a view below it and leaves the other views below branches alone. -/
theorem view_place_cons (hb : b.children = []) (rename : Option String) (bs : List Branch)
    (name : String) (rest : List String) : view (place bs b rename) (name :: rest) =
      if name :: rest = [b.name] then some ((view bs (name :: rest)).getD [])
      else view bs (name :: rest) := by
  cases hfind : find? bs b.name with
  | some old =>
    have hview : view (place bs b rename) (name :: rest) = view bs (name :: rest) := by
      rw [place_of_some hfind, view_cons, view_cons, find?_modify (f := renamed rename) fun _ => rfl]
      split
      · cases find? bs name <;> rfl
      · rfl
    rw [hview]
    split
    · next heq =>
      obtain ⟨rfl, rfl⟩ := List.cons_eq_cons.1 heq
      rw [view_cons, hfind]
      rfl
    · rfl
  | none =>
    rw [place_of_none hfind, view_cons, view_cons]
    by_cases hname : name = b.name
    · subst hname
      have hnew : find? (bs ++ [b]) b.name = some b := by
        rw [find?, List.find?_append, ← find?, hfind]
        simp
      rw [hnew, hfind, Option.bind_some, hb, view_of_nil]
      cases rest <;> simp
    · have hold : find? (bs ++ [b]) name = find? bs name := by
        rw [find?, List.find?_append, ← find?]
        simp [Ne.symm hname]
      rw [hold, if_neg (by simp [hname])]

/-- Placing a branch below a chain changes the view there, and opens one below the branch. -/
theorem view_changeAt_place (hb : b.children = []) (rename : Option String)
    (h : (childrenAt bs segs).isSome = true) (segs' : List String) :
    view (changeAt (place · b rename) segs bs) segs' =
      if segs' = segs then (view bs segs).map (place · b rename)
      else if segs' = segs ++ [b.name] then some ((view bs segs').getD [])
      else view bs segs' := by
  induction segs generalizing bs segs' with
  | nil =>
    cases segs' with
    | nil => exact congrArg some (map_leaf_place hb rename bs)
    | cons name rest =>
      rw [if_neg (by simp)]
      exact view_place_cons hb rename bs name rest
  | cons name segs ih =>
    rw [changeAt]
    cases segs' with
    | nil => exact congrArg some (map_leaf_modify_withChildren _ name bs)
    | cons name' rest =>
      rw [view_cons, view_cons, find?_modify (withChildren_name _)]
      by_cases hname : name' = name
      · subst hname
        rw [childrenAt] at h
        cases hfind : find? bs name' with
        | none =>
          rw [hfind] at h
          cases h
        | some p =>
          rw [hfind, Option.bind_some] at h
          rw [view_cons, hfind, if_pos rfl, Option.map_some, Option.bind_some, Option.bind_some,
            Option.bind_some]
          simp only [List.cons_append, List.cons.injEq, true_and]
          exact ih h rest
      · rw [if_neg hname, if_neg fun h => hname (List.cons.inj h).1, List.cons_append,
          if_neg fun h => hname (List.cons.inj h).1, view_cons]

/-! ### Extensionality -/

/-- Branches without repeated names, at any level, are known from their views. -/
theorem AllDistinct.ext_of {bs bs' : List Branch} (hbs : AllDistinct bs) (hbs' : AllDistinct bs')
    (hchildren : ∀ b ∈ bs, ∀ b', b'.Distinct → b.leaf = b'.leaf →
      (∀ segs, view b.children segs = view b'.children segs) → b = b')
    (h : ∀ segs, view bs segs = view bs' segs) : bs = bs' := by
  have hleaves : bs.map leaf = bs'.map leaf := Option.some.inj (h [])
  have hlength : bs.length = bs'.length := by simpa using congrArg List.length hleaves
  refine List.ext_getElem hlength fun n hn hn' => ?_
  have hleaf : bs[n].leaf = bs'[n].leaf := by
    have hget := congrArg (·[n]?) hleaves
    simpa [hn, hn'] using hget
  have hname : bs'[n].name = bs[n].name := congrArg (fun b => b.name) hleaf.symm
  refine hchildren _ (List.getElem_mem hn) _ (hbs'.distinct _ (List.getElem_mem hn')) hleaf fun segs => ?_
  have hview := h (bs[n].name :: segs)
  rwa [view_cons, view_cons, find?_of_mem hbs.names (List.getElem_mem hn), ← hname,
    find?_of_mem hbs'.names (List.getElem_mem hn'), Option.bind_some, Option.bind_some] at hview

theorem Distinct.ext {b : Branch} (hb : b.Distinct) : ∀ b', b'.Distinct → b.leaf = b'.leaf →
    (∀ segs, view b.children segs = view b'.children segs) → b = b' := by
  induction hb with
  | @mk b hlevel hdistinct ih =>
    intro b' hb' hleaf h
    have hchildren : b.children = b'.children :=
      AllDistinct.ext_of ⟨hlevel.branches, hdistinct⟩ (distinct_iff.1 hb').2 ih h
    cases b
    cases b'
    simp_all [leaf]

theorem AllDistinct.ext {bs bs' : List Branch} (hbs : AllDistinct bs) (hbs' : AllDistinct bs')
    (h : ∀ segs, view bs segs = view bs' segs) : bs = bs' :=
  hbs.ext_of hbs' (fun b hb => (hbs.distinct b hb).ext) h

end Branch

namespace Layout

/-- The branches below a chain of names, each without what is below it. -/
def view (l : Layout) (segs : List String) : Option (List Branch) := Branch.view l.branches segs

variable {l : Layout} {segs : List String} {b : Branch}

/-- Placing a branch below a chain changes the view there, and opens one below the branch. -/
theorem view_placeAt (hsegs : segs ≠ [] → Path.segments (Path.ofSegments segs) = segs)
    {holder : Option String} (h : l.Holds segs holder) (hb : b.children = []) (rename : Option String)
    (segs' : List String) : (l.placeAt holder b rename).view segs' =
      if segs' = segs then (l.view segs).map (Branch.place · b rename)
      else if segs' = segs ++ [b.name] then some ((l.view segs').getD [])
      else l.view segs' := by
  rcases h with ⟨rfl, rfl⟩ | ⟨hne, rfl, hsome⟩
  · have hroot : (Branch.childrenAt l.branches []).isSome = true := rfl
    exact Branch.view_changeAt_place hb rename hroot segs'
  · have hpath := hsegs hne
    have hchildren : (Branch.childrenAt l.branches segs).isSome = true := by
      rw [branch?, hpath] at hsome
      obtain ⟨p, hp⟩ := Option.isSome_iff_exists.1 hsome
      rw [Branch.childrenAt_of_at? hp]
      rfl
    have hbranches : (l.placeAt (some (Path.ofSegments segs)) b rename).branches =
        Branch.changeAt (Branch.place · b rename) segs l.branches := by
      rw [← Branch.modifyAt_withChildren _ hne, placeAt, modifyBranch, hpath]
      rfl
    rw [view, hbranches]
    exact Branch.view_changeAt_place hb rename hchildren segs'

@[simp] theorem rootColumns_placeAt (l : Layout) (holder : Option String) (b : Branch)
    (rename : Option String) : (l.placeAt holder b rename).rootColumns = l.rootColumns := by
  cases holder <;> rfl

/-- The branch at the end of a chain as the view before its last name shows it. -/
theorem map_leaf_branch? (l : Layout) {path name : String} {before : List String}
    (h : Path.segments path = before ++ [name]) :
    (l.branch? path).map Branch.leaf = (l.view before).bind (Branch.find? · name) := by
  rw [branch?, h]
  exact Branch.map_leaf_at?_concat l.branches before name

theorem Distinct.ext {l l' : Layout} (hl : l.Distinct) (hl' : l'.Distinct)
    (hroot : l.rootColumns = l'.rootColumns) (h : ∀ segs, l.view segs = l'.view segs) : l = l' := by
  have hbranches : l.branches = l'.branches := hl.branches.ext hl'.branches h
  cases l
  cases l'
  exact congr (congrArg Layout.mk hroot) hbranches

end Layout

end EntityQuery

import EntityQuery.Proofs.Layout.Columns

/-! Layouts in outline: which names stand at the end of a chain of names, each with the path of its branch.
Placing a branch adds one name at the end of one level and opens a level below it; columns do not show.
So branches stand where their paths say, and those of one level stay in the order in which they came. -/

namespace EntityQuery

namespace Branch

theorem Deep.childrenAt_map {e : Branch → Branch} (he : Deep e) (bs : List Branch)
    (segs : List String) : childrenAt (bs.map e) segs = (childrenAt bs segs).map (·.map e) := by
  induction segs generalizing bs with
  | nil => rfl
  | cons name rest ih =>
    rw [childrenAt, childrenAt, find?_map he.name]
    cases find? bs name with
    | none => rfl
    | some b => exact (congrArg (childrenAt · rest) (he.children b)).trans (ih b.children)

theorem blank_path (b : Branch) : b.blank.path = b.path := by
  cases b
  rfl

/-- The name of a branch with its path. -/
def entry (b : Branch) : String × String := (b.name, b.path)

@[simp] theorem entry_fst (b : Branch) : b.entry.1 = b.name := rfl

theorem entry_blank (b : Branch) : b.blank.entry = b.entry := by
  rw [entry, entry, blank_name, blank_path]

/-- The names at the end of a chain, each with the path of its branch. -/
def outline (bs : List Branch) (segs : List String) : Option (List (String × String)) :=
  (childrenAt bs segs).map (·.map entry)

variable {bs : List Branch} {b : Branch} {segs before : List String} {name : String}

theorem outline_eq_map_view (bs : List Branch) (segs : List String) :
    outline bs segs = (view bs segs).map (·.map entry) := by
  rw [outline, view, Option.map_map]
  congr 1
  funext cs
  rw [Function.comp_apply, List.map_map]
  rfl

theorem outline_cons (bs : List Branch) (name : String) (rest : List String) :
    outline bs (name :: rest) = (find? bs name).bind fun b => outline b.children rest := by
  rw [outline, childrenAt, Option.map_bind]
  rfl

theorem outline_blankAll (bs : List Branch) (segs : List String) :
    outline (blankAll bs) segs = outline bs segs := by
  rw [outline, outline, blankAll_eq_map, deep_blank.childrenAt_map, Option.map_map]
  congr 1
  funext cs
  rw [Function.comp_apply, List.map_map]
  exact List.map_congr_left fun b _ => entry_blank b

theorem map_entry_modify {f : Branch → Branch} (hf : ∀ b, (f b).entry = b.entry) (name : String)
    (bs : List Branch) : (modify name f bs).map entry = bs.map entry := by
  induction bs with
  | nil => rfl
  | cons b rest ih =>
    rw [modify]
    split
    · rw [List.map_cons, hf, List.map_cons]
    · rw [List.map_cons, ih, List.map_cons]

/-- Placing a branch adds its entry at the end, unless its name is there. -/
theorem map_entry_place (bs : List Branch) (b : Branch) (rename : Option String) :
    (place bs b rename).map entry =
      if b.name ∈ (bs.map entry).map Prod.fst then bs.map entry else bs.map entry ++ [b.entry] := by
  have hnames : (bs.map entry).map Prod.fst = bs.map (·.name) := List.map_map
  rw [hnames]
  split
  · next hmem =>
    obtain ⟨old, hold⟩ := Option.ne_none_iff_exists'.1 (mt find?_eq_none_iff.1 (not_not_intro hmem))
    rw [place_of_some hold]
    exact map_entry_modify (f := renamed rename) (fun _ => rfl) b.name bs
  · next hmem => rw [place_of_none (find?_eq_none_iff.2 hmem), List.map_append, List.map_singleton]

theorem isSome_at?_concat_iff : (at? bs (before ++ [name])).isSome = true ↔
    ∃ entries, outline bs before = some entries ∧ name ∈ entries.map Prod.fst := by
  rw [at?_concat, outline]
  cases childrenAt bs before with
  | none => simp
  | some cs =>
    have hfind := @find?_eq_none_iff cs name
    simp only [Option.bind_some, Option.map_some, Option.some.injEq, exists_eq_left', List.map_map]
    rw [← not_iff_not, Bool.not_eq_true, Option.isSome_eq_false_iff, Option.isNone_iff_eq_none, hfind]
    rfl

theorem entry_mem_outline (h : at? bs (before ++ [name]) = some b) :
    ∃ entries, outline bs before = some entries ∧ (name, b.path) ∈ entries := by
  rw [at?_concat, Option.bind_eq_some_iff] at h
  obtain ⟨cs, hcs, hb⟩ := h
  obtain ⟨hmem, rfl⟩ := find?_eq_some hb
  exact ⟨cs.map entry, by rw [outline, hcs, Option.map_some], List.mem_map_of_mem hmem⟩

end Branch

namespace Layout

open Branch

variable {l l' l'' : Layout} {segs : List String} {holder : Option String} {b : Branch}

def outline (l : Layout) (segs : List String) : Option (List (String × String)) :=
  Branch.outline l.branches segs

theorem outline_of_blank (h : l.blank = l'.blank) (segs : List String) :
    l.outline segs = l'.outline segs := by
  have hbranches : blankAll l.branches = blankAll l'.branches := congrArg branches h
  rw [outline, outline, ← outline_blankAll, hbranches, outline_blankAll]

/-- Placing a branch below a chain adds its entry there, and opens a level below the branch. -/
theorem outline_placeAt (hsegs : segs ≠ [] → Path.segments (Path.ofSegments segs) = segs)
    (h : l.Holds segs holder) (hb : b.children = []) (rename : Option String) (segs' : List String) :
    (l.placeAt holder b rename).outline segs' =
      if segs' = segs then (l.outline segs).map fun entries =>
        if b.name ∈ entries.map Prod.fst then entries else entries ++ [b.entry]
      else if segs' = segs ++ [b.name] then some ((l.outline segs').getD [])
      else l.outline segs' := by
  have hview := l.view_placeAt hsegs h hb rename segs'
  simp only [outline, outline_eq_map_view]
  rw [← view, hview]
  split
  · rw [← view, Option.map_map, Option.map_map]
    congr 1
    funext cs
    exact map_entry_place cs b rename
  · split
    · rw [← view]
      cases l.view segs' <;> rfl
    · rfl

/-! ### Chains of paths -/

theorem segments_ofSegments_chainOf (path : String) :
    chainOf path ≠ [] → Path.segments (Path.ofSegments (chainOf path)) = chainOf path := by
  intro hne
  have hpath : path ≠ "" := fun h => hne (if_pos h)
  rw [chainOf_of_ne hpath, Path.ofSegments_segments]

/-- A step to an undotted name adds it to the chain of a path. -/
theorem segments_child {name : String} (hname : '.' ∉ name.toList) (path : String) :
    Path.segments (Path.child path name) = chainOf path ++ [name] := by
  have hundotted : ∀ s ∈ chainOf path ++ [name], '.' ∉ s.toList := by
    rw [List.forall_mem_append, List.forall_mem_singleton]
    refine ⟨fun s hs => ?_, hname⟩
    rw [← segments_ofSegments_chainOf path (List.ne_nil_of_mem hs)] at hs
    exact Path.not_mem_of_mem_segments hs
  have hchild : Path.child path name = Path.ofSegments (chainOf path ++ [name]) := by
    by_cases hpath : path = ""
    · subst hpath
      simp [Path.child, chainOf, Path.ofSegments, Path.joinDots]
    · rw [chainOf_of_ne hpath, Path.ofSegments_append_singleton (Path.segments_ne_nil path),
        Path.ofSegments_segments, Path.child, if_neg (by simpa using hpath)]
  rw [hchild, Path.segments_ofSegments (by simp) hundotted]

/-- What is placed below a path that has a branch, or below the empty one, goes to the end of its chain. -/
theorem holds_chainOf {path : String} (h : path = "" ∨ (l.branch? path).isSome = true) :
    l.Holds (chainOf path) (l.holder path) := by
  by_cases hpath : path = ""
  · subst hpath
    exact .inl ⟨rfl, rfl⟩
  · have hsome := h.resolve_left hpath
    have hempty : path.isEmpty = false := by simpa using hpath
    rw [chainOf_of_ne hpath]
    refine .inr ⟨Path.segments_ne_nil path, ?_, ?_⟩
    · rw [holder, hempty, hsome, Path.ofSegments_segments]
      rfl
    · rw [Path.ofSegments_segments, hsome]

/-! ### Where branches stand -/

/-- At each level names are distinct, and the path of a branch is the chain of names that leads to it. -/
def Addressed (l : Layout) : Prop := ∀ segs entries, l.outline segs = some entries →
  (entries.map Prod.fst).Nodup ∧ ∀ e ∈ entries, Path.segments e.2 = segs ++ [e.1]

theorem addressed_empty : empty.Addressed := by
  intro segs entries h
  cases segs with
  | nil =>
    obtain rfl := Option.some.inj h
    exact ⟨.nil, by simp [empty]⟩
  | cons name rest => cases h

theorem Addressed.of_blank (h : l.Addressed) (hblank : l'.blank = l.blank) : l'.Addressed :=
  fun segs entries hentries => h segs entries ((outline_of_blank hblank segs).symm.trans hentries)

theorem Addressed.placeAt (h : l.Addressed)
    (hsegs : segs ≠ [] → Path.segments (Path.ofSegments segs) = segs) (hholds : l.Holds segs holder)
    (hb : b.children = []) (hpath : Path.segments b.path = segs ++ [b.name]) (rename : Option String) :
    (l.placeAt holder b rename).Addressed := by
  intro segs' entries hentries
  rw [outline_placeAt hsegs hholds hb] at hentries
  split at hentries
  · next heq =>
    subst heq
    obtain ⟨old, hold, rfl⟩ := Option.map_eq_some_iff.1 hentries
    obtain ⟨hnodup, hpaths⟩ := h _ old hold
    split
    · exact ⟨hnodup, hpaths⟩
    · next hnew =>
      constructor
      · rw [List.map_append, List.map_singleton, ← List.concat_eq_append]
        exact hnodup.concat hnew
      · rw [List.forall_mem_append, List.forall_mem_singleton]
        exact ⟨hpaths, hpath⟩
  · split at hentries
    · obtain rfl := Option.some.inj hentries
      cases hold : l.outline segs' with
      | none => exact ⟨.nil, by simp⟩
      | some old => exact h segs' old hold
    · exact h segs' entries hentries

/-- A branch that a chain of names leads to has the chain for its path. -/
theorem Addressed.segments_path (h : l.Addressed) (hat : at? l.branches segs = some b) :
    Path.segments b.path = segs := by
  rcases List.eq_nil_or_concat segs with rfl | ⟨before, name, rfl⟩
  · cases hat
  · rw [List.concat_eq_append] at hat ⊢
    obtain ⟨entries, hentries, hmem⟩ := entry_mem_outline hat
    exact (h before entries hentries).2 _ hmem

/-! ### What is added -/

/-- A layout with further branches, at each level after those that stood there. -/
def Grows (l l' : Layout) : Prop := ∀ segs entries, l.outline segs = some entries →
  ∃ more, l'.outline segs = some (entries ++ more)

namespace Grows

theorem of_outline (h : ∀ segs, l'.outline segs = l.outline segs) : l.Grows l' :=
  fun segs entries hentries => ⟨[], by rw [h, hentries, List.append_nil]⟩

theorem refl (l : Layout) : l.Grows l := of_outline fun _ => rfl

theorem of_blank (h : l'.blank = l.blank) : l.Grows l' := of_outline (outline_of_blank h)

theorem trans (h : l.Grows l') (h' : l'.Grows l'') : l.Grows l'' := by
  intro segs entries hentries
  obtain ⟨more, hmore⟩ := h segs entries hentries
  obtain ⟨more', hmore'⟩ := h' segs _ hmore
  exact ⟨more ++ more', by rw [hmore', List.append_assoc]⟩

theorem isSome_branch? (h : l.Grows l') {path : String} (hsome : (l.branch? path).isSome = true) :
    (l'.branch? path).isSome = true := by
  obtain ⟨before, name, hpath⟩ := Path.exists_segments_eq_concat path
  rw [branch?, hpath, isSome_at?_concat_iff] at hsome ⊢
  obtain ⟨entries, hentries, hmem⟩ := hsome
  obtain ⟨more, hmore⟩ := h before entries hentries
  refine ⟨_, hmore, ?_⟩
  rw [List.map_append]
  exact List.mem_append_left _ hmem

theorem holds (h : l.Grows l') (hholds : l.Holds segs holder) : l'.Holds segs holder :=
  hholds.imp_right fun ⟨hne, hholder, hsome⟩ => ⟨hne, hholder, h.isSome_branch? hsome⟩

theorem placeAt (hsegs : segs ≠ [] → Path.segments (Path.ofSegments segs) = segs)
    (hholds : l.Holds segs holder) (hb : b.children = []) (rename : Option String) :
    l.Grows (l.placeAt holder b rename) := by
  intro segs' entries hentries
  rw [outline_placeAt hsegs hholds hb]
  split
  · next heq =>
    rw [← heq, hentries, Option.map_some]
    split
    · exact ⟨[], by rw [List.append_nil]⟩
    · exact ⟨[b.entry], rfl⟩
  · split <;> exact ⟨[], by simp [hentries]⟩

end Grows

/-- A branch that was placed is found at the end of its chain. -/
theorem isSome_at?_placeAt (hsegs : segs ≠ [] → Path.segments (Path.ofSegments segs) = segs)
    (hholds : l.Holds segs holder) (hb : b.children = []) (rename : Option String) :
    (at? (l.placeAt holder b rename).branches (segs ++ [b.name])).isSome = true := by
  have hlevel : (l.outline segs).isSome = true := by
    rcases hholds with ⟨rfl, -⟩ | ⟨hne, -, hsome⟩
    · rfl
    · rw [branch?, hsegs hne] at hsome
      obtain ⟨p, hp⟩ := Option.isSome_iff_exists.1 hsome
      rw [outline, Branch.outline, childrenAt_of_at? hp]
      rfl
  obtain ⟨entries, hentries⟩ := Option.isSome_iff_exists.1 hlevel
  have hplaced := outline_placeAt hsegs hholds hb rename segs
  rw [if_pos rfl, hentries, Option.map_some] at hplaced
  refine isSome_at?_concat_iff.2 ⟨_, hplaced, ?_⟩
  split
  · assumption
  · simp

end Layout

end EntityQuery

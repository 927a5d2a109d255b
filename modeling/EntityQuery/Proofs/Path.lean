import EntityQuery.Text.Path

/-! Dotted paths taken apart and put together. A segment is a name that is not empty and holds no dot;
chains of segments and their paths determine each other. -/

namespace EntityQuery.Path

/-- A name that can be one step of a path. -/
def IsSegment (name : String) : Prop := name ≠ "" ∧ '.' ∉ name.toList

theorem splitDots_of_not_mem {s : List Char} (h : '.' ∉ s) : splitDots s = [s] := by
  induction s with
  | nil => rfl
  | cons c rest ih =>
    simp only [List.mem_cons, not_or] at h
    rw [splitDots, if_neg (Ne.symm h.1), ih h.2]

theorem splitDots_append {s : List Char} (h : '.' ∉ s) (rest : List Char) :
    splitDots (s ++ '.' :: rest) = s :: splitDots rest := by
  induction s with
  | nil => simp [splitDots]
  | cons c s ih =>
    simp only [List.mem_cons, not_or] at h
    rw [List.cons_append, splitDots, if_neg (Ne.symm h.1), ih h.2]

theorem splitDots_joinDots {parts : List (List Char)} (hne : parts ≠ [])
    (h : ∀ s ∈ parts, '.' ∉ s) : splitDots (joinDots parts) = parts := by
  induction parts with
  | nil => exact absurd rfl hne
  | cons s rest ih =>
    have hs := h s (by simp)
    cases rest with
    | nil => exact splitDots_of_not_mem hs
    | cons s' rest =>
      rw [joinDots, splitDots_append hs, ih (by simp) fun s hs => h s (List.mem_cons_of_mem _ hs)]
      simp

theorem segments_ofSegments {segs : List String} (hne : segs ≠ [])
    (h : ∀ s ∈ segs, '.' ∉ s.toList) : segments (ofSegments segs) = segs := by
  rw [segments, ofSegments, String.toList_ofList, splitDots_joinDots (by simpa using hne)]
  · simp
  · simpa using h

theorem not_mem_of_mem_splitDots {s part : List Char} (h : part ∈ splitDots s) : '.' ∉ part := by
  induction s generalizing part with
  | nil =>
    obtain rfl : part = [] := by simpa [splitDots] using h
    simp
  | cons c rest ih =>
    rw [splitDots] at h
    split at h
    · rcases List.mem_cons.1 h with rfl | h
      · simp
      · exact ih h
    · next hc =>
      split at h
      · next hnil => exact absurd hnil (splitDots_ne_nil rest)
      · next first others heq =>
        rw [heq] at ih
        rcases List.mem_cons.1 h with rfl | h
        · simpa using ⟨Ne.symm hc, ih (by simp)⟩
        · exact ih (List.mem_cons_of_mem _ h)

theorem not_mem_of_mem_segments {path s : String} (h : s ∈ segments path) : '.' ∉ s.toList := by
  obtain ⟨part, hpart, rfl⟩ := List.mem_map.1 h
  simpa using not_mem_of_mem_splitDots hpart

theorem segments_ne_nil (path : String) : segments path ≠ [] := by
  simpa [segments] using splitDots_ne_nil path.toList

theorem exists_segments_eq_concat (path : String) : ∃ before name, segments path = before ++ [name] :=
  ⟨_, _, (List.dropLast_concat_getLast (segments_ne_nil path)).symm⟩

/-- The path of a part of the segments of a path has that part as its segments. -/
theorem segments_ofSegments_of_prefix {segs : List String} {path : String} (hne : segs ≠ [])
    (h : segs <+: segments path) : segments (ofSegments segs) = segs :=
  segments_ofSegments hne fun _ hs => not_mem_of_mem_segments (h.subset hs)

theorem joinDots_eq_nil_iff {parts : List (List Char)} (h : parts.head? ≠ some []) :
    joinDots parts = [] ↔ parts = [] := by
  match parts, h with
  | [], _ => simp [joinDots]
  | [s], h => simpa [joinDots] using h
  | s :: s' :: rest, _ => simp [joinDots]

/-- The path of names is not the empty one, unless there are none or the first one is empty. -/
theorem ofSegments_eq_empty_iff_of_head {segs : List String} (h : segs.head? ≠ some "") :
    ofSegments segs = "" ↔ segs = [] := by
  have hhead : (segs.map String.toList).head? ≠ some [] := by
    cases segs with
    | nil => simp
    | cons s rest => simpa using h
  rw [ofSegments, ← String.toList_inj, String.toList_ofList, String.toList_empty,
    joinDots_eq_nil_iff hhead, List.map_eq_nil_iff]

/-- A path that does not begin with an empty segment leads from the root where it has one segment. -/
theorem parent_eq_empty_iff {path : String} {before : List String} {name : String}
    (hsegs : segments path = before ++ [name]) (hhead : (segments path).head? ≠ some "") :
    parent path = "" ↔ before = [] := by
  rw [parent, hsegs, List.dropLast_concat, ofSegments_eq_empty_iff_of_head]
  cases before with
  | nil => simp
  | cons s rest => simpa [hsegs] using hhead

/-- The segments of what leads to the last one. -/
theorem segments_parent {path : String} {before : List String} {name : String}
    (hsegs : segments path = before ++ [name]) (hne : before ≠ []) :
    segments (parent path) = before := by
  rw [parent, hsegs, List.dropLast_concat, segments_ofSegments_of_prefix hne ⟨[name], hsegs.symm⟩]

theorem head?_ne_empty {segs : List String} (h : ∀ s ∈ segs, IsSegment s) :
    segs.head? ≠ some "" :=
  fun hhead => (h "" (List.mem_of_mem_head? hhead)).1 rfl

theorem ofSegments_eq_empty_iff {segs : List String} (h : ∀ s ∈ segs, IsSegment s) :
    ofSegments segs = "" ↔ segs = [] :=
  ofSegments_eq_empty_iff_of_head (head?_ne_empty h)

/-- Chains of segments with one path are one chain. -/
theorem ofSegments_inj {segs segs' : List String} (h : ∀ s ∈ segs, IsSegment s)
    (h' : ∀ s ∈ segs', IsSegment s) (heq : ofSegments segs = ofSegments segs') : segs = segs' := by
  by_cases hne : segs = []
  · subst hne
    exact ((ofSegments_eq_empty_iff h').1 (heq.symm.trans rfl)).symm
  · have hne' : segs' ≠ [] := by
      rintro rfl
      exact hne ((ofSegments_eq_empty_iff h).1 heq)
    rw [← segments_ofSegments hne fun s hs => (h s hs).2, heq,
      segments_ofSegments hne' fun s hs => (h' s hs).2]

/-- The text of the first parts is at the front of the whole text. -/
theorem joinDots_take_isPrefix (parts : List (List Char)) (n : Nat) :
    joinDots (parts.take n) <+: joinDots parts := by
  induction parts generalizing n with
  | nil => simp
  | cons s rest ih =>
    cases n with
    | zero => exact List.nil_prefix
    | succ n =>
      cases rest with
      | nil => simp
      | cons s' rest =>
        cases n with
        | zero => exact List.prefix_append s _
        | succ n =>
          have hrest := ih (n + 1)
          rw [List.take_succ_cons, joinDots, joinDots]
          · exact (List.prefix_append_right_inj s).2 ((List.cons_prefix_cons).2 ⟨rfl, hrest⟩)
          · simp
          · simp

theorem mem_of_mem_ofSegments_take {path : String} {n : Nat} {c : Char}
    (h : c ∈ (ofSegments ((segments path).take n)).toList) : c ∈ path.toList := by
  rw [← ofSegments_segments path]
  rw [ofSegments, String.toList_ofList, List.map_take] at h
  rw [ofSegments, String.toList_ofList]
  exact (joinDots_take_isPrefix _ n).subset h

theorem joinDots_concat {parts : List (List Char)} (hne : parts ≠ []) (s : List Char) :
    joinDots (parts ++ [s]) = joinDots parts ++ '.' :: s := by
  induction parts with
  | nil => exact absurd rfl hne
  | cons t rest ih =>
    cases rest with
    | nil => rfl
    | cons t' rest =>
      rw [List.cons_append, List.cons_append, joinDots, ← List.cons_append, ih (by simp)]
      · simp [joinDots]
      · simp

/-- A further name is put behind a dot. -/
theorem ofSegments_append_singleton {segs : List String} (hne : segs ≠ []) (name : String) :
    ofSegments (segs ++ [name]) = ofSegments segs ++ "." ++ name := by
  rw [ofSegments, ofSegments, List.map_append, List.map_singleton, joinDots_concat (by simpa using hne)]
  apply String.toList_inj.1
  simp

/-- The path of a longer chain is the path of the shorter one, one step further. -/
theorem ofSegments_concat_of_head {segs : List String} (h : segs.head? ≠ some "") (name : String) :
    ofSegments (segs ++ [name]) = child (ofSegments segs) name := by
  by_cases hne : segs = []
  · subst hne
    simp [ofSegments, joinDots, child]
  · have hempty : (ofSegments segs).isEmpty = false := by
      simpa [ofSegments_eq_empty_iff_of_head h] using hne
    rw [child, hempty, if_neg (by simp), ofSegments_append_singleton hne]

theorem ofSegments_concat {segs : List String} (h : ∀ s ∈ segs, IsSegment s) (name : String) :
    ofSegments (segs ++ [name]) = child (ofSegments segs) name :=
  ofSegments_concat_of_head (head?_ne_empty h) name

end EntityQuery.Path

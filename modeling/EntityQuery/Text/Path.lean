/-! Dotted paths. A path is its segments joined by dots; the empty path is the one empty segment. -/

namespace EntityQuery.Path

/-- The parts of a text between its dots. -/
def splitDots : List Char → List (List Char)
  | [] => [[]]
  | c :: rest =>
    if c = '.' then [] :: splitDots rest
    else match splitDots rest with
      | [] => [[c]]
      | first :: others => (c :: first) :: others

/-- Texts joined by dots. -/
def joinDots : List (List Char) → List Char
  | [] => []
  | [s] => s
  | s :: rest => s ++ '.' :: joinDots rest

theorem splitDots_ne_nil (s : List Char) : splitDots s ≠ [] := by
  cases s with
  | nil => simp [splitDots]
  | cons c rest =>
    simp only [splitDots]
    split
    · simp
    · split <;> simp

theorem joinDots_splitDots (s : List Char) : joinDots (splitDots s) = s := by
  induction s with
  | nil => rfl
  | cons c rest ih =>
    have hne := splitDots_ne_nil rest
    rw [splitDots]
    split
    · next h =>
      subst h
      cases hs : splitDots rest with
      | nil => exact absurd hs hne
      | cons first others => rw [hs] at ih; simp [joinDots, ih]
    · cases hs : splitDots rest with
      | nil => exact absurd hs hne
      | cons first others =>
        rw [hs] at ih
        cases others with
        | nil => simp only [joinDots] at ih ⊢; rw [ih]
        | cons second more => simp only [joinDots, List.cons_append] at ih ⊢; rw [ih]

def segments (path : String) : List String := (splitDots path.toList).map String.ofList

def ofSegments (parts : List String) : String := String.ofList (joinDots (parts.map String.toList))

theorem ofSegments_segments (path : String) : ofSegments (segments path) = path := by
  simp [ofSegments, segments, List.map_map, Function.comp_def, joinDots_splitDots]

/-- The path one step further; from the empty path it is the step alone. -/
def child (path key : String) : String :=
  if path.isEmpty then key else path ++ "." ++ key

/-- All segments but the last. -/
def parent (path : String) : String := ofSegments (segments path).dropLast

/-- The last segment. -/
def last (path : String) : String := (segments path).getLastD ""

end EntityQuery.Path

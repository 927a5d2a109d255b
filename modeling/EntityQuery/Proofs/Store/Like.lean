import Mathlib.Data.List.Infix
import Mathlib.Data.List.TakeWhile
import EntityQuery.Store.Like

/-! Patterns and the texts that fit them. A pattern in two parts fits a text in two parts, so that `%` at
an end of a pattern looks for the rest of it anywhere on that side; a pattern without wildcards fits the
texts that are read like it but for the case of ASCII letters. -/

namespace EntityQuery.Like

/-- A text that fits a pattern: `%` stands for what is before the rest of the text, `_` for one character and
any other character for itself, letters of the ASCII alphabet in either case. -/
inductive Fits : List Char → List Char → Prop
  | nil : Fits [] []
  | run {pattern rest s : List Char} (hrest : rest <:+ s) (h : Fits pattern rest) :
    Fits ('%' :: pattern) s
  | one {pattern rest : List Char} (c : Char) (h : Fits pattern rest) : Fits ('_' :: pattern) (c :: rest)
  | letter {p c : Char} {pattern rest : List Char} (hp : p ≠ '%')
    (hsame : (read p).toLower = (read c).toLower) (h : Fits pattern rest) :
    Fits (p :: pattern) (c :: rest)

variable {p c : Char} {pattern pattern' s rest v : List Char}

theorem fits_nil_iff : Fits [] s ↔ s = [] := by
  constructor
  · rintro ⟨⟩
    rfl
  · rintro rfl
    exact .nil

theorem fits_run_iff : Fits ('%' :: pattern) s ↔ ∃ rest, rest <:+ s ∧ Fits pattern rest := by
  constructor
  · intro h
    cases h with
    | run hrest h => exact ⟨_, hrest, h⟩
    | letter hp => exact absurd rfl hp
  · rintro ⟨rest, hrest, h⟩
    exact .run hrest h

/-- Two runs in a row are as good as one. -/
theorem fits_run_run : Fits ('%' :: '%' :: pattern) s ↔ Fits ('%' :: pattern) s := by
  rw [fits_run_iff]
  constructor
  · rintro ⟨rest, hrest, h⟩
    obtain ⟨rest', hrest', h⟩ := fits_run_iff.1 h
    exact .run (hrest'.trans hrest) h
  · exact fun h => ⟨s, List.suffix_refl s, h⟩

theorem fits_cons_iff (hp : p ≠ '%') : Fits (p :: pattern) s ↔
    ∃ c rest, s = c :: rest ∧ (p = '_' ∨ (read p).toLower = (read c).toLower) ∧
      Fits pattern rest := by
  constructor
  · intro h
    cases h with
    | run => exact absurd rfl hp
    | one c h => exact ⟨c, _, rfl, .inl rfl, h⟩
    | letter _ hsame h => exact ⟨_, _, rfl, .inr hsame, h⟩
  · rintro ⟨c, rest, rfl, rfl | hsame, h⟩
    · exact .one c h
    · exact .letter hp hsame h

/-! ### The matcher -/

theorem mem_suffixes : rest ∈ suffixes s ↔ rest <:+ s := by
  induction s with
  | nil => simp [suffixes]
  | cons c s ih => rw [suffixes, List.mem_cons, ih, List.suffix_cons_iff]

/-- The matcher decides which texts fit a pattern. -/
theorem fits_iff : fits pattern s = true ↔ Fits pattern s := by
  induction pattern generalizing s with
  | nil => rw [fits, List.isEmpty_iff, fits_nil_iff]
  | cons p pattern ih =>
    unfold fits
    by_cases hp : p = '%'
    · subst hp
      rw [if_pos rfl]
      -- The matcher passes over a run that another one follows.
      by_cases hhead : pattern.head? = some '%'
      · obtain ⟨pattern, rfl⟩ : ∃ rest, pattern = '%' :: rest :=
          ⟨pattern.tail, (List.cons_head?_tail hhead).symm⟩
        rw [if_pos hhead, ih, fits_run_run]
      · rw [if_neg hhead, List.any_eq_true, fits_run_iff]
        simp only [mem_suffixes, ih]
    · rw [if_neg hp, fits_cons_iff hp]
      cases s with
      | nil => simp
      | cons c rest => simp [sameLetter, ih]

/-! ### Parts -/

/-- A pattern in two parts fits what comes in two parts that these fit. -/
theorem fits_append_iff : Fits (pattern ++ pattern') s ↔
    ∃ part rest, part ++ rest = s ∧ Fits pattern part ∧ Fits pattern' rest := by
  induction pattern generalizing s with
  | nil => simp [fits_nil_iff]
  | cons p pattern ih =>
    rw [List.cons_append]
    by_cases hp : p = '%'
    · subst hp
      simp only [fits_run_iff, ih]
      constructor
      · rintro ⟨_, ⟨before, rfl⟩, part, rest, rfl, h, h'⟩
        exact ⟨before ++ part, rest, List.append_assoc .., ⟨part, List.suffix_append .., h⟩, h'⟩
      · rintro ⟨_, rest, rfl, ⟨part, ⟨before, rfl⟩, h⟩, h'⟩
        exact ⟨part ++ rest, ⟨before, (List.append_assoc ..).symm⟩, part, rest, rfl, h, h'⟩
    · simp only [fits_cons_iff hp, ih]
      constructor
      · rintro ⟨c, _, rfl, hc, part, rest, rfl, h, h'⟩
        exact ⟨c :: part, rest, rfl, ⟨c, part, rfl, hc, h⟩, h'⟩
      · rintro ⟨_, rest, rfl, ⟨c, part, rfl, hc, h⟩, h'⟩
        exact ⟨c, part ++ rest, rfl, hc, part, rest, rfl, h, h'⟩

/-- A run alone fits everything. -/
theorem fits_run (s : List Char) : Fits ['%'] s := .run (List.nil_suffix) .nil

/-- Before a run a pattern fits what begins with a text that it fits. -/
theorem fits_append_run_iff : Fits (pattern ++ ['%']) s ↔ ∃ part, part <+: s ∧ Fits pattern part := by
  rw [fits_append_iff]
  constructor
  · rintro ⟨part, rest, rfl, h, -⟩
    exact ⟨part, List.prefix_append .., h⟩
  · rintro ⟨part, ⟨rest, rfl⟩, h⟩
    exact ⟨part, rest, rfl, h, fits_run rest⟩

/-- A pattern without wildcards fits what is read like it but for the case of letters. -/
theorem fits_iff_of_plain (h : ∀ c ∈ pattern, c ≠ '%' ∧ c ≠ '_') :
    Fits pattern s ↔ (s.map read).map Char.toLower = (pattern.map read).map Char.toLower := by
  simp only [List.map_map]
  induction pattern generalizing s with
  | nil => rw [fits_nil_iff, List.map_nil, List.map_eq_nil_iff]
  | cons p pattern ih =>
    obtain ⟨⟨hrun, hone⟩, hrest⟩ := List.forall_mem_cons.1 h
    rw [fits_cons_iff hrun, List.map_cons, List.map_eq_cons_iff]
    simp only [hone, false_or, ih hrest]
    constructor
    · rintro ⟨c, rest, rfl, hc, h⟩
      exact ⟨c, rest, rfl, hc.symm, h⟩
    · rintro ⟨c, rest, rfl, hc, h⟩
      exact ⟨c, rest, rfl, hc.symm, h⟩

/-! ### What is seen -/

section Seen

variable {text text' : String}

theorem seen_eq (h : '\x00' ∉ text.toList) : seen text = text.toList := by
  refine List.takeWhile_eq_self_iff.2 fun c hc => ?_
  rw [bne_iff_ne]
  rintro rfl
  exact h hc

theorem seen_append (h : '\x00' ∉ text.toList) : seen (text ++ text') = text.toList ++ seen text' := by
  rw [seen, String.toList_append]
  exact List.takeWhile_append_of_pos (List.takeWhile_eq_self_iff.1 (seen_eq h))

/-- Nothing is seen after a NUL. -/
theorem seen_append_of_mem (h : '\x00' ∈ text.toList) : seen (text ++ text') = seen text := by
  unfold seen
  rw [String.toList_append, List.takeWhile_append, if_neg]
  intro hlength
  have hall := (List.takeWhile_prefix _).eq_of_length hlength
  simpa using List.takeWhile_eq_self_iff.1 hall _ h

end Seen

/-! ### Places -/

/-- Where a value is looked for in a text. -/
inductive Place where
  | anywhere | start | finish | whole

namespace Place

/-- A part of a text at a place. -/
def IsPart : Place → List Char → List Char → Prop
  | anywhere, part, s => part <:+: s
  | start, part, s => part <+: s
  | finish, part, s => part <:+ s
  | whole, part, s => part = s

/-- What stands before and after a value in the pattern that looks for it. -/
def marks : Place → List Char × List Char
  | anywhere => (['%'], ['%'])
  | start => ([], ['%'])
  | finish => (['%'], [])
  | whole => ([], [])

theorem fits_marks_iff (place : Place) : Fits (place.marks.1 ++ v ++ place.marks.2) s ↔
    ∃ part, place.IsPart part s ∧ Fits v part := by
  cases place with
  | anywhere =>
    show Fits ('%' :: (v ++ ['%'])) s ↔ _
    simp only [fits_run_iff, fits_append_run_iff]
    constructor
    · rintro ⟨rest, hrest, part, hpart, h⟩
      exact ⟨part, List.infix_iff_prefix_suffix.2 ⟨rest, hpart, hrest⟩, h⟩
    · rintro ⟨part, hpart, h⟩
      obtain ⟨rest, hpart, hrest⟩ := List.infix_iff_prefix_suffix.1 hpart
      exact ⟨rest, hrest, part, hpart, h⟩
  | start => exact fits_append_run_iff
  | finish =>
    show Fits ('%' :: (v ++ [])) s ↔ _
    rw [List.append_nil, fits_run_iff]
    rfl
  | whole =>
    show Fits (v ++ []) s ↔ _
    rw [List.append_nil]
    exact ⟨fun h => ⟨s, rfl, h⟩, fun ⟨_, hpart, h⟩ => hpart ▸ h⟩

/-- The place at which a pattern looks for a value when its end is cut off. -/
def cut : Place → Place
  | anywhere => finish
  | start => whole
  | finish => finish
  | whole => whole

/-- The place at which a value is looked for. The mark after a value that holds a NUL is not seen. -/
def seenBy (place : Place) (value : String) : Place :=
  if '\x00' ∈ value.toList then place.cut else place

theorem marks_cut (place : Place) : place.cut.marks = (place.marks.1, []) := by
  cases place <;> rfl

/-- The pattern that looks for a value at a place. -/
def around (place : Place) (value : String) : String :=
  String.ofList place.marks.1 ++ value ++ String.ofList place.marks.2

theorem seen_around (place : Place) (value : String) : seen (place.around value) =
    (place.seenBy value).marks.1 ++ seen value ++ (place.seenBy value).marks.2 := by
  have hbefore : '\x00' ∉ (String.ofList place.marks.1).toList := by cases place <;> decide
  have hafter : '\x00' ∉ (String.ofList place.marks.2).toList := by cases place <;> decide
  rw [around, String.append_assoc, seen_append hbefore, String.toList_ofList, List.append_assoc]
  unfold seenBy
  by_cases hnul : '\x00' ∈ value.toList
  · rw [seen_append_of_mem hnul, if_pos hnul, marks_cut, List.append_nil]
  · rw [seen_append hnul, seen_eq hafter, String.toList_ofList, if_neg hnul, seen_eq hnul]

/-- A text has a part at a place that fits a value, both as far as they are seen. -/
def Finds (place : Place) (value s : String) : Prop :=
  ∃ part, (place.seenBy value).IsPart part (seen s) ∧ Fits (seen value) part

theorem fitsText_around_iff {place : Place} {value s : String} :
    fitsText (place.around value) s = true ↔ place.Finds value s := by
  rw [fitsText, fits_iff, seen_around, fits_marks_iff]
  rfl

instance (place : Place) (value s : String) : Decidable (place.Finds value s) :=
  decidable_of_iff _ fitsText_around_iff

theorem isPart_map_iff {place : Place} {f : Char → Char} :
    place.IsPart v (s.map f) ↔ ∃ part, place.IsPart part s ∧ v = part.map f := by
  cases place with
  | anywhere => exact List.infix_map_iff
  | start => exact List.prefix_map_iff
  | finish => exact List.suffix_map_iff
  | whole => exact ⟨fun h => ⟨s, rfl, h⟩, by rintro ⟨_, rfl, h⟩; exact h⟩

/-- A text has a part at a place that is a value but for the case of letters, both as they are read. -/
def FindsLiterally (place : Place) (value s : String) : Prop :=
  ∃ part, place.IsPart part (s.toList.map read) ∧
    part.map Char.toLower = (value.toList.map read).map Char.toLower

/-- A text without characters that a pattern gives a meaning of its own. -/
def IsLiteral (value : String) : Prop :=
  ∀ c ∈ value.toList, c ≠ '%' ∧ c ≠ '_' ∧ c ≠ '\x00'

instance (value : String) : Decidable (IsLiteral value) :=
  List.decidableBAll (fun c => c ≠ '%' ∧ c ≠ '_' ∧ c ≠ '\x00') value.toList

/-- A value that is literal is found where it stands. -/
theorem finds_iff_of_literal {place : Place} {value s : String} (hvalue : IsLiteral value)
    (hs : '\x00' ∉ s.toList) : place.Finds value s ↔ place.FindsLiterally value s := by
  have hnul : '\x00' ∉ value.toList := fun h => (hvalue _ h).2.2 rfl
  have hplain : ∀ c ∈ value.toList, c ≠ '%' ∧ c ≠ '_' := fun c hc =>
    ⟨(hvalue c hc).1, (hvalue c hc).2.1⟩
  unfold Finds FindsLiterally seenBy
  rw [if_neg hnul, seen_eq hnul, seen_eq hs]
  simp only [fits_iff_of_plain hplain, isPart_map_iff]
  constructor
  · rintro ⟨part, hpart, hsame⟩
    exact ⟨part.map read, ⟨part, hpart, rfl⟩, hsame⟩
  · rintro ⟨_, ⟨part, hpart, rfl⟩, hsame⟩
    exact ⟨part, hpart, hsame⟩

end Place

end EntityQuery.Like

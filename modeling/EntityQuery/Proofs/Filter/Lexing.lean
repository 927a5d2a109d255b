import EntityQuery.Dialect
import EntityQuery.Proofs.Filter.Reading

/-! The text of a filter read back as characters. Words and blanks make the connectives and the
operators, parentheses stand for themselves, a colon starts a parameter, and a column is an alias and
a name with a dot between them, each a word or anything between two marks. The text of a filter whose
names are spelled in this way reads as the tokens that it was written from. -/

namespace EntityQuery

namespace FilterToken

/-! ### Reading characters -/

/-- A character of a word: a letter, a digit, an underscore, a dollar, or anything beyond ASCII. -/
def isWordChar (c : Char) : Bool := c.isAlphanum || c = '_' || c = '$' || decide (128 ≤ c.toNat)

def isMark (c : Char) : Bool := c = '\x22' || c = '\x60'

/-- A name up to the next single mark, where two marks stand for one. -/
def readMarked (mark : Char) : List Char → Option (List Char × List Char)
  | [] => none
  | [c] => if c = mark then some ([], []) else none
  | c :: c' :: rest =>
    if c = mark then
      if c' = mark then (readMarked mark rest).map fun (name, rest) => (mark :: name, rest)
      else some ([], c' :: rest)
    else (readMarked mark (c' :: rest)).map fun (name, rest) => (c :: name, rest)

/-- A word at the front of a text. -/
def readWord (cs : List Char) : Option (String × List Char) :=
  if (cs.takeWhile isWordChar).isEmpty then none
  else some (String.ofList (cs.takeWhile isWordChar), cs.dropWhile isWordChar)

/-- A name at the front of a text: between marks, or a word. -/
def readName : List Char → Option (String × List Char)
  | [] => none
  | c :: rest =>
    if isMark c then (readMarked c rest).map fun (name, rest) => (String.ofList name, rest)
    else readWord (c :: rest)

/-- An alias and a name with a dot between them. -/
def readColumn (cs : List Char) : Option (ColumnRef × List Char) :=
  match readName cs with
  | some (aliasName, '.' :: rest) => (readName rest).map fun (name, rest) => (⟨aliasName, name⟩, rest)
  | _ => none

/-- Tokens with fixed texts. The function of lower case is followed by a parenthesis, by which it
differs from a name. -/
def fixed : List (List (FilterToken ColumnRef)) :=
  [[.openParen], [.closeParen], [.lower, .openParen], [.not], [.connective .and], [.connective .or],
    [.symbol "="], [.symbol "!="], [.symbol "<"], [.symbol "<="], [.symbol ">"], [.symbol ">="],
    [.symbol "IN"], [.symbol "NOT IN"], [.symbol "LIKE"], [.symbol "NOT LIKE"], [.symbol "BETWEEN"],
    [.symbol "REGEXP"], [.symbol "~"], [.suffix "IS NULL"], [.suffix "IS NOT NULL"]]

/-- The characters of tokens. -/
def chars (spell : ColumnRef → String) (ts : List (FilterToken ColumnRef)) : List Char :=
  ts.flatMap fun t => (t.text spell).toList

/-- The characters of tokens without columns. -/
def fixedChars (ts : List (FilterToken ColumnRef)) : List Char := chars (fun _ => "") ts

/-- The tokens at the front of a text. -/
def next (cs : List Char) : Option (List (FilterToken ColumnRef) × List Char) :=
  match fixed.find? fun ts => (fixedChars ts).isPrefixOf cs with
  | some ts => some (ts, cs.drop (fixedChars ts).length)
  | none =>
    match cs with
    | ':' :: rest => (readWord rest).map fun (name, rest) => ([.parameter name], rest)
    | cs => (readColumn cs).map fun (c, rest) => ([.column c], rest)

theorem length_readMarked {mark : Char} {cs name rest : List Char}
    (h : readMarked mark cs = some (name, rest)) : rest.length < cs.length := by
  induction cs using readMarked.induct mark generalizing name rest with
  | case1 => simp [readMarked] at h
  | case2 =>
    simp only [readMarked, if_true, Option.some.injEq, Prod.mk.injEq] at h
    simp [← h.2]
  | case3 c hc => simp [readMarked, hc] at h
  | case4 more ih =>
    simp only [readMarked, if_true, Option.map_eq_some_iff, Prod.mk.injEq] at h
    obtain ⟨_, h, -, rfl⟩ := h
    exact Nat.lt_succ_of_lt (Nat.lt_succ_of_lt (ih h))
  | case5 c' more hc' =>
    simp only [readMarked, if_true, if_neg hc', Option.some.injEq, Prod.mk.injEq] at h
    simp [← h.2]
  | case6 c c' more hc ih =>
    simp only [readMarked, if_neg hc, Option.map_eq_some_iff, Prod.mk.injEq] at h
    obtain ⟨_, h, -, rfl⟩ := h
    exact Nat.lt_succ_of_lt (ih h)

theorem length_readWord {cs rest : List Char} {name : String}
    (h : readWord cs = some (name, rest)) : rest.length < cs.length := by
  unfold readWord at h
  split at h
  · cases h
  · next hne =>
    obtain ⟨-, rfl⟩ := Prod.mk.inj (Option.some.inj h)
    have hsum := congrArg List.length (List.takeWhile_append_dropWhile (p := isWordChar) (l := cs))
    have hpos : (cs.takeWhile isWordChar).length ≠ 0 := by simpa using hne
    rw [List.length_append] at hsum
    omega

theorem length_readName {cs rest : List Char} {name : String}
    (h : readName cs = some (name, rest)) : rest.length < cs.length := by
  cases cs with
  | nil => simp [readName] at h
  | cons c cs =>
    rw [readName] at h
    split at h
    · simp only [Option.map_eq_some_iff, Prod.mk.injEq] at h
      obtain ⟨_, h, -, rfl⟩ := h
      exact Nat.lt_succ_of_lt (length_readMarked h)
    · exact length_readWord h

theorem length_readColumn {cs rest : List Char} {c : ColumnRef}
    (h : readColumn cs = some (c, rest)) : rest.length < cs.length := by
  unfold readColumn at h
  split at h
  · next aliasName more hname =>
    simp only [Option.map_eq_some_iff, Prod.mk.injEq] at h
    obtain ⟨_, h, -, rfl⟩ := h
    have := length_readName hname
    exact Nat.lt_trans (length_readName h) (Nat.lt_of_succ_lt this)
  · cases h

theorem length_next {cs rest : List Char} {ts : List (FilterToken ColumnRef)}
    (h : next cs = some (ts, rest)) : rest.length < cs.length := by
  unfold next at h
  split at h
  · next ts' hfind =>
    obtain ⟨rfl, rfl⟩ := Prod.mk.inj (Option.some.inj h)
    have hprefix : (fixedChars ts').isPrefixOf cs = true := by simpa using List.find?_some hfind
    have hle := (List.isPrefixOf_iff_prefix.1 hprefix).length_le
    have hpos : ∀ us ∈ fixed, (fixedChars us).length ≠ 0 := by decide
    have := hpos ts' (List.mem_of_find?_eq_some hfind)
    rw [List.length_drop]
    omega
  · split at h
    · simp only [Option.map_eq_some_iff, Prod.mk.injEq] at h
      obtain ⟨_, h, -, rfl⟩ := h
      exact Nat.lt_succ_of_lt (length_readWord h)
    · simp only [Option.map_eq_some_iff, Prod.mk.injEq] at h
      obtain ⟨_, h, -, rfl⟩ := h
      exact length_readColumn h

/-- All tokens of a text. -/
def lex (cs : List Char) : Option (List (FilterToken ColumnRef)) :=
  match cs with
  | [] => some []
  | c :: cs =>
    match h : next (c :: cs) with
    | some (ts, rest) =>
      have := length_next h
      (lex rest).map (ts ++ ·)
    | none => none
termination_by cs.length
decreasing_by assumption

theorem lex_of_next {cs rest : List Char} {ts : List (FilterToken ColumnRef)}
    (h : next cs = some (ts, rest)) : lex cs = (lex rest).map (ts ++ ·) := by
  cases cs with
  | nil => exact absurd (length_next h) (by simp)
  | cons c cs =>
    rw [lex]
    split
    · next heq =>
      obtain ⟨rfl, rfl⟩ := Prod.mk.inj (Option.some.inj (heq.symm.trans h))
      rfl
    · next heq => exact absurd (heq.symm.trans h) (by simp)

/-! ### Reading what was written -/

/-- A name that stands without marks. -/
def IsWord (name : String) : Prop := name ≠ "" ∧ ∀ c ∈ name.toList, isWordChar c = true

/-- The spelled text of a name: a word as it is, or any name between two marks. -/
def Spells (spelled name : String) : Prop :=
  (IsWord name ∧ spelled = name) ∨
    ∃ mark, isMark mark = true ∧ spelled = Dialect.enclose mark (fun _ => false) name

/-- A text that does not go on with a name. -/
def Stops (rest : List Char) : Prop := ∀ c ∈ rest.head?, isWordChar c = false ∧ isMark c = false

/-- The end of the text, a blank or a closing parenthesis. -/
def Ends (rest : List Char) : Prop := ∀ c ∈ rest.head?, c = ' ' ∨ c = ')'

theorem Ends.stops {rest : List Char} (h : Ends rest) : Stops rest := by
  intro c hc
  rcases h c hc with rfl | rfl <;> decide

theorem takeWhile_word {name : List Char} (h : ∀ c ∈ name, isWordChar c = true) {rest : List Char}
    (hrest : Stops rest) : (name ++ rest).takeWhile isWordChar = name := by
  rw [List.takeWhile_append_of_pos h]
  cases rest with
  | nil => simp
  | cons c rest => simp [(hrest c rfl).1]

theorem dropWhile_word {name : List Char} (h : ∀ c ∈ name, isWordChar c = true) {rest : List Char}
    (hrest : Stops rest) : (name ++ rest).dropWhile isWordChar = rest := by
  rw [List.dropWhile_append_of_pos h]
  cases rest with
  | nil => rfl
  | cons c rest => simp [(hrest c rfl).1]

theorem readWord_append {name : String} (h : IsWord name) {rest : List Char} (hrest : Stops rest) :
    readWord (name.toList ++ rest) = some (name, rest) := by
  rw [readWord, takeWhile_word h.2 hrest, dropWhile_word h.2 hrest, if_neg (by simpa using h.1),
    String.ofList_toList]

theorem readMarked_append {mark : Char} (name : List Char) {rest : List Char}
    (hrest : mark ∉ rest.head?) :
    readMarked mark (name.flatMap (fun c => if c = mark then [c, c] else [c]) ++ mark :: rest) =
      some (name, rest) := by
  induction name with
  | nil =>
    cases rest with
    | nil => simp [readMarked]
    | cons c rest =>
      have hc : c ≠ mark := fun h => hrest (by simp [h])
      simp [readMarked, hc]
  | cons c name ih =>
    by_cases hc : c = mark
    · subst hc
      rw [List.flatMap_cons, if_pos rfl, List.append_assoc, List.cons_append, List.singleton_append,
        readMarked, if_pos rfl, if_pos rfl, ih]
      rfl
    · simp only [List.flatMap_cons, if_neg hc, List.cons_append, List.nil_append]
      cases hmore : name.flatMap (fun c => if c = mark then [c, c] else [c]) ++ mark :: rest with
      | nil => simp at hmore
      | cons c' more =>
        rw [readMarked, if_neg hc, ← hmore, ih]
        rfl

theorem isMark_of_isWordChar {c : Char} (h : isWordChar c = true) : isMark c = false := by
  cases hc : isMark c with
  | false => rfl
  | true =>
    have : c = '\x22' ∨ c = '\x60' := by simpa [isMark] using hc
    rcases this with rfl | rfl <;> exact absurd h (by decide)

theorem readName_append {spelled name : String} (h : Spells spelled name) {rest : List Char}
    (hrest : Stops rest) : readName (spelled.toList ++ rest) = some (name, rest) := by
  rcases h with ⟨hword, rfl⟩ | ⟨mark, hmark, rfl⟩
  · cases hname : spelled.toList with
    | nil => exact absurd (by simpa using hname) hword.1
    | cons c cs =>
      have hc := isMark_of_isWordChar (hword.2 c (by simp [hname]))
      rw [List.cons_append, readName, if_neg (by simp [hc]), ← List.cons_append, ← hname,
        readWord_append hword hrest]
  · have hnot : mark ∉ rest.head? := fun hmem => by simp [(hrest mark hmem).2] at hmark
    rw [Dialect.enclose, String.toList_ofList]
    simp only [Bool.or_false, decide_eq_true_eq, List.cons_append, List.append_assoc,
      List.nil_append]
    rw [readName, if_pos hmark, readMarked_append _ hnot]
    simp

theorem readColumn_append {c : ColumnRef} {aliasText nameText : String}
    (halias : Spells aliasText c.aliasName) (hname : Spells nameText c.column) {rest : List Char}
    (hrest : Stops rest) :
    readColumn (aliasText.toList ++ '.' :: (nameText.toList ++ rest)) = some (c, rest) := by
  have hdot : Stops ('.' :: (nameText.toList ++ rest)) := by
    intro c hc
    obtain rfl : '.' = c := by simpa using hc
    decide
  rw [readColumn, readName_append halias hdot]
  simp [readName_append hname hrest]

/-- Each fixed text has a parenthesis or a blank after its first word. -/
theorem dropWhile_fixed : ∀ ts ∈ fixed,
    ((fixedChars ts).dropWhile isWordChar).head?.any ['(', ')', ' '].contains = true := by
  decide

theorem find?_fixed_eq_none {cs : List Char} {d : Char} {more : List Char}
    (h : cs.dropWhile isWordChar = d :: more) (hd : d ∉ ['(', ')', ' ']) :
    fixed.find? (fun ts => (fixedChars ts).isPrefixOf cs) = none := by
  rw [List.find?_eq_none]
  intro ts hts hprefix
  obtain ⟨rest, rfl⟩ := List.isPrefixOf_iff_prefix.1 hprefix
  have hfixed := dropWhile_fixed ts hts
  cases hw : (fixedChars ts).dropWhile isWordChar with
  | nil => simp [hw] at hfixed
  | cons d' more' =>
    rw [hw] at hfixed
    rw [List.dropWhile_append, hw] at h
    simp only [List.isEmpty_cons, Bool.false_eq_true, if_false, List.cons_append,
      List.cons.injEq] at h
    exact hd (by simpa [h.1] using hfixed)

theorem next_fixed {ts : List (FilterToken ColumnRef)} (h : ts ∈ fixed) (rest : List Char) :
    next (fixedChars ts ++ rest) = some (ts, rest) := by
  simp only [fixed, List.mem_cons, List.not_mem_nil, or_false] at h
  rcases h with rfl | rfl | rfl | rfl | rfl | rfl | rfl | rfl | rfl | rfl | rfl | rfl | rfl | rfl |
    rfl | rfl | rfl | rfl | rfl | rfl | rfl <;> rfl

theorem Spells.dropWhile {spelled name : String} (h : Spells spelled name) (more : List Char) :
    ∃ d cs, (spelled.toList ++ '.' :: more).dropWhile isWordChar = d :: cs ∧ d ∉ ['(', ')', ' '] := by
  rcases h with ⟨hword, rfl⟩ | ⟨mark, hmark, rfl⟩
  · refine ⟨'.', more, dropWhile_word hword.2 ?_, by decide⟩
    intro c hc
    obtain rfl : '.' = c := by simpa using hc
    decide
  · have hmarks : mark = '\x22' ∨ mark = '\x60' := by simpa [isMark] using hmark
    rw [Dialect.enclose, String.toList_ofList]
    refine ⟨mark, _, List.dropWhile_cons_of_neg ?_, ?_⟩
    · rcases hmarks with rfl | rfl <;> decide
    · rcases hmarks with rfl | rfl <;> decide

theorem Spells.head {spelled name : String} (h : Spells spelled name) :
    ∃ c cs, spelled.toList = c :: cs ∧ c ≠ ':' := by
  rcases h with ⟨hword, rfl⟩ | ⟨mark, hmark, rfl⟩
  · cases hname : spelled.toList with
    | nil => exact absurd (by simpa using hname) hword.1
    | cons c cs =>
      refine ⟨c, cs, rfl, ?_⟩
      rintro rfl
      exact absurd (hword.2 ':' (by simp [hname])) (by decide)
  · refine ⟨mark, _, by rw [Dialect.enclose, String.toList_ofList]; rfl, ?_⟩
    rintro rfl
    exact absurd hmark (by decide)

theorem next_parameter {name : String} (h : IsWord name) {rest : List Char} (hrest : Stops rest) :
    next (':' :: (name.toList ++ rest)) = some ([.parameter name], rest) := by
  rw [next, find?_fixed_eq_none (d := ':') (List.dropWhile_cons_of_neg (by decide)) (by decide)]
  simp [readWord_append h hrest]

theorem next_column {c : ColumnRef} {aliasText nameText : String}
    (halias : Spells aliasText c.aliasName) (hname : Spells nameText c.column) {rest : List Char}
    (hrest : Stops rest) :
    next (aliasText.toList ++ '.' :: (nameText.toList ++ rest)) = some ([.column c], rest) := by
  obtain ⟨d, cs, hdrop, hd⟩ := halias.dropWhile (nameText.toList ++ rest)
  obtain ⟨first, others, hfirst, hne⟩ := halias.head
  unfold next
  rw [find?_fixed_eq_none hdrop hd]
  simp only []
  split
  · next heq =>
    rw [hfirst] at heq
    exact absurd (List.cons.inj heq).1 hne
  · rw [readColumn_append halias hname hrest]
    rfl

/-- A column whose alias and name are spelled so that they can be read back. -/
def Legible (quote : String → String) (c : ColumnRef) : Prop :=
  Spells (quote c.aliasName) c.aliasName ∧ Spells (quote c.column) c.column

variable {quote : String → String} {ts us : List (FilterToken ColumnRef)} {rest : List Char}

theorem chars_cons (spell : ColumnRef → String) (t : FilterToken ColumnRef) :
    chars spell (t :: ts) = (t.text spell).toList ++ chars spell ts := rfl

theorem chars_append (spell : ColumnRef → String) :
    chars spell (ts ++ us) = chars spell ts ++ chars spell us :=
  List.flatMap_append

theorem chars_write (spell : ColumnRef → String) (ts : List (FilterToken ColumnRef)) :
    (write spell ts).toList = chars spell ts := by
  rw [write, String.toList_join, List.flatMap_map, chars]

theorem lex_column {c : ColumnRef} (hc : Legible quote c)
    (hstops : Stops (chars (ColumnRef.spell quote) ts ++ rest))
    (h : lex (chars (ColumnRef.spell quote) ts ++ rest) = some us) :
    lex (chars (ColumnRef.spell quote) (.column c :: ts) ++ rest) = some (.column c :: us) := by
  have hnext := next_column hc.1 hc.2 hstops
  have htext : chars (ColumnRef.spell quote) (.column c :: ts) ++ rest =
      (quote c.aliasName).toList ++ '.' ::
        ((quote c.column).toList ++ (chars (ColumnRef.spell quote) ts ++ rest)) := by
    simp [chars_cons, FilterToken.text, ColumnRef.spell]
  rw [htext, lex_of_next hnext, h]
  rfl

theorem lex_parameter {name : String} (hname : IsWord name)
    (hstops : Stops (chars (ColumnRef.spell quote) ts ++ rest))
    (h : lex (chars (ColumnRef.spell quote) ts ++ rest) = some us) :
    lex (chars (ColumnRef.spell quote) (.parameter name :: ts) ++ rest) =
      some (.parameter name :: us) := by
  have hnext := next_parameter hname hstops
  have htext : chars (ColumnRef.spell quote) (.parameter name :: ts) ++ rest =
      ':' :: (name.toList ++ (chars (ColumnRef.spell quote) ts ++ rest)) := by
    simp [chars_cons, FilterToken.text]
  rw [htext, lex_of_next hnext, h]
  rfl

theorem chars_fixed (spell : ColumnRef → String) : ∀ {group}, group ∈ fixed →
    chars spell group = fixedChars group := by
  intro group h
  simp only [fixed, List.mem_cons, List.not_mem_nil, or_false] at h
  rcases h with rfl | rfl | rfl | rfl | rfl | rfl | rfl | rfl | rfl | rfl | rfl | rfl | rfl | rfl |
    rfl | rfl | rfl | rfl | rfl | rfl | rfl <;> rfl

theorem lex_fixed (group : List (FilterToken ColumnRef)) (hgroup : group ∈ fixed)
    (h : lex (chars (ColumnRef.spell quote) ts ++ rest) = some us) :
    lex (chars (ColumnRef.spell quote) (group ++ ts) ++ rest) = some (group ++ us) := by
  rw [chars_append, chars_fixed _ hgroup, List.append_assoc, lex_of_next (next_fixed hgroup _), h]
  rfl

theorem lex_fixed_last (group : List (FilterToken ColumnRef)) (hgroup : group ∈ fixed)
    (h : lex rest = some us) :
    lex (chars (ColumnRef.spell quote) group ++ rest) = some (group ++ us) := by
  rw [chars_fixed _ hgroup, lex_of_next (next_fixed hgroup _), h]
  rfl

theorem lex_parameter_last {name : String} (hname : IsWord name) (hstops : Stops rest)
    (h : lex rest = some us) :
    lex (chars (ColumnRef.spell quote) [.parameter name] ++ rest) = some (.parameter name :: us) :=
  lex_parameter hname hstops h

theorem ends_chars {t : FilterToken ColumnRef} {spell : ColumnRef → String}
    (h : (t.text spell).toList.head? = some ' ' ∨ (t.text spell).toList.head? = some ')') :
    Ends (chars spell (t :: ts) ++ rest) := by
  rw [chars_cons, List.append_assoc]
  intro c hc
  rcases h with h | h <;> simp [List.head?_append, h] at hc <;> simp [← hc]

theorem ends_symbol (spell : ColumnRef → String) (s : String) :
    Ends (chars spell (.symbol s :: ts) ++ rest) :=
  ends_chars (.inl (by simp [FilterToken.text]))

theorem ends_suffix (spell : ColumnRef → String) (s : String) :
    Ends (chars spell (.suffix s :: ts) ++ rest) :=
  ends_chars (.inl (by simp [FilterToken.text]))

theorem ends_connective (spell : ColumnRef → String) (c : Connective) :
    Ends (chars spell (.connective c :: ts) ++ rest) :=
  ends_chars (.inl (by cases c <;> simp [FilterToken.text]))

theorem ends_closeParen (spell : ColumnRef → String) :
    Ends (chars spell (.closeParen :: ts) ++ rest) :=
  ends_chars (.inr (by simp [FilterToken.text]))

/-- A test reads back, whatever comes behind it. -/
theorem lex_test {t : Test} (ht : t.Spelled) {c : ColumnRef} (hc : Legible quote c)
    (hp : ∀ name ∈ t.parameters, IsWord name) (hends : Ends rest) (h : lex rest = some us) :
    lex (chars (ColumnRef.spell quote) (t.tokens c) ++ rest) = some (t.tokens c ++ us) := by
  have hparameter : ∀ name ∈ t.parameters,
      lex (chars (ColumnRef.spell quote) [.parameter name] ++ rest) = some (.parameter name :: us) :=
    fun name hname => lex_parameter_last (hp name hname) hends.stops h
  have hcompare : ∀ {symbol name}, [.symbol symbol] ∈ fixed → name ∈ t.parameters →
      lex (chars (ColumnRef.spell quote) [.column c, .symbol symbol, .parameter name] ++ rest) =
        some ([.column c, .symbol symbol, .parameter name] ++ us) := fun hsymbol hname =>
    lex_column hc (ends_symbol _ _).stops (lex_fixed _ hsymbol (hparameter _ hname))
  have hfolded : ∀ {symbol name}, [.symbol symbol] ∈ fixed → name ∈ t.parameters →
      lex (chars (ColumnRef.spell quote) (lowered (.column c) ++ [.symbol symbol] ++
          lowered (.parameter name)) ++ rest) =
        some (lowered (.column c) ++ [.symbol symbol] ++ lowered (.parameter name) ++ us) := by
    intro symbol name hsymbol hname
    have hclose : lex (chars (ColumnRef.spell quote) [.closeParen] ++ rest) =
        some (.closeParen :: us) := lex_fixed_last [.closeParen] (by simp [fixed]) h
    have hlast := lex_fixed [.lower, .openParen] (by simp [fixed])
      (lex_parameter (hp _ hname) (ends_closeParen _).stops hclose)
    have hmiddle := lex_fixed [.closeParen] (by simp [fixed]) (lex_fixed _ hsymbol hlast)
    exact lex_fixed [.lower, .openParen] (by simp [fixed])
      (lex_column hc (ends_closeParen _).stops hmiddle)
  cases t with
  | compare relop p =>
    exact hcompare (by cases relop <;> simp [fixed, Relop.symbol]) (by simp [Test.parameters])
  | member negated p => exact hcompare (by cases negated <;> simp [fixed]) (by simp [Test.parameters])
  | between low high =>
    have hhigh := hparameter high (by simp [Test.parameters])
    have hand := lex_fixed [.connective .and] (by simp [fixed]) hhigh
    have hlow := lex_parameter (hp low (by simp [Test.parameters])) (ends_connective _ _).stops hand
    have hword := lex_fixed [.symbol "BETWEEN"] (by simp [fixed]) hlow
    exact lex_column hc (ends_symbol _ _).stops hword
  | like negated folded p =>
    cases folded with
    | false => exact hcompare (by cases negated <;> simp [fixed]) (by simp [Test.parameters])
    | true => exact hfolded (by cases negated <;> simp [fixed]) (by simp [Test.parameters])
  | pattern symbol p =>
    refine hcompare ?_ (by simp [Test.parameters])
    rcases ht with rfl | rfl <;> simp [fixed]
  | null negated =>
    refine lex_column hc (ends_suffix _ _).stops (lex_fixed_last [.suffix _] ?_ h)
    cases negated <;> simp [fixed]

end FilterToken

namespace Filter

open FilterToken

variable {quote : String → String}

/-- A filter whose columns and parameters are spelled so that they can be read back. -/
structure Legible (quote : String → String) (f : Filter) : Prop where
  columns : ∀ c ∈ f.columns, FilterToken.Legible quote c
  parameters : ∀ name ∈ f.parameters, IsWord name

/-- The text of a filter reads back, whatever comes behind it. -/
def Lexes (quote : String → String) (f : Filter) : Prop :=
  ∀ {rest us}, Ends rest → lex rest = some us →
    lex (chars (ColumnRef.spell quote) f.tokens ++ rest) = some (f.tokens ++ us)

theorem Legible.of_mem {f part : Filter} {parts : List Filter} (h : f.Legible quote)
    (hleaves : f.leaves = parts.flatMap leaves) (hpart : part ∈ parts) : part.Legible quote where
  columns c hc := by
    refine h.columns c ?_
    rw [columns_of_leaves hleaves]
    exact List.mem_flatMap.2 ⟨part, hpart, hc⟩
  parameters name hname := by
    refine h.parameters name ?_
    rw [parameters_of_leaves hleaves]
    exact List.mem_flatMap.2 ⟨part, hpart, hname⟩

theorem lex_between {c : Connective} {parts : List Filter} (h : ∀ f ∈ parts, Lexes quote f)
    {rest : List Char} {us : List (FilterToken ColumnRef)} (hends : Ends rest)
    (hrest : lex rest = some us) :
    lex (chars (ColumnRef.spell quote) (FilterToken.between c (parts.map tokens)) ++ rest) =
      some (FilterToken.between c (parts.map tokens) ++ us) := by
  induction parts with
  | nil => exact hrest
  | cons f parts ih =>
    cases parts with
    | nil => simpa [FilterToken.between] using h f (by simp) hends hrest
    | cons f' parts =>
      have hparts := ih fun f hf => h f (List.mem_cons_of_mem _ hf)
      have hconnective := lex_fixed [.connective c] (by cases c <;> simp [fixed]) hparts
      have hfirst := h f (by simp) (ends_connective _ c) hconnective
      rw [List.map_cons, List.map_cons, between_cons_cons, chars_append, List.append_assoc,
        List.append_assoc]
      exact hfirst

/-- A filter all of whose tests are spelled in a known way. Its parts may be empty. -/
inductive Spelled : Filter → Prop
  | test {c : ColumnRef} {t : Test} (h : t.Spelled) : Spelled (.test c t)
  | chain {parts : List Filter} (h : ∀ f ∈ parts, Spelled f) : Spelled (.chain parts)
  | group {c : Connective} {parts : List Filter} (h : ∀ f ∈ parts, Spelled f) :
    Spelled (.group c parts)
  | negation {inner : Filter} (h : Spelled inner) : Spelled (.negation inner)

theorem Solid.spelled {f : Filter} (hf : Solid f) : Spelled f := by
  induction hf with
  | test ht => exact .test ht
  | chain _ _ ih => exact .chain ih
  | group _ _ ih => exact .group ih
  | negation _ ih => exact .negation ih

theorem Spelled.lexes {f : Filter} (hf : Spelled f) (h : f.Legible quote) : Lexes quote f := by
  induction hf with
  | @test c t ht =>
    intro rest us hends hrest
    refine lex_test ht (h.columns c (by simp [columns_test])) ?_ hends hrest
    simpa [parameters_test] using h.parameters
  | @chain parts _ ih =>
    intro rest us hends hrest
    rw [tokens, tokensOfAll_eq]
    exact lex_between (fun f hf => ih f hf (h.of_mem (leaves_chain parts) hf)) hends hrest
  | @group c parts _ ih =>
    intro rest us hends hrest
    have hclose : lex (chars (ColumnRef.spell quote) [.closeParen] ++ rest) =
        some (.closeParen :: us) := lex_fixed_last [.closeParen] (by simp [fixed]) hrest
    have hparts := lex_between (c := c) (fun f hf => ih f hf (h.of_mem (leaves_group c parts) hf))
      (ends_closeParen _) hclose
    rw [← List.append_assoc, ← chars_append] at hparts
    rw [tokens, tokensOfAll_eq, List.append_assoc, List.append_assoc]
    have hopen := lex_fixed [.openParen] (by simp [fixed]) hparts
    simpa using hopen
  | @negation inner _ ih =>
    intro rest us hends hrest
    have hinner : inner.Legible quote := by
      constructor
      · simpa [columns, leaves_negation] using h.columns
      · simpa [parameters, leaves_negation] using h.parameters
    have hclose : lex (chars (ColumnRef.spell quote) [.closeParen] ++ rest) =
        some (.closeParen :: us) := lex_fixed_last [.closeParen] (by simp [fixed]) hrest
    have hbody := ih hinner (ends_closeParen _) hclose
    rw [← List.append_assoc, ← chars_append] at hbody
    have hopen := lex_fixed [.openParen] (by simp [fixed]) hbody
    have hnot := lex_fixed [.not] (by simp [fixed]) hopen
    rw [tokens]
    simpa using hnot

/-- The text of a legible filter reads as its tokens. -/
theorem Spelled.lex_text {f : Filter} (hf : Spelled f) (h : f.Legible quote) :
    lex (f.text quote).toList = some f.tokens := by
  have hlex : lex (chars (ColumnRef.spell quote) f.tokens ++ []) = some (f.tokens ++ []) :=
    hf.lexes h (by simp [Ends]) (by rw [lex])
  rwa [List.append_nil, List.append_nil, ← chars_write] at hlex

end Filter

/-- A text as a boolean expression. -/
def Formula.ofText? (text : String) : Option (Formula ColumnRef) :=
  (FilterToken.lex text.toList).bind FilterToken.formula?

namespace Dialect

open FilterToken

/-- Names that a dialect leaves without quotes are words. -/
theorem isWord_of_not_needsQuotes {d : Dialect} {name : String} (h : d.needsQuotes name = false) :
    IsWord name := by
  simp only [needsQuotes, Bool.or_eq_false_iff, Bool.not_eq_false'] at h
  obtain ⟨⟨⟨-, hplain⟩, hhead⟩, -⟩ := h
  refine ⟨?_, fun c hc => ?_⟩
  · rintro rfl
    simp at hhead
  · have hc := List.all_eq_true.1 hplain c hc
    simp only [isPlain, Bool.or_eq_true] at hc
    simp only [isWordChar, Bool.or_eq_true]
    exact .inl hc

/-- A dialect spells every name so that it can be read back, where it leaves percent signs alone or
there are none. -/
theorem spells_quote {d : Dialect} {name : String}
    (h : d.doublesPercent = false ∨ '%' ∉ name.toList) : Spells (d.quote name) name := by
  unfold quote
  split
  · refine .inr ⟨d.mark, by cases d <;> rfl, ?_⟩
    have hpercent : ∀ c ∈ name.toList, (d.doublesPercent && decide (c = '%')) = false := by
      rcases h with h | h
      · simp [h]
      · intro c hc
        have : c ≠ '%' := fun he => h (he ▸ hc)
        simp [this]
    rw [enclose, enclose, List.flatMap_def, List.flatMap_def,
      List.map_congr_left fun c hc => by rw [hpercent c hc]]
  · next hquotes => exact .inl ⟨isWord_of_not_needsQuotes (by simpa using hquotes), rfl⟩

/-- A column whose names a dialect spells without doubling a percent sign. -/
def Keeps (d : Dialect) (c : ColumnRef) : Prop :=
  d.doublesPercent = false ∨ '%' ∉ c.aliasName.toList ∧ '%' ∉ c.column.toList

theorem Keeps.legible {d : Dialect} {c : ColumnRef} (h : d.Keeps c) : Legible d.quote c :=
  ⟨spells_quote (h.imp_right And.left), spells_quote (h.imp_right And.right)⟩

end Dialect

end EntityQuery

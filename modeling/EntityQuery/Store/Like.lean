/-! Matching of texts against patterns in which `%` stands for any characters and `_` for one. Letters
of the ASCII alphabet match in either case. Texts and patterns end before their first NUL character, and
the two noncharacters at the end of the basic plane are read as the replacement character. -/

namespace EntityQuery.Like

/-- A list and all that remains of it from each place on. -/
def suffixes : List Char → List (List Char)
  | [] => [[]]
  | c :: rest => (c :: rest) :: suffixes rest

/-- A character as matching reads it. -/
def read (c : Char) : Char := if c = '\ufffe' ∨ c = '\uffff' then '\ufffd' else c

def sameLetter (c d : Char) : Bool := (read c).toLower == (read d).toLower

/-- Whether a text fits a pattern. A run of `%` is as good as its last one. -/
def fits : List Char → List Char → Bool
  | [], s => s.isEmpty
  | p :: pattern, s =>
    if p = '%' then
      if pattern.head? = some '%' then fits pattern s else (suffixes s).any (fits pattern)
    else match s with
      | [] => false
      | c :: rest => (p == '_' || sameLetter p c) && fits pattern rest

/-- The characters of a text before the first NUL. -/
def seen (s : String) : List Char := s.toList.takeWhile (· != '\x00')

/-- Whether a match with a pattern succeeds. -/
def fitsText (pattern s : String) : Bool := fits (seen pattern) (seen s)

/-- The most bytes that a pattern may have. -/
def longest : Nat := 50000

/-- A text with the ASCII letters in lower case. -/
def fold (s : String) : String := s.map Char.toLower

end EntityQuery.Like

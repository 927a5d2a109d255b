import EntityQuery.Double

/-! Ranking of candidate texts by their likeness to a word. The likeness is twice the number of
matched characters over the total length, where the longest common block is matched first and the
parts to its left and right likewise. -/

namespace EntityQuery.CloseMatch

/-- A common block: where it starts on the left, where on the right, and its length. -/
structure Block where
  left : Nat
  right : Nat
  size : Nat
  deriving DecidableEq

/-- A character of the word, and whether a block may start at it. -/
structure Mark where
  char : Char
  seed : Bool

/-- The characters of a word. In a word of 200 characters or more, one that makes up more than one
hundredth of it starts no block. -/
def marks (word : List Char) : List Mark :=
  let bound := word.length / 100 + 1
  if word.length < 200 then word.map fun c => ⟨c, true⟩
  else word.map fun c => ⟨c, word.count c ≤ bound⟩

/-- For each place of the right text, the length of the common block that ends there and at `c`. -/
def blockLengths (c : Char) (before : List Nat) (right : List Mark) : List Nat :=
  List.zipWith (fun d n => if d.seed && d.char == c then n + 1 else 0) right (0 :: before)

/-- Keeps the best block so far unless a longer one ends at left place `i`. -/
def improve (i : Nat) (best : Block) (lengths : List Nat) : Block :=
  lengths.zipIdx.foldl
    (fun best (n, j) => if best.size < n then ⟨i + 1 - n, j + 1 - n, n⟩ else best) best

def scan (right : List Mark) : Nat → List Nat → Block → List Char → Block
  | _, _, best, [] => best
  | i, before, best, c :: rest =>
    let lengths := blockLengths c before right
    scan right (i + 1) lengths (improve i best lengths) rest

/-- The length of the longest common beginning. -/
def commonLength : List Char → List Mark → Nat
  | a :: as, b :: bs => if a = b.char then commonLength as bs + 1 else 0
  | _, _ => 0

/-- The longest block that starts and grows through seeds, the leftmost on a tie, then extended on
both ends by equal characters of any kind. -/
def longest (left : List Char) (right : List Mark) : Block :=
  let best := scan right 0 (right.map fun _ => 0) ⟨0, 0, 0⟩ left
  let back := commonLength (left.take best.left).reverse (right.take best.right).reverse
  let forth := commonLength (left.drop (best.left + best.size)) (right.drop (best.right + best.size))
  ⟨best.left - back, best.right - back, back + best.size + forth⟩

/-- The number of matched characters. -/
def matched (left : List Char) (right : List Mark) : Nat :=
  let b := longest left right
  if _h : b.size = 0 ∨ left.length < b.left + b.size then 0
  else b.size + matched (left.take b.left) (right.take b.right) +
    matched (left.drop (b.left + b.size)) (right.drop (b.right + b.size))
termination_by left.length
decreasing_by
  all_goals
    have hb : b = longest left right := rfl
    simp only [List.length_take, List.length_drop, ← hb]
    omega

/-- Two empty texts are wholly alike. -/
def likeness (word candidate : String) : Double :=
  let total := word.length + candidate.length
  if total = 0 then Double.ofInt 1
  else Double.ofQuotient false (2 * matched candidate.toList (marks word.toList)) total

/-- The candidates whose likeness to the word reaches the cutoff, at most `n` of them, the likest
first and of equally like ones the greater text first. -/
def closeMatches (word : String) (candidates : List String) (n : Nat) (cutoff : Double) : List String :=
  let scored := candidates.map fun c => (likeness word c, c)
  let close := scored.filter fun (score, _) => score.compare cutoff != .lt
  let ranked := close.mergeSort fun (s, a) (t, b) =>
    match s.compare t with
    | .gt => true
    | .lt => false
    | .eq => decide (b ≤ a)
  (ranked.take n).map (·.2)

/-- The usual cutoff, six tenths. -/
def usualCutoff : Double := Double.ofDecimal false 6 (-1)

end EntityQuery.CloseMatch

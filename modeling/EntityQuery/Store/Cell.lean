import EntityQuery.Value
import EntityQuery.Double.Shortest

/-! Stored values and their order: null first, then numbers by value, then texts by code point. A
value that meets a column is converted to the column's kind where its text allows it, and so are the
cells of two columns that meet. -/

namespace EntityQuery

inductive Cell where
  | null
  | int (n : Int)
  | real (x : Double)
  | text (s : String)
  deriving DecidableEq

/-- The types of columns. A column without a type keeps every cell as it is. -/
inductive ColumnType where
  | integer | real | text | boolean | untyped
  deriving DecidableEq

/-- Whether a column holds numbers where it can. -/
def ColumnType.isNumeric : ColumnType → Bool
  | .text => false
  | .untyped => false
  | _ => true

namespace Cell

/-- The stored form of a value. Truth values are stored as numbers. Lists and objects have no stored
form; a statement with such a parameter is refused before any cell is looked at. -/
def ofValue : Value → Cell
  | .null => .null
  | .bool b => .int b.toNat
  | .int n => .int n
  | .float x => .real x
  | .str s => .text s
  | .list _ => .null
  | .obj _ => .null

/-- The value of a stored cell in a column. -/
def toValue (type : ColumnType) : Cell → Value
  | .null => .null
  | .int n => if type = .boolean then .bool (n != 0) else .int n
  | .real x => if type = .boolean then .bool true else .float x
  | .text s => if type = .boolean then .bool true else .str s

/-! ### Order -/

/-- Null, number or text. -/
def storageClass : Cell → Nat
  | .null => 0
  | .int _ => 1
  | .real _ => 1
  | .text _ => 2

def compare : Cell → Cell → Ordering
  | .int m, .int n => Ord.compare m n
  | .int m, .real y => (y.compareInt m).swap
  | .real x, .int n => x.compareInt n
  | .real x, .real y => x.compare y
  | .text s, .text t => Ord.compare s t
  | a, b => Ord.compare a.storageClass b.storageClass

/-! ### Conversion -/

/-- Reads digits from the front. -/
def spanDigits (cs : List Char) : List Char × List Char :=
  (cs.takeWhile Char.isDigit, cs.dropWhile Char.isDigit)

def digitsValue (cs : List Char) : Nat := cs.foldl (fun n c => 10 * n + (c.toNat - '0'.toNat)) 0

def dropSign : List Char → Bool × List Char
  | '-' :: rest => (true, rest)
  | '+' :: rest => (false, rest)
  | cs => (false, cs)

/-- The exponent at the end of a numeral, if the rest is nothing else. -/
def exponentOf? : List Char → Option Int
  | [] => some 0
  | c :: rest =>
    if c = 'e' || c = 'E' then
      let (negative, digits) := dropSign rest
      if digits.isEmpty || !digits.all Char.isDigit then none
      else some (if negative then -(digitsValue digits : Int) else digitsValue digits)
    else none

/-- Whether an integer fits into 64 bits, as stored ones must. -/
def fitsWord (n : Int) : Bool := -0x8000000000000000 ≤ n && n < 0x8000000000000000

/-- An integer, or the real nearest to one that is too large. -/
def ofInt (n : Int) : Cell := if fitsWord n then .int n else .real (Double.ofInt n)

/-- The number that a text spells, with blanks around it allowed. -/
def numberOfText? (s : String) : Option Cell :=
  let trimmed := ((s.toList.dropWhile Char.isWhitespace).reverse.dropWhile Char.isWhitespace).reverse
  let (negative, body) := dropSign trimmed
  let (whole, rest) := spanDigits body
  match rest with
  | [] =>
    if whole.isEmpty then none
    else some (.ofInt (if negative then -(digitsValue whole : Int) else digitsValue whole))
  | c :: tail =>
    let (places, tail) := if c = '.' then spanDigits tail else ([], rest)
    if whole.isEmpty && places.isEmpty then none
    else (exponentOf? tail).map fun e =>
      .real (Double.ofDecimal negative (digitsValue (whole ++ places)) (e - places.length))

/-- A number rounded to fifteen digits, with at least one digit after the point. -/
def textOfReal : Double → String
  | .infinite negative => if negative then "-Inf" else "Inf"
  | .finite negative mantissa exponent =>
    if mantissa = 0 then "0.0"
    else
      let interval := Double.interval mantissa exponent
      let top := interval.magnitude
      let (a, b) := Double.powTen (top - 15)
      let (p, q) := Double.powTwo exponent
      let digits := roundDiv (mantissa * p * b) (q * a)
      let (shown, point) := Double.Decimal.normal ⟨digits, top - 15⟩
      let size :=
        if -4 < point ∧ point ≤ 15 then Double.layOut shown point
        else
          let places := shown.drop 1
          let e := point - 1
          let width := toString e.natAbs
          String.ofList (shown.take 1) ++ "." ++ (if places.isEmpty then "0" else String.ofList places) ++
            "e" ++ (if e < 0 then "-" else "+") ++ (if width.length < 2 then "0" ++ width else width)
      if negative then "-" ++ size else size

/-- The text of a cell, none for null. -/
def text? : Cell → Option String
  | .null => none
  | .int n => some (toString n)
  | .real x => some (textOfReal x)
  | .text s => some s

/-- A cell as a column of the type takes it: numbers become texts in a text column, and texts that
spell numbers become numbers in a column of numbers. -/
def convert (type : ColumnType) (c : Cell) : Cell :=
  match type, c with
  | .untyped, c => c
  | .text, .null => .null
  | .text, c => (c.text?.map .text).getD .null
  | _, .text s => (numberOfText? s).getD (.text s)
  | _, c => c

/-- A cell as it is stored: a column of reals makes reals of integers, any other column of numbers
integers of the reals that have their value. -/
def store (type : ColumnType) (c : Cell) : Cell :=
  match type, c.convert type with
  | .real, .int n => .real (Double.ofInt n)
  | .real, c => c
  | .untyped, c => c
  | _, .real x => ((x.toInt?.filter fitsWord).map .int).getD (.real x)
  | _, c => c

/-- A cell as it is compared between two columns: where one of them holds numbers, texts that spell
numbers become these. -/
def between (s t : ColumnType) (c : Cell) : Cell :=
  if s.isNumeric || t.isNumeric then c.convert .integer else c

/-- Whether the cells of two columns are equal, which null is to none. -/
def agree (s t : ColumnType) (a b : Cell) : Bool :=
  a != .null && b != .null && (a.between s t).compare (b.between s t) == .eq

end Cell

end EntityQuery

import EntityQuery.Double

/-! The shortest decimal of a binary64 number: the fewest digits that read back as the number, and
of those the nearest to it. -/

namespace EntityQuery.Double

/-- A positive decimal `digits * 10 ^ exponent`. -/
structure Decimal where
  digits : Nat
  exponent : Int
  deriving DecidableEq

/-- `2 ^ e` as a fraction. -/
def powTwo (e : Int) : Nat × Nat :=
  if e < 0 then (1, Nat.pow 2 (-e).toNat) else (Nat.pow 2 e.toNat, 1)

/-- `10 ^ e` as a fraction. -/
def powTen (e : Int) : Nat × Nat :=
  if e < 0 then (1, Nat.pow 10 (-e).toNat) else (Nat.pow 10 e.toNat, 1)

/-- The reals that round to one number, in units of a quarter of its last place. -/
structure Interval where
  low : Nat
  centre : Nat
  high : Nat
  closed : Bool
  exponent : Int

/-- The interval of `mantissa * 2 ^ exponent`: half a place to each side, or a quarter below where
the places get finer; the ends belong to it when the mantissa is even. -/
def interval (mantissa : Nat) (exponent : Int) : Interval where
  low :=
    if mantissa = Nat.pow 2 52 ∧ minExponent < exponent then 4 * mantissa - 1
    else 4 * mantissa - 2
  centre := 4 * mantissa
  high := 4 * mantissa + 2
  closed := mantissa % 2 == 0
  exponent := exponent - 2

/-- `c * 10 ^ k` against `x * 2 ^ e`. -/
def compareScaled (c : Nat) (k : Int) (x : Nat) (e : Int) : Ordering :=
  let (a, b) := powTen k
  let (p, q) := powTwo e
  Ord.compare (c * a * q) (x * p * b)

namespace Interval

def contains (i : Interval) (c : Nat) (k : Int) : Bool :=
  let low := compareScaled c k i.low i.exponent
  let high := compareScaled c k i.high i.exponent
  if i.closed then low != .lt && high != .gt else low == .gt && high == .lt

/-- The centre in units of `10 ^ k`, rounded down. -/
def floorAt (i : Interval) (k : Int) : Nat :=
  let (a, b) := powTen k
  let (p, q) := powTwo i.exponent
  i.centre * p * b / (q * a)

/-- The least `p` in the format's range with the centre below `10 ^ p`. -/
def magnitude (i : Interval) : Int :=
  match (List.range 640).find? fun (n : Nat) => compareScaled 1 ((n : Int) - 326) i.centre i.exponent == .gt with
  | some n => (n : Int) - 326
  | none => 314

/-- The nearer to the centre of two neighbours on a grid, the even one on a tie. -/
def nearer (i : Interval) (c : Nat) (k : Int) : Nat :=
  let (a, b) := powTen k
  let (p, q) := powTwo i.exponent
  match Ord.compare ((2 * c + 1) * a * q) (2 * i.centre * p * b) with
  | .lt => c + 1
  | .gt => c
  | .eq => c + c % 2

/-- The point of the grid `10 ^ k` inside the interval that is nearest to the centre. -/
def pointAt? (i : Interval) (k : Int) : Option Decimal :=
  let c := i.floorAt k
  match i.contains c k, i.contains (c + 1) k with
  | true, true => some ⟨i.nearer c k, k⟩
  | true, false => some ⟨c, k⟩
  | false, true => some ⟨c + 1, k⟩
  | false, false => none

/-- The first grid with a hit, from one digit to seventeen. -/
def shortest (i : Interval) : Decimal :=
  let top := i.magnitude
  ((List.range 17).findSome? fun (n : Nat) => i.pointAt? (top - (n + 1))).getD ⟨i.floorAt (top - 17), top - 17⟩

end Interval

/-- The digits of a positive decimal without trailing zeros, and the place of the point: the value
is `0.d₁d₂… * 10 ^ point`. -/
def Decimal.normal (d : Decimal) : List Char × Int :=
  let digits := Nat.toDigits 10 d.digits
  (digits.reverse.dropWhile (· == '0') |>.reverse, d.exponent + digits.length)

/-- Values from `10 ^ (-4)` to `10 ^ 16` are written with a point and at least one digit after it,
all others with one digit before the point and an exponent of at least two digits. -/
def layOut (digits : List Char) (point : Int) : String :=
  if -4 < point ∧ point ≤ 16 then
    if point ≤ 0 then
      "0." ++ String.ofList (List.replicate (-point).toNat '0' ++ digits)
    else
      let n := point.toNat
      if digits.length ≤ n then
        String.ofList (digits ++ List.replicate (n - digits.length) '0') ++ ".0"
      else String.ofList (digits.take n) ++ "." ++ String.ofList (digits.drop n)
  else
    let lead := String.ofList (digits.take 1)
    let rest := String.ofList (digits.drop 1)
    let e := point - 1
    let size := toString e.natAbs
    lead ++ (if rest.isEmpty then "" else "." ++ rest) ++ "e" ++ (if e < 0 then "-" else "+") ++
      (if size.length < 2 then "0" ++ size else size)

/-- The text of a number, with its sign even for zero. -/
def text : Double → String
  | .infinite negative => if negative then "-inf" else "inf"
  | .finite negative mantissa exponent =>
    let size :=
      if mantissa = 0 then "0.0"
      else
        let (digits, point) := (interval mantissa exponent).shortest.normal
        layOut digits point
    if negative then "-" ++ size else size

end EntityQuery.Double

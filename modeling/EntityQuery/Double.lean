/-! Binary64 numbers held exactly, as a sign and a magnitude `mantissa * 2 ^ exponent`. A quotient of
two naturals rounds to the nearest such number, a tie going to the even mantissa. -/

namespace EntityQuery

/-- A number of the binary64 format. The magnitude of a finite one has a mantissa below `2 ^ 53` and
an exponent from `-1074` to `971`, and is written with the least exponent that allows this. -/
inductive Double where
  | finite (negative : Bool) (mantissa : Nat) (exponent : Int)
  | infinite (negative : Bool)
  deriving DecidableEq

/-- The quotient rounded to the nearest natural, a tie to the even one. -/
def roundDiv (num den : Nat) : Nat :=
  let q := num / den
  let r := num % den
  if 2 * r < den then q else if 2 * r = den then q + q % 2 else q + 1

namespace Double

/-- The least exponent of the format. -/
def minExponent : Int := -1074

/-- The greatest exponent of the format. -/
def maxExponent : Int := 971

def zero : Double := .finite false 0 minExponent

/-- The exponent of the greatest power of two that is at most `num / den`. -/
def floorLog2 (num den : Nat) : Int :=
  let guess : Int := (num.log2 : Int) - den.log2
  let reached := if guess < 0 then decide (den ≤ num * Nat.pow 2 (-guess).toNat)
    else decide (den * Nat.pow 2 guess.toNat ≤ num)
  if reached then guess else guess - 1

/-- The quotient in units of `2 ^ exponent`, rounded. -/
def roundAt (num den : Nat) (exponent : Int) : Nat :=
  if exponent < 0 then roundDiv (num * Nat.pow 2 (-exponent).toNat) den
  else roundDiv num (den * Nat.pow 2 exponent.toNat)

/-- The number nearest to `num / den`; a quotient past the greatest number is infinite. -/
def ofQuotient (negative : Bool) (num den : Nat) : Double :=
  if num = 0 then .finite negative 0 minExponent
  else
    let exponent := max (floorLog2 num den - 52) minExponent
    let mantissa := roundAt num den exponent
    let (mantissa, exponent) :=
      if mantissa = Nat.pow 2 53 then (Nat.pow 2 52, exponent + 1) else (mantissa, exponent)
    if maxExponent < exponent then .infinite negative else .finite negative mantissa exponent

/-- The number nearest to `digits * 10 ^ exponent`. A value whose exponent alone puts it outside the
format is decided without computing the power. -/
def ofDecimal (negative : Bool) (digits : Nat) (exponent : Int) : Double :=
  if digits = 0 then .finite negative 0 minExponent
  else if 400 < exponent then .infinite negative
  else if exponent + digits.log2 < -400 then .finite negative 0 minExponent
  else if exponent < 0 then ofQuotient negative digits (Nat.pow 10 (-exponent).toNat)
  else ofQuotient negative (digits * Nat.pow 10 exponent.toNat) 1

/-- The number nearest to an integer. -/
def ofInt (n : Int) : Double := ofQuotient (n < 0) n.natAbs 1

/-- A finite number as an integer count of the least unit `2 ^ (-1074)`. -/
def units (negative : Bool) (mantissa : Nat) (exponent : Int) : Int :=
  let size : Int := mantissa * Nat.pow 2 (exponent - minExponent).toNat
  if negative then -size else size

def unitsOfInt (n : Int) : Int := n * Nat.pow 2 (-minExponent).toNat

/-- Comparison with an integer, without rounding the integer. -/
def compareInt (x : Double) (n : Int) : Ordering :=
  match x with
  | .infinite negative => if negative then .lt else .gt
  | .finite s m e => compare (units s m e) (unitsOfInt n)

def compare (x y : Double) : Ordering :=
  match x, y with
  | .infinite s, .infinite t => Ord.compare t.toNat s.toNat
  | .infinite s, .finite .. => if s then .lt else .gt
  | .finite .., .infinite t => if t then .gt else .lt
  | .finite s m e, .finite t n f => Ord.compare (units s m e) (units t n f)

/-- The integer with this value, if there is one. -/
def toInt? : Double → Option Int
  | .infinite _ => none
  | .finite s m e =>
    let sign : Int := if s then -1 else 1
    if 0 ≤ e then some (sign * (m * Nat.pow 2 e.toNat))
    else
      let unit := Nat.pow 2 (-e).toNat
      if m % unit = 0 then some (sign * (m / unit : Nat)) else none

/-- The least integer that is not below the number. -/
def ceil? : Double → Option Int
  | .infinite _ => none
  | .finite s m e =>
    let sign : Int := if s then -1 else 1
    if 0 ≤ e then some (sign * (m * Nat.pow 2 e.toNat))
    else
      let unit := Nat.pow 2 (-e).toNat
      some (if s then -((m / unit : Nat) : Int) else ((m + unit - 1) / unit : Nat))

end Double

end EntityQuery

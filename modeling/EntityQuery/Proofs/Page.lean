import Mathlib.Tactic.Linarith
import Mathlib.Tactic.Ring
import EntityQuery.Page

/-! The number of pages. A quotient of counts up to `2 ^ 53` has a fraction that is too large for rounding
to lose: the rounded quotient lies above the same naturals as the exact one. Hence a page has a next one
just when elements are left behind it. -/

namespace EntityQuery

/-! ### Rounded division -/

section RoundDiv

variable {num den n : Nat}

theorem div_le_roundDiv (num den : Nat) : num / den ≤ roundDiv num den := by
  unfold roundDiv
  dsimp only
  split
  · exact le_rfl
  · split <;> omega

theorem roundDiv_le (hden : 0 < den) (h : num ≤ n * den) : roundDiv num den ≤ n := by
  have hquotient : num / den ≤ n := Nat.div_le_of_le_mul (by rwa [Nat.mul_comm])
  have hdivision := Nat.div_add_mod' num den
  unfold roundDiv
  dsimp only
  split
  · exact hquotient
  · -- There is a rest, so that the quotient is below `n`.
    have hlt : num / den < n := by
      refine lt_of_le_of_ne hquotient fun heq => ?_
      rw [heq] at hdivision
      omega
    split <;> omega

theorem lt_roundDiv (hden : 0 < den) (h : (2 * n + 1) * den < 2 * num) : n < roundDiv num den := by
  have hdivision := Nat.div_add_mod' num den
  have hexpand : (2 * n + 1) * den = 2 * (n * den) + den := by ring
  rcases lt_trichotomy (num / den) n with hlt | heq | hgt
  · have := (Nat.div_lt_iff_lt_mul hden).1 hlt
    omega
  · -- The rest is more than half of the divisor.
    rw [heq] at hdivision
    unfold roundDiv
    dsimp only
    rw [heq, if_neg (by omega), if_neg (by omega)]
    omega
  · exact hgt.trans_le (div_le_roundDiv num den)

theorem roundDiv_mul (hden : 0 < den) (q : Nat) : roundDiv (q * den) den = q := by
  unfold roundDiv
  simp [Nat.mul_div_cancel _ hden, hden]

end RoundDiv

namespace Double

/-! ### Magnitudes against naturals -/

/-- The magnitude `mantissa * 2 ^ exponent` is at most `n`. -/
def AtMost (mantissa : Nat) (exponent : Int) (n : Nat) : Prop :=
  mantissa * 2 ^ exponent.toNat ≤ n * 2 ^ (-exponent).toNat

theorem ceil?_finite (mantissa : Nat) (exponent : Int) :
    ∃ c : Nat, (finite false mantissa exponent).ceil? = some (c : Int) ∧
      ∀ n, c ≤ n ↔ AtMost mantissa exponent n := by
  by_cases hexponent : 0 ≤ exponent
  · refine ⟨mantissa * 2 ^ exponent.toNat, ?_, fun n => ?_⟩
    · simp [ceil?, hexponent]
    · have hzero : (-exponent).toNat = 0 := by omega
      rw [AtMost, hzero, Nat.pow_zero, Nat.mul_one]
  · refine ⟨(mantissa + 2 ^ (-exponent).toNat - 1) / 2 ^ (-exponent).toNat, ?_, fun n => ?_⟩
    · simp [ceil?, hexponent]
    · have hzero : exponent.toNat = 0 := by omega
      have hpos := Nat.two_pow_pos (-exponent).toNat
      rw [AtMost, hzero, Nat.pow_zero, Nat.mul_one, ← Nat.lt_succ_iff, Nat.div_lt_iff_lt_mul hpos,
        Nat.succ_mul]
      omega

/-- A mantissa of 54 digits is as good as half of it under the next exponent. -/
theorem atMost_double {mantissa n : Nat} {exponent : Int} :
    AtMost mantissa (exponent + 1) n ↔ AtMost (2 * mantissa) exponent n := by
  unfold AtMost
  by_cases hexponent : 0 ≤ exponent
  · have hnext : (exponent + 1).toNat = exponent.toNat + 1 := by omega
    have hzero : (-exponent).toNat = 0 := by omega
    have hzero' : (-(exponent + 1)).toNat = 0 := by omega
    rw [hnext, hzero, hzero', Nat.pow_succ, Nat.mul_comm (2 ^ exponent.toNat), ← Nat.mul_assoc,
      Nat.mul_comm mantissa]
  · have hnext : (-exponent).toNat = (-(exponent + 1)).toNat + 1 := by omega
    have hzero : exponent.toNat = 0 := by omega
    have hzero' : (exponent + 1).toNat = 0 := by omega
    rw [hnext, hzero, hzero', Nat.pow_succ, ← Nat.mul_assoc]
    omega

/-! ### Quotients -/

variable {num den : Nat}

theorem floorLog2_cases (num den : Nat) : ∃ guess : Int, guess = num.log2 - den.log2 ∧
    (floorLog2 num den = guess ∧ den * 2 ^ guess.toNat ≤ num * 2 ^ (-guess).toNat ∨
      floorLog2 num den = guess - 1) := by
  refine ⟨_, rfl, ?_⟩
  unfold floorLog2
  dsimp only
  generalize (num.log2 : Int) - den.log2 = guess
  by_cases hneg : guess < 0
  · have hzero : guess.toNat = 0 := by omega
    rw [if_pos hneg, hzero, Nat.pow_zero, Nat.mul_one]
    split
    · next hreached => exact .inl ⟨rfl, of_decide_eq_true hreached⟩
    · exact .inr rfl
  · have hzero : (-guess).toNat = 0 := by omega
    rw [if_neg hneg, hzero, Nat.pow_zero, Nat.mul_one]
    split
    · next hreached => exact .inl ⟨rfl, of_decide_eq_true hreached⟩
    · exact .inr rfl

theorem floorLog2_le (num den : Nat) : floorLog2 num den ≤ num.log2 := by
  obtain ⟨guess, hguess, ⟨h, -⟩ | h⟩ := floorLog2_cases num den <;> omega

/-- The power of two under a quotient is at most the quotient. -/
theorem two_pow_floorLog2_le (den : Nat) (hnum : num ≠ 0) :
    den * 2 ^ (floorLog2 num den).toNat ≤ num * 2 ^ (-floorLog2 num den).toNat := by
  obtain ⟨guess, hguess, ⟨h, hreached⟩ | h⟩ := floorLog2_cases num den
  · rwa [h]
  · -- One less than the guess is small enough by the lengths of the numbers alone.
    have hlow : 2 ^ num.log2 ≤ num := Nat.log2_self_le hnum
    have hhigh : den < 2 ^ (den.log2 + 1) := Nat.lt_log2_self
    have hexponents : den.log2 + 1 + (guess - 1).toNat = num.log2 + (-(guess - 1)).toNat := by omega
    rw [h]
    calc den * 2 ^ (guess - 1).toNat
        ≤ 2 ^ (den.log2 + 1) * 2 ^ (guess - 1).toNat := Nat.mul_le_mul_right _ hhigh.le
      _ = 2 ^ num.log2 * 2 ^ (-(guess - 1)).toNat := by rw [← Nat.pow_add, ← Nat.pow_add, hexponents]
      _ ≤ num * 2 ^ (-(guess - 1)).toNat := Nat.mul_le_mul_right _ hlow

/-- The exponent under which a quotient is rounded. -/
def unitExponent (num den : Nat) : Int := max (floorLog2 num den - 52) minExponent

theorem roundAt_eq (num den : Nat) (exponent : Int) : roundAt num den exponent =
    roundDiv (num * 2 ^ (-exponent).toNat) (den * 2 ^ exponent.toNat) := by
  unfold roundAt
  split
  · have hzero : exponent.toNat = 0 := by omega
    rw [hzero, Nat.pow_zero, Nat.mul_one]
    rfl
  · have hzero : (-exponent).toNat = 0 := by omega
    rw [hzero, Nat.pow_zero, Nat.mul_one]
    rfl

theorem ofQuotient_eq (negative : Bool) (hnum : num ≠ 0) : ofQuotient negative num den =
    let exponent := unitExponent num den
    let mantissa := roundAt num den exponent
    let (mantissa, exponent) :=
      if mantissa = 2 ^ 53 then (2 ^ 52, exponent + 1) else (mantissa, exponent)
    if maxExponent < exponent then .infinite negative else .finite negative mantissa exponent := by
  rw [ofQuotient, if_neg hnum]
  rfl

/-- A quotient of at most `2 ^ 53` is rounded to a number as large as its rounded count of units. -/
theorem ofQuotient_finite (den : Nat) (hnum : num ≠ 0) (hbound : num ≤ 2 ^ 53) :
    ∃ mantissa exponent, ofQuotient false num den = .finite false mantissa exponent ∧
      ∀ n, AtMost mantissa exponent n ↔
        AtMost (roundAt num den (unitExponent num den)) (unitExponent num den) n := by
  have hlog : num.log2 ≤ 53 :=
    (Nat.pow_le_pow_iff_right (by decide)).1 ((Nat.log2_self_le hnum).trans hbound)
  have hsmall : unitExponent num den ≤ 1 := by
    have := floorLog2_le num den
    unfold unitExponent minExponent
    omega
  rw [ofQuotient_eq _ hnum]
  generalize unitExponent num den = exponent at hsmall
  dsimp only
  split
  · next hfull =>
    have hfinite : ¬ maxExponent < exponent + 1 := by
      unfold maxExponent
      omega
    refine ⟨2 ^ 52, exponent + 1, if_neg hfinite, fun n => ?_⟩
    rw [hfull]
    exact atMost_double
  · have hfinite : ¬ maxExponent < exponent := by
      unfold maxExponent
      omega
    exact ⟨_, exponent, if_neg hfinite, fun n => Iff.rfl⟩

/-- A quotient has at least `2 ^ 52` units, if it has not less than the least unit of the format. -/
theorem units_le (den : Nat) (hnum : num ≠ 0) (h : minExponent ≤ floorLog2 num den - 52) :
    den * 2 ^ (52 + (unitExponent num den).toNat) ≤ num * 2 ^ (-unitExponent num den).toNat := by
  have hexponent : unitExponent num den = floorLog2 num den - 52 := max_eq_left h
  have hpower := two_pow_floorLog2_le den hnum
  generalize floorLog2 num den = L at hexponent hpower
  generalize unitExponent num den = E at hexponent
  obtain ⟨t, ht⟩ : ∃ t, t + L.toNat = 52 + E.toNat := ⟨52 + E.toNat - L.toNat, by omega⟩
  have hright : (-E).toNat = (-L).toNat + t := by omega
  calc den * 2 ^ (52 + E.toNat)
      = den * 2 ^ L.toNat * 2 ^ t := by rw [← ht, Nat.add_comm, Nat.pow_add, Nat.mul_assoc]
    _ ≤ num * 2 ^ (-L).toNat * 2 ^ t := Nat.mul_le_mul_right _ hpower
    _ = num * 2 ^ (-E).toNat := by rw [hright, Nat.pow_add, Nat.mul_assoc]

/-- The unit of a quotient is below one, or else the quotient is a whole number of units. -/
theorem unitExponent_cases (hden : 0 < den) (hnum : num ≠ 0) (hbound : num ≤ 2 ^ 53) :
    unitExponent num den < 0 ∨
      0 ≤ unitExponent num den ∧ ∃ q, num = q * (den * 2 ^ (unitExponent num den).toNat) := by
  rw [← not_le, ← imp_iff_not_or]
  intro hwhole
  refine ⟨hwhole, ?_⟩
  have hclamped : minExponent ≤ floorLog2 num den - 52 := by
    unfold unitExponent minExponent at *
    omega
  have hunits := units_le den hnum hclamped
  have hzero : (-unitExponent num den).toNat = 0 := by omega
  have hpos : 0 < den * 2 ^ (unitExponent num den).toNat := by positivity
  rw [hzero, Nat.pow_zero, Nat.mul_one, Nat.add_comm, Nat.pow_add, ← Nat.mul_assoc] at hunits
  generalize den * 2 ^ (unitExponent num den).toNat = d at hunits hpos
  -- Only one and two leave room for 53 digits below `2 ^ 53`.
  obtain rfl | rfl : d = 1 ∨ d = 2 := by omega
  · exact ⟨num, by omega⟩
  · exact ⟨2 ^ 52, by omega⟩

/-- Rounding does not take a quotient past a natural. -/
theorem atMost_of_le (hden : 0 < den) (hnum : num ≠ 0) (hbound : num ≤ 2 ^ 53) {n : Nat}
    (h : num ≤ n * den) :
    AtMost (roundAt num den (unitExponent num den)) (unitExponent num den) n := by
  rw [roundAt_eq]
  unfold AtMost
  rcases unitExponent_cases hden hnum hbound with hneg | ⟨hwhole, q, hq⟩
  · have hzero : (unitExponent num den).toNat = 0 := by omega
    rw [hzero, Nat.pow_zero, Nat.mul_one, Nat.mul_one]
    refine roundDiv_le hden ?_
    rw [Nat.mul_right_comm]
    exact Nat.mul_le_mul_right _ h
  · have hzero : (-unitExponent num den).toNat = 0 := by omega
    have hpos : 0 < den * 2 ^ (unitExponent num den).toNat := by positivity
    rw [hzero, Nat.pow_zero, Nat.mul_one, Nat.mul_one]
    generalize 2 ^ (unitExponent num den).toNat = unit at hq hpos
    subst hq
    rw [roundDiv_mul hpos]
    refine Nat.le_of_mul_le_mul_right ?_ hden
    linarith

/-- Where a divisor has two or more units, of the counts up to `2 ^ 53` only `2 ^ 53` itself has a unit
below one. -/
theorem eq_of_coarse (hnum : num ≠ 0) (hbound : num ≤ 2 ^ 53) (hden' : den ≤ 2 ^ 53)
    (hneg : unitExponent num den < 0) (hcoarse : 2 * 2 ^ (-unitExponent num den).toNat ≤ den) :
    den = 2 * 2 ^ (-unitExponent num den).toNat ∧ num = 2 ^ 53 := by
  have hclamped : minExponent ≤ floorLog2 num den - 52 := by
    by_contra hlow
    have hleast : unitExponent num den = -1074 := max_eq_right (by omega)
    have hpower : 2 ^ 53 ≤ 2 ^ (-unitExponent num den).toNat :=
      Nat.pow_le_pow_right (by decide) (by omega)
    omega
  have hunits := units_le den hnum hclamped
  have hzero : (unitExponent num den).toNat = 0 := by omega
  rw [hzero, Nat.add_zero] at hunits
  have hpos := Nat.two_pow_pos (-unitExponent num den).toNat
  generalize 2 ^ (-unitExponent num den).toNat = unit at hcoarse hunits hpos ⊢
  have hhigh := Nat.mul_le_mul_right unit hbound
  obtain rfl : den = 2 * unit := by omega
  refine ⟨rfl, le_antisymm hbound (Nat.le_of_mul_le_mul_right ?_ hpos)⟩
  omega

/-- Nor does it take a quotient of counts up to `2 ^ 53` down to a natural. -/
theorem le_of_atMost (hden : 0 < den) (hnum : num ≠ 0) (hbound : num ≤ 2 ^ 53) (hden' : den ≤ 2 ^ 53)
    {n : Nat} (h : AtMost (roundAt num den (unitExponent num den)) (unitExponent num den) n) :
    num ≤ n * den := by
  rw [roundAt_eq] at h
  unfold AtMost at h
  rcases unitExponent_cases hden hnum hbound with hneg | ⟨hwhole, q, hq⟩
  · have hzero : (unitExponent num den).toNat = 0 := by omega
    rw [hzero, Nat.pow_zero, Nat.mul_one, Nat.mul_one] at h
    by_contra hlt
    have hnext : n * den + 1 ≤ num := by omega
    by_cases hfine : den < 2 * 2 ^ (-unitExponent num den).toNat
    · -- Half a unit is less than the distance of the quotient from `n`.
      generalize 2 ^ (-unitExponent num den).toNat = unit at h hfine
      have hscaled := Nat.mul_le_mul_right (2 * unit) hnext
      have hround : n * unit < roundDiv (num * unit) den := lt_roundDiv hden (by linarith)
      exact absurd h (Nat.not_le.2 hround)
    · -- So few units are there only of `2 ^ 53`, which is a whole number of them.
      obtain ⟨hden₂, hnum₂⟩ := eq_of_coarse hnum hbound hden' hneg (Nat.le_of_not_lt hfine)
      generalize 2 ^ (-unitExponent num den).toNat = unit at h hden₂
      subst hden₂ hnum₂
      have hwhole : 2 ^ 53 * unit = 2 ^ 52 * (2 * unit) := by omega
      rw [hwhole, roundDiv_mul hden] at h
      refine hlt ?_
      linarith
  · have hzero : (-unitExponent num den).toNat = 0 := by omega
    have hpos : 0 < den * 2 ^ (unitExponent num den).toNat := by positivity
    rw [hzero, Nat.pow_zero, Nat.mul_one, Nat.mul_one] at h
    generalize 2 ^ (unitExponent num den).toNat = unit at hq hpos h
    subst hq
    rw [roundDiv_mul hpos] at h
    have hscaled := Nat.mul_le_mul_right den h
    linarith

end Double

/-! ### Pages -/

namespace Page

open Double

/-- The rounded quotient of a count by a size lies at or below the naturals that the exact one lies at or
below, where both are up to `2 ^ 53`; a greater size rounds it up to one at most. -/
theorem exists_ceilQuotient {count size : Nat} (hcount : count ≤ 2 ^ 53) (hsize : 0 < size) :
    ∃ c : Nat, ceilQuotient count size = .ok (c : Int) ∧
      (∀ n, count ≤ n * size → c ≤ n) ∧ (size ≤ 2 ^ 53 → ∀ n, c ≤ n → count ≤ n * size) := by
  have hsign : (decide ((count : Int) < 0) != decide ((size : Int) < 0)) = false := by
    rw [decide_eq_false (by omega), decide_eq_false (by omega)]
    rfl
  unfold ceilQuotient
  rw [hsign, Int.natAbs_natCast, Int.natAbs_natCast]
  dsimp only
  by_cases hzero : count = 0
  · subst hzero
    obtain ⟨c, hc, hceil⟩ := ceil?_finite 0 minExponent
    have hnone : c ≤ 0 := (hceil 0).2 (by simp [AtMost])
    refine ⟨c, ?_, fun n _ => by omega, fun _ n _ => Nat.zero_le _⟩
    rw [ofQuotient, if_pos rfl, hc]
    rfl
  · obtain ⟨mantissa, exponent, hquotient, hvalue⟩ := ofQuotient_finite size hzero hcount
    obtain ⟨c, hc, hceil⟩ := ceil?_finite mantissa exponent
    refine ⟨c, ?_, fun n h => ?_, fun hsize' n h => ?_⟩
    · rw [hquotient, hc]
      rfl
    · exact (hceil n).2 ((hvalue n).2 (atMost_of_le hsize hzero hcount h))
    · exact le_of_atMost hsize hzero hcount hsize' ((hvalue n).1 ((hceil n).1 h))

/-- A page of up to `2 ^ 53` elements has a next one just when elements are left behind it. -/
theorem hasNext_eq {p : Page} {total number size : Nat} (htotal : p.totalCount = total)
    (hnumber : p.pageNumber = number) (hsize : p.pageSize = size) (hbound : total ≤ 2 ^ 53)
    (hpositive : 0 < number) (hpositive' : 0 < size) :
    p.hasNext = .ok (decide (number * size < total)) := by
  obtain ⟨c, hc, hupper, hlower⟩ := exists_ceilQuotient hbound hpositive'
  have hpages : p.totalPages = .ok (c : Int) := by
    rw [totalPages, hsize, if_neg (by omega), htotal, hc]
  have hiff : (number : Int) < c ↔ number * size < total := by
    rw [Int.ofNat_lt, ← not_le, ← not_le, not_iff_not]
    refine ⟨fun h => ?_, hupper number⟩
    by_cases hsize' : size ≤ 2 ^ 53
    · exact hlower hsize' number h
    · have := Nat.le_mul_of_pos_left size hpositive
      omega
  rw [hasNext, hpages]
  change Except.ok _ = _
  rw [hnumber, decide_eq_decide.2 hiff]

/-- Past `2 ^ 53` the quotient is rounded, so that the last element is on a page which is not announced. -/
example : (Page.mk [] (2 ^ 53 + 1) (2 ^ 53) 1).hasNext.toOption = some false := by decide +kernel

end Page

end EntityQuery

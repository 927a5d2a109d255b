import Mathlib.Algebra.Order.Field.Power
import Mathlib.Data.Rat.Floor
import Mathlib.Tactic.FieldSimp
import EntityQuery.Proofs.Page

/-! Exact page counts. The quotient of two counts is rounded to the nearest binary64 number, of two at
the same distance to the one with the even mantissa, and for counts up to `2 ^ 53` the ceiling of that
number is the ceiling of the exact quotient. -/

namespace EntityQuery

/-! ### Nearest multiples -/

section RoundDiv

variable {den : Nat}

/-- The multiples of a number around one of them. -/
theorem multiple_cases (den : Nat) (k q : Int) :
    k * den ≤ q * den - den ∨ k = q ∧ k * den = q * den ∨ k = q + 1 ∧ k * den = q * den + den ∨
      q * den + 2 * den ≤ k * den := by
  have hpos : (0 : Int) ≤ den := Int.natCast_nonneg den
  rcases lt_trichotomy k q with hlt | rfl | hgt
  · have := Int.mul_le_mul_of_nonneg_right (Int.le_sub_one_of_lt hlt) hpos
    rw [Int.sub_mul, Int.one_mul] at this
    exact .inl this
  · exact .inr (.inl ⟨rfl, rfl⟩)
  · rcases eq_or_lt_of_le (Int.add_one_le_of_lt hgt) with rfl | hlt
    · exact .inr (.inr (.inl ⟨rfl, by ring⟩))
    · have := Int.mul_le_mul_of_nonneg_right (Int.add_one_le_of_lt hlt) hpos
      refine .inr (.inr (.inr ?_))
      linarith

/-- No multiple of the divisor is closer than that of the rounded quotient, and one at the same distance
leaves the even one to it. -/
theorem roundDiv_closest (hden : 0 < den) (num : Nat) (k : Int) :
    (roundDiv num den * den - num : Int).natAbs ≤ (k * den - num : Int).natAbs ∧
      ((k * den - num : Int).natAbs = (roundDiv num den * den - num : Int).natAbs →
        k = roundDiv num den ∨ roundDiv num den % 2 = 0) := by
  have hdivision : (num : Int) = (num / den : Nat) * den + (num % den : Nat) := by
    exact_mod_cast (Nat.div_add_mod' num den).symm
  have hrest : num % den < den := Nat.mod_lt num hden
  have hcases := multiple_cases den k (num / den : Nat)
  unfold roundDiv
  dsimp only
  generalize num / den = q at *
  generalize num % den = r at *
  split
  · omega
  · split
    · rcases Nat.mod_two_eq_zero_or_one q with heven | hodd
      · rw [heven, Nat.add_zero]
        omega
      · rw [hodd]
        push_cast
        rw [Int.add_mul, Int.one_mul]
        omega
    · push_cast
      rw [Int.add_mul, Int.one_mul]
      omega

end RoundDiv

namespace Double

/-! ### The nearest number -/

/-- The exact value of a finite number. -/
def value : Double → ℚ
  | .finite negative mantissa exponent => (if negative then -1 else 1) * (mantissa * 2 ^ exponent)
  | .infinite _ => 0

/-- Finite numbers with a mantissa and an exponent of the format. -/
def InFormat : Double → Prop
  | .finite _ mantissa exponent =>
    mantissa < 2 ^ 53 ∧ minExponent ≤ exponent ∧ exponent ≤ maxExponent
  | .infinite _ => False

def HasEvenMantissa : Double → Prop
  | .finite _ mantissa _ => mantissa % 2 = 0
  | .infinite _ => False

/-- A number of the format to which a rational is rounded: none is closer, and where another one is as
close, the mantissa is even. -/
structure Nearest (x : Double) (q : ℚ) : Prop where
  inFormat : x.InFormat
  closest : ∀ y : Double, y.InFormat → |x.value - q| ≤ |y.value - q|
  even : ∀ y : Double, y.InFormat → |y.value - q| = |x.value - q| →
    y.value = x.value ∨ x.HasEvenMantissa

variable {num den : Nat}

theorem two_pow_mul_zpow (e : Int) : (2 : ℚ) ^ (-e).toNat * 2 ^ e = 2 ^ e.toNat := by
  rcases le_total 0 e with he | he
  · obtain ⟨n, rfl⟩ := Int.eq_ofNat_of_zero_le he
    have hzero : (-(n : Int)).toNat = 0 := by omega
    rw [hzero, pow_zero, one_mul, Int.toNat_natCast, zpow_natCast]
  · obtain ⟨n, hn⟩ := Int.eq_ofNat_of_zero_le (Int.neg_nonneg_of_nonpos he)
    obtain rfl : e = -n := by omega
    have hzero : (-(n : Int)).toNat = 0 := by omega
    rw [hzero, pow_zero, neg_neg, Int.toNat_natCast, zpow_neg, zpow_natCast]
    exact mul_inv_cancel₀ (by positivity)

/-- The power of two above a quotient is more than the quotient. -/
theorem lt_two_pow_floorLog2 (hden : 0 < den) (num : Nat) :
    (num : ℚ) < den * 2 ^ (floorLog2 num den + 1) := by
  have hden' : den ≠ 0 := Nat.pos_iff_ne_zero.1 hden
  have hnum : (num : ℚ) < 2 ^ (num.log2 + 1) := by exact_mod_cast Nat.lt_log2_self
  have hlow : (2 : ℚ) ^ den.log2 ≤ den := by exact_mod_cast Nat.log2_self_le hden'
  unfold floorLog2
  dsimp only
  have hguess : (num : ℚ) < den * 2 ^ ((num.log2 : Int) - den.log2 + 1) := by
    have hpower : (2 : ℚ) ^ den.log2 * 2 ^ ((num.log2 : Int) - den.log2 + 1) = 2 ^ (num.log2 + 1) := by
      rw [← zpow_natCast, ← zpow_natCast, ← zpow_add₀ (by norm_num)]
      congr 1
      push_cast
      ring
    calc (num : ℚ) < 2 ^ (num.log2 + 1) := hnum
      _ ≤ den * 2 ^ ((num.log2 : Int) - den.log2 + 1) := by
        rw [← hpower]
        gcongr
  generalize (num.log2 : Int) - den.log2 = guess at *
  have hpower := two_pow_mul_zpow guess
  -- Where the guess is not reached, it is above the quotient itself.
  by_cases hneg : guess < 0
  · rw [if_pos hneg]
    split
    · exact hguess
    · next hreached =>
      have hbound : (num : ℚ) * 2 ^ (-guess).toNat < den := by
        rw [decide_eq_true_eq, not_le] at hreached
        exact_mod_cast hreached
      have hzero : guess.toNat = 0 := by omega
      rw [hzero, pow_zero] at hpower
      rw [sub_add_cancel]
      calc (num : ℚ) = num * 2 ^ (-guess).toNat * 2 ^ guess := by rw [mul_assoc, hpower, mul_one]
        _ < den * 2 ^ guess := by gcongr
  · rw [if_neg hneg]
    split
    · exact hguess
    · next hreached =>
      have hbound : (num : ℚ) < den * 2 ^ guess.toNat := by
        rw [decide_eq_true_eq, not_le] at hreached
        exact_mod_cast hreached
      have hzero : (-guess).toNat = 0 := by omega
      rw [hzero, pow_zero, one_mul] at hpower
      rwa [sub_add_cancel, hpower]

/-! ### Multiples of a unit -/

variable {e : Int}

/-- The distance of a multiple of a unit from a quotient, in parts of the unit. -/
theorem abs_multiple_sub (hden : 0 < den) (num : Nat) (e k : Int) :
    |(k : ℚ) * 2 ^ e - num / den| =
      (k * (den * 2 ^ e.toNat : Nat) - (num * 2 ^ (-e).toNat : Nat) : Int).natAbs *
        (2 ^ e / (den * 2 ^ e.toNat)) := by
  have hden' : (den : ℚ) ≠ 0 := by exact_mod_cast Nat.pos_iff_ne_zero.1 hden
  have hpower := two_pow_mul_zpow e
  have hscaled : (k : ℚ) * 2 ^ e - num / den =
      (k * (den * 2 ^ e.toNat : Nat) - (num * 2 ^ (-e).toNat : Nat) : Int) *
        (2 ^ e / (den * 2 ^ e.toNat)) := by
    push_cast
    field_simp
    rw [← hpower]
    ring
  rw [hscaled, abs_mul, Nat.cast_natAbs, Int.cast_abs, abs_of_nonneg (a := _ / _) (by positivity)]

/-- No multiple of a unit is closer to a quotient than the rounded one, and one at the same distance leaves
the even one to it. -/
theorem roundAt_closest (hden : 0 < den) (num : Nat) (e k : Int) :
    |(roundAt num den e : ℚ) * 2 ^ e - num / den| ≤ |(k : ℚ) * 2 ^ e - num / den| ∧
      (|(k : ℚ) * 2 ^ e - num / den| = |(roundAt num den e : ℚ) * 2 ^ e - num / den| →
        k = roundAt num den e ∨ roundAt num den e % 2 = 0) := by
  have hunit : (0 : ℚ) < 2 ^ e / (den * 2 ^ e.toNat) := by positivity
  have hpos : 0 < den * 2 ^ e.toNat := by positivity
  obtain ⟨hclosest, heven⟩ := roundDiv_closest hpos (num * 2 ^ (-e).toNat) k
  have hround := abs_multiple_sub hden num e (roundAt num den e)
  rw [Int.cast_natCast] at hround
  rw [hround, abs_multiple_sub hden num e k, roundAt_eq]
  constructor
  · gcongr
  · intro h
    exact heven (by exact_mod_cast mul_right_cancel₀ hunit.ne' h)

/-- A number of the format is a multiple of a unit, or else is below the multiples of 53 digits. -/
theorem value_cases {y : Double} (hy : y.InFormat) (e : Int) :
    (∃ k : Int, y.value = k * 2 ^ e) ∨ minExponent < e ∧ y.value < 2 ^ 52 * 2 ^ e := by
  cases y with
  | infinite negative => exact hy.elim
  | finite negative m f =>
    obtain ⟨hm, hf, -⟩ := hy
    have hm' : (m : ℚ) < 2 ^ 53 := by exact_mod_cast hm
    rcases le_or_gt e f with hle | hlt
    · left
      refine ⟨(if negative then -1 else 1) * (m * 2 ^ (f - e).toNat), ?_⟩
      have hexponent : ((f - e).toNat : Int) + e = f := by omega
      have hpower : (2 : ℚ) ^ f = 2 ^ (f - e).toNat * 2 ^ e := by
        rw [← zpow_natCast, ← zpow_add₀ (by norm_num), hexponent]
      rw [value, hpower]
      push_cast
      split <;> ring
    · right
      refine ⟨by omega, ?_⟩
      calc value (.finite negative m f) ≤ m * 2 ^ f := by
            have hsize : (0 : ℚ) ≤ m * 2 ^ f := by positivity
            rw [value]
            split <;> linarith
        _ ≤ m * 2 ^ (e - 1) := by
            gcongr
            · norm_num
            · omega
        _ < 2 ^ 53 * 2 ^ (e - 1) := by gcongr
        _ = 2 ^ 52 * 2 ^ e := by
            rw [zpow_sub_one₀ (by norm_num)]
            ring

/-! ### Rounded quotients -/

theorem minExponent_le_unitExponent (num den : Nat) : minExponent ≤ unitExponent num den :=
  le_max_right _ _

/-- The quotient has at most 53 digits in its unit. -/
theorem roundAt_le (hden : 0 < den) (num : Nat) : roundAt num den (unitExponent num den) ≤ 2 ^ 53 := by
  have hlog : floorLog2 num den + 1 ≤ 53 + unitExponent num den := by
    unfold unitExponent
    omega
  have hpower := two_pow_mul_zpow (unitExponent num den)
  have hbound : (num : ℚ) * 2 ^ (-unitExponent num den).toNat ≤
      2 ^ 53 * (den * 2 ^ (unitExponent num den).toNat) := by
    calc (num : ℚ) * 2 ^ (-unitExponent num den).toNat
        ≤ den * 2 ^ (floorLog2 num den + 1) * 2 ^ (-unitExponent num den).toNat := by
          gcongr
          exact (lt_two_pow_floorLog2 hden num).le
      _ ≤ den * 2 ^ (53 + unitExponent num den) * 2 ^ (-unitExponent num den).toNat := by
          gcongr
          norm_num
      _ = 2 ^ 53 * (den * 2 ^ (unitExponent num den).toNat) := by
          rw [← hpower, zpow_add₀ (by norm_num)]
          norm_cast
          ring
  rw [roundAt_eq]
  exact roundDiv_le (by positivity) (by exact_mod_cast hbound)

/-- Numbers below the multiples of 53 digits are further away from the quotient than one of these. -/
theorem le_quotient (hden : 0 < den) (hnum : num ≠ 0) (h : minExponent < unitExponent num den) :
    2 ^ 52 * 2 ^ unitExponent num den ≤ (num : ℚ) / den := by
  have hclamped : minExponent ≤ floorLog2 num den - 52 := by
    unfold unitExponent at h
    omega
  have hunits := units_le den hnum hclamped
  have hpower := two_pow_mul_zpow (unitExponent num den)
  have hbound : (den : ℚ) * 2 ^ (52 + (unitExponent num den).toNat) ≤
      num * 2 ^ (-unitExponent num den).toNat := by exact_mod_cast hunits
  rw [le_div_iff₀ (by exact_mod_cast hden)]
  refine le_of_mul_le_mul_right ?_ (show (0 : ℚ) < 2 ^ (-unitExponent num den).toNat by positivity)
  rw [pow_add, ← hpower] at hbound
  linarith

/-- A rounded quotient that is finite is the rounded count of units. -/
theorem ofQuotient_eq_finite (hnum : num ≠ 0) {negative : Bool} {mantissa : Nat} {exponent : Int}
    (h : ofQuotient false num den = .finite negative mantissa exponent) :
    negative = false ∧ exponent ≤ maxExponent ∧
      (mantissa = roundAt num den (unitExponent num den) ∧ mantissa ≠ 2 ^ 53 ∧
          exponent = unitExponent num den ∨
        roundAt num den (unitExponent num den) = 2 ^ 53 ∧ mantissa = 2 ^ 52 ∧
          exponent = unitExponent num den + 1) := by
  rw [ofQuotient_eq _ hnum] at h
  dsimp only at h
  by_cases hfull : roundAt num den (unitExponent num den) = 2 ^ 53
  · rw [if_pos hfull] at h
    split at h
    · cases h
    · next hfinite =>
      obtain ⟨rfl, rfl, rfl⟩ := finite.inj h
      exact ⟨rfl, not_lt.1 hfinite, .inr ⟨hfull, rfl, rfl⟩⟩
  · rw [if_neg hfull] at h
    split at h
    · cases h
    · next hfinite =>
      obtain ⟨rfl, rfl, rfl⟩ := finite.inj h
      exact ⟨rfl, not_lt.1 hfinite, .inl ⟨rfl, hfull, rfl⟩⟩

/-- A quotient that does not become infinite is rounded to the number nearest to it. -/
theorem nearest_of_ofQuotient (hden : 0 < den) {negative : Bool} {mantissa : Nat} {exponent : Int}
    (h : ofQuotient false num den = .finite negative mantissa exponent) :
    (finite negative mantissa exponent).Nearest (num / den) := by
  by_cases hnum : num = 0
  · subst hnum
    rw [ofQuotient, if_pos rfl] at h
    obtain ⟨rfl, rfl, rfl⟩ := finite.inj h
    have hzero : (finite false 0 minExponent).value = 0 := by simp [value]
    refine ⟨⟨by norm_num, le_rfl, by decide⟩, fun y _ => ?_, fun _ _ _ => .inr rfl⟩
    rw [hzero, Nat.cast_zero, zero_div, sub_zero, abs_zero]
    exact abs_nonneg _
  obtain ⟨rfl, hmax, hcases⟩ := ofQuotient_eq_finite hnum h
  have hmin := minExponent_le_unitExponent num den
  have hle := roundAt_le hden num
  have hvalue : (finite false mantissa exponent).value =
      roundAt num den (unitExponent num den) * 2 ^ unitExponent num den := by
    rcases hcases with ⟨rfl, -, rfl⟩ | ⟨hfull, rfl, rfl⟩
    · simp [value]
    · rw [hfull, value, zpow_add_one₀ (by norm_num)]
      push_cast
      ring
  have heven : roundAt num den (unitExponent num den) % 2 = 0 →
      (finite false mantissa exponent).HasEvenMantissa := by
    rcases hcases with ⟨rfl, -, -⟩ | ⟨-, rfl, -⟩
    · exact id
    · exact fun _ => rfl
  have hclosest := roundAt_closest hden num (unitExponent num den)
  have hbelow : ∀ y : Double, minExponent < unitExponent num den →
      y.value < 2 ^ 52 * 2 ^ unitExponent num den →
      |(finite false mantissa exponent).value - num / den| < |y.value - num / den| := by
    intro y hunit hy
    have hquotient := le_quotient hden hnum hunit
    have hpivot := (hclosest (2 ^ 52)).1
    have hside : 2 ^ 52 * 2 ^ unitExponent num den - (num : ℚ) / den ≤ 0 := sub_nonpos.2 hquotient
    have hside' : y.value - (num : ℚ) / den < 0 := sub_neg.2 (hy.trans_le hquotient)
    rw [Int.cast_pow, Int.cast_ofNat, ← hvalue, abs_of_nonpos hside] at hpivot
    rw [abs_of_neg hside']
    linarith
  constructor
  case inFormat => rcases hcases with ⟨rfl, hne, rfl⟩ | ⟨-, rfl, rfl⟩ <;> refine ⟨?_, ?_, hmax⟩ <;> omega
  case closest =>
    intro y hy
    rcases value_cases hy (unitExponent num den) with ⟨k, hk⟩ | ⟨hunit, hlow⟩
    · rw [hk, hvalue]
      exact (hclosest k).1
    · exact (hbelow y hunit hlow).le
  case even =>
    intro y hy htie
    rcases value_cases hy (unitExponent num den) with ⟨k, hk⟩ | ⟨hunit, hlow⟩
    · rw [hk, hvalue] at htie ⊢
      rcases (hclosest k).2 htie with rfl | hmod
      · left
        rw [Int.cast_natCast]
      · exact .inr (heven hmod)
    · exact absurd htie (hbelow y hunit hlow).ne'

/-- The least integer that is not below a number is the ceiling of its value. -/
theorem ceil?_eq (mantissa : Nat) (exponent : Int) :
    (finite false mantissa exponent).ceil? = some ⌈(finite false mantissa exponent).value⌉ := by
  obtain ⟨c, hc, hceil⟩ := ceil?_finite mantissa exponent
  have hpower := two_pow_mul_zpow exponent
  have hatMost : ∀ n : Nat, (finite false mantissa exponent).value ≤ n ↔ AtMost mantissa exponent n := by
    intro n
    have hpos : (0 : ℚ) < 2 ^ (-exponent).toNat := by positivity
    have hscaled : (finite false mantissa exponent).value * 2 ^ (-exponent).toNat =
        mantissa * 2 ^ exponent.toNat := by
      rw [← hpower, value]
      simp only [Bool.false_eq_true, if_false]
      ring
    rw [← mul_le_mul_iff_left₀ hpos, hscaled, AtMost]
    exact_mod_cast Iff.rfl
  have hnonneg : 0 ≤ (finite false mantissa exponent).value := by
    simp only [value, Bool.false_eq_true, if_false, one_mul]
    positivity
  rw [hc, ← Int.natCast_ceil_eq_ceil hnonneg]
  congr 2
  refine le_antisymm ?_ ?_
  · exact (hceil _).2 ((hatMost _).1 (Nat.le_ceil _))
  · exact Nat.ceil_le.2 ((hatMost c).2 ((hceil c).1 le_rfl))

end Double

namespace Page

open Double

variable {count size : Nat}

theorem exists_ofQuotient_eq (size : Nat) (hcount : count ≤ 2 ^ 53) :
    ∃ mantissa exponent, ofQuotient false count size = .finite false mantissa exponent := by
  by_cases hzero : count = 0
  · subst hzero
    exact ⟨0, minExponent, rfl⟩
  · obtain ⟨mantissa, exponent, h, -⟩ := ofQuotient_finite size hzero hcount
    exact ⟨mantissa, exponent, h⟩

/-- The number of pages is the ceiling of the number nearest to the quotient. -/
theorem exists_nearest (hcount : count ≤ 2 ^ 53) (hsize : 0 < size) :
    ∃ x : Double, x.Nearest (count / size) ∧ ceilQuotient count size = .ok ⌈x.value⌉ := by
  obtain ⟨mantissa, exponent, h⟩ := exists_ofQuotient_eq size hcount
  have hsign : (decide ((count : Int) < 0) != decide ((size : Int) < 0)) = false := by
    rw [decide_eq_false (by omega), decide_eq_false (by omega)]
    rfl
  refine ⟨_, nearest_of_ofQuotient hsize h, ?_⟩
  unfold ceilQuotient
  rw [hsign, Int.natAbs_natCast, Int.natAbs_natCast, h]
  dsimp only
  rw [ceil?_eq]
  rfl

/-- It is the ceiling of the exact quotient, too. -/
theorem ceilQuotient_eq (hcount : count ≤ 2 ^ 53) (hsize : 0 < size) (hsize' : size ≤ 2 ^ 53) :
    ceilQuotient count size = .ok ⌈(count : ℚ) / size⌉ := by
  obtain ⟨c, hc, hupper, hlower⟩ := exists_ceilQuotient hcount hsize
  have hpos : (0 : ℚ) < size := by exact_mod_cast hsize
  have hceil : ⌈(count : ℚ) / size⌉₊ = c := by
    refine le_antisymm ?_ (hupper _ ?_)
    · rw [Nat.ceil_le, div_le_iff₀ hpos]
      exact_mod_cast hlower hsize' c le_rfl
    · have hle := Nat.le_ceil ((count : ℚ) / size)
      rw [div_le_iff₀ hpos] at hle
      exact_mod_cast hle
  rw [hc, ← Int.natCast_ceil_eq_ceil (by positivity), hceil]

/-- Counts up to `2 ^ 53` have an exact number of pages. It is the ceiling of the number nearest to the
quotient, and so of the quotient itself; and a page has a next one just where elements are left behind
it. -/
theorem totalPages_exact {p : Page} (hcount : 0 ≤ p.totalCount) (hcount' : p.totalCount ≤ 2 ^ 53)
    (hsize : 1 ≤ p.pageSize) (hsize' : p.pageSize ≤ 2 ^ 53) (hnumber : 1 ≤ p.pageNumber) :
    (∃ x : Double, x.Nearest (p.totalCount / p.pageSize) ∧ p.totalPages = .ok ⌈x.value⌉) ∧
      p.totalPages = .ok ⌈(p.totalCount : ℚ) / p.pageSize⌉ ∧
      p.hasNext = .ok (decide (p.pageNumber * p.pageSize < p.totalCount)) := by
  obtain ⟨items, totalCount, pageNumber, pageSize⟩ := p
  dsimp only at hcount hcount' hsize hsize' hnumber
  lift totalCount to Nat using hcount
  lift pageNumber to Nat using by omega
  lift pageSize to Nat using by omega
  have hpositive : 0 < pageSize := by exact_mod_cast hsize
  have hlarge : ¬ (pageSize : Int) ≤ 0 := not_le.2 (by exact_mod_cast hpositive)
  have hpages : (Page.mk items totalCount pageNumber pageSize).totalPages =
      ceilQuotient totalCount pageSize := if_neg hlarge
  have hbound : totalCount ≤ 2 ^ 53 := by exact_mod_cast hcount'
  have hbound' : pageSize ≤ 2 ^ 53 := by exact_mod_cast hsize'
  simp only [hpages, Int.cast_natCast]
  refine ⟨exists_nearest hbound hpositive, ceilQuotient_eq hbound hpositive hbound', ?_⟩
  have hnumber' : 0 < pageNumber := by exact_mod_cast hnumber
  rw [hasNext_eq rfl rfl rfl hbound hnumber' hpositive]
  norm_cast

end Page

namespace Sample

/-- The first page of `2 ^ 53` elements, where one is left for the next. -/
def longPage : Page := ⟨[], 2 ^ 53, 1, 2 ^ 53 - 1⟩

/-- The quotient is hardly more than half a unit above one. -/
theorem totalPages_exact_long : 0 ≤ longPage.totalCount ∧ longPage.totalCount ≤ 2 ^ 53 ∧
    1 ≤ longPage.pageSize ∧ longPage.pageSize ≤ 2 ^ 53 ∧ 1 ≤ longPage.pageNumber ∧
    (∃ x : Double, x.Nearest (2 ^ 53 / (2 ^ 53 - 1)) ∧ longPage.totalPages = .ok ⌈x.value⌉) ∧
    longPage.totalPages = .ok 2 ∧ longPage.hasNext = .ok true := by
  have hcount : 0 ≤ longPage.totalCount := by decide
  have hcount' : longPage.totalCount ≤ 2 ^ 53 := by decide
  have hsize : 1 ≤ longPage.pageSize := by decide
  have hsize' : longPage.pageSize ≤ 2 ^ 53 := by decide
  have hnumber : 1 ≤ longPage.pageNumber := by decide
  obtain ⟨⟨x, hx, hpages⟩, hexact, hnext⟩ :=
    Page.totalPages_exact hcount hcount' hsize hsize' hnumber
  have hquotient : (longPage.totalCount : ℚ) / longPage.pageSize = 2 ^ 53 / (2 ^ 53 - 1) := by
    norm_num [longPage]
  have hceil : ⌈(longPage.totalCount : ℚ) / longPage.pageSize⌉ = 2 := by
    rw [hquotient, Int.ceil_eq_iff]
    norm_num
  refine ⟨hcount, hcount', hsize, hsize', hnumber, ⟨x, ?_, hpages⟩, ?_, ?_⟩
  · rwa [hquotient] at hx
  · rw [hexact, hceil]
  · rw [hnext]
    rfl

end Sample

end EntityQuery

import Mathlib.Algebra.Order.Field.Power
import Mathlib.Tactic.FieldSimp
import Mathlib.Tactic.Linarith
import BlockCompiler.Proofs.RealText

/-!
# The shortest decimal reads back

The shortest decimal of a real lies in its rounding interval, and the rounding intervals of different
reals have no point in common.  So the shortest decimal determines the real, and with it the text does.

* `Rounding.Admits` says that a rational lies in an interval, and `Rounding.contains_iff` that the
  comparisons of naturals decide it.
* `Rounding.admits_shortest` is about the search.  It succeeds on the grid of seventeen digits, if not
  before, because the interval is wider than a step of that grid; the fallback is never taken.
* `Binary64.eq_of_admits` is about neighbours: their intervals meet in one point at most, and that
  belongs to neither or to the even one of the two.
* `Binary64.eq_of_render_eq` is the result.
-/

namespace BlockCompiler

/-- An integral power of a natural is a quotient of powers. -/
theorem zpow_eq_pow_div_pow {b : Nat} (hb : b ≠ 0) (t : Int) :
    (b : ℚ) ^ t = (b : ℚ) ^ t.toNat / (b : ℚ) ^ (-t).toNat := by
  have hb : (b : ℚ) ≠ 0 := Nat.cast_ne_zero.2 hb
  rw [eq_div_iff (pow_ne_zero _ hb), ← zpow_natCast, ← zpow_natCast, ← zpow_add₀ hb]
  congr 1
  omega

/-! ## Rounding intervals -/

namespace Rounding

/-- A rational that reads back as the value: it lies in the interval. -/
structure Admits (r : Rounding) (p : ℚ) : Prop where
  low_le : r.low ≤ p * r.den
  le_high : p * r.den ≤ r.high
  inner : r.closed = false → r.low < p * r.den ∧ p * r.den < r.high

/-- The value lies in the interval, and the interval is wider than a step of the grid of seventeen
digits. -/
structure IsWide (r : Rounding) : Prop where
  den_pos : 0 < r.den
  low_lt : r.low < r.value
  lt_high : r.value < r.high
  wide : r.value + r.low * 10 ^ 16 < r.high * 10 ^ 16

variable (r : Rounding) (c : Nat) (t : Int)

/-- A decimal over the denominator of the interval. -/
theorem value_mul_den : Decimal.value ⟨c, t⟩ * r.den =
    ((c * 10 ^ t.toNat * r.den : Nat) : ℚ) / ((10 ^ (-t).toNat : Nat) : ℚ) := by
  have hten := zpow_eq_pow_div_pow (b := 10) (by decide) t
  push_cast at hten ⊢
  rw [Decimal.value, hten]
  ring

theorem le_value_iff (n : Nat) : n ≤ Decimal.value ⟨c, t⟩ * r.den ↔
    n * 10 ^ (-t).toNat ≤ c * 10 ^ t.toNat * r.den := by
  rw [value_mul_den, le_div_iff₀ (by positivity)]
  exact_mod_cast Iff.rfl

theorem value_le_iff (n : Nat) : Decimal.value ⟨c, t⟩ * r.den ≤ n ↔
    c * 10 ^ t.toNat * r.den ≤ n * 10 ^ (-t).toNat := by
  rw [value_mul_den, div_le_iff₀ (by positivity)]
  exact_mod_cast Iff.rfl

theorem contains_iff : r.contains c t = true ↔ r.Admits (Decimal.value ⟨c, t⟩) := by
  have hadmits : r.Admits (Decimal.value ⟨c, t⟩) ↔
      r.low ≤ Decimal.value ⟨c, t⟩ * r.den ∧ Decimal.value ⟨c, t⟩ * r.den ≤ r.high ∧
        (r.closed = false →
          r.low < Decimal.value ⟨c, t⟩ * r.den ∧ Decimal.value ⟨c, t⟩ * r.den < r.high) :=
    ⟨fun h => ⟨h.1, h.2, h.3⟩, fun h => ⟨h.1, h.2.1, h.2.2⟩⟩
  rw [hadmits, ← not_le, ← not_le, le_value_iff, value_le_iff, le_value_iff, value_le_iff, contains]
  cases r.closed
  · simp
    omega
  · simp

/-! ## The search -/

variable {r c t}

theorem admits_of_onGrid? (h : r.onGrid? t = some c) : r.Admits (Decimal.value ⟨c, t⟩) := by
  rw [← contains_iff]
  unfold onGrid? at h
  dsimp only at h
  split at h
  next hfloor =>
    split at h
    next hnext =>
      obtain rfl := Option.some.inj h
      simp only [Bool.and_eq_true] at hnext
      exact hnext.1
    next =>
      obtain rfl := Option.some.inj h
      exact hfloor
  next =>
    split at h
    next hnext =>
      obtain rfl := Option.some.inj h
      exact hnext
    next => cases h

/-- The value lies in the step of the grid that starts at its floor. -/
theorem gridFloor_spec (hden : 0 < r.den) (t : Int) :
    Decimal.value ⟨r.gridFloor t, t⟩ * r.den ≤ r.value ∧
      r.value < Decimal.value ⟨r.gridFloor t + 1, t⟩ * r.den := by
  have hpos : 0 < r.den * 10 ^ t.toNat := Nat.mul_pos hden (by positivity)
  have hfloor := Nat.div_mul_le_self (r.value * 10 ^ (-t).toNat) (r.den * 10 ^ t.toNat)
  have hnext := Nat.lt_mul_div_succ (r.value * 10 ^ (-t).toNat) hpos
  rw [value_le_iff, ← not_le, value_le_iff, not_le, gridFloor]
  constructor
  · rw [mul_right_comm, mul_assoc]
    exact hfloor
  · rw [mul_right_comm, mul_assoc, mul_comm (_ + 1)]
    exact hnext

/-- The steps of the grid `10 ^ t` are that wide. -/
theorem value_succ (c : Nat) (t : Int) :
    Decimal.value ⟨c + 1, t⟩ = Decimal.value ⟨c, t⟩ + (10 : ℚ) ^ t := by
  simp only [Decimal.value]
  push_cast
  ring

/-- An interval that is wider than a step of the grid has a point of the grid next to its value. -/
theorem onGrid?_ne_none (h : r.IsWide) (hstep : (10 : ℚ) ^ t * r.den < r.high - r.low) :
    r.onGrid? t ≠ none := by
  intro hnone
  obtain ⟨hfloor, hnext⟩ := gridFloor_spec h.den_pos t
  have hlow : (r.low : ℚ) < r.value := Nat.cast_lt.2 h.low_lt
  have hhigh : (r.value : ℚ) < r.high := Nat.cast_lt.2 h.lt_high
  have hbelow : ¬r.Admits (Decimal.value ⟨r.gridFloor t, t⟩) := by
    rw [← contains_iff]
    intro hcontains
    rw [onGrid?, if_pos hcontains] at hnone
    split at hnone <;> cases hnone
  have habove : ¬r.Admits (Decimal.value ⟨r.gridFloor t + 1, t⟩) := by
    rw [← contains_iff] at hbelow ⊢
    intro hcontains
    rw [onGrid?, if_neg hbelow, if_pos hcontains] at hnone
    cases hnone
  -- A point between the ends is admitted, so these two are not between them.
  have hleft : Decimal.value ⟨r.gridFloor t, t⟩ * r.den ≤ r.low := by
    by_contra hlt
    exact hbelow ⟨by linarith, by linarith, fun _ => ⟨by linarith, by linarith⟩⟩
  have hright : r.high ≤ Decimal.value ⟨r.gridFloor t + 1, t⟩ * r.den := by
    by_contra hlt
    exact habove ⟨by linarith, by linarith, fun _ => ⟨by linarith, by linarith⟩⟩
  rw [value_succ, add_mul] at hright
  linarith

theorem lt_pow_length_toDigits (n : Nat) : n < 10 ^ (Nat.toDigits 10 n).length :=
  (Nat.length_toDigits_le_iff (by decide) Nat.length_toDigits_pos).1 (Nat.le_refl _)

theorem pow_length_toDigits_le {n : Nat} (hn : 0 < n) : 10 ^ ((Nat.toDigits 10 n).length - 1) ≤ n := by
  by_contra hlt
  have hlength : 0 < (Nat.toDigits 10 n).length := Nat.length_toDigits_pos
  rcases Nat.eq_zero_or_pos ((Nat.toDigits 10 n).length - 1) with hone | hpos
  · rw [hone, pow_zero] at hlt
    omega
  · have hle := (Nat.length_toDigits_le_iff (by decide) hpos).2 (not_le.1 hlt)
    omega

/-- The value is not below the power of ten under its magnitude. -/
theorem zpow_magnitude_le (hden : 0 < r.den) (hvalue : 0 < r.value) :
    (10 : ℚ) ^ (r.magnitude - 1) * r.den ≤ r.value := by
  unfold magnitude
  split
  next hle =>
    set n := r.value / r.den with hn
    have hpos : 0 < n := Nat.div_pos hle hden
    have hlength : 0 < (Nat.toDigits 10 n).length := Nat.length_toDigits_pos
    have hexponent : ((Nat.toDigits 10 n).length : Int) - 1 = ((Nat.toDigits 10 n).length - 1 : Nat) := by
      omega
    have hnat : 10 ^ ((Nat.toDigits 10 n).length - 1) * r.den ≤ r.value :=
      (Nat.mul_le_mul_right r.den (pow_length_toDigits_le hpos)).trans (Nat.div_mul_le_self _ _)
    rw [hexponent, zpow_natCast]
    exact_mod_cast hnat
  next hgt =>
    set n := (r.den - 1) / r.value with hn
    have hexponent : 1 - ((Nat.toDigits 10 n).length : Int) - 1 = -((Nat.toDigits 10 n).length : Int) := by
      omega
    have hnat : r.den ≤ r.value * 10 ^ (Nat.toDigits 10 n).length := by
      have hnext := Nat.lt_mul_div_succ (r.den - 1) hvalue
      have hstep := Nat.mul_le_mul_left r.value (lt_pow_length_toDigits n)
      rw [← hn] at hnext
      simp only [Nat.succ_eq_add_one] at hstep
      omega
    rw [hexponent, zpow_neg, zpow_natCast, inv_mul_le_iff₀ (by positivity), mul_comm]
    exact_mod_cast hnat

theorem value_trim (fuel c : Nat) (t : Int) : (trim fuel c t).value = Decimal.value ⟨c, t⟩ := by
  induction fuel generalizing c t with
  | zero => rfl
  | succ fuel ih =>
    rw [trim]
    split
    next hzero =>
      have hten : (10 : ℚ) ≠ 0 := by norm_num
      have hc : ((c / 10 : Nat) : ℚ) * 10 = c := by
        have : c / 10 * 10 = c := by omega
        exact_mod_cast this
      rw [ih, Decimal.value, Decimal.value, ← hc]
      dsimp only
      rw [zpow_add₀ hten, zpow_one]
      ring
    next => rfl

/-- The shortest decimal lies in the interval. -/
theorem admits_shortest (h : r.IsWide) : r.Admits r.shortest.value := by
  unfold shortest
  dsimp only
  split
  next c t hfound =>
    obtain ⟨t', -, hgrid⟩ := List.exists_of_findSome?_eq_some hfound
    obtain ⟨c', hc', hsame⟩ := Option.map_eq_some_iff.1 hgrid
    cases hsame
    rw [value_trim]
    exact admits_of_onGrid? hc'
  next hnone =>
    -- The last grid has steps that are narrower than the interval.
    have hlast := List.findSome?_eq_none_iff.1 hnone (r.magnitude - 1 - (16 : Nat))
      (List.mem_map_of_mem (f := fun n : Nat => r.magnitude - 1 - (n : Int))
        (by decide : 16 ∈ List.range maxDigits))
    rw [Option.map_eq_none_iff] at hlast
    refine absurd hlast (onGrid?_ne_none h ?_)
    have hvalue : 0 < r.value := by
      have := h.low_lt
      omega
    have hmagnitude := zpow_magnitude_le h.den_pos hvalue
    have hwide : (r.value : ℚ) + r.low * 10 ^ 16 < r.high * 10 ^ 16 := by exact_mod_cast h.wide
    have hten : (10 : ℚ) ≠ 0 := by norm_num
    have hstep : (10 : ℚ) ^ (r.magnitude - 1 - (16 : Nat)) * 10 ^ 16 = 10 ^ (r.magnitude - 1) := by
      rw [← zpow_natCast, ← zpow_add₀ hten]
      congr 1
      omega
    have hscaled : (10 : ℚ) ^ (r.magnitude - 1 - (16 : Nat)) * r.den * 10 ^ 16 ≤ r.value := by
      rw [mul_right_comm, hstep]
      exact hmagnitude
    linarith

end Rounding

/-! ## Fields -/

namespace Binary64

variable {x y : Binary64}

theorem exponentField_eq (x : Binary64) : x.exponentField = x.bits.toNat / 2 ^ 52 % 2 ^ 11 := by
  have hmask : (0x7FF : UInt64).toNat = 2 ^ 11 - 1 := by decide
  have hplace : (52 : UInt64).toNat % 64 = 52 := by decide
  rw [exponentField, UInt64.toNat_and, UInt64.toNat_shiftRight, hmask, hplace,
    Nat.and_two_pow_sub_one_eq_mod, Nat.shiftRight_eq_div_pow]

theorem fractionField_eq (x : Binary64) : x.fractionField = x.bits.toNat % 2 ^ 52 := by
  have hmask : (0xFFFFFFFFFFFFF : UInt64).toNat = 2 ^ 52 - 1 := by decide
  rw [fractionField, UInt64.toNat_and, hmask, Nat.and_two_pow_sub_one_eq_mod]

theorem fractionField_lt (x : Binary64) : x.fractionField < 2 ^ 52 := by
  rw [fractionField_eq]
  omega

theorem isNegative_iff (x : Binary64) : x.isNegative = true ↔ 2 ^ 63 ≤ x.bits.toNat := by
  have hplace : (63 : UInt64).toNat % 64 = 63 := by decide
  have hlt := x.bits.toNat_lt
  rw [isNegative, bne_iff_ne, ne_eq, ← UInt64.toNat_inj, UInt64.toNat_shiftRight, hplace,
    Nat.shiftRight_eq_div_pow]
  simp only [UInt64.toNat_ofNat]
  omega

theorem isZero_iff (x : Binary64) :
    x.isZero = true ↔ x.exponentField = 0 ∧ x.fractionField = 0 := by
  have hplace : (1 : UInt64).toNat % 64 = 1 := by decide
  have hlt := x.bits.toNat_lt
  rw [isZero, beq_iff_eq, ← UInt64.toNat_inj, UInt64.toNat_shiftLeft, hplace, Nat.shiftLeft_eq,
    exponentField_eq, fractionField_eq]
  simp only [UInt64.toNat_ofNat]
  omega

/-- The three fields are all of a pattern. -/
theorem ext_fields (hsign : x.isNegative = y.isNegative) (hexponent : x.exponentField = y.exponentField)
    (hfraction : x.fractionField = y.fractionField) : x = y := by
  have hx := x.bits.toNat_lt
  have hy := y.bits.toNat_lt
  have hnegative : 2 ^ 63 ≤ x.bits.toNat ↔ 2 ^ 63 ≤ y.bits.toNat := by
    rw [← isNegative_iff, ← isNegative_iff, hsign]
  rw [exponentField_eq, exponentField_eq] at hexponent
  rw [fractionField_eq, fractionField_eq] at hfraction
  have hbits : x.bits.toNat = y.bits.toNat := by omega
  cases x
  cases y
  exact congrArg mk (UInt64.toNat_inj.1 hbits)

/-! ## Values -/

/-- The two ways in which a pattern is read. -/
theorem parts_eq (x : Binary64) :
    x.exponentField = 0 ∧ x.binaryExponent = -1074 ∧ x.significand = x.fractionField ∨
      0 < x.exponentField ∧ x.binaryExponent = x.exponentField - 1075 ∧
        x.significand = 2 ^ 52 + x.fractionField := by
  unfold binaryExponent significand
  rcases Nat.eq_zero_or_pos x.exponentField with hzero | hpos
  · simp [hzero]
  · simp [hpos, hpos.ne']

theorem significand_pos (hzero : x.isZero = false) : 0 < x.significand := by
  have hzero : ¬(x.exponentField = 0 ∧ x.fractionField = 0) := by
    rw [← isZero_iff, hzero]
    decide
  have := x.parts_eq
  omega

theorem significand_lt (x : Binary64) : x.significand < 2 ^ 53 := by
  have := x.fractionField_lt
  have := x.parts_eq
  omega

/-- How many quarters of the last place the interval extends below the value. -/
def quartersBelow (x : Binary64) : Nat := if x.isNarrowBelow then 1 else 2

theorem quartersBelow_eq (x : Binary64) :
    x.quartersBelow = 1 ∧ x.fractionField = 0 ∧ 1 < x.exponentField ∨
      x.quartersBelow = 2 ∧ (x.fractionField = 0 → x.exponentField ≤ 1) := by
  unfold quartersBelow
  split
  next hnarrow =>
    simp only [isNarrowBelow, Bool.and_eq_true, beq_iff_eq, decide_eq_true_eq] at hnarrow
    exact .inl ⟨rfl, hnarrow⟩
  next hwide =>
    simp only [isNarrowBelow, Bool.and_eq_true, beq_iff_eq, decide_eq_true_eq, not_and] at hwide
    exact .inr ⟨rfl, fun hfraction => not_lt.1 (hwide hfraction)⟩

/-- A quarter of the last place. -/
def quarter (x : Binary64) : ℚ := 2 ^ (x.binaryExponent - 2)

theorem quarter_pos (x : Binary64) : 0 < x.quarter := by
  unfold quarter
  positivity

theorem scale_eq (x : Binary64) : ((2 ^ (x.binaryExponent - 2).toNat : Nat) : ℚ) =
    x.quarter * x.rounding.den := by
  have hneg : (-(x.binaryExponent - 2)).toNat = (2 - x.binaryExponent).toNat := by
    congr 1
    omega
  have htwo := zpow_eq_pow_div_pow (b := 2) (by decide) (x.binaryExponent - 2)
  rw [hneg] at htwo
  push_cast at htwo ⊢
  rw [quarter, htwo, rounding]
  push_cast
  field_simp

theorem isWide_rounding (hzero : x.isZero = false) : x.rounding.IsWide := by
  have hpos := significand_pos hzero
  have hlt := x.significand_lt
  have hparts := x.parts_eq
  have hbelow := x.quartersBelow_eq
  set scale := 2 ^ (x.binaryExponent - 2).toNat with hscale
  have hscale_pos : 0 < scale := by positivity
  have hlow : x.rounding.low = (4 * x.significand - x.quartersBelow) * scale := rfl
  have hvalue : x.rounding.value = 4 * x.significand * scale := rfl
  have hhigh : x.rounding.high = (4 * x.significand + 2) * scale := rfl
  refine ⟨?_, ?_, ?_, ?_⟩
  · show 0 < 2 ^ (2 - x.binaryExponent).toNat
    positivity
  · rw [hlow, hvalue]
    refine Nat.mul_lt_mul_of_pos_right ?_ hscale_pos
    omega
  · rw [hvalue, hhigh]
    refine Nat.mul_lt_mul_of_pos_right ?_ hscale_pos
    omega
  · have hquarters : 4 * x.significand + (4 * x.significand - x.quartersBelow) * 10 ^ 16 <
        (4 * x.significand + 2) * 10 ^ 16 := by
      omega
    rw [hlow, hvalue, hhigh]
    calc 4 * x.significand * scale + (4 * x.significand - x.quartersBelow) * scale * 10 ^ 16
      _ = (4 * x.significand + (4 * x.significand - x.quartersBelow) * 10 ^ 16) * scale := by ring
      _ < (4 * x.significand + 2) * 10 ^ 16 * scale :=
        Nat.mul_lt_mul_of_pos_right hquarters hscale_pos
      _ = (4 * x.significand + 2) * scale * 10 ^ 16 := by ring

/-- The ends of the interval of a real, in quarters of its last place.  They belong to it if the
significand is even. -/
theorem bounds_of_admits {p : ℚ} (h : x.rounding.Admits p) :
    ((4 * x.significand - x.quartersBelow : Nat) : ℚ) * x.quarter ≤ p ∧
      p ≤ ((4 * x.significand + 2 : Nat) : ℚ) * x.quarter ∧
      (x.significand % 2 = 1 →
        ((4 * x.significand - x.quartersBelow : Nat) : ℚ) * x.quarter < p ∧
          p < ((4 * x.significand + 2 : Nat) : ℚ) * x.quarter) := by
  have hden : (0 : ℚ) < x.rounding.den := by
    have : 0 < x.rounding.den := Nat.two_pow_pos _
    exact_mod_cast this
  have hlow : (x.rounding.low : ℚ) =
      ((4 * x.significand - x.quartersBelow : Nat) : ℚ) * x.quarter * x.rounding.den := by
    rw [mul_assoc, ← scale_eq, ← Nat.cast_mul]
    rfl
  have hhigh : (x.rounding.high : ℚ) =
      ((4 * x.significand + 2 : Nat) : ℚ) * x.quarter * x.rounding.den := by
    rw [mul_assoc, ← scale_eq, ← Nat.cast_mul]
    rfl
  obtain ⟨hle, hge, hinner⟩ := h
  rw [hlow] at hle hinner
  rw [hhigh] at hge hinner
  refine ⟨le_of_mul_le_mul_right hle hden, le_of_mul_le_mul_right hge hden, fun hodd => ?_⟩
  have hopen : x.rounding.closed = false := by
    show (x.significand % 2 == 0) = false
    rw [hodd]
    rfl
  obtain ⟨hlt, hgt⟩ := hinner hopen
  exact ⟨lt_of_mul_lt_mul_right hlt hden.le, lt_of_mul_lt_mul_right hgt hden.le⟩

/-! ## Neighbours -/

/-- The place of the last digit of the larger of two values is some powers of two to the left. -/
theorem quarter_eq_mul (hle : x.binaryExponent ≤ y.binaryExponent) :
    y.quarter = x.quarter * 2 ^ (y.binaryExponent - x.binaryExponent).toNat := by
  have htwo : (2 : ℚ) ≠ 0 := by norm_num
  rw [quarter, quarter, ← zpow_natCast, ← zpow_add₀ htwo]
  congr 1
  omega

/-- Intervals with a common point: in quarters of the smaller last place, the lower end of one is not
above the upper end of the other, and below it if one of the significands is odd. -/
theorem ends_of_admits {p : ℚ} (hx : x.rounding.Admits p) (hy : y.rounding.Admits p)
    (hle : x.binaryExponent ≤ y.binaryExponent) :
    let low := (4 * y.significand - y.quartersBelow) *
      2 ^ (y.binaryExponent - x.binaryExponent).toNat
    low ≤ 4 * x.significand + 2 ∧
      (x.significand % 2 = 1 ∨ y.significand % 2 = 1 → low < 4 * x.significand + 2) := by
  obtain ⟨-, hhigh, hopenx⟩ := bounds_of_admits hx
  obtain ⟨hlow, -, hopeny⟩ := bounds_of_admits hy
  have hscale : ((4 * y.significand - y.quartersBelow : Nat) : ℚ) * y.quarter =
      (((4 * y.significand - y.quartersBelow) *
        2 ^ (y.binaryExponent - x.binaryExponent).toNat : Nat) : ℚ) * x.quarter := by
    rw [quarter_eq_mul hle]
    push_cast
    ring
  rw [hscale] at hlow hopeny
  dsimp only
  refine ⟨?_, fun hodd => ?_⟩
  · have hmul := le_of_mul_le_mul_right (hlow.trans hhigh) x.quarter_pos
    exact_mod_cast hmul
  · have hmul := lt_of_mul_lt_mul_right (hodd.elim (fun h => hlow.trans_lt (hopenx h).2)
      fun h => (hopeny h).1.trans_le hhigh) x.quarter_pos.le
    exact_mod_cast hmul

/-- Values in order have intervals without a common point. -/
theorem not_admits_of_lt (hzero : y.isZero = false)
    (hlt : x.exponentField < y.exponentField ∨
      x.exponentField = y.exponentField ∧ x.fractionField < y.fractionField) {p : ℚ}
    (hx : x.rounding.Admits p) : ¬y.rounding.Admits p := by
  intro hy
  have hpos := significand_pos hzero
  have hbelow := y.quartersBelow_eq
  have hpartsx := x.parts_eq
  have hpartsy := y.parts_eq
  have hfraction := x.fractionField_lt
  have hle : x.binaryExponent ≤ y.binaryExponent := by omega
  obtain ⟨hends, hodd⟩ := ends_of_admits hx hy hle
  rcases Nat.eq_zero_or_pos (y.binaryExponent - x.binaryExponent).toNat with hsame | hdiff
  -- With one last place the significands are neighbours at best, so one is odd.
  · rw [hsame, pow_zero, Nat.mul_one] at hends hodd
    have hsignificand : x.significand < y.significand := by omega
    have hfull : y.quartersBelow = 2 := by omega
    omega
  -- Across a power of two the lower significand is the largest one, which is odd.
  · have hmax := x.significand_lt
    have hlow : 2 ^ 54 - 1 ≤ 4 * y.significand - y.quartersBelow := by omega
    have hpow : 2 ≤ 2 ^ (y.binaryExponent - x.binaryExponent).toNat :=
      Nat.le_self_pow hdiff.ne' 2
    have hmul : (2 ^ 54 - 1) * 2 ≤ (4 * y.significand - y.quartersBelow) *
        2 ^ (y.binaryExponent - x.binaryExponent).toNat := Nat.mul_le_mul hlow hpow
    generalize (4 * y.significand - y.quartersBelow) *
      2 ^ (y.binaryExponent - x.binaryExponent).toNat = low at hends hodd hmul
    omega

/-- Different values have intervals without a common point. -/
theorem eq_of_admits (hx : x.isZero = false) (hy : y.isZero = false) {p : ℚ}
    (hadmitsx : x.rounding.Admits p) (hadmitsy : y.rounding.Admits p) :
    x.exponentField = y.exponentField ∧ x.fractionField = y.fractionField := by
  by_contra hne
  rcases Nat.lt_trichotomy x.exponentField y.exponentField with hlt | heq | hgt
  · exact not_admits_of_lt hy (.inl hlt) hadmitsx hadmitsy
  · rcases Nat.lt_trichotomy x.fractionField y.fractionField with hlt | hsame | hgt
    · exact not_admits_of_lt hy (.inr ⟨heq, hlt⟩) hadmitsx hadmitsy
    · exact hne ⟨heq, hsame⟩
    · exact not_admits_of_lt hx (.inr ⟨heq.symm, hgt⟩) hadmitsy hadmitsx
  · exact not_admits_of_lt hx (.inl hgt) hadmitsy hadmitsx

theorem value_shortest_pos (hzero : x.isZero = false) : 0 < x.rounding.shortest.value := by
  obtain ⟨hlow, -⟩ := bounds_of_admits (Rounding.admits_shortest (isWide_rounding hzero))
  refine lt_of_lt_of_le (mul_pos ?_ x.quarter_pos) hlow
  have hpos := significand_pos hzero
  have hbelow := x.quartersBelow_eq
  have : 0 < 4 * x.significand - x.quartersBelow := by omega
  exact_mod_cast this

/-! ## Texts -/

/-- The text of a real without its sign. -/
def magnitudeText (x : Binary64) : List Char :=
  if x.isInfinite then ['i', 'n', 'f']
  else if x.isZero then ['0', '.', '0']
  else x.rounding.shortest.render positionalRange

theorem toList_render (hnumber : x.isNaN = false) : x.render.toList =
    (if x.isNegative then ['-'] else []) ++ x.magnitudeText := by
  unfold render magnitudeText
  rw [hnumber]
  dsimp only
  cases x.isNegative <;> cases x.isInfinite <;> cases x.isZero <;>
    simp [String.toList_append, String.toList_ofList]

/-- Without its sign the text of a real begins with a digit, or it is that of an infinity. -/
theorem head_magnitudeText (x : Binary64) : (x.isInfinite = true ∧ x.magnitudeText = ['i', 'n', 'f']) ∨
    x.isInfinite = false ∧ ∃ c cs, x.magnitudeText = c :: cs ∧ c.isDigit = true := by
  unfold magnitudeText
  cases hinfinite : x.isInfinite with
  | true => exact .inl ⟨rfl, rfl⟩
  | false =>
    refine .inr ⟨rfl, ?_⟩
    split
    next h => cases h
    next =>
      split
      next => exact ⟨'0', _, rfl, by decide⟩
      next => exact Decimal.head_render _ _

/-- The text of a real without its sign is read as the shortest decimal, or as zero. -/
theorem read_magnitudeText (hfinite : x.isInfinite = false) :
    RealText.read x.magnitudeText = if x.isZero then 0 else x.rounding.shortest.value := by
  have hzero : RealText.read ['0', '.', '0'] = 0 := by
    have hdigits : Nat.ofDigitChars 10 (['0'] ++ ['0']) 0 = 0 := by decide
    have hmantissa : RealText.mantissa (['0'] ++ '.' :: ['0']) = _ :=
      RealText.mantissa_point (by decide) ['0']
    rw [hdigits, Nat.cast_zero, zero_mul] at hmantissa
    rw [RealText.read_mantissa (by decide)]
    exact hmantissa
  unfold magnitudeText
  rw [hfinite, if_neg (by decide)]
  split
  · exact hzero
  · exact Decimal.read_render _ _

theorem isNegative_eq_of_render_eq (hx : x.isNaN = false) (hy : y.isNaN = false)
    (h : x.render = y.render) : x.isNegative = y.isNegative ∧ x.magnitudeText = y.magnitudeText := by
  have hsign (z : Binary64) : ∃ c cs, z.magnitudeText = c :: cs ∧ c ≠ '-' := by
    rcases z.head_magnitudeText with ⟨-, htext⟩ | ⟨-, c, cs, htext, hdigit⟩
    · exact ⟨'i', _, htext, by decide⟩
    · refine ⟨c, cs, htext, ?_⟩
      rintro rfl
      revert hdigit
      decide
  obtain ⟨c, cs, hcs, hc⟩ := hsign x
  obtain ⟨c', cs', hcs', hc'⟩ := hsign y
  have hlist := congrArg String.toList h
  rw [toList_render hx, toList_render hy] at hlist
  rw [hcs, hcs'] at hlist ⊢
  cases hx : x.isNegative <;> cases hy : y.isNegative <;> rw [hx, hy] at hlist
  · exact ⟨rfl, hlist⟩
  · exact absurd (List.cons.inj hlist).1 hc
  · exact absurd (List.cons.inj hlist).1.symm hc'
  · exact ⟨rfl, (List.cons.inj hlist).2⟩

theorem render_nan (h : x.isNaN = true) : x.render = "NaN" := by
  unfold render
  rw [h]
  rfl

/-- The text of a number is not that of a pattern that is not one. -/
theorem render_ne_nan (h : x.isNaN = false) : x.render ≠ "NaN" := by
  intro hnan
  have hlist := congrArg String.toList hnan
  have htext : "NaN".toList = ['N', 'a', 'N'] := by decide
  rw [toList_render h, htext] at hlist
  cases hsign : x.isNegative <;> rw [hsign] at hlist
  case true => exact absurd (List.cons.inj hlist).1 (by decide)
  case false =>
    rcases x.head_magnitudeText with ⟨-, hinfinite⟩ | ⟨-, c, cs, hc, hdigit⟩
    · rw [hinfinite] at hlist
      exact absurd (List.cons.inj hlist).1 (by decide)
    · rw [hc] at hlist
      rw [(List.cons.inj hlist).1] at hdigit
      revert hdigit
      decide

/-- An infinity has no text of a finite value. -/
theorem isInfinite_eq_of_magnitudeText_eq (h : x.magnitudeText = y.magnitudeText) :
    x.isInfinite = y.isInfinite := by
  have hdigit {c : Char} {cs : List Char} (heq : ['i', 'n', 'f'] = c :: cs) (hc : c.isDigit = true) :
      False := by
    rw [← (List.cons.inj heq).1] at hc
    revert hc
    decide
  rcases x.head_magnitudeText with ⟨hx, hxtext⟩ | ⟨hx, c, cs, hxtext, hc⟩ <;>
    rcases y.head_magnitudeText with ⟨hy, hytext⟩ | ⟨hy, c', cs', hytext, hc'⟩ <;>
    rw [hx, hy]
  · exact (hdigit (hxtext.symm.trans (h.trans hytext)) hc').elim
  · exact (hdigit (hytext.symm.trans (h.symm.trans hxtext)) hc).elim

theorem fields_of_isInfinite (h : x.isInfinite = true) :
    x.exponentField = 0x7FF ∧ x.fractionField = 0 := by
  simpa [isInfinite] using h

theorem fields_eq_of_magnitudeText_eq (h : x.magnitudeText = y.magnitudeText) :
    x.exponentField = y.exponentField ∧ x.fractionField = y.fractionField := by
  have hinfinite := isInfinite_eq_of_magnitudeText_eq h
  cases hx : x.isInfinite with
  | true =>
    obtain ⟨hxe, hxf⟩ := fields_of_isInfinite hx
    obtain ⟨hye, hyf⟩ := fields_of_isInfinite (hinfinite.symm.trans hx)
    rw [hxe, hxf, hye, hyf]
    exact ⟨rfl, rfl⟩
  | false =>
    have hread := congrArg RealText.read h
    rw [read_magnitudeText hx, read_magnitudeText (hinfinite.symm.trans hx)] at hread
    cases hzerox : x.isZero <;> cases hzeroy : y.isZero <;> rw [hzerox, hzeroy] at hread
    · have hadmitsx := Rounding.admits_shortest (isWide_rounding hzerox)
      have hadmitsy := Rounding.admits_shortest (isWide_rounding hzeroy)
      rw [show x.rounding.shortest.value = y.rounding.shortest.value from hread] at hadmitsx
      exact eq_of_admits hzerox hzeroy hadmitsx hadmitsy
    · exact absurd hread (value_shortest_pos hzerox).ne'
    · exact absurd hread (value_shortest_pos hzeroy).ne
    · obtain ⟨hxe, hxf⟩ := x.isZero_iff.1 hzerox
      obtain ⟨hye, hyf⟩ := y.isZero_iff.1 hzeroy
      rw [hxe, hxf, hye, hyf]
      exact ⟨rfl, rfl⟩

/-- Reals with one text are one real, or both are not numbers. -/
theorem eq_of_render_eq (h : x.render = y.render) : x = y ∨ x.isNaN = true ∧ y.isNaN = true := by
  cases hx : x.isNaN <;> cases hy : y.isNaN
  · obtain ⟨hsign, htext⟩ := isNegative_eq_of_render_eq hx hy h
    obtain ⟨hexponent, hfraction⟩ := fields_eq_of_magnitudeText_eq htext
    exact .inl (ext_fields hsign hexponent hfraction)
  · exact absurd (h.trans (render_nan hy)) (render_ne_nan hx)
  · exact absurd (h.symm.trans (render_nan hx)) (render_ne_nan hy)
  · exact .inr ⟨rfl, rfl⟩

end Binary64

end BlockCompiler

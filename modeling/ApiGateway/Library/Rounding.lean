import Mathlib

/-!
# Rounding to a number of digits

`scientific b p x` is the positive rational `x` rounded to `p` digits in base `b`: an integer of
exactly `p` digits and the exponent of the first of them. Ties go to the even integer. With base 2
this is the rounding of binary floating-point numbers, with base 10 that of decimal output.
-/

namespace ApiGateway.Rounding

/-- The nearest integer, the even one if there are two. -/
def roundEven (x : ℚ) : ℤ :=
  if x - ⌊x⌋ < 1 / 2 ∨ (x - ⌊x⌋ = 1 / 2 ∧ ⌊x⌋ % 2 = 0) then ⌊x⌋ else ⌊x⌋ + 1

/-- The digits of `x` as one integer, and the exponent of the first digit. -/
def scientific (b p : ℕ) (x : ℚ) : ℕ × ℤ :=
  let exponent := Int.log b x
  let digits := (roundEven (x * (b : ℚ) ^ ((p : ℤ) - 1 - exponent))).toNat
  -- rounding up may have produced one digit more
  if digits = b ^ p then (b ^ (p - 1), exponent + 1) else (digits, exponent)

theorem le_roundEven {x : ℚ} {n : ℤ} (h : (n : ℚ) ≤ x) : n ≤ roundEven x := by
  have hfloor : n ≤ ⌊x⌋ := Int.le_floor.2 h
  rw [roundEven]
  split
  · exact hfloor
  · omega

theorem roundEven_le {x : ℚ} {n : ℤ} (h : x < n) : roundEven x ≤ n := by
  have hfloor : ⌊x⌋ < n := Int.floor_lt.2 h
  rw [roundEven]
  split
  · exact hfloor.le
  · omega

variable {b p : ℕ} {x : ℚ}

/-- Moving the first digit to the position `p - 1` gives a number of `p` digits before the point. -/
theorem scaled_bounds (hb : 1 < b) (hx : 0 < x) :
    (b : ℚ) ^ ((p : ℤ) - 1) ≤ x * (b : ℚ) ^ ((p : ℤ) - 1 - Int.log b x) ∧
      x * (b : ℚ) ^ ((p : ℤ) - 1 - Int.log b x) < (b : ℚ) ^ (p : ℤ) := by
  have hpos : (0 : ℚ) < b := by exact_mod_cast (Nat.zero_lt_one.trans hb)
  have hscale : (0 : ℚ) < (b : ℚ) ^ ((p : ℤ) - 1 - Int.log b x) := zpow_pos hpos _
  constructor
  · calc (b : ℚ) ^ ((p : ℤ) - 1)
        = (b : ℚ) ^ Int.log b x * (b : ℚ) ^ ((p : ℤ) - 1 - Int.log b x) := by
          rw [← zpow_add₀ hpos.ne']
          congr 1
          omega
      _ ≤ x * (b : ℚ) ^ ((p : ℤ) - 1 - Int.log b x) :=
          mul_le_mul_of_nonneg_right (Int.zpow_log_le_self hb hx) hscale.le
  · calc x * (b : ℚ) ^ ((p : ℤ) - 1 - Int.log b x)
        < (b : ℚ) ^ (Int.log b x + 1) * (b : ℚ) ^ ((p : ℤ) - 1 - Int.log b x) :=
          mul_lt_mul_of_pos_right (Int.lt_zpow_succ_log_self hb x) hscale
      _ = (b : ℚ) ^ (p : ℤ) := by
          rw [← zpow_add₀ hpos.ne']
          congr 1
          omega

/-- The integer has exactly `p` digits. -/
theorem scientific_digits (hb : 1 < b) (hp : 0 < p) (hx : 0 < x) :
    b ^ (p - 1) ≤ (scientific b p x).1 ∧ (scientific b p x).1 < b ^ p := by
  obtain ⟨hlow, hhigh⟩ := scaled_bounds (p := p) hb hx
  have hlower : ((b ^ (p - 1) : ℕ) : ℤ) ≤
      roundEven (x * (b : ℚ) ^ ((p : ℤ) - 1 - Int.log b x)) := by
    refine le_roundEven ?_
    have hexp : (p : ℤ) - 1 = ((p - 1 : ℕ) : ℤ) := by omega
    rw [hexp, zpow_natCast] at hlow
    rw [hexp]
    exact_mod_cast hlow
  have hupper : roundEven (x * (b : ℚ) ^ ((p : ℤ) - 1 - Int.log b x)) ≤ ((b ^ p : ℕ) : ℤ) := by
    refine roundEven_le ?_
    rw [zpow_natCast] at hhigh
    exact_mod_cast hhigh
  rw [scientific]
  split
  · exact ⟨le_rfl, Nat.pow_lt_pow_right hb (by omega)⟩
  · rename_i hne
    constructor <;> omega

end ApiGateway.Rounding

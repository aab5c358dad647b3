import ApiGateway.Library.JsonPrint
import ApiGateway.Utils.Ostream

/-!
# Printed numbers as JSON

What `operator<<` writes for counters and for averages is a number of JSON: a counter denotes itself
(`put_counter_number`), and a `double` that is not negative denotes its value rounded to six
significant digits (`put_double_number`).
-/

namespace ApiGateway

open Rounding Json

/-! ## Digits -/

/-- The digits of a positive number. -/
theorem digits_before_eq {fuel n : ℕ} (hpos : 0 < n) (hfuel : n < fuel) (rest : Bytes) :
    digitsBefore fuel n rest =
      ((Nat.digits 10 n).map fun d => UInt8.ofNat (48 + d)).reverse ++ rest := by
  induction fuel generalizing n rest with
  | zero => cases hfuel
  | succ fuel ih =>
      rw [Nat.digits_def' (by decide) hpos, digitsBefore]
      split
      · rename_i hlt
        rw [Nat.div_eq_of_lt hlt, Nat.digits_zero]
        rfl
      · rw [ih (Nat.div_pos (by omega) (by decide)) (by omega)]
        simp

theorem nat_to_string_eq {n : ℕ} (hpos : 0 < n) :
    natToString n = ((Nat.digits 10 n).map fun d => UInt8.ofNat (48 + d)).reverse := by
  rw [natToString, digits_before_eq hpos (Nat.lt_succ_self n), List.append_nil]

/-- The digits of a number, as JSON reads them. -/
theorem nat_to_string_digits (n : ℕ) : natToString n ≠ [] ∧
    (∀ d ∈ natToString n, Json.isDigit d = true) ∧ digitsValue (natToString n) = n :=
  nat_to_string_spec n

/-- A positive number does not start with a zero. -/
theorem nat_to_string_head {n : ℕ} (hpos : 0 < n) : (natToString n).head? ≠ some 48 := by
  rw [nat_to_string_eq hpos, List.head?_reverse, List.getLast?_map]
  intro h
  obtain ⟨d, hlast, hd⟩ := Option.map_eq_some_iff.1 h
  have hne : Nat.digits 10 n ≠ [] := Nat.digits_ne_nil_iff_ne_zero.2 hpos.ne'
  have hlt : d < 10 := Nat.digits_lt_base (by decide) (List.mem_of_getLast? hlast)
  have hzero := Nat.getLast_digit_ne_zero 10 hpos.ne'
  rw [List.getLast?_eq_some_getLast hne] at hlast
  rw [Option.some.inj hlast] at hzero
  have hvalue := (is_digit_of_nat hlt).2
  rw [hd] at hvalue
  exact hzero hvalue.symm

theorem nat_to_string_length {n p : ℕ} (hlow : 10 ^ p ≤ n) (hhigh : n < 10 ^ (p + 1)) :
    (natToString n).length = p + 1 := by
  rw [nat_to_string_eq (lt_of_lt_of_le (by positivity) hlow), List.length_reverse, List.length_map]
  have h₁ := (Nat.digits_length_le_iff (by decide) n).2 hhigh
  have h₂ := (Nat.lt_digits_length_iff (by decide) n).2 hlow
  omega

theorem digits_value_append (s t : Bytes) :
    digitsValue (s ++ t) = digitsValue s * 10 ^ t.length + digitsValue t := by
  have hconcat (s : Bytes) (d : UInt8) : digitsValue (s ++ [d]) =
      10 * digitsValue s + (d.toNat - 48) := decimal_concat s d
  induction t using List.reverseRecOn with
  | nil => simp [digitsValue]
  | append_singleton t d ih =>
      rw [← List.append_assoc, hconcat, hconcat, ih, List.length_append, List.length_singleton]
      ring

theorem digits_value_zeros (k : ℕ) : digitsValue (List.replicate k 48) = 0 := by
  induction k with
  | zero => rfl
  | succ k ih =>
      rw [List.replicate_succ, ← List.singleton_append, digits_value_append, ih]
      simp [digitsValue]

theorem strip_zeros_append (ds : Bytes) :
    ∃ k, ds = stripZeros ds ++ List.replicate k 48 := by
  refine ⟨(ds.reverse.takeWhile (· == 48)).length, ?_⟩
  have hzeros : ds.reverse.takeWhile (· == 48) =
      List.replicate (ds.reverse.takeWhile (· == 48)).length 48 :=
    List.eq_replicate_of_mem fun d hd => by simpa using List.mem_takeWhile_imp hd
  rw [stripZeros, ← List.reverse_replicate, ← hzeros, ← List.reverse_append,
    List.takeWhile_append_dropWhile, List.reverse_reverse]

/-- Zeros at the end of the digits after the point do not matter. -/
theorem strip_zeros_value (whole part : Bytes) (power : ℤ) :
    (digitsValue (whole ++ stripZeros part) : ℚ) * 10 ^ (power - (stripZeros part).length) =
      digitsValue (whole ++ part) * 10 ^ (power - part.length) := by
  obtain ⟨k, hk⟩ := strip_zeros_append part
  generalize stripZeros part = short at hk
  rw [hk, ← List.append_assoc, digits_value_append (whole ++ short), digits_value_zeros,
      List.length_append,
    List.length_replicate, Nat.add_zero, Nat.cast_mul, Nat.cast_pow, mul_assoc, Nat.cast_ofNat,
    ← zpow_natCast, ← zpow_add₀ (by norm_num : (10 : ℚ) ≠ 0)]
  congr 2
  push_cast
  ring

/-! ## Texts -/

theorem is_digit_strip_zeros {ds : Bytes} (h : ∀ d ∈ ds, Json.isDigit d = true) :
    ∀ d ∈ stripZeros ds, Json.isDigit d = true := by
  obtain ⟨k, hk⟩ := strip_zeros_append ds
  intro d hd
  exact h d (hk ▸ List.mem_append_left _ hd)

theorem fraction_text_eq (ds : Bytes) : fractionText ds = pointed (stripZeros ds) := by
  rw [fractionText]
  cases stripZeros ds with
  | nil => rfl
  | cons d rest => rfl

theorem exponent_text_power (exponent : ℤ) : PowerText (exponentText exponent) exponent := by
  obtain ⟨hne, hdigits, hvalue⟩ := nat_to_string_digits exponent.natAbs
  -- a zero in front of a single digit does not change the value
  obtain ⟨ds, htext, hne, hdigits, hvalue⟩ : ∃ ds : Bytes,
      exponentText exponent = 101 :: (if exponent < 0 then 45 else 43) :: ds ∧ ds ≠ [] ∧
        (∀ d ∈ ds, Json.isDigit d = true) ∧ digitsValue ds = exponent.natAbs := by
    by_cases hsmall : exponent.natAbs < 10
    · refine ⟨48 :: natToString exponent.natAbs, ?_, List.cons_ne_nil _ _, ?_, ?_⟩
      · rw [exponentText, if_pos hsmall]
      · exact List.forall_mem_cons.2 ⟨rfl, hdigits⟩
      · rw [← List.singleton_append, digits_value_append, hvalue]
        show 0 * _ + _ = _
        rw [Nat.zero_mul, Nat.zero_add]
    · exact ⟨_, by rw [exponentText, if_neg hsmall], hne, hdigits, hvalue⟩
  have hpower := PowerText.of_digits hne hdigits (decide (exponent < 0))
  simp only [decide_eq_true_eq, hvalue] at hpower
  rw [htext]
  convert hpower using 1
  split <;> omega

/-- A number that is printed without a point. -/
theorem nat_to_string_number (n : ℕ) : NumberText (natToString n) n := by
  obtain ⟨hne, hdigits, hvalue⟩ := nat_to_string_digits n
  have hzero : (natToString n).head? ≠ some 48 ∨ (natToString n).length = 1 := by
    rcases n.eq_zero_or_pos with rfl | hpos
    · exact .inr rfl
    · exact .inl (nat_to_string_head hpos)
  have hnumber : NumberText (natToString n ++ pointed [] ++ []) _ :=
    .of_parts hne hdigits hzero nofun .none
  rw [pointed, List.append_nil, List.append_nil, hvalue] at hnumber
  simpa using hnumber

/-- A counter denotes itself. -/
theorem put_counter_number (n : UInt64) : NumberText (putCounter n) n.toNat :=
  nat_to_string_number n.toNat

/-- Digits with a point behind the first `j` of them. -/
theorem point_number {ds text : Bytes} {power : ℤ} {j : ℕ}
    (hdigits : ∀ d ∈ ds, Json.isDigit d = true)
    (hhead : ds.head? ≠ some 48) (hpos : 0 < j) (hj : j ≤ ds.length)
    (hpower : PowerText text power) :
    NumberText (ds.take j ++ fractionText (ds.drop j) ++ text)
      (digitsValue ds * 10 ^ (power - (ds.length - j : ℕ))) := by
  have hne : ds.take j ≠ [] := by
    rw [ne_eq, List.take_eq_nil_iff]
    rintro (rfl | rfl)
    · exact absurd hpos (lt_irrefl 0)
    · exact absurd (hpos.trans_le hj) (lt_irrefl 0)
  have hpart : ∀ d ∈ stripZeros (ds.drop j), Json.isDigit d = true :=
    is_digit_strip_zeros fun d hd => hdigits d (List.mem_of_mem_drop hd)
  have hnumber := NumberText.of_parts hne (fun d hd => hdigits d (List.mem_of_mem_take hd))
    (.inl (by rwa [List.head?_take, if_neg hpos.ne'])) hpart hpower
  rwa [strip_zeros_value, List.take_append_drop, List.length_drop, ← fraction_text_eq] at hnumber

/-- Digits behind a zero, a point and `k` more zeros. -/
theorem zeros_number {ds : Bytes} (hdigits : ∀ d ∈ ds, Json.isDigit d = true) (k : ℕ) :
    NumberText (48 :: fractionText (List.replicate k 48 ++ ds))
      (digitsValue ds * 10 ^ (-(k + ds.length : ℕ) : ℤ)) := by
  have hzeros : ∀ d ∈ List.replicate k 48 ++ ds, Json.isDigit d = true := by
    intro d hd
    rcases List.mem_append.1 hd with hd | hd
    · rw [List.eq_of_mem_replicate hd]
      rfl
    · exact hdigits d hd
  have hsame : digitsValue ([48] ++ (List.replicate k 48 ++ ds)) = digitsValue ds := by
    rw [digits_value_append, digits_value_append (List.replicate k 48), digits_value_zeros]
    simp [digitsValue]
  have hnumber := NumberText.of_parts (List.cons_ne_nil 48 []) (List.forall_mem_singleton.2 rfl)
    (.inr rfl) (is_digit_strip_zeros hzeros) .none
  rwa [strip_zeros_value, hsame, ← fraction_text_eq, List.append_nil, List.length_append,
    List.length_replicate, List.singleton_append, zero_sub] at hnumber

/-- A number rounded to six significant digits. -/
def sixDigits (x : ℚ) : ℚ :=
  if x ≤ 0 then 0 else (scientific 10 6 x).1 * 10 ^ ((scientific 10 6 x).2 - 5)

/-- A `double` denotes its value rounded to six significant digits. -/
theorem put_double_number (x : ℚ) : NumberText (putDouble x) (sixDigits x) := by
  rw [putDouble, sixDigits]
  split
  · exact_mod_cast nat_to_string_number 0
  · rename_i hx
    obtain ⟨hlow, hhigh⟩ := scientific_digits (b := 10) (p := 6) (by decide) (by decide)
      (lt_of_not_ge hx)
    generalize scientific 10 6 x = s at hlow hhigh
    obtain ⟨m, e⟩ := s
    obtain ⟨-, hdigits, hvalue⟩ := nat_to_string_digits m
    have hhead := nat_to_string_head (lt_of_lt_of_le (by decide) hlow)
    have hlength : (natToString m).length = 6 := nat_to_string_length hlow hhigh
    dsimp only
    -- the three ways in which `%g` places the point
    split
    · have hnumber := zeros_number hdigits (-e - 1).toNat
      rw [hlength, hvalue] at hnumber
      convert hnumber using 3
      omega
    split
    · have hnumber := point_number hdigits hhead (Nat.succ_pos e.toNat) (by omega) .none
      rw [List.append_nil, hlength, hvalue] at hnumber
      convert hnumber using 3
      omega
    · have hnumber := point_number hdigits hhead Nat.one_pos (by omega) (exponent_text_power e)
      rw [hlength, hvalue] at hnumber
      exact hnumber

end ApiGateway

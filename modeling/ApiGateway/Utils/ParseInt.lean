import Mathlib

/-!
# Bytes and decimal integers

The byte strings of the gateway, the C function `strtol` in base ten on a 64-bit `long`,
`parse_int_safe` of `utils.cpp` over it, and `std::to_string`. On a non-empty string of digits
`parse_int_safe` returns the number the string denotes when that number fits a non-negative `int`
(`parse_int_safe_digits`), and different numbers are written differently by `std::to_string`
(`int_to_string_inj`).
-/

namespace ApiGateway

/-- A byte string, `std::string` or a `char` range. -/
abbrev Bytes := List UInt8

/-- The bytes of an ASCII literal. -/
def ascii (s : String) : Bytes :=
  s.toList.map fun c => UInt8.ofNat c.toNat

/-- `isspace` of the C locale. -/
def isSpace (b : UInt8) : Bool :=
  b == 32 || (9 ≤ b && b ≤ 13)

/-- `isdigit`. -/
def isDigit (b : UInt8) : Bool :=
  48 ≤ b && b ≤ 57

/-- The value of a string of decimal digits, most significant first. -/
def decimal (digits : Bytes) : Nat :=
  digits.foldl (fun n d => 10 * n + (d.toNat - 48)) 0

/-- What `strtol` reports: the converted value, the distance from the start to `*endptr`, and
whether `errno` became `ERANGE`. -/
structure StrtolResult where
  value : Int
  consumed : Nat
  erange : Bool

/-- The length of an optional sign and whether it is a minus. -/
def strtolSign : Bytes → Nat × Bool
  | 45 :: _ => (1, true)
  | 43 :: _ => (1, false)
  | _ => (0, false)

/-- `strtol(s, &end, 10)`. Without digits nothing is consumed; a value outside `long` is
clamped to its range. -/
def strtol (s : Bytes) : StrtolResult :=
  let text := s.dropWhile isSpace
  let sign := strtolSign text
  let digits := (text.drop sign.1).takeWhile isDigit
  if digits = [] then ⟨0, 0, false⟩
  else
    let n : Int := if sign.2 then -(decimal digits : Int) else decimal digits
    { value := max (-(2 ^ 63)) (min (2 ^ 63 - 1) n)
      consumed := (s.takeWhile isSpace).length + sign.1 + digits.length
      erange := decide (n < -(2 ^ 63) ∨ 2 ^ 63 - 1 < n) }

/-- `parse_int_safe(begin, end)`, where `text` is the range from `begin` to `end` and
`following` is what `strtol` can read after it, up to the terminating zero. -/
def parseIntSafe (text following : Bytes) : Option Int :=
  if text = [] then none
  else
    let parsed := strtol (text ++ following)
    if parsed.consumed ≠ text.length then none
    else if parsed.value < 0 ∨ 2147483647 < parsed.value then none
    else some parsed.value

/-- The decimal digits of a number in front of `rest`; `fuel` bounds the number of digits. -/
def digitsBefore : Nat → Nat → Bytes → Bytes
  | 0, _, rest => rest
  | fuel + 1, n, rest =>
      let digits := UInt8.ofNat (48 + n % 10) :: rest
      if n < 10 then digits else digitsBefore fuel (n / 10) digits

/-- `std::to_string` of a number that is not negative. -/
def natToString (n : Nat) : Bytes :=
  digitsBefore (n + 1) n []

/-- `std::to_string`. -/
def intToString (n : Int) : Bytes :=
  if n < 0 then 45 :: natToString n.natAbs else natToString n.natAbs

theorem parse_int_safe_range {text following : Bytes} {n : Int}
    (h : parseIntSafe text following = some n) : 0 ≤ n ∧ n ≤ 2147483647 := by
  simp only [parseIntSafe] at h
  split at h
  · cases h
  split at h
  · cases h
  split at h
  · cases h
  · cases h
    omega

theorem is_space_of_digit {d : UInt8} (h : isDigit d = true) : isSpace d = false := by
  simp only [isDigit, isSpace, Bool.and_eq_true, decide_eq_true_eq, Bool.or_eq_false_iff,
    beq_eq_false_iff_ne, Bool.and_eq_false_iff, decide_eq_false_iff_not, UInt8.le_iff_toNat_le,
    ne_eq, ← UInt8.toNat_inj, UInt8.reduceToNat] at h ⊢
  omega

theorem strtol_sign_of_digit {d : UInt8} (h : isDigit d = true) (rest : Bytes) :
    strtolSign (d :: rest) = (0, false) := by
  have h45 : d ≠ 45 := by rintro rfl; exact absurd h (by decide)
  have h43 : d ≠ 43 := by rintro rfl; exact absurd h (by decide)
  unfold strtolSign
  split
  · rename_i heq; exact absurd (List.cons.inj heq).1 h45
  · rename_i heq; exact absurd (List.cons.inj heq).1 h43
  · rfl

/-- `strtol` on a string of decimal digits. -/
theorem strtol_digits_eq {digits : Bytes} (hne : digits ≠ [])
    (h : ∀ d ∈ digits, isDigit d = true) :
    strtol digits =
      ⟨max (-(2 ^ 63)) (min (2 ^ 63 - 1) (decimal digits : Int)), digits.length,
        decide ((decimal digits : Int) < -(2 ^ 63) ∨ 2 ^ 63 - 1 < (decimal digits : Int))⟩ := by
  obtain ⟨d, rest, rfl⟩ := List.exists_cons_of_ne_nil hne
  have hd : isDigit d = true := h d (by simp)
  have htake : (d :: rest).takeWhile isDigit = d :: rest := List.takeWhile_eq_self_iff.2 h
  simp [strtol, is_space_of_digit hd, strtol_sign_of_digit hd, htake]

/-- `strtol` on a string of decimal digits after a minus sign. -/
theorem strtol_minus_eq {digits : Bytes} (hne : digits ≠ [])
    (h : ∀ d ∈ digits, isDigit d = true) :
    strtol (45 :: digits) =
      ⟨max (-(2 ^ 63)) (min (2 ^ 63 - 1) (-(decimal digits : Int))), 1 + digits.length,
        decide (-(decimal digits : Int) < -(2 ^ 63) ∨ 2 ^ 63 - 1 < -(decimal digits : Int))⟩ := by
  have htake : digits.takeWhile isDigit = digits := List.takeWhile_eq_self_iff.2 h
  have hspace : isSpace 45 = false := by decide
  simp [strtol, hspace, strtolSign, htake, hne]

/-- A string of decimal digits is not shortened by `strtol`. -/
theorem strtol_digits {digits : Bytes} (hne : digits ≠ []) (h : ∀ d ∈ digits, isDigit d = true) :
    (strtol digits).consumed = digits.length ∧
      (strtol digits).value = min (2 ^ 63 - 1) (decimal digits : Int) := by
  rw [strtol_digits_eq hne h]
  exact ⟨rfl, by simp only; omega⟩

/-- A non-empty digit string within the range of `int` is read as the number it denotes. -/
theorem parse_int_safe_digits {digits : Bytes} (hne : digits ≠ [])
    (h : ∀ d ∈ digits, isDigit d = true) (hle : decimal digits ≤ 2147483647) :
    parseIntSafe digits [] = some (decimal digits : Int) := by
  obtain ⟨hconsumed, hvalue⟩ := strtol_digits hne h
  have hv : (strtol digits).value = (decimal digits : Int) := by omega
  simp only [parseIntSafe, hne, if_false, List.append_nil, hconsumed, ne_eq, not_true_eq_false, hv]
  rw [if_neg (by omega)]

/-! ## Reading numbers back -/

theorem decimal_concat (digits : Bytes) (d : UInt8) :
    decimal (digits ++ [d]) = 10 * decimal digits + (d.toNat - 48) := by
  simp [decimal]

theorem is_digit_of_nat {n : Nat} (h : n < 10) : isDigit (UInt8.ofNat (48 + n)) = true ∧
    (UInt8.ofNat (48 + n)).toNat - 48 = n := by
  interval_cases n <;> decide

theorem exists_of_is_digit {d : UInt8} (h : isDigit d = true) :
    ∃ n < 10, d = UInt8.ofNat (48 + n) := by
  simp only [isDigit, Bool.and_eq_true, decide_eq_true_eq, UInt8.le_iff_toNat_le,
    UInt8.reduceToNat] at h
  refine ⟨d.toNat - 48, by omega, ?_⟩
  rw [Nat.add_sub_cancel' h.1, UInt8.ofNat_toNat]

/-- The digits of a number denote it. -/
theorem digits_before_spec {fuel n : Nat} (rest : Bytes) (h : n < fuel) :
    ∃ digits, digitsBefore fuel n rest = digits ++ rest ∧ digits ≠ [] ∧
      (∀ d ∈ digits, isDigit d = true) ∧ decimal digits = n := by
  induction fuel generalizing n rest with
  | zero => cases h
  | succ fuel ih =>
      obtain ⟨hdigit, hvalue⟩ := is_digit_of_nat (Nat.mod_lt n (by decide : 0 < 10))
      simp only [digitsBefore]
      split
      · rename_i hlt
        refine ⟨[UInt8.ofNat (48 + n % 10)], rfl, by simp, by simpa using hdigit, ?_⟩
        have := decimal_concat [] (UInt8.ofNat (48 + n % 10))
        rw [List.nil_append, hvalue] at this
        rw [this]
        show 10 * 0 + n % 10 = n
        omega
      · obtain ⟨digits, heq, hne, hall, hdec⟩ :=
          ih (UInt8.ofNat (48 + n % 10) :: rest) (show n / 10 < fuel by omega)
        refine ⟨digits ++ [UInt8.ofNat (48 + n % 10)], by simpa using heq, by simp, ?_, ?_⟩
        · intro d hd
          rcases List.mem_append.1 hd with hd | hd
          · exact hall d hd
          · rw [List.mem_singleton.1 hd]
            exact hdigit
        · rw [decimal_concat, hdec, hvalue]
          omega

theorem nat_to_string_spec (n : Nat) : natToString n ≠ [] ∧
    (∀ d ∈ natToString n, isDigit d = true) ∧ decimal (natToString n) = n := by
  obtain ⟨digits, heq, hspec⟩ := digits_before_spec [] (Nat.lt_succ_self n)
  rw [List.append_nil] at heq
  unfold natToString
  rwa [heq]

/-- The text of a number consists of digits and a minus sign. -/
theorem mem_int_to_string {n : Int} {d : UInt8} (h : d ∈ intToString n) :
    d = 45 ∨ isDigit d = true := by
  obtain ⟨-, hdigits, -⟩ := nat_to_string_spec n.natAbs
  unfold intToString at h
  split at h
  · exact (List.mem_cons.1 h).imp_right (hdigits d)
  · exact .inr (hdigits d h)

theorem nat_to_string_inj {m n : Nat} (h : natToString m = natToString n) : m = n := by
  rw [← (nat_to_string_spec m).2.2, h, (nat_to_string_spec n).2.2]

/-- The text of a number determines it. -/
theorem int_to_string_inj {m n : Int} (h : intToString m = intToString n) : m = n := by
  -- a minus sign is not a digit, so the texts have the same sign
  have hminus : ∀ k l : Nat, natToString k ≠ 45 :: natToString l := by
    intro k l heq
    have := (nat_to_string_spec k).2.1 45 (by simp [heq])
    exact absurd this (by decide)
  unfold intToString at h
  split at h <;> split at h
  · have := nat_to_string_inj (List.cons.inj h).2
    omega
  · exact absurd h.symm (hminus _ _)
  · exact absurd h (hminus _ _)
  · have := nat_to_string_inj h
    omega

end ApiGateway

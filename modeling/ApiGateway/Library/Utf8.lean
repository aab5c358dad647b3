import Mathlib

/-!
# UTF-8

`Utf8 s` says that the bytes `s` are the encoding of some characters. An ASCII byte is always a
character of its own: what stands before and after one is checked separately
(`utf8_append_cons_iff`), so ASCII text around other text does not matter (`utf8_ascii_append_iff`).
-/

namespace ApiGateway

/-- The bytes encode some characters. -/
def Utf8 (s : List UInt8) : Prop :=
  ∃ chars : List Char, s = chars.flatMap String.utf8EncodeChar

/-- The encoding of a character is one ASCII byte or has none. -/
theorem utf8_encode_char_cases (c : Char) :
    (∃ b < 128, String.utf8EncodeChar c = [b]) ∨ ∀ b ∈ String.utf8EncodeChar c, 128 ≤ b := by
  have hlarge (n : ℕ) (h : 128 ≤ n) (hn : n < 256) : 128 ≤ UInt8.ofNat n := by
    rw [UInt8.le_iff_toNat_le, UInt8.toNat_ofNat_of_lt' hn]
    exact h
  simp only [String.utf8EncodeChar]
  split
  · rename_i hsmall
    refine .inl ⟨_, ?_, rfl⟩
    rw [UInt8.lt_iff_toNat_lt, UInt8.toNat_ofNat_of_lt' (Nat.lt_of_le_of_lt hsmall (by decide))]
    exact Nat.lt_succ_of_le hsmall
  · refine .inr ?_
    split
    · simp only [List.mem_cons, List.not_mem_nil, or_false, forall_eq_or_imp, forall_eq]
      exact ⟨hlarge _ (by omega) (by omega), hlarge _ (by omega) (by omega)⟩
    split
    · simp only [List.mem_cons, List.not_mem_nil, or_false, forall_eq_or_imp, forall_eq]
      exact ⟨hlarge _ (by omega) (by omega), hlarge _ (by omega) (by omega),
        hlarge _ (by omega) (by omega)⟩
    · simp only [List.mem_cons, List.not_mem_nil, or_false, forall_eq_or_imp, forall_eq]
      exact ⟨hlarge _ (by omega) (by omega), hlarge _ (by omega) (by omega),
        hlarge _ (by omega) (by omega), hlarge _ (by omega) (by omega)⟩

/-- An ASCII byte in the encoding of a character is the whole encoding. -/
theorem utf8_encode_char_of_ascii {c : Char} {b : UInt8} (hmem : b ∈ String.utf8EncodeChar c)
    (hb : b < 128) : String.utf8EncodeChar c = [b] := by
  rcases utf8_encode_char_cases c with ⟨a, -, ha⟩ | hlarge
  · rw [ha, List.mem_singleton] at hmem
    rw [ha, hmem]
  · exact absurd (hlarge b hmem) (UInt8.not_le.2 hb)

theorem Utf8.nil : Utf8 [] := ⟨[], rfl⟩

theorem Utf8.append {s t : List UInt8} (hs : Utf8 s) (ht : Utf8 t) : Utf8 (s ++ t) := by
  obtain ⟨chars, rfl⟩ := hs
  obtain ⟨more, rfl⟩ := ht
  exact ⟨chars ++ more, List.flatMap_append.symm⟩

theorem utf8_singleton {b : UInt8} (hb : b < 128) : Utf8 [b] := by
  have hsmall : b.toNat ≤ 127 := Nat.le_of_lt_succ (UInt8.lt_iff_toNat_lt.1 hb)
  have hval : (Char.ofNat b.toNat).val.toNat = b.toNat := by
    have hvalid : b.toNat.isValidChar := .inl (by omega)
    rw [Char.ofNat, dif_pos hvalid]
    exact Char.toNat_ofNatAux hvalid
  refine ⟨[Char.ofNat b.toNat], ?_⟩
  rw [List.flatMap_singleton, String.utf8EncodeChar]
  simp only [hval]
  rw [if_pos hsmall, UInt8.ofNat_toNat]

/-- An ASCII byte splits a text into two. -/
theorem utf8_append_cons_iff {s t : List UInt8} {b : UInt8} (hb : b < 128) :
    Utf8 (s ++ b :: t) ↔ Utf8 s ∧ Utf8 t := by
  constructor
  · rintro ⟨chars, heq⟩
    induction chars generalizing s with
    | nil => simp at heq
    | cons c chars ih =>
        rw [List.flatMap_cons] at heq
        rcases List.append_eq_append_iff.1 heq with ⟨mid, hchar, hrest⟩ | ⟨mid, hs, hrest⟩
        · cases mid with
          | nil =>
              rw [List.append_nil] at hchar
              obtain ⟨-, ht⟩ := ih (s := []) hrest
              exact ⟨⟨[c], by simp [hchar]⟩, ht⟩
          | cons d mid =>
              -- the byte is in the encoding of the character, so it is all of it
              obtain ⟨rfl, ht⟩ := List.cons.inj hrest
              have hwhole := utf8_encode_char_of_ascii (c := c) (b := b) (by simp [hchar]) hb
              rw [hchar] at hwhole
              obtain ⟨rfl, hmid⟩ : s = [] ∧ mid = [] := by
                have := congrArg List.length hwhole
                simp only [List.length_append, List.length_cons, List.length_nil] at this
                exact ⟨List.length_eq_zero_iff.1 (by omega), List.length_eq_zero_iff.1 (by omega)⟩
              rw [hmid] at ht
              exact ⟨.nil, ⟨chars, ht⟩⟩
        · obtain ⟨hmid, ht⟩ := ih hrest.symm
          rw [hs]
          exact ⟨.append ⟨[c], by simp⟩ hmid, ht⟩
  · rintro ⟨hs, ht⟩
    exact hs.append ((utf8_singleton hb).append ht)

/-- ASCII text in front does not matter. -/
theorem utf8_ascii_append_iff {s t : List UInt8} (hs : ∀ b ∈ s, b < 128) :
    Utf8 (s ++ t) ↔ Utf8 t := by
  induction s with
  | nil => rfl
  | cons b s ih =>
      rw [List.forall_mem_cons] at hs
      rw [← ih hs.2]
      exact (utf8_append_cons_iff (s := []) hs.1).trans (and_iff_right .nil)

end ApiGateway

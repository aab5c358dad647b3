import ApiGateway.Http.Chunked

/-!
# Chunk sizes

`hexValue` is the number that a string of hexadecimal digits denotes. `parse_hex` computes it in a
`size_t`, shifting out the digits that do not fit, so it returns the value modulo `2 ^ 64`
(`parse_hex_eq`). `chunk_size_exact_iff` says for which size lines the chunk that is then read has
the size the line denotes.
-/

namespace ApiGateway.Http.HttpParser

open Loop Search

/-- The value of hexadecimal digits that follow digits with the value `value`. -/
def hexValueFrom (value : Nat) : Bytes → Option Nat
  | [] => some value
  | c :: rest => do
      let digit ← hexDigit c
      hexValueFrom (16 * value + digit) rest

/-- The number denoted by a string of hexadecimal digits. -/
def hexValue (s : Bytes) : Option Nat :=
  if s = [] then none else hexValueFrom 0 s

theorem hex_digit_lt {c : UInt8} {d : Nat} (h : hexDigit c = some d) : d < 16 := by
  simp only [hexDigit, Bool.and_eq_true, decide_eq_true_eq, UInt8.le_iff_toNat_le,
    UInt8.reduceToNat] at h
  split at h
  · cases h
    omega
  split at h
  · cases h
    omega
  split at h
  · cases h
    omega
  · cases h

theorem hex_value_from_cons {value v : Nat} {c : UInt8} {rest : Bytes} :
    hexValueFrom value (c :: rest) = some v ↔
      ∃ d, hexDigit c = some d ∧ hexValueFrom (16 * value + d) rest = some v :=
  Option.bind_eq_some_iff

/-- A string of `n` digits denotes a number below `16 ^ n`. -/
theorem hex_value_from_lt {value v : Nat} {s : Bytes} (h : hexValueFrom value s = some v) :
    v < (value + 1) * 16 ^ s.length := by
  induction s generalizing value with
  | nil =>
      cases h
      simp
  | cons c rest ih =>
      obtain ⟨d, hd, hrest⟩ := hex_value_from_cons.1 h
      have hdigit := hex_digit_lt hd
      calc v < (16 * value + d + 1) * 16 ^ rest.length := ih hrest
        _ ≤ (16 * (value + 1)) * 16 ^ rest.length := Nat.mul_le_mul_right _ (by omega)
        _ = (value + 1) * 16 ^ (c :: rest).length := by
            rw [List.length_cons, Nat.pow_succ']
            ring

/-- Every byte of a string with a value is a digit. -/
theorem hex_digit_of_mem {value v : Nat} {s : Bytes} (h : hexValueFrom value s = some v) {c : UInt8}
    (hc : c ∈ s) : ∃ d, hexDigit c = some d := by
  induction s generalizing value with
  | nil => cases hc
  | cons b rest ih =>
      obtain ⟨d, hd, hrest⟩ := hex_value_from_cons.1 h
      rcases List.mem_cons.1 hc with rfl | hc
      · exact ⟨d, hd⟩
      · exact ih hrest hc

/-- One step of the accumulator: the next digit takes the place that the shift has made. -/
theorem shift_or_digit {value d : Nat} (hd : d < 16) :
    ((value % 2 ^ 64) <<< 4) % 2 ^ 64 ||| d = (16 * value + d) % 2 ^ 64 := by
  have hshift : ((value % 2 ^ 64) <<< 4) % 2 ^ 64 = (value % 2 ^ 60) <<< 4 := by
    simp only [Nat.shiftLeft_eq]
    omega
  rw [hshift, ← Nat.shiftLeft_add_eq_or_of_lt hd, Nat.shiftLeft_eq]
  omega

theorem parse_hex_from_eq (value : Nat) (s : Bytes) :
    parseHexFrom (value % 2 ^ 64) s = (hexValueFrom value s).map (· % 2 ^ 64) := by
  induction s generalizing value with
  | nil => rfl
  | cons c rest ih =>
      rw [parseHexFrom, hexValueFrom]
      cases hd : hexDigit c with
      | none => rfl
      | some d =>
          show parseHexFrom (((value % 2 ^ 64) <<< 4) % 2 ^ 64 ||| d) rest =
            (hexValueFrom (16 * value + d) rest).map (· % 2 ^ 64)
          rw [shift_or_digit (hex_digit_lt hd), ih]

/-- `parse_hex` returns the value modulo the range of `size_t`. -/
theorem parse_hex_eq (s : Bytes) : parseHex s = (hexValue s).map (· % 2 ^ 64) := by
  rw [parseHex, hexValue]
  split
  · rfl
  · exact parse_hex_from_eq 0 s

theorem parse_hex_of_value {s : Bytes} {v : Nat} (h : hexValue s = some v) :
    parseHex s = some (v % 2 ^ 64) := by
  rw [parse_hex_eq, h]
  rfl

/-- The number of data bytes that are required before the line end of the current chunk: the
variable `remaining` of `process_chunked`. The zero-size line has no data. -/
def requiredData (p : HttpParser) : Nat :=
  match p.chunkPhase with
  | .data => p.currentChunkSize - p.currentChunkRead
  | _ => 0

variable {p : HttpParser} {line : Bytes} {v : Nat}

/-- Whether a size line whose value does not vanish modulo `2 ^ 64` is accepted depends on the size
limit only. -/
theorem size_line_pass (hstate : p.state = .chunkedBody) (hphase : p.chunkPhase = .sizeLine)
    (hline : extractLine p.pending = some line)
    (hvalue : hexValue (chunkSizeText line) = some v) :
    (∃ q, p.chunkedIter = .next q ∧ q.requiredData = v % 2 ^ 64 ∧
        (v % 2 ^ 64 = 0 ∨ p.raw.length + (line.length + 2) ≤ sizeT p.maxSize)) ∨
      (∃ r, p.chunkedIter = .done r ∧ r.state = .error ∧ v % 2 ^ 64 ≠ 0 ∧
        sizeT p.maxSize < p.raw.length + (line.length + 2)) := by
  have hhex := parse_hex_of_value hvalue
  rw [chunked_iter_size_line hstate hphase]
  by_cases hzero : v % 2 ^ 64 = 0
  · rw [hzero] at hhex
    exact .inl ⟨_, chunk_size_line_last hline hhex, hzero.symm, .inl hzero⟩
  · by_cases hlimit : p.raw.length + (line.length + 2) ≤ sizeT p.maxSize
    · exact .inl ⟨_, chunk_size_line_data hline hhex hzero hlimit, rfl, .inr hlimit⟩
    · have hover := Nat.lt_of_not_le hlimit
      exact .inr ⟨_, chunk_size_line_over hline hhex hzero hover, rfl, hzero, hover⟩

/-- A size line is read exactly or refused if and only if its value fits a `size_t`, or the line
alone exceeds the size limit and this is tested. -/
theorem chunk_size_exact_iff (hstate : p.state = .chunkedBody) (hphase : p.chunkPhase = .sizeLine)
    (hline : extractLine p.pending = some line)
    (hvalue : hexValue (chunkSizeText line) = some v) :
    ((∀ q, p.chunkedIter = .next q → q.requiredData = v) ∧
      (2 ^ 64 ≤ v → ∃ r, p.chunkedIter = .done r ∧ r.state = .error)) ↔
    (v < 2 ^ 64 ∨
      (v % 2 ^ 64 ≠ 0 ∧ sizeT p.maxSize < p.raw.length + (line.length + 2))) := by
  rcases size_line_pass hstate hphase hline hvalue with
    ⟨q, hnext, hrequired, hlimit⟩ | ⟨r, hdone, herror, hzero, hover⟩
  · constructor
    · rintro ⟨hexact, hrefused⟩
      refine .inl (Nat.lt_of_not_le fun hlarge => ?_)
      obtain ⟨r, hdone, -⟩ := hrefused hlarge
      cases hnext.symm.trans hdone
    · intro h
      have hsmall : v < 2 ^ 64 := by omega
      refine ⟨fun t ht => ?_, fun hlarge => absurd hsmall (Nat.not_lt.2 hlarge)⟩
      cases hnext.symm.trans ht
      rw [hrequired, Nat.mod_eq_of_lt hsmall]
  · refine iff_of_true ⟨fun q hnext => ?_, fun _ => ⟨r, hdone, herror⟩⟩ (.inr ⟨hzero, hover⟩)
    cases hdone.symm.trans hnext

/-- A parser before a chunk of five bytes. -/
def beforeChunk (sizeLine : Bytes) : HttpParser :=
  { state := .chunkedBody, pending := sizeLine ++ crlf ++ ascii "hello" ++ crlf }

theorem chunk_size_exact_five :
    (∀ q, (beforeChunk (ascii "5;name=value")).chunkedIter = .next q → q.requiredData = 5) ∧
      (2 ^ 64 ≤ 5 → ∃ r, (beforeChunk (ascii "5;name=value")).chunkedIter = .done r ∧
        r.state = .error) := by
  have hline : extractLine (beforeChunk (ascii "5;name=value")).pending =
      some (ascii "5;name=value") := by decide
  exact (chunk_size_exact_iff rfl rfl hline (by decide)).2 (.inl (by decide))

/-- A size of `2 ^ 64 + 5` is taken for 5. -/
theorem chunk_size_wraps :
    hexValue (chunkSizeText (ascii "10000000000000005")) = some (2 ^ 64 + 5) ∧
    ∃ q, (beforeChunk (ascii "10000000000000005")).chunkedIter = .next q ∧
      q.chunkPhase = .data ∧ q.requiredData = 5 :=
  ⟨by decide, _, rfl, by decide, by decide⟩

end ApiGateway.Http.HttpParser

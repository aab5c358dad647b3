import ApiGateway.Library.Region
import ApiGateway.Utils.ParseInt

/-!
# Buffers

`Buffer` of `buffer.cpp`. Indices are of type `size_t`, so their sums and differences are taken
modulo `2 ^ 64`, and every copy is checked against the bounds of the array it reads or writes. An
operation ends with a buffer, with the exception of a vector that would become too long, or with an
access out of bounds. `Holds` says that a buffer represents a byte queue; there is a lemma for each
operation that says what it does to the queue. `Holds.ensure_writable_iff` says which calls of
`ensure_writable` do what they should, and `prepend_and_shrink_keep_iff` the same of `prepend` and
`shrink`.
-/

namespace ApiGateway.Net

open Region

/-- How an operation ends if it does not return: with `std::length_error`, or with a copy out of
bounds, from freed memory or between ranges that overlap. -/
inductive Fault where
  | lengthError
  | outOfBounds
  deriving DecidableEq

/-- An array of `char` in memory, for one a `std::vector<char>`, which has no more bytes than
pointers can be apart. -/
structure Block where
  bytes : Bytes
  size_le : bytes.length ≤ 2 ^ 63 - 1

namespace Block

/-- `size()`. -/
def size (v : Block) : Nat :=
  v.bytes.length

/-- The constructor for a vector of zeros. -/
def zeros (n : Nat) : Except Fault Block :=
  if h : n ≤ 2 ^ 63 - 1 then .ok ⟨List.replicate n 0, by rwa [List.length_replicate]⟩
  else .error .lengthError

/-- `resize`. -/
def resize (v : Block) (n : Nat) : Except Fault Block :=
  if h : n ≤ 2 ^ 63 - 1 then
    .ok ⟨v.bytes.take n ++ List.replicate (n - v.size) 0, by
      simp only [List.length_append, List.length_take, List.length_replicate, size]
      omega⟩
  else .error .lengthError

/-- The part of a copy that reads. -/
def read (v : Block) (start n : Nat) : Except Fault Bytes :=
  if start + n ≤ v.size then .ok (slice v.bytes start n) else .error .outOfBounds

/-- The array after a copy. -/
def copied (v : Block) (start : Nat) (data : Bytes) (h : start + data.length ≤ v.size) : Block :=
  ⟨overwrite v.bytes start data, (length_overwrite h).trans_le v.size_le⟩

/-- The part of a copy that writes. -/
def write (v : Block) (start : Nat) (data : Bytes) : Except Fault Block :=
  if h : start + data.length ≤ v.size then .ok (v.copied start data h) else .error .outOfBounds

end Block

/-- `class Buffer`. -/
structure Buffer where
  buf : Block
  readIdx : Nat
  writeIdx : Nat

namespace Buffer

/-- `kInitialSize`. -/
def initialSize : Nat :=
  4096

/-- `kPrependableSize`. -/
def prependable : Nat :=
  128

theorem prependable_eq : prependable = 128 := rfl

/-- The constructor. -/
def fresh : Buffer where
  buf := ⟨List.replicate (initialSize + prependable) 0, by
    rw [List.length_replicate]
    decide⟩
  readIdx := prependable
  writeIdx := prependable

/-- `readable_size`. -/
def readableSize (b : Buffer) : Nat :=
  (b.writeIdx + 2 ^ 64 - b.readIdx) % 2 ^ 64

/-- `writable_size`. -/
def writableSize (b : Buffer) : Nat :=
  (b.buf.size + 2 ^ 64 - b.writeIdx) % 2 ^ 64

/-- `prependable_size`. -/
def prependableSize (b : Buffer) : Nat :=
  b.readIdx

/-- `read_as_string`. -/
def readAsString (b : Buffer) : Except Fault Bytes :=
  b.buf.read b.readIdx b.readableSize

/-- `has_writeen`. -/
def hasWriteen (b : Buffer) (n : Nat) : Buffer :=
  { b with writeIdx := (b.writeIdx + n) % 2 ^ 64 }

/-- `shrink`. -/
def shrink (b : Buffer) : Except Fault Buffer :=
  if b.readIdx = prependable then .ok b
  else do
    let resize := b.readableSize
    let buf ←
      if 0 < resize then do
        let data ← b.buf.read b.readIdx resize
        b.buf.write prependable data
      else pure b.buf
    return { buf, readIdx := prependable, writeIdx := (prependable + resize) % 2 ^ 64 }

/-- `ensure_writable`. -/
def ensureWritable (b : Buffer) (n : Nat) : Except Fault Buffer :=
  if n ≤ b.writableSize then .ok b
  else
    let needed := n - b.writableSize
    if (n + prependable) % 2 ^ 64 ≤ (b.prependableSize + b.writableSize) % 2 ^ 64 then b.shrink
    else do
      let buf ← b.buf.resize ((b.buf.size + needed) % 2 ^ 64)
      return { b with buf }

/-- `append`. -/
def append (b : Buffer) (data : Bytes) : Except Fault Buffer :=
  if data.length = 0 then .ok b
  else do
    let b ← b.ensureWritable data.length
    let buf ← b.buf.write b.writeIdx data
    return { b with buf, writeIdx := (b.writeIdx + data.length) % 2 ^ 64 }

/-- `append`, of the bytes of another buffer. -/
def appendBuffer (b other : Buffer) : Except Fault Buffer := do
  let data ← other.readAsString
  b.append data

/-- The copy in `append` when `old` is the same buffer before `ensure_writable`, where the bytes are
read. If its vector has been given new memory to grow, there are no bytes any more. -/
def copyFrom (b old : Buffer) (moved : Bool) : Except Fault Buffer :=
  let n := old.readableSize
  if moved ∧ old.buf.size < b.buf.size then .error .outOfBounds
  else if b.writeIdx < old.readIdx + n ∧ old.readIdx < b.writeIdx + n then .error .outOfBounds
  else do
    let data ← b.buf.read old.readIdx n
    let buf ← b.buf.write b.writeIdx data
    return { b with buf, writeIdx := (b.writeIdx + n) % 2 ^ 64 }

/-- `append`, of the bytes of the buffer itself. Whether a vector that grows is given new memory
depends on its capacity. -/
def appendSelf (b : Buffer) (moved : Bool) : Except Fault Buffer :=
  if b.readableSize = 0 then .ok b
  else do
    let grown ← b.ensureWritable b.readableSize
    grown.copyFrom b moved

/-- `consume`. -/
def consume (b : Buffer) (n : Nat) : Buffer :=
  let n := if b.readableSize < n then b.readableSize else n
  let readIdx := (b.readIdx + n) % 2 ^ 64
  if readIdx = b.writeIdx then { b with readIdx := prependable, writeIdx := prependable }
  else { b with readIdx }

/-- `consume_all`. -/
def consumeAll (b : Buffer) : Buffer :=
  { b with readIdx := prependable, writeIdx := prependable }

/-- `clear`. -/
def clear (b : Buffer) : Buffer :=
  { b with readIdx := prependable, writeIdx := prependable }

/-- `sizeof(stack_buf)`. -/
def stackSize : Nat :=
  65536

/-- The space that `read_from_fd` offers to `readv`. -/
def offered (b : Buffer) : Nat :=
  if stackSize ≤ b.writableSize then b.writableSize else b.writableSize + stackSize

/-- `read_from_fd`, if `readv` fails or receives some bytes, which it puts behind the readable ones
and then into `stack_buf`. -/
def readFromFd (b : Buffer) (received : Option Bytes) : Except Fault (Int × Buffer) :=
  match received with
  | none => .ok (-1, b)
  | some bytes =>
      if bytes.length = 0 then .ok (0, b)
      else do
        let writable := b.writableSize
        let buf ← b.buf.write b.writeIdx (bytes.take writable)
        if bytes.length ≤ writable then
          return (bytes.length,
            { b with buf, writeIdx := (b.writeIdx + bytes.length) % 2 ^ 64 })
        else do
          let b ← { b with buf, writeIdx := buf.size }.append (bytes.drop writable)
          return (bytes.length, b)

/-- `write_to_fd`, if `write` fails or accepts a number of bytes, with the bytes it has accepted. -/
def writeToFd (b : Buffer) (accepted : Option Nat) : Except Fault (Int × Bytes × Buffer) :=
  if b.readableSize = 0 then .ok (0, [], b)
  else do
    let data ← b.readAsString
    match accepted with
    | none => return (-1, [], b)
    | some n => return (n, data.take n, if 0 < n then b.consume n else b)

/-- The branch of `prepend` that takes a new vector. -/
def relocate (b : Buffer) (n : Nat) : Except Fault Buffer := do
  let needed := (n + b.readableSize) % 2 ^ 64
  let newBuf ← Block.zeros ((needed + prependable) % 2 ^ 64)
  let newBuf ← newBuf.resize ((needed + prependable) % 2 ^ 64)
  let newRead := (prependable + n) % 2 ^ 64
  let old ← b.buf.read b.readIdx b.readableSize
  let newBuf ← newBuf.write newRead old
  -- the new index is in place when `readable_size` is called
  let b := { b with buf := newBuf, readIdx := newRead }
  return { b with writeIdx := (b.readIdx + b.readableSize) % 2 ^ 64 }

/-- `prepend`. -/
def prepend (b : Buffer) (data : Bytes) : Except Fault Buffer := do
  let n := data.length
  let b ← if b.prependableSize < n then b.relocate n else pure b
  let readIdx := (b.readIdx + 2 ^ 64 - n) % 2 ^ 64
  let buf ← b.buf.write readIdx data
  return { b with buf, readIdx }

/-- `read_idx_` and `write_idx_` delimit a range of `buf_`. -/
structure InBounds (b : Buffer) : Prop where
  read_le : b.readIdx ≤ b.writeIdx
  write_le : b.writeIdx ≤ b.buf.size

/-- A buffer represents a byte queue. -/
structure Holds (b : Buffer) (queue : Bytes) : Prop extends InBounds b where
  reserve : prependable ≤ b.readIdx
  readable : b.readAsString = .ok queue

/-- An operation returns a result with a property, or throws. -/
def Meets {α : Type} (post : α → Prop) : Except Fault α → Prop
  | .ok a => post a
  | .error fault => fault = .lengthError

theorem Meets.bind {α β : Type} {post : α → Prop} {post' : β → Prop} {result : Except Fault α}
    {next : α → Except Fault β} (h : Meets post result)
    (hnext : ∀ a, post a → Meets post' (next a)) : Meets post' (result >>= next) := by
  cases result with
  | ok a => exact hnext a h
  | error fault => exact h

theorem ok_bind {α β : Type} (a : α) (next : α → Except Fault β) :
    (Except.ok a >>= next) = next a :=
  rfl

theorem write_of_le {v : Block} {start : Nat} {data : Bytes} (h : start + data.length ≤ v.size) :
    v.write start data = .ok (v.copied start data h) :=
  dif_pos h

theorem write_of_not_le {v : Block} {start : Nat} {data : Bytes}
    (h : ¬ start + data.length ≤ v.size) : v.write start data = .error .outOfBounds :=
  dif_neg h

theorem resize_of_le {v : Block} {n : Nat} (hn : n ≤ 2 ^ 63 - 1) :
    ∃ v', v.resize n = .ok v' ∧ v'.size = n := by
  refine ⟨_, dif_pos hn, ?_⟩
  simp only [Block.size, List.length_append, List.length_take, List.length_replicate]
  omega

theorem size_copied {v : Block} {start : Nat} {data : Bytes} (h : start + data.length ≤ v.size) :
    (v.copied start data h).size = v.size :=
  length_overwrite h

theorem read_of_le {v : Block} {start n : Nat} (h : start + n ≤ v.size) :
    v.read start n = .ok (slice v.bytes start n) :=
  if_pos h

variable {b : Buffer} {queue data : Bytes} {n : Nat}

theorem InBounds.readable_size (h : b.InBounds) : b.readableSize = b.writeIdx - b.readIdx := by
  have := b.buf.size_le
  have := h.write_le
  have := h.read_le
  simp only [readableSize, Block.size] at *
  omega

theorem InBounds.writable_size (h : b.InBounds) : b.writableSize = b.buf.size - b.writeIdx := by
  have := b.buf.size_le
  have := h.write_le
  simp only [writableSize, Block.size] at *
  omega

theorem InBounds.read_as_string (h : b.InBounds) :
    b.readAsString = .ok (slice b.buf.bytes b.readIdx (b.writeIdx - b.readIdx)) := by
  have := h.read_le
  have := h.write_le
  rw [readAsString, h.readable_size, read_of_le (by omega)]

theorem Holds.slice_eq (h : b.Holds queue) :
    slice b.buf.bytes b.readIdx (b.writeIdx - b.readIdx) = queue :=
  Except.ok.inj (h.read_as_string.symm.trans h.readable)

theorem Holds.length_eq (h : b.Holds queue) : b.readIdx + queue.length = b.writeIdx := by
  have := h.read_le
  have := h.write_le
  have hlength : queue.length = b.writeIdx - b.readIdx := by
    rw [← h.slice_eq]
    exact length_slice (show _ ≤ b.buf.size by omega)
  omega

/-- Where the bytes of a queue have to be for a buffer to represent it. -/
theorem holds_of_slice (hreserve : prependable ≤ b.readIdx)
    (hwrite : b.writeIdx = b.readIdx + queue.length) (hsize : b.writeIdx ≤ b.buf.size)
    (hslice : slice b.buf.bytes b.readIdx queue.length = queue) : b.Holds queue := by
  have hbounds : b.InBounds := ⟨by omega, hsize⟩
  refine ⟨hbounds, hreserve, ?_⟩
  rw [hbounds.read_as_string, hwrite, Nat.add_sub_cancel_left, hslice]

theorem Holds.slice_length (h : b.Holds queue) :
    slice b.buf.bytes b.readIdx queue.length = queue := by
  have := h.length_eq
  rw [← Nat.add_sub_cancel_left (n := b.readIdx) (m := queue.length), this, h.slice_eq]

/-- The queue is empty. -/
theorem holds_nil (hread : b.readIdx = prependable) (hwrite : b.writeIdx = prependable)
    (hsize : prependable ≤ b.buf.size) : b.Holds [] :=
  holds_of_slice hread.ge (hwrite.trans hread.symm) (hwrite.trans_le hsize) (slice_zero ..)

theorem holds_fresh : fresh.Holds [] := by
  refine holds_nil rfl rfl ?_
  rw [fresh, Block.size, List.length_replicate]
  decide

theorem Holds.prependable_le (h : b.Holds queue) : prependable ≤ b.buf.size :=
  (h.reserve.trans h.read_le).trans h.write_le

/-! ## Removing bytes -/

theorem Holds.consume (h : b.Holds queue) (n : Nat) : (b.consume n).Holds (queue.drop n) := by
  have hlength := h.length_eq
  have hsize := h.write_le
  have hreserve := h.reserve
  have hreadable : b.readableSize = queue.length := by
    rw [h.readable_size]
    omega
  have hlimit := b.buf.size_le
  -- the number of bytes that are really removed
  obtain ⟨k, hk, hle, hdrop⟩ : ∃ k, (if b.readableSize < n then b.readableSize else n) = k ∧
      k ≤ queue.length ∧ queue.drop n = queue.drop k := by
    split_ifs with hlt
    · refine ⟨_, rfl, hreadable.le, ?_⟩
      rw [List.drop_of_length_le (by omega), List.drop_of_length_le hreadable.ge]
    · exact ⟨_, rfl, by omega, rfl⟩
  have hread : (b.readIdx + k) % 2 ^ 64 = b.readIdx + k := by
    simp only [Block.size] at hsize
    omega
  rw [hdrop]
  simp only [Buffer.consume, hk, hread]
  split_ifs with hall
  · rw [List.drop_of_length_le (by omega)]
    exact holds_nil rfl rfl h.prependable_le
  · refine holds_of_slice (Nat.le_add_right_of_le hreserve) ?_ hsize ?_
    · rw [List.length_drop]
      show b.writeIdx = b.readIdx + k + _
      omega
    · show slice b.buf.bytes (b.readIdx + k) _ = _
      rw [List.length_drop, slice_drop, h.slice_length]

theorem Holds.consume_all (h : b.Holds queue) : b.consumeAll.Holds [] :=
  holds_nil rfl rfl h.prependable_le

theorem Holds.clear (h : b.Holds queue) : b.clear.Holds [] :=
  holds_nil rfl rfl h.prependable_le

/-! ## Adding bytes -/

/-- What `shrink` leaves if the readable bytes have room behind the reserve. -/
theorem InBounds.shrink (h : b.InBounds)
    (hfits : prependable + (b.writeIdx - b.readIdx) ≤ b.buf.size) :
    ∃ b', b.shrink = .ok b' ∧ b'.buf.size = b.buf.size ∧ b'.readIdx = prependable ∧
      b'.writeIdx = prependable + (b.writeIdx - b.readIdx) ∧
      slice b'.buf.bytes prependable (b.writeIdx - b.readIdx) =
        slice b.buf.bytes b.readIdx (b.writeIdx - b.readIdx) := by
  have hread := h.read_le
  have hwrite := h.write_le
  have hlimit : b.buf.size ≤ 2 ^ 63 - 1 := b.buf.size_le
  unfold Buffer.shrink
  split_ifs with hstart
  · exact ⟨b, rfl, rfl, hstart, by omega, by rw [hstart]⟩
  · have hend : (prependable + (b.writeIdx - b.readIdx)) % 2 ^ 64 =
        prependable + (b.writeIdx - b.readIdx) := by omega
    have hsource : b.readIdx + (b.writeIdx - b.readIdx) ≤ b.buf.size := by omega
    have hlength := length_slice hsource
    have hread := read_of_le hsource
    generalize slice b.buf.bytes b.readIdx (b.writeIdx - b.readIdx) = bytes at hlength hread ⊢
    by_cases hpos : 0 < b.writeIdx - b.readIdx
    · have hcopy : prependable + bytes.length ≤ b.buf.size := by omega
      rw [h.readable_size, if_pos hpos, hread, ok_bind, write_of_le hcopy, ok_bind]
      refine ⟨_, rfl, size_copied hcopy, rfl, hend, ?_⟩
      rw [← hlength]
      exact slice_overwrite (show prependable ≤ b.buf.size by omega)
    · rw [h.readable_size, if_neg hpos, pure_bind]
      refine ⟨_, rfl, rfl, rfl, hend, ?_⟩
      have hempty : bytes = [] := List.length_eq_zero_iff.1 (by omega)
      rw [Nat.eq_zero_of_not_pos hpos, slice_zero, hempty]

/-- With the reserve in front of them, the readable bytes have room behind it. -/
theorem Holds.shrink (h : b.Holds queue) :
    ∃ b', b.shrink = .ok b' ∧ b'.Holds queue ∧ b'.buf.size = b.buf.size ∧
      b'.readIdx = prependable := by
  have hlength := h.length_eq
  have hsize := h.write_le
  have hreserve := h.reserve
  have hqueue : b.writeIdx - b.readIdx = queue.length := by omega
  have hshrink := h.toInBounds.shrink (by omega)
  rw [hqueue, h.slice_length] at hshrink
  obtain ⟨b', hb', hsame, hread, hwrite, hslice⟩ := hshrink
  refine ⟨b', hb', holds_of_slice hread.ge (by omega) (by omega) ?_, hsame, hread⟩
  rw [hread, hslice]

theorem Holds.writable_size_eq (h : b.Holds queue) :
    b.writableSize + b.readIdx + queue.length = b.buf.size := by
  have := h.length_eq
  have := h.write_le
  rw [h.writable_size]
  omega

/-- A vector that grows keeps its bytes. -/
theorem Holds.resize (h : b.Holds queue) (hsize : b.buf.size ≤ n) :
    Meets (fun b' => b'.Holds queue ∧ b'.buf.size = n ∧ b'.writeIdx = b.writeIdx)
      (do let buf ← b.buf.resize n; return { b with buf }) := by
  have hlength := h.length_eq
  have hwrite := h.write_le
  unfold Block.resize
  split_ifs with hlimit
  · have hsame : (b.buf.bytes.take n ++ List.replicate (n - b.buf.size) 0).length = n := by
      simp only [List.length_append, List.length_take, List.length_replicate, Block.size] at *
      omega
    refine ⟨holds_of_slice h.reserve hlength.symm ?_ ?_, hsame, rfl⟩
    · exact (hwrite.trans hsize).trans hsame.ge
    · show slice (b.buf.bytes.take n ++ _) b.readIdx queue.length = queue
      rw [List.take_of_length_le hsize, slice_append (show _ ≤ b.buf.size by omega),
        h.slice_length]
  · rfl

/-- A vector that is cut off before `write_idx_` is out of bounds. -/
theorem Holds.not_resize (h : b.Holds queue) (hsize : n < b.writeIdx) {post : Buffer → Prop} :
    ¬ Meets (fun b' => b'.Holds queue ∧ post b')
      (do let buf ← b.buf.resize n; return { b with buf }) := by
  have hwrite := h.write_le
  have hlimit := b.buf.size_le
  have hle : n ≤ 2 ^ 63 - 1 := by
    simp only [Block.size] at hwrite
    omega
  simp only [Block.resize, dif_pos hle]
  rintro ⟨hholds, -⟩
  have hshort := hholds.write_le
  simp only [Block.size, List.length_append, List.length_take, List.length_replicate] at *
  omega

/-- `ensure_writable` keeps the queue and makes room, or throws, exactly if the bytes would not end
beyond the range of `size_t`. -/
theorem Holds.ensure_writable_iff (h : b.Holds queue) (hn : n < 2 ^ 64) :
    Meets (fun b' => b'.Holds queue ∧ n ≤ b'.writableSize) (b.ensureWritable n) ↔
      b.writeIdx + n < 2 ^ 64 := by
  have hlength := h.length_eq
  have hsize := h.writable_size_eq
  have hreserve : 128 ≤ b.readIdx := h.reserve
  have hlimit : b.buf.size ≤ 2 ^ 63 - 1 := b.buf.size_le
  have hspace : (b.prependableSize + b.writableSize) % 2 ^ 64 = b.readIdx + b.writableSize := by
    show (b.readIdx + _) % _ = _
    omega
  unfold ensureWritable
  simp only [hspace]
  split_ifs with hroom hmove
  · exact iff_of_true ⟨h, hroom⟩ (by omega)
  · obtain ⟨b', hb', hholds, hsame, hread⟩ := h.shrink
    have hsize' := hholds.writable_size_eq
    have hmove' : (n + 128) % 2 ^ 64 ≤ b.readIdx + b.writableSize := hmove
    have hread' : b'.readIdx = 128 := hread
    rw [hb']
    show b'.Holds queue ∧ n ≤ b'.writableSize ↔ _
    rw [and_iff_right hholds]
    omega
  · have hmove' : ¬ (n + 128) % 2 ^ 64 ≤ b.readIdx + b.writableSize := hmove
    by_cases hfits : b.writeIdx + n < 2 ^ 64
    · have hsum : (b.buf.size + (n - b.writableSize)) % 2 ^ 64 = b.writeIdx + n := by omega
      rw [hsum, iff_true_right hfits]
      have hgrown := h.resize (n := b.writeIdx + n) (by omega)
      revert hgrown
      cases b.buf.resize (b.writeIdx + n) with
      | error fault => exact id
      | ok buf =>
          rintro ⟨hholds, hsame, hwrite⟩
          refine ⟨hholds, ?_⟩
          have hsize' := hholds.writable_size_eq
          have hlength' := hholds.length_eq
          omega
    · rw [iff_false_right hfits]
      exact h.not_resize (by omega)

theorem Holds.ensure_writable (h : b.Holds queue) (hn : n ≤ 2 ^ 63 - 1) :
    Meets (fun b' => b'.Holds queue ∧ n ≤ b'.writableSize) (b.ensureWritable n) := by
  refine (h.ensure_writable_iff (by omega)).2 ?_
  have hwrite := h.write_le
  have hlimit : b.buf.size ≤ 2 ^ 63 - 1 := b.buf.size_le
  omega

/-- A copy into the writable space adds bytes to the queue. -/
theorem Holds.write (h : b.Holds queue) (hroom : data.length ≤ b.writableSize) :
    ∃ buf, b.buf.write b.writeIdx data = .ok buf ∧ buf.size = b.buf.size ∧
      ({ b with buf, writeIdx := (b.writeIdx + data.length) % 2 ^ 64 } : Buffer).Holds
        (queue ++ data) := by
  have hlength := h.length_eq
  have hsize := h.writable_size_eq
  have hlimit : b.buf.size ≤ 2 ^ 63 - 1 := b.buf.size_le
  have hcopy : b.writeIdx + data.length ≤ b.buf.size := by omega
  have hsame := size_copied hcopy
  have hwrite : (b.writeIdx + data.length) % 2 ^ 64 = b.writeIdx + data.length := by omega
  have hstart : b.writeIdx ≤ b.buf.size := by omega
  refine ⟨_, write_of_le hcopy, hsame, ?_⟩
  rw [hwrite]
  refine holds_of_slice h.reserve ?_ (hcopy.trans hsame.ge) ?_
  · rw [List.length_append]
    show b.writeIdx + data.length = b.readIdx + _
    omega
  · show slice (overwrite b.buf.bytes b.writeIdx data) b.readIdx _ = _
    rw [List.length_append, slice_add, slice_overwrite_before hlength.le hstart, h.slice_length,
      hlength, slice_overwrite hstart]

theorem Holds.append (h : b.Holds queue) (hdata : data.length ≤ 2 ^ 63 - 1) :
    Meets (fun b' => b'.Holds (queue ++ data)) (b.append data) := by
  unfold Buffer.append
  split_ifs with hempty
  · rw [List.length_eq_zero_iff.1 hempty, List.append_nil]
    exact h
  · refine (h.ensure_writable hdata).bind ?_
    rintro b' ⟨hholds, hroom⟩
    obtain ⟨buf, hbuf, -, hadded⟩ := hholds.write hroom
    rw [hbuf]
    exact hadded

/-- Bytes that fit are written where they are to go. -/
theorem Holds.append_in_place (h : b.Holds queue) (hpos : data.length ≠ 0)
    (hroom : data.length ≤ b.writableSize) :
    ∃ b', b.append data = .ok b' ∧ b'.Holds (queue ++ data) ∧ b'.buf.size = b.buf.size ∧
      b'.readIdx = b.readIdx := by
  obtain ⟨buf, hbuf, hsame, hadded⟩ := h.write hroom
  unfold Buffer.append
  rw [if_neg hpos, Buffer.ensureWritable, if_pos hroom, ok_bind, hbuf, ok_bind]
  exact ⟨_, rfl, hadded, hsame, rfl⟩

theorem Holds.append_buffer {other : Buffer} {bytes : Bytes} (h : b.Holds queue)
    (hother : other.Holds bytes) :
    Meets (fun b' => b'.Holds (queue ++ bytes)) (b.appendBuffer other) := by
  have hlength := hother.length_eq
  have hwrite := hother.write_le
  have hlimit : other.buf.size ≤ 2 ^ 63 - 1 := other.buf.size_le
  unfold appendBuffer
  rw [hother.readable]
  exact h.append (by omega)

/-! ## A buffer appended to itself -/

/-- Sliding the readable bytes down does not touch what is behind their new place. -/
theorem Holds.slice_shrink {b' : Buffer} (h : b.Holds queue) (hb' : b.shrink = .ok b')
    {start m : Nat} (hstart : prependable + queue.length ≤ start) :
    slice b'.buf.bytes start m = slice b.buf.bytes start m := by
  have hlength := h.length_eq
  have hreserve := h.reserve
  have hreadable := h.readable_size
  have hsize := h.write_le
  unfold Buffer.shrink at hb'
  split_ifs at hb' with hread
  · cases hb'
    rfl
  · by_cases hpos : 0 < b.readableSize
    · have hsource : b.readIdx + b.readableSize ≤ b.buf.size := by omega
      have hcopied : slice b.buf.bytes b.readIdx b.readableSize = queue := by
        rw [hreadable, h.slice_eq]
      have hcopy : prependable + queue.length ≤ b.buf.size := by omega
      rw [if_pos hpos, read_of_le hsource, hcopied, ok_bind, write_of_le hcopy, ok_bind] at hb'
      cases hb'
      exact slice_overwrite_after hstart (show prependable ≤ b.buf.size by omega)
    · rw [if_neg hpos, pure_bind] at hb'
      cases hb'
      rfl

theorem copy_from_moved {old : Buffer} (hsize : old.buf.size < b.buf.size) :
    b.copyFrom old true = .error .outOfBounds :=
  if_pos ⟨rfl, hsize⟩

theorem copy_from_overlap {old : Buffer} {moved : Bool} (hsize : ¬ old.buf.size < b.buf.size)
    (h : b.writeIdx < old.readIdx + old.readableSize ∧
      old.readIdx < b.writeIdx + old.readableSize) :
    b.copyFrom old moved = .error .outOfBounds :=
  (if_neg fun hmoved => hsize hmoved.2).trans (if_pos h)

/-- A copy from where the bytes still are, to a range apart from them. -/
theorem Holds.copy_from {grown : Buffer} (h : b.Holds queue) (hgrown : grown.Holds queue)
    (moved : Bool) (hplace : ¬ (moved = true ∧ b.buf.size < grown.buf.size))
    (hslice : slice grown.buf.bytes b.readIdx queue.length = queue)
    (hroom : queue.length ≤ grown.writableSize) (hsize : b.buf.size ≤ grown.buf.size)
    (hapart : ¬ (grown.writeIdx < b.readIdx + queue.length ∧
      b.readIdx < grown.writeIdx + queue.length)) :
    ∃ b', grown.copyFrom b moved = .ok b' ∧ b'.Holds (queue ++ queue) := by
  have hlength := h.length_eq
  have hwrite := h.write_le
  have hreadable : b.readableSize = queue.length := by
    rw [h.readable_size]
    omega
  obtain ⟨buf, hbuf, -, hadded⟩ := hgrown.write hroom
  unfold copyFrom
  simp only [hreadable]
  rw [if_neg hplace, if_neg hapart, read_of_le (by omega), hslice, ok_bind, hbuf, ok_bind]
  exact ⟨_, rfl, hadded⟩

/-- There is room for the bytes of a buffer behind themselves, or it is made by sliding them down so
far that neither copy overlaps with them, or by growing in place. -/
def SelfFits (b : Buffer) (moved : Bool) : Prop :=
  b.readableSize ≤ b.writableSize ∨
    if b.readableSize + prependable ≤ b.prependableSize + b.writableSize then
      prependable + 2 * b.readableSize ≤ b.readIdx
    else moved = false

theorem Holds.append_self_slid (h : b.Holds queue) {moved : Bool}
    (hroom : ¬ queue.length ≤ b.writableSize)
    (hslide : queue.length + prependable ≤ b.readIdx + b.writableSize) :
    Meets (fun b' => b'.Holds (queue ++ queue)) (b.shrink >>= fun grown => grown.copyFrom b moved) ↔
      prependable + 2 * queue.length ≤ b.readIdx := by
  have hlength := h.length_eq
  have hwrite := h.writable_size_eq
  have hreadable : b.readableSize = queue.length := by
    rw [h.readable_size]
    omega
  obtain ⟨grown, hgrown, hholds, hsame, hread⟩ := h.shrink
  have hend := hholds.length_eq
  have hspace := hholds.writable_size_eq
  rw [hgrown, ok_bind]
  by_cases hfar : prependable + 2 * queue.length ≤ b.readIdx
  · rw [iff_true_right hfar]
    obtain ⟨b', hb', hresult⟩ := h.copy_from hholds moved (by omega)
      ((h.slice_shrink hgrown (by omega)).trans h.slice_length) (by omega) hsame.ge (by omega)
    rw [hb']
    exact hresult
  · refine iff_of_false (fun hmeets => ?_) hfar
    -- the bytes have been slid down by less than it takes to copy them behind themselves
    rw [copy_from_overlap (by omega) (by omega)] at hmeets
    cases hmeets

theorem Holds.append_self_grown (h : b.Holds queue) {moved : Bool}
    (hmoved : moved = true → b.writeIdx + queue.length ≤ 2 ^ 63 - 1)
    (hroom : ¬ queue.length ≤ b.writableSize) :
    Meets (fun b' => b'.Holds (queue ++ queue))
        ((do let buf ← b.buf.resize (b.writeIdx + queue.length); return { b with buf }) >>=
          fun grown => grown.copyFrom b moved) ↔ moved = false := by
  have hlength := h.length_eq
  have hwrite := h.writable_size_eq
  have hresize := h.resize (n := b.writeIdx + queue.length) (by omega)
  cases hnew : b.buf.resize (b.writeIdx + queue.length) with
  | error fault =>
      rw [hnew] at hresize
      refine iff_of_true hresize (Bool.eq_false_iff.2 fun htrue => ?_)
      obtain ⟨v, hv, -⟩ := resize_of_le (v := b.buf) (hmoved htrue)
      rw [hnew] at hv
      cases hv
  | ok buf =>
      rw [hnew] at hresize
      obtain ⟨hholds, hsize, hsame⟩ := hresize
      have hspace := hholds.writable_size_eq
      have hread := hholds.length_eq
      show Meets _ (Buffer.copyFrom { b with buf } b moved) ↔ _
      cases hmoves : moved with
      | true =>
          refine iff_of_false (fun hmeets => ?_) (by decide)
          rw [copy_from_moved (by omega)] at hmeets
          cases hmeets
      | false =>
          obtain ⟨b', hb', hresult⟩ := h.copy_from hholds false (by simp)
            hholds.slice_length (by omega) (by omega) (by omega)
          rw [hb']
          exact iff_of_true hresult rfl

/-- A buffer can be appended to itself exactly if its bytes stay where they are, or are slid down
far enough. -/
theorem Holds.append_self_iff (h : b.Holds queue) {moved : Bool}
    (hmoved : moved = true → b.writeIdx + queue.length ≤ 2 ^ 63 - 1) :
    Meets (fun b' => b'.Holds (queue ++ queue)) (b.appendSelf moved) ↔ b.SelfFits moved := by
  have hlength := h.length_eq
  have hwrite := h.writable_size_eq
  have hlimit : b.buf.size ≤ 2 ^ 63 - 1 := b.buf.size_le
  have hreserve : 128 ≤ b.readIdx := h.reserve
  have hreadable : b.readableSize = queue.length := by
    rw [h.readable_size]
    omega
  have hspace : (b.prependableSize + b.writableSize) % 2 ^ 64 = b.readIdx + b.writableSize := by
    show (b.readIdx + _) % _ = _
    omega
  have hneeded : (queue.length + prependable) % 2 ^ 64 = queue.length + prependable := by
    rw [prependable_eq]
    omega
  unfold appendSelf SelfFits ensureWritable
  simp only [hreadable, hspace, hneeded]
  by_cases hempty : queue.length = 0
  · rw [if_pos hempty]
    refine iff_of_true ?_ (.inl (by omega))
    rw [List.length_eq_zero_iff.1 hempty] at h ⊢
    exact h
  rw [if_neg hempty]
  by_cases hroom : queue.length ≤ b.writableSize
  · rw [if_pos hroom, iff_true_right (.inl hroom), ok_bind]
    obtain ⟨b', hb', hresult⟩ := h.copy_from h moved (by omega) h.slice_length hroom
      le_rfl (by omega)
    rw [hb']
    exact hresult
  rw [if_neg hroom, or_iff_right hroom]
  by_cases hslide : queue.length + prependable ≤ b.readIdx + b.writableSize
  · rw [if_pos hslide]
    exact (h.append_self_slid hroom hslide).trans (by rw [if_pos]; exact hslide)
  · have hsum : (b.buf.size + (queue.length - b.writableSize)) % 2 ^ 64 =
        b.writeIdx + queue.length := by omega
    rw [if_neg hslide, hsum]
    exact (h.append_self_grown hmoved hroom).trans (by rw [if_neg]; exact hslide)

/-! ## The socket -/

theorem offered_le (b : Buffer) : b.offered ≤ b.writableSize + 65536 := by
  have hstack : stackSize = 65536 := rfl
  unfold offered
  split_ifs <;> omega

/-- Bytes that fill the writable space. -/
theorem Holds.write_full (h : b.Holds queue) (hdata : b.writableSize ≤ data.length) :
    ∃ buf, b.buf.write b.writeIdx (data.take b.writableSize) = .ok buf ∧
      ({ b with buf, writeIdx := buf.size } : Buffer).Holds
        (queue ++ data.take b.writableSize) := by
  have hpart : (data.take b.writableSize).length = b.writableSize := List.length_take_of_le hdata
  obtain ⟨buf, hbuf, hsame, hadded⟩ := h.write hpart.le
  have hlength := h.length_eq
  have hsize := h.writable_size_eq
  have hlimit : b.buf.size ≤ 2 ^ 63 - 1 := b.buf.size_le
  have hend : (b.writeIdx + (data.take b.writableSize).length) % 2 ^ 64 = buf.size := by
    rw [hpart, hsame]
    omega
  rw [hend] at hadded
  exact ⟨buf, hbuf, hadded⟩

/-- The bytes that `readv` receives are added to the queue, those in `stack_buf` included. -/
theorem Holds.read_from_fd (h : b.Holds queue) {received : Option Bytes}
    (hreceived : (received.getD []).length ≤ b.offered) :
    Meets (fun r => r.1 = received.elim (-1) (fun bytes => (bytes.length : Int)) ∧
      r.2.Holds (queue ++ received.getD [])) (b.readFromFd received) := by
  cases received with
  | none =>
      rw [Option.getD_none, List.append_nil]
      exact ⟨rfl, h⟩
  | some bytes =>
      rw [Option.getD_some] at hreceived ⊢
      show Meets _ (if bytes.length = 0 then _ else _)
      split_ifs with hempty hfits
      · rw [List.length_eq_zero_iff.1 hempty, List.append_nil]
        exact ⟨rfl, h⟩
      · rw [List.take_of_length_le hfits]
        obtain ⟨buf, hbuf, -, hadded⟩ := h.write hfits
        rw [hbuf, ok_bind]
        exact ⟨rfl, hadded⟩
      · obtain ⟨buf, hbuf, hadded⟩ := h.write_full (Nat.le_of_not_le hfits)
        rw [hbuf, ok_bind]
        have hrest : (bytes.drop b.writableSize).length ≤ 2 ^ 63 - 1 := by
          have hoffered := b.offered_le
          rw [List.length_drop]
          omega
        have happended := hadded.append hrest
        rw [List.append_assoc, List.take_append_drop] at happended
        exact happended.bind fun b' hholds => ⟨rfl, hholds⟩

/-- The bytes that `write` accepts are the first ones of the queue, and are removed from it. -/
theorem Holds.write_to_fd (h : b.Holds queue) {accepted : Option Nat}
    (haccepted : accepted.getD 0 ≤ queue.length) :
    ∃ b' ret, b.writeToFd accepted = .ok (ret, queue.take (accepted.getD 0), b') ∧
      b'.Holds (queue.drop (accepted.getD 0)) := by
  have hlength := h.length_eq
  unfold writeToFd
  split_ifs with hempty
  · obtain rfl : queue = [] := by
      refine List.length_eq_zero_iff.1 ?_
      rw [h.readable_size] at hempty
      omega
    rw [List.take_nil, List.drop_nil]
    exact ⟨b, 0, rfl, h⟩
  · rw [h.readable]
    cases accepted with
    | none => exact ⟨b, -1, rfl, h⟩
    | some n =>
        refine ⟨_, n, rfl, ?_⟩
        rw [Option.getD_some]
        split_ifs with hpos
        · exact h.consume n
        · obtain rfl : n = 0 := by omega
          exact h

/-! ## Prepending and shrinking -/

/-- `prepend` puts bytes in front of the readable ones and stays within bounds. -/
def PrependKeeps (b : Buffer) (data : Bytes) : Prop :=
  ∃ b' queue, b.prepend data = .ok b' ∧ b'.InBounds ∧ b.readAsString = .ok queue ∧
    b'.readAsString = .ok (data ++ queue)

/-- `shrink` does not change the readable bytes and stays within bounds. -/
def ShrinkKeeps (b : Buffer) : Prop :=
  ∃ b', b.shrink = .ok b' ∧ b'.InBounds ∧ b'.readAsString = b.readAsString

theorem exists_of_bind_eq_ok {α β : Type} {result : Except Fault α}
    {next : α → Except Fault β} {c : β}
    (h : result >>= next = .ok c) : ∃ a, result = .ok a ∧ next a = .ok c := by
  cases result with
  | ok a => exact ⟨a, rfl, h⟩
  | error fault => cases h

/-- Bytes that fit into the prependable area are put there. -/
theorem InBounds.prepend_eq (h : b.InBounds) (hdata : data.length ≤ b.readIdx)
    (hcopy : b.readIdx - data.length + data.length ≤ b.buf.size) :
    b.prepend data = .ok
      { b with buf := b.buf.copied _ data hcopy, readIdx := b.readIdx - data.length } := by
  have hread := h.read_le
  have hwrite := h.write_le
  have hlimit : b.buf.size ≤ 2 ^ 63 - 1 := b.buf.size_le
  have hstart : (b.readIdx + 2 ^ 64 - data.length) % 2 ^ 64 = b.readIdx - data.length := by omega
  unfold Buffer.prepend
  rw [if_neg (show ¬ b.prependableSize < data.length from Nat.not_lt.2 hdata), pure_bind]
  show (b.buf.write ((b.readIdx + 2 ^ 64 - data.length) % 2 ^ 64) data >>= _) = _
  rw [hstart, write_of_le hcopy, ok_bind]
  rfl

theorem InBounds.prepend_fits (h : b.InBounds) (hdata : data.length ≤ b.readIdx) :
    b.PrependKeeps data := by
  have hread := h.read_le
  have hwrite := h.write_le
  have hback : b.readIdx - data.length + data.length = b.readIdx := by omega
  have hcopy : b.readIdx - data.length + data.length ≤ b.buf.size := by omega
  have hbounds : InBounds
      { b with buf := b.buf.copied _ data hcopy, readIdx := b.readIdx - data.length } :=
    ⟨(Nat.sub_le _ _).trans hread, hwrite.trans (size_copied hcopy).ge⟩
  refine ⟨_, _, h.prepend_eq hdata hcopy, hbounds, h.read_as_string, ?_⟩
  rw [hbounds.read_as_string]
  show Except.ok (slice (overwrite b.buf.bytes (b.readIdx - data.length) data)
    (b.readIdx - data.length) (b.writeIdx - (b.readIdx - data.length))) = _
  have hsplit : b.writeIdx - (b.readIdx - data.length) =
      data.length + (b.writeIdx - b.readIdx) := by omega
  have hbefore : b.readIdx - data.length ≤ b.buf.size := by omega
  rw [hsplit, slice_add, slice_overwrite hbefore, hback, slice_overwrite_after hback.le hbefore]

/-- A new vector comes with the new `read_idx_` and the old `write_idx_`. -/
theorem relocate_eq {b' : Buffer} (hwrite : b.writeIdx < 2 ^ 64) (hn : 128 + n < 2 ^ 64)
    (h : b.relocate n = .ok b') : b'.readIdx = 128 + n ∧ b'.writeIdx = b.writeIdx := by
  unfold relocate at h
  obtain ⟨zeros, -, h⟩ := exists_of_bind_eq_ok h
  obtain ⟨resized, -, h⟩ := exists_of_bind_eq_ok h
  obtain ⟨old, -, h⟩ := exists_of_bind_eq_ok h
  obtain ⟨newBuf, -, h⟩ := exists_of_bind_eq_ok h
  cases h
  simp only [readableSize, prependable_eq]
  omega

/-- So bytes that do not fit into the prependable area are not counted. -/
theorem prepend_moved {b' : Buffer} (hwrite : b.writeIdx < 2 ^ 64)
    (hsize : 128 + data.length < 2 ^ 64) (hdata : b.readIdx < data.length)
    (h : b.prepend data = .ok b') : b'.readIdx = 128 ∧ b'.writeIdx = b.writeIdx := by
  unfold Buffer.prepend at h
  rw [if_pos (show b.prependableSize < data.length from hdata)] at h
  obtain ⟨moved, hmoved, h⟩ := exists_of_bind_eq_ok h
  obtain ⟨buf, -, h⟩ := exists_of_bind_eq_ok h
  obtain ⟨hread, hsame⟩ := relocate_eq hwrite hsize hmoved
  cases h
  refine ⟨?_, hsame⟩
  show (moved.readIdx + 2 ^ 64 - data.length) % 2 ^ 64 = 128
  rw [hread]
  omega

theorem InBounds.prepend_keeps_iff (h : b.InBounds) (d : Block) :
    b.PrependKeeps d.bytes ↔ d.size ≤ b.readIdx := by
  refine ⟨fun hkeeps => ?_, h.prepend_fits⟩
  obtain ⟨b', queue, hresult, hbounds, hold, hnew⟩ := hkeeps
  by_contra hdata
  have hread := h.read_le
  have hwrite := h.write_le
  have hlimit : b.buf.size ≤ 2 ^ 63 - 1 := b.buf.size_le
  have hsize : d.size ≤ 2 ^ 63 - 1 := d.size_le
  have hmoved := prepend_moved (by omega) (show 128 + d.size < 2 ^ 64 by omega)
    (Nat.lt_of_not_le hdata) hresult
  rw [h.read_as_string] at hold
  rw [hbounds.read_as_string, ← Except.ok.inj hold] at hnew
  -- the old and the new number of readable bytes
  have hlength := congrArg List.length (Except.ok.inj hnew)
  have hread' := hbounds.read_le
  have hwrite' := hbounds.write_le
  rw [List.length_append, length_slice (show _ ≤ b.buf.size by omega),
    length_slice (show _ ≤ b'.buf.size by omega)] at hlength
  have hd : d.bytes.length = d.size := rfl
  omega

/-- Readable bytes that have no room behind the reserve are moved past the end. -/
theorem InBounds.shrink_overruns (h : b.InBounds) (hstart : b.readIdx ≠ prependable)
    (hpos : b.readIdx < b.writeIdx)
    (hfits : ¬ prependable + (b.writeIdx - b.readIdx) ≤ b.buf.size) :
    b.shrink = .error .outOfBounds := by
  have hwrite := h.write_le
  have hsource : b.readIdx + (b.writeIdx - b.readIdx) ≤ b.buf.size := by omega
  have hlength := length_slice hsource
  unfold Buffer.shrink
  rw [if_neg hstart, h.readable_size, if_pos (by omega), read_of_le hsource, ok_bind,
    write_of_not_le (by omega)]
  rfl

theorem InBounds.shrink_keeps_iff (h : b.InBounds) :
    b.ShrinkKeeps ↔ prependable + (b.writeIdx - b.readIdx) ≤ b.buf.size := by
  have hread := h.read_le
  have hwrite := h.write_le
  constructor
  · rintro ⟨b', hresult, hbounds, -⟩
    by_contra hfits
    have hstart : b.readIdx ≠ prependable := by omega
    by_cases hpos : b.readIdx < b.writeIdx
    · cases (h.shrink_overruns hstart hpos hfits).symm.trans hresult
    · -- nothing is moved, but the indices end beyond the vector
      have hempty : b.writeIdx - b.readIdx = 0 := by omega
      unfold Buffer.shrink at hresult
      rw [if_neg hstart, h.readable_size, hempty, if_neg (Nat.lt_irrefl 0), pure_bind] at hresult
      rw [← Except.ok.inj hresult] at hbounds
      have hend : prependable ≤ b.buf.size := hbounds.write_le
      omega
  · intro hfits
    obtain ⟨b', hresult, hsame, hread', hwrite', hslice⟩ := h.shrink hfits
    have hbounds : b'.InBounds := ⟨by omega, by omega⟩
    refine ⟨b', hresult, hbounds, ?_⟩
    rw [hbounds.read_as_string, h.read_as_string, hwrite', hread', Nat.add_sub_cancel_left, hslice]

/-- `prepend` and `shrink` keep the readable bytes and the bounds exactly if the bytes to be put in
front fit into the prependable area, and the readable ones behind the reserve. -/
theorem prepend_and_shrink_keep_iff (b : Buffer) (h : b.InBounds) (d : Block) :
    b.PrependKeeps d.bytes ∧ b.ShrinkKeeps ↔
      d.size ≤ b.readIdx ∧ prependable + (b.writeIdx - b.readIdx) ≤ b.buf.size :=
  and_congr (h.prepend_keeps_iff d) h.shrink_keeps_iff

theorem consume_buf (b : Buffer) (n : Nat) : (b.consume n).buf = b.buf := by
  simp only [Buffer.consume]
  split_ifs <;> rfl

theorem consume_of_lt (h : b.Holds queue) (hn : n < queue.length) :
    (b.consume n).readIdx = b.readIdx + n := by
  have hlength := h.length_eq
  have hwrite := h.write_le
  have hlimit : b.buf.size ≤ 2 ^ 63 - 1 := b.buf.size_le
  have hreadable : ¬ b.readableSize < n := by
    rw [h.readable_size]
    omega
  have hread : (b.readIdx + n) % 2 ^ 64 = b.readIdx + n := by omega
  simp only [Buffer.consume, if_neg hreadable, hread]
  rw [if_neg (by omega)]

/-- A buffer from which a byte has been read keeps the others when some are put in front of them. -/
theorem prepend_and_shrink_keep_two : ∃ b : Buffer, b.Holds (ascii "bc") ∧ b.readIdx = 129 ∧
    b.PrependKeeps (ascii "200 OK") ∧ b.ShrinkKeeps := by
  have hsize : fresh.buf.size = 4224 := List.length_replicate
  have hroom : (ascii "abc").length ≤ fresh.writableSize := by
    rw [writableSize, hsize]
    decide
  obtain ⟨b, -, hholds, hsame, hread⟩ := holds_fresh.append_in_place (by decide) hroom
  have hread' : (b.consume 1).readIdx = 129 := by
    rw [consume_of_lt hholds (by decide), hread]
    rfl
  have hrest : (b.consume 1).Holds (ascii "bc") := hholds.consume 1
  have hend : (b.consume 1).writeIdx = 131 := by
    rw [← hrest.length_eq, hread']
    rfl
  have hbuf : (b.consume 1).buf.size = 4224 := by
    rw [consume_buf, hsame, hsize]
  refine ⟨b.consume 1, hrest, hread', (prepend_and_shrink_keep_iff (b.consume 1) hrest.toInBounds
    ⟨ascii "200 OK", by decide⟩).2 ⟨?_, ?_⟩⟩
  · rw [hread']
    decide
  · rw [hread', hend, hbuf]
    decide

/-- A fresh buffer with all its space written. -/
def full : Buffer :=
  fresh.hasWriteen initialSize

theorem full_in_bounds : full.InBounds := by
  refine ⟨by decide, ?_⟩
  show _ ≤ (List.replicate (initialSize + prependable) 0).length
  rw [List.length_replicate]
  decide

/-- A new vector has room for the bytes in front and the old ones. -/
theorem InBounds.relocate_returns (h : b.InBounds)
    (hlimit : n + (b.writeIdx - b.readIdx) + 128 ≤ 2 ^ 63 - 1) :
    ∃ b', b.relocate n = .ok b' ∧ b'.buf.size = n + (b.writeIdx - b.readIdx) + 128 := by
  have hread := h.read_le
  have hwrite := h.write_le
  have hneeded : ((n + b.readableSize) % 2 ^ 64 + prependable) % 2 ^ 64 =
      n + (b.writeIdx - b.readIdx) + 128 := by
    rw [h.readable_size, prependable_eq]
    omega
  have hnew : (prependable + n) % 2 ^ 64 = 128 + n := by
    rw [prependable_eq]
    omega
  have hsource : b.readIdx + (b.writeIdx - b.readIdx) ≤ b.buf.size := by omega
  have hlength := length_slice hsource
  have hbytes := read_of_le hsource
  generalize slice b.buf.bytes b.readIdx (b.writeIdx - b.readIdx) = bytes at hlength hbytes
  have hzeros : Block.zeros (n + (b.writeIdx - b.readIdx) + 128) = .ok _ := dif_pos hlimit
  obtain ⟨v, hresize, hsize⟩ := resize_of_le hlimit
  have hcopy : 128 + n + bytes.length ≤ v.size := by omega
  unfold relocate
  show ∃ b', (Block.zeros (((n + b.readableSize) % 2 ^ 64 + prependable) % 2 ^ 64) >>= fun v =>
    v.resize (((n + b.readableSize) % 2 ^ 64 + prependable) % 2 ^ 64) >>= fun v =>
      b.buf.read b.readIdx b.readableSize >>= fun old =>
        v.write ((prependable + n) % 2 ^ 64) old >>= _) = .ok b' ∧ _
  rw [hneeded, hnew, hzeros, ok_bind, hresize, ok_bind, h.readable_size, hbytes, ok_bind,
    write_of_le hcopy, ok_bind]
  exact ⟨_, rfl, (size_copied hcopy).trans hsize⟩

theorem InBounds.prepend_returns (h : b.InBounds) (hdata : b.readIdx < data.length)
    (hlimit : data.length + (b.writeIdx - b.readIdx) + 128 ≤ 2 ^ 63 - 1) :
    ∃ b', b.prepend data = .ok b' := by
  have hread := h.read_le
  have hwrite := h.write_le
  have hsize : b.buf.size ≤ 2 ^ 63 - 1 := b.buf.size_le
  obtain ⟨moved, hmoved, hroom⟩ := h.relocate_returns hlimit
  have hstart := (relocate_eq (by omega) (by omega) hmoved).1
  have hcopy : 128 + data.length ≤ moved.buf.size := by omega
  have hback : (moved.readIdx + 2 ^ 64 - data.length) % 2 ^ 64 = 128 := by omega
  unfold Buffer.prepend
  rw [if_pos (show b.prependableSize < data.length from hdata), hmoved, ok_bind]
  show ∃ b', (moved.buf.write ((moved.readIdx + 2 ^ 64 - data.length) % 2 ^ 64) data >>= _) = .ok b'
  rw [hback, write_of_le hcopy, ok_bind]
  exact ⟨_, rfl⟩

/-- After 200 bytes have been put in front of an empty buffer there is nothing to read. With ten
bytes in front of a full buffer, `shrink` moves bytes past its end. -/
theorem prepend_and_shrink_lose :
    (∃ b', fresh.prepend (List.replicate 200 0) = .ok b' ∧ b'.readableSize = 0) ∧
      ∃ b', full.prepend (ascii "0123456789") = .ok b' ∧ b'.InBounds ∧
        b'.shrink = .error .outOfBounds := by
  constructor
  · have hlength : (List.replicate 200 (0 : UInt8)).length = 200 := List.length_replicate
    have hdata : fresh.readIdx < (List.replicate 200 (0 : UInt8)).length := by
      rw [hlength]
      decide
    obtain ⟨b', hresult⟩ := holds_fresh.toInBounds.prepend_returns hdata (by rw [hlength]; decide)
    have hmoved := prepend_moved (by decide) (by rw [hlength]; decide) hdata hresult
    refine ⟨b', hresult, ?_⟩
    rw [readableSize, hmoved.1, hmoved.2]
    decide
  · have hsize : full.buf.size = 4224 := List.length_replicate
    have hcopy : full.readIdx - (ascii "0123456789").length + (ascii "0123456789").length ≤
        full.buf.size := by
      rw [hsize]
      decide
    obtain ⟨b', hresult, hsame, hread, hwrite⟩ : ∃ b', full.prepend (ascii "0123456789") = .ok b' ∧
        b'.buf.size = 4224 ∧ b'.readIdx = 118 ∧ b'.writeIdx = 4224 :=
      ⟨_, full_in_bounds.prepend_eq (by decide) hcopy, (size_copied hcopy).trans hsize, rfl, rfl⟩
    have hbounds : b'.InBounds := ⟨by omega, by omega⟩
    have hreserve := prependable_eq
    exact ⟨b', hresult, hbounds, hbounds.shrink_overruns (by omega) (by omega) (by omega)⟩

end Buffer

end ApiGateway.Net

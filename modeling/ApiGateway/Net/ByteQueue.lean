import ApiGateway.Net.Buffer

/-!
# Buffers are byte queues

Sequences of operations on some buffers, next to what they do to byte queues. The main result is
`buffers_are_queues_iff`: in every sequence all operations keep the bounds, copy within them, and
leave the bytes of the queue, exactly if every call of `ensure_writable` asks for space that ends
within the range of `size_t`, and a buffer is appended to itself only if the bytes can be copied
from where they are. A sequence ends with an exception.
-/

namespace ApiGateway.Net

open Buffer

variable {ι : Type} [DecidableEq ι]

/-- The calls of the operations of buffers. `readv` has failed or received some bytes, `write` has
failed or accepted some of them, and a vector that has to grow while it is appended to itself has
been given new memory or not. -/
inductive BufferOp (ι : Type) where
  | append (i : ι) (data : Block)
  | appendBuffer (i j : ι) (moved : Bool)
  | consume (i : ι) (n : UInt64)
  | consumeAll (i : ι)
  | clear (i : ι)
  | ensureWritable (i : ι) (n : UInt64)
  | swap (i j : ι)
  | readFromFd (i : ι) (received : Option Bytes)
  | writeToFd (i : ι) (accepted : Option Nat)

/-- What becomes of the buffers when an operation on one of them ends. -/
def replaced (bs : ι → Buffer) (i : ι) (result : Except Fault Buffer) :
    Except Fault (ι → Buffer) := do
  let b ← result
  return Function.update bs i b

namespace BufferOp

/-- A call. -/
def perform (bs : ι → Buffer) : BufferOp ι → Except Fault (ι → Buffer)
  | append i data => replaced bs i ((bs i).append data.bytes)
  | appendBuffer i j moved => replaced bs i
      (if i = j then (bs i).appendSelf moved else (bs i).appendBuffer (bs j))
  | consume i n => replaced bs i (.ok ((bs i).consume n.toNat))
  | consumeAll i => replaced bs i (.ok (bs i).consumeAll)
  | clear i => replaced bs i (.ok (bs i).clear)
  | ensureWritable i n => replaced bs i ((bs i).ensureWritable n.toNat)
  | swap i j => .ok (Function.update (Function.update bs i (bs j)) j (bs i))
  | readFromFd i received => replaced bs i (do
      let result ← (bs i).readFromFd received
      return result.2)
  | writeToFd i accepted => replaced bs i (do
      let result ← (bs i).writeToFd accepted
      return result.2.2)

/-- What the kernel can answer, and that a vector which would be too long is not given memory. -/
def Possible (bs : ι → Buffer) : BufferOp ι → Prop
  | appendBuffer i _ moved => moved = true → (bs i).writeIdx + (bs i).readableSize ≤ 2 ^ 63 - 1
  | readFromFd i received => (received.getD []).length ≤ (bs i).offered
  | writeToFd i accepted => accepted.getD 0 ≤ (bs i).readableSize
  | _ => True

/-- What a call does to byte queues. -/
def apply (qs : ι → Bytes) : BufferOp ι → ι → Bytes
  | append i data => Function.update qs i (qs i ++ data.bytes)
  | appendBuffer i j _ => Function.update qs i (qs i ++ qs j)
  | consume i n => Function.update qs i ((qs i).drop n.toNat)
  | consumeAll i => Function.update qs i []
  | clear i => Function.update qs i []
  | ensureWritable _ _ => qs
  | swap i j => Function.update (Function.update qs i (qs j)) j (qs i)
  | readFromFd i received => Function.update qs i (qs i ++ received.getD [])
  | writeToFd i accepted => Function.update qs i ((qs i).drop (accepted.getD 0))

/-- A call of `ensure_writable` leaves the space that was asked for. -/
def Leaves (bs : ι → Buffer) : BufferOp ι → Prop
  | ensureWritable i n => n.toNat ≤ (bs i).writableSize
  | _ => True

/-- A call of `ensure_writable` asks for space that ends within the range of `size_t`, and a buffer
that is appended to itself has its bytes still where they are read. -/
def InRange (bs : ι → Buffer) : BufferOp ι → Prop
  | ensureWritable i n => (bs i).writeIdx + n.toNat < 2 ^ 64
  | appendBuffer i j moved => i = j → (bs i).SelfFits moved
  | _ => True

end BufferOp

/-- Each buffer represents its queue. -/
def Represents (bs : ι → Buffer) (qs : ι → Bytes) : Prop :=
  ∀ i, (bs i).Holds (qs i)

/-- A call stays within bounds and does to the buffers what it does to the queues, or throws. -/
def Works (bs : ι → Buffer) (qs : ι → Bytes) (op : BufferOp ι) : Prop :=
  Meets (fun bs' => Represents bs' (op.apply qs) ∧ op.Leaves bs') (op.perform bs)

/-- The buffers after some calls. -/
def performAll (ops : List (BufferOp ι)) : Except Fault (ι → Buffer) :=
  ops.foldlM (fun bs op => op.perform bs) fun _ => fresh

/-- The queues after some calls. -/
def queues (ops : List (BufferOp ι)) : ι → Bytes :=
  ops.foldl (fun qs op => op.apply qs) fun _ => []

variable {bs : ι → Buffer} {qs : ι → Bytes} {i j : ι} {queue : Bytes}

theorem Represents.update {b : Buffer} (h : Represents bs qs) (hb : b.Holds queue) :
    Represents (Function.update bs i b) (Function.update qs i queue) := by
  intro k
  by_cases hk : k = i
  · subst hk
    rw [Function.update_self, Function.update_self]
    exact hb
  · rw [Function.update_of_ne hk, Function.update_of_ne hk]
    exact h k

/-- A call on one buffer works if it leaves the bytes of its queue there. -/
theorem Represents.replaced {result : Except Fault Buffer} (h : Represents bs qs)
    (hresult : Meets (fun b => b.Holds queue) result) :
    Meets (fun bs' => Represents bs' (Function.update qs i queue) ∧ True) (replaced bs i result) :=
  hresult.bind fun _ hb => ⟨h.update hb, trivial⟩

theorem Represents.swap (h : Represents bs qs) (i j : ι) :
    Represents (Function.update (Function.update bs i (bs j)) j (bs i))
      (Function.update (Function.update qs i (qs j)) j (qs i)) :=
  (h.update (h j)).update (h i)

/-- `ensure_writable` works exactly on a request that is in range. -/
theorem Represents.ensure_writable_iff (h : Represents bs qs) (i : ι) (n : UInt64) :
    Works bs qs (.ensureWritable i n) ↔ (bs i).writeIdx + n.toNat < 2 ^ 64 := by
  rw [← (h i).ensure_writable_iff n.toNat_lt]
  show Meets _ (ApiGateway.Net.replaced bs i ((bs i).ensureWritable n.toNat)) ↔ _
  cases (bs i).ensureWritable n.toNat with
  | error fault => exact Iff.rfl
  | ok b =>
      show Represents (Function.update bs i b) qs ∧
        n.toNat ≤ (Function.update bs i b i).writableSize ↔ b.Holds (qs i) ∧
          n.toNat ≤ b.writableSize
      rw [Function.update_self]
      refine and_congr_left fun _ => ⟨fun hnew => ?_, fun hb => ?_⟩
      · have hi := hnew i
        rwa [Function.update_self] at hi
      · have hnew := h.update (i := i) hb
        rwa [Function.update_eq_self] at hnew

/-- A buffer can always be appended to another one. -/
theorem Represents.append_buffer_iff (h : Represents bs qs) (i j : ι) {moved : Bool}
    (hop : (BufferOp.appendBuffer i j moved).Possible bs) :
    Works bs qs (.appendBuffer i j moved) ↔ (i = j → (bs i).SelfFits moved) := by
  by_cases hij : i = j
  · subst hij
    rw [forall_prop_of_true rfl, ← (h i).append_self_iff fun hmoved => ?_]
    · show Meets _ (ApiGateway.Net.replaced bs i (if i = i then _ else _)) ↔ _
      rw [if_pos rfl]
      refine ⟨fun hworks => ?_, fun hresult => h.replaced hresult⟩
      cases hresult : (bs i).appendSelf moved with
      | error fault =>
          rw [hresult] at hworks
          exact hworks
      | ok b =>
          rw [hresult] at hworks
          have hi := hworks.1 i
          simp only [Function.update_self, BufferOp.apply] at hi
          exact hi
    · have hlength := (h i).length_eq
      have hle := hop hmoved
      rw [(h i).readable_size] at hle
      omega
  · refine iff_of_true ?_ fun heq => absurd heq hij
    show Meets _ (ApiGateway.Net.replaced bs i (if i = j then _ else _))
    rw [if_neg hij]
    exact h.replaced ((h i).append_buffer (h j))

/-- Of all calls, only those of `ensure_writable` and those that append a buffer to itself can go
wrong. -/
theorem Represents.works_iff (h : Represents bs qs) {op : BufferOp ι} (hop : op.Possible bs) :
    Works bs qs op ↔ op.InRange bs := by
  cases op with
  | append i data => exact iff_of_true (h.replaced ((h i).append data.size_le)) trivial
  | appendBuffer i j moved => exact h.append_buffer_iff i j hop
  | consume i n => exact iff_of_true (h.replaced ((h i).consume n.toNat)) trivial
  | consumeAll i => exact iff_of_true (h.replaced (h i).consume_all) trivial
  | clear i => exact iff_of_true (h.replaced (h i).clear) trivial
  | ensureWritable i n => exact h.ensure_writable_iff i n
  | swap i j => exact iff_of_true ⟨h.swap i j, trivial⟩ trivial
  | readFromFd i received =>
      have hread := (h i).read_from_fd hop
      exact iff_of_true (h.replaced (hread.bind fun _ hresult => hresult.2)) trivial
  | writeToFd i accepted =>
      have haccepted : accepted.getD 0 ≤ (qs i).length := by
        have hlength := (h i).length_eq
        have hreadable : accepted.getD 0 ≤ (bs i).readableSize := hop
        rw [(h i).readable_size] at hreadable
        omega
      obtain ⟨b, ret, hresult, hb⟩ := (h i).write_to_fd haccepted
      refine iff_of_true (h.replaced ?_) trivial
      rw [hresult]
      exact hb

theorem perform_all_nil : performAll ([] : List (BufferOp ι)) = .ok fun _ => fresh :=
  rfl

theorem perform_all_concat (ops : List (BufferOp ι)) (op : BufferOp ι) :
    performAll (ops ++ [op]) = performAll ops >>= fun bs => op.perform bs := by
  rw [performAll, List.foldlM_append]
  refine bind_congr fun bs => ?_
  rw [List.foldlM_cons]
  exact bind_pure _

theorem queues_concat (ops : List (BufferOp ι)) (op : BufferOp ι) :
    queues (ops ++ [op]) = op.apply (queues ops) :=
  List.foldl_concat ..

/-- If all calls of a sequence work, the buffers represent the queues all along. -/
theorem represents_of_works {ops : List (BufferOp ι)}
    (hworks : ∀ before op bs, before ++ [op] <+: ops → performAll before = .ok bs →
      Represents bs (queues before) → Works bs (queues before) op)
    (before : List (BufferOp ι)) (hbefore : before <+: ops) (hbs : performAll before = .ok bs) :
    Represents bs (queues before) := by
  induction before using List.reverseRecOn generalizing bs with
  | nil =>
      cases hbs
      exact fun _ => holds_fresh
  | append_singleton before op ih =>
      rw [perform_all_concat] at hbs
      obtain ⟨bs', hbs', hresult⟩ := exists_of_bind_eq_ok hbs
      have hrepresents := ih ((List.prefix_append before [op]).trans hbefore) hbs'
      have hwork := hworks before op bs' hbefore hbs' hrepresents
      rw [Works, hresult] at hwork
      rw [queues_concat]
      exact hwork.1

/-- In every sequence of calls on fresh buffers, each call keeps the bounds, copies within them and
leaves the bytes of the queues, and `ensure_writable` makes room, exactly if each call of
`ensure_writable` asks for space that ends within the range of `size_t`, and a buffer is appended to
itself only with room behind its bytes, or after they have been slid down far enough, or if the
vector grows in place. -/
theorem buffers_are_queues_iff (ops : List (BufferOp ι))
    (hpossible : ∀ before op bs, before ++ [op] <+: ops → performAll before = .ok bs →
      op.Possible bs) :
    (∀ before op bs, before ++ [op] <+: ops → performAll before = .ok bs →
      Works bs (queues before) op) ↔
    ∀ before op bs, before ++ [op] <+: ops → performAll before = .ok bs → op.InRange bs := by
  constructor
  · intro hworks before op bs hbefore hbs
    have hrepresents := represents_of_works
      (fun before op bs hbefore hbs _ => hworks before op bs hbefore hbs)
      before ((List.prefix_append before _).trans hbefore) hbs
    exact (hrepresents.works_iff (hpossible before op bs hbefore hbs)).1
      (hworks before op bs hbefore hbs)
  · intro hrange
    have hworks : ∀ before op bs, before ++ [op] <+: ops → performAll before = .ok bs →
        Represents bs (queues before) → Works bs (queues before) op :=
      fun before op bs hbefore hbs hrepresents =>
        (hrepresents.works_iff (hpossible before op bs hbefore hbs)).2
          (hrange before op bs hbefore hbs)
    intro before op bs hbefore hbs
    exact hworks before op bs hbefore hbs
      (represents_of_works hworks before ((List.prefix_append before _).trans hbefore) hbs)

/-- A buffer with some bytes, which are appended to themselves. -/
def doubled : List (BufferOp Unit) :=
  [.append () ⟨ascii "ab", by decide⟩, .appendBuffer () () true]

theorem doubled_cases {before : List (BufferOp Unit)} {op : BufferOp Unit}
    (h : before ++ [op] <+: doubled) :
    before = [] ∧ op = .append () ⟨ascii "ab", by decide⟩ ∨
      before = [.append () ⟨ascii "ab", by decide⟩] ∧ op = .appendBuffer () () true := by
  obtain ⟨rest, hrest⟩ := h
  rcases before with - | ⟨first, - | ⟨second, before⟩⟩
  · exact .inl ⟨rfl, (List.cons.inj hrest).1⟩
  · obtain ⟨hfirst, hsecond⟩ := List.cons.inj hrest
    exact .inr ⟨congrArg (· :: []) hfirst, (List.cons.inj hsecond).1⟩
  · have hlength := congrArg List.length hrest
    simp [doubled] at hlength

theorem buffers_are_queues_doubled : ∃ bs : Unit → Buffer,
    performAll [.append () ⟨ascii "ab", by decide⟩] = .ok bs ∧ (bs ()).Holds (ascii "ab") ∧
      Works bs (fun _ => ascii "ab") (.appendBuffer () () true) := by
  have hsize : fresh.buf.size = 4224 := List.length_replicate
  have hroom : (ascii "ab").length ≤ fresh.writableSize := by
    rw [writableSize, hsize]
    decide
  obtain ⟨b, hb, hholds, hsame, hread⟩ := holds_fresh.append_in_place (by decide) hroom
  have hbs : performAll [.append () ⟨ascii "ab", by decide⟩] =
      .ok (Function.update (fun _ : Unit => fresh) () b) := by
    have hstep := perform_all_concat [] (BufferOp.append () ⟨ascii "ab", by decide⟩)
    rw [List.nil_append, perform_all_nil, ok_bind] at hstep
    rw [hstep]
    show replaced (fun _ : Unit => fresh) () (fresh.append (ascii "ab")) = _
    rw [hb]
    rfl
  have hwrite : b.writeIdx = 130 := by
    rw [← hholds.length_eq, hread]
    rfl
  have hreadable : b.readableSize = 2 := by
    rw [hholds.readable_size, hwrite, hread]
    rfl
  have hwritable : b.writableSize = 4094 := by
    rw [hholds.writable_size, hsame, hsize, hwrite]
  refine ⟨_, hbs, hholds, (buffers_are_queues_iff doubled ?_).2 ?_ _ _ _ (List.prefix_refl _) hbs⟩
  · intro before op bs hbefore hbs'
    obtain ⟨rfl, rfl⟩ | ⟨rfl, rfl⟩ := doubled_cases hbefore
    · trivial
    · cases hbs.symm.trans hbs'
      intro _
      show b.writeIdx + b.readableSize ≤ _
      rw [hwrite, hreadable]
      decide
  · intro before op bs hbefore hbs'
    obtain ⟨rfl, rfl⟩ | ⟨rfl, rfl⟩ := doubled_cases hbefore
    · trivial
    · cases hbs.symm.trans hbs'
      intro _
      refine .inl (show b.readableSize ≤ b.writableSize from ?_)
      rw [hreadable, hwritable]
      decide

/-- In a fresh buffer there is never space for `2 ^ 64 - 1` bytes, and with 1000 bytes in it a
request for `2 ^ 64 - 200` more cuts its end off. -/
theorem ensure_writable_wraps :
    (fresh.ensureWritable (2 ^ 64 - 1) = .ok fresh ∧ fresh.writableSize = 4096) ∧
      ∃ b b', fresh.append (List.replicate 1000 0) = .ok b ∧
        b.ensureWritable (2 ^ 64 - 200) = .ok b' ∧ b'.buf.size = 928 ∧ b'.writeIdx = 1128 := by
  have hsize : fresh.buf.size = 4224 := List.length_replicate
  have hwritable : fresh.writableSize = 4096 := by
    rw [writableSize, hsize]
    decide
  have hlength : (List.replicate 1000 (0 : UInt8)).length = 1000 := List.length_replicate
  refine ⟨⟨?_, hwritable⟩, ?_⟩
  · have hshrink : fresh.shrink = .ok fresh := if_pos rfl
    rw [Buffer.ensureWritable, hwritable, if_neg (by decide)]
    exact (if_pos (by decide)).trans hshrink
  · obtain ⟨b, hb, hholds, hsame, hread⟩ :=
      holds_fresh.append_in_place (hlength.trans_ne (by decide)) (hlength.trans_le (by omega))
    have hwrite : b.writeIdx = 1128 := by
      rw [← hholds.length_eq, hread, List.nil_append, hlength]
      rfl
    have hspace : b.writableSize = 3096 := by
      rw [writableSize, hsame, hsize, hwrite]
      decide
    obtain ⟨buf, hbuf, hshort⟩ := resize_of_le (v := b.buf) (n := 928) (by decide)
    refine ⟨b, { b with buf }, hb, ?_, hshort, hwrite⟩
    rw [Buffer.ensureWritable, hspace, if_neg (by decide)]
    refine (if_neg ?_).trans ?_
    · rw [prependableSize, hread]
      decide
    · rw [hsame, hsize]
      exact congrArg (· >>= _) hbuf

end ApiGateway.Net

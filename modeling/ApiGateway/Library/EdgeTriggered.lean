import Mathlib

/-!
# Edge-triggered events

A kernel that reports the events of a socket as `epoll` does with `EPOLLET`: the entry of the socket
is put on a list when something happens to the socket or when the entry is changed, and a report
takes it off the list although the socket may still be ready. What the kernel does is a parameter,
`Kernel`, and what it promises is `Kernel.Lawful`. How much free space makes a socket writable is
left to the kernel: after `EAGAIN` it owes an event for the time when the socket is writable again.

`InputSeen` and `OutputSeen` say that no readiness is overlooked, with a rule for everything that
can happen to the socket.
-/

namespace ApiGateway

/-- The events that are reported of a socket. -/
structure Events where
  readable : Bool := false
  writable : Bool := false
  deriving DecidableEq

/-- A kernel, seen from one socket and its entry: what has arrived and has not been read, whether
the other side has ended its stream, whether the socket is writable, whether the entry asks for
that, whether an event is owed after `EAGAIN`, and whether the entry is on the list. The relations
are the possible effects of what happens to the socket from outside (with the elements that arrive),
of a report, of calls that read (with what they return, and whether the last one returns `EAGAIN`)
and write (with what they take over), and of a change of the entry. -/
structure Kernel (α : Type) where
  Socket : Type
  unread : Socket → List α
  ended : Socket → Bool
  writable : Socket → Bool
  asksOut : Socket → Bool
  owesOut : Socket → Bool
  listed : Socket → Bool
  Changes : Socket → List α → Socket → Prop
  Waits : Socket → Events → Socket → Prop
  Reads : Socket → List α → Bool → Socket → Prop
  Writes : Socket → List α → Bool → Socket → Prop
  Mods : Socket → Bool → Socket → Prop

namespace Kernel

variable {α : Type} (K : Kernel α)

/-- Whether a call that reads would return something, or the end of the stream. -/
def readable (k : K.Socket) : Bool :=
  !(K.unread k).isEmpty || K.ended k

/-- Nothing is taken from the readiness of a socket: the entry stays on the list, the socket stays
writable, and an event that is owed stays owed or puts the entry on the list. -/
structure Keeps (k k' : K.Socket) : Prop where
  asksOut : K.asksOut k' = K.asksOut k
  listed : K.listed k = true → K.listed k' = true
  writable : K.writable k = true → K.writable k' = true
  owesOut : K.asksOut k = true → K.owesOut k = true →
    K.owesOut k' = true ∨ K.writable k' = true ∧ K.listed k' = true

/-- What the kernel promises. -/
structure Lawful : Prop where
  owes_blocked : ∀ {k : K.Socket}, K.owesOut k = true → K.writable k = false
  changes_unread : ∀ {k k' : K.Socket} {new : List α}, K.Changes k new k' →
    K.unread k' = K.unread k ++ new
  changes_listed : ∀ {k k' : K.Socket} {new : List α}, K.Changes k new k' →
    (new = [] ∧ K.ended k' = K.ended k) ∨ K.listed k' = true
  changes_keeps : ∀ {k k' : K.Socket} {new : List α}, K.Changes k new k' → K.Keeps k k'
  waits_events : ∀ {k k' : K.Socket} {e : Events}, K.Waits k e k' →
    e = ⟨K.readable k, K.asksOut k && K.writable k⟩
  waits_same : ∀ {k k' : K.Socket} {e : Events}, K.Waits k e k' →
    K.unread k' = K.unread k ∧ K.ended k' = K.ended k ∧ K.asksOut k' = K.asksOut k ∧
      K.writable k' = K.writable k ∧ K.owesOut k' = K.owesOut k
  reads_unread : ∀ {k k' : K.Socket} {got : List α} {again : Bool}, K.Reads k got again k' →
    K.unread k = got ++ K.unread k'
  reads_again : ∀ {k k' : K.Socket} {got : List α}, K.Reads k got true k' → K.readable k' = false
  reads_keeps : ∀ {k k' : K.Socket} {got : List α} {again : Bool}, K.Reads k got again k' →
    K.Keeps k k'
  writes_same : ∀ {k k' : K.Socket} {taken : List α} {again : Bool}, K.Writes k taken again k' →
    K.unread k' = K.unread k ∧ K.asksOut k' = K.asksOut k
  writes_again : ∀ {k k' : K.Socket} {taken : List α}, K.Writes k taken true k' →
    K.owesOut k' = true
  mods_same : ∀ {k k' : K.Socket} {out : Bool}, K.Mods k out k' →
    K.unread k' = K.unread k ∧ K.asksOut k' = out
  mods_listed : ∀ {k k' : K.Socket} {out : Bool}, K.Mods k out k' → K.readable k' = true →
    K.listed k' = true

/-- What can be read is on the list, or it has been reported. -/
def InputSeen (k : K.Socket) (e : Events) : Prop :=
  K.readable k = true → K.listed k = true ∨ e.readable = true

/-- That the socket is writable is on the list, or it has been reported, or the kernel owes it. -/
def OutputSeen (k : K.Socket) (e : Events) : Prop :=
  K.asksOut k = true ∧
    (K.owesOut k = true ∨ K.writable k = true ∧ (K.listed k = true ∨ e.writable = true))

variable {K} {k k' : K.Socket} {e e' : Events}

theorem OutputSeen.keeps (h : K.OutputSeen k e) (hkeeps : K.Keeps k k')
    (he : e'.writable = e.writable) : K.OutputSeen k' e' := by
  obtain ⟨hasks, howes | ⟨hwritable, hseen⟩⟩ := h
  · refine ⟨hkeeps.asksOut.trans hasks, (hkeeps.owesOut hasks howes).imp_right fun hnow => ?_⟩
    exact ⟨hnow.1, .inl hnow.2⟩
  · refine ⟨hkeeps.asksOut.trans hasks, .inr ⟨hkeeps.writable hwritable, ?_⟩⟩
    rw [he]
    exact hseen.imp_left hkeeps.listed

namespace Lawful

variable (hK : K.Lawful)

include hK

theorem input_changes {new : List α} (h : K.InputSeen k e) (hchanges : K.Changes k new k') :
    K.InputSeen k' e := by
  intro hreadable
  rcases hK.changes_listed hchanges with ⟨rfl, hended⟩ | hlisted
  · have hunread := hK.changes_unread hchanges
    rw [readable, hunread, List.append_nil, hended] at hreadable
    exact (h hreadable).imp_left (hK.changes_keeps hchanges).listed
  · exact .inl hlisted

/-- A report takes over what was on the list. -/
theorem input_waits (hwaits : K.Waits k e k') : K.InputSeen k' e := by
  intro hreadable
  obtain ⟨hunread, hended, -⟩ := hK.waits_same hwaits
  rw [readable, hunread, hended] at hreadable
  rw [hK.waits_events hwaits]
  exact .inr hreadable

theorem output_waits (h : K.OutputSeen k {}) (hwaits : K.Waits k e k') : K.OutputSeen k' e := by
  obtain ⟨-, -, hasks', hwritable', howes'⟩ := hK.waits_same hwaits
  obtain ⟨hasks, howes | ⟨hwritable, -⟩⟩ := h
  · exact ⟨hasks'.trans hasks, .inl (howes'.trans howes)⟩
  · refine ⟨hasks'.trans hasks, .inr ⟨hwritable'.trans hwritable, .inr ?_⟩⟩
    rw [hK.waits_events hwaits, hasks, hwritable]
    rfl

/-- Nothing is left to be read after `EAGAIN`. -/
theorem input_reads {got : List α} (hreads : K.Reads k got true k') : K.InputSeen k' e := by
  intro hreadable
  rw [hK.reads_again hreads] at hreadable
  cases hreadable

theorem output_writes {taken : List α} (hasks : K.asksOut k = true)
    (hwrites : K.Writes k taken true k') : K.OutputSeen k' e :=
  ⟨(hK.writes_same hwrites).2.trans hasks, .inl (hK.writes_again hwrites)⟩

theorem input_mods {out : Bool} (hmods : K.Mods k out k') : K.InputSeen k' e :=
  fun hreadable => .inl (hK.mods_listed hmods hreadable)

end Lawful

/-- With nothing on the list and nothing reported, there is nothing to be read. -/
theorem InputSeen.not_readable (h : K.InputSeen k {}) (hlisted : K.listed k = false) :
    K.unread k = [] ∧ K.ended k = false := by
  have hnone : K.readable k ≠ true := fun hreadable => by
    rcases h hreadable with h | h
    · rw [hlisted] at h
      cases h
    · cases h
  simpa [readable] using hnone

/-- And the kernel owes an event before the socket can be written. -/
theorem OutputSeen.owes (h : K.OutputSeen k {}) (hlisted : K.listed k = false) :
    K.owesOut k = true := by
  obtain ⟨-, howes | ⟨-, h | h⟩⟩ := h
  · exact howes
  · rw [hlisted] at h
    cases h
  · cases h

end Kernel

end ApiGateway

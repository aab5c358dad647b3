import ApiGateway.Library.Loop

/-!
# Accepting connections

`TCPServer::on_accept` with the callback that `Gateway::run` sets for new connections, over the
queue of the listening socket and the descriptor table of the process. While the table is full
`accept` fails with `EMFILE` and the loop tries again at once, so it is left only if the table is
not full when the queue has been worked off: `on_accept_returns_iff`.
-/

namespace ApiGateway.Net

open Loop

/-- What `on_accept` works on: the pending connections, each with whether `set_nonblocking`
succeeds on its socket; the descriptors in use and their limit; `connection_count_` and
`max_connections_`. -/
structure Acceptor where
  pending : List Bool
  descriptors : Nat
  limit : Nat
  connectionCount : Int
  maxConnections : Int

/-- What `accept` returns: a descriptor, or -1 and the value of `errno`. -/
inductive AcceptResult where
  | fd (nonblocking : Bool)
  | eagain
  | emfile
  deriving DecidableEq

namespace Acceptor

/-- `accept`. A descriptor is reserved before the queue is looked at. -/
def accept (a : Acceptor) : AcceptResult × Acceptor :=
  if a.limit ≤ a.descriptors then (.emfile, a)
  else
    match a.pending with
    | [] => (.eagain, a)
    | nonblocking :: rest =>
        (.fd nonblocking, { a with pending := rest, descriptors := a.descriptors + 1 })

/-- `close`, of a descriptor that has just been returned. -/
def close (a : Acceptor) : Acceptor :=
  { a with descriptors := a.descriptors - 1 }

/-- Whether the connection limit has been reached. -/
def atLimit (a : Acceptor) : Prop :=
  0 < a.maxConnections ∧ a.maxConnections ≤ a.connectionCount

instance (a : Acceptor) : Decidable a.atLimit :=
  inferInstanceAs (Decidable (_ ∧ _))

/-- The callback for a new connection, which closes it at the connection limit. -/
def newConnection (a : Acceptor) : Acceptor :=
  if a.atLimit then a.close else { a with connectionCount := a.connectionCount + 1 }

/-- One pass of the loop of `on_accept`. -/
def onAcceptIter (a : Acceptor) : Iter Acceptor Acceptor :=
  match a.accept with
  | (.eagain, a) => .done a
  | (.emfile, a) => .next a
  | (.fd true, a) => .next a.newConnection
  | (.fd false, a) => .next a.close

/-- The number of pending connections that will be kept: all whose sockets can be used, up to the
connection limit. -/
def kept (a : Acceptor) : Nat :=
  if 0 < a.maxConnections then
    min (a.pending.count true) (a.maxConnections - a.connectionCount).toNat
  else a.pending.count true

variable {a : Acceptor} {nonblocking : Bool} {rest : List Bool}

theorem kept_of_limited (h : 0 < a.maxConnections) :
    a.kept = min (a.pending.count true) (a.maxConnections - a.connectionCount).toNat :=
  if_pos h

theorem kept_of_unlimited (h : ¬ 0 < a.maxConnections) : a.kept = a.pending.count true :=
  if_neg h

/-- With a full table the loop makes no progress. -/
theorem on_accept_iter_full (h : a.limit ≤ a.descriptors) : onAcceptIter a = .next a := by
  simp only [onAcceptIter, accept, if_pos h]

/-- With a full table the loop is never left. -/
theorem not_returns_of_full (h : a.limit ≤ a.descriptors) : ¬ ∃ r, Returns onAcceptIter a r := by
  refine not_returns_of_closed (fun b => b.limit ≤ b.descriptors) ?_ h
  intro b hfull
  exact ⟨b, on_accept_iter_full hfull, hfull⟩

theorem on_accept_iter_empty (h : a.descriptors < a.limit) (hpending : a.pending = []) :
    onAcceptIter a = .done a := by
  simp only [onAcceptIter, accept, if_neg (Nat.not_le.2 h), hpending]

/-- The new connection takes a descriptor if it is kept, and is one fewer to be kept then. -/
theorem on_accept_iter_pending (h : a.descriptors < a.limit)
    (hpending : a.pending = nonblocking :: rest) :
    ∃ b, onAcceptIter a = .next b ∧ b.pending = rest ∧ b.limit = a.limit ∧
      b.descriptors + b.kept = a.descriptors + a.kept := by
  simp only [onAcceptIter, accept, if_neg (Nat.not_le.2 h), hpending]
  cases nonblocking with
  | false =>
      refine ⟨_, rfl, rfl, rfl, ?_⟩
      simp [close, kept, hpending]
  | true =>
      have hcount : a.pending.count true = rest.count true + 1 := by
        rw [hpending, List.count_cons_self]
      let opened : Acceptor := { a with pending := rest, descriptors := a.descriptors + 1 }
      by_cases hfull : opened.atLimit
      · have hnew : opened.newConnection = opened.close := if_pos hfull
        refine ⟨opened.close, congrArg Iter.next hnew, rfl, rfl, ?_⟩
        obtain ⟨hpos, hlimit⟩ : 0 < a.maxConnections ∧ a.maxConnections ≤ a.connectionCount := hfull
        show a.descriptors + 1 - 1 + _ = _
        rw [kept_of_limited hpos, kept_of_limited (a := opened.close) hpos]
        show _ + min (rest.count true) (a.maxConnections - a.connectionCount).toNat = _
        omega
      · have hnew : opened.newConnection =
            { opened with connectionCount := a.connectionCount + 1 } := if_neg hfull
        refine ⟨_, congrArg Iter.next hnew, rfl, rfl, ?_⟩
        show a.descriptors + 1 + _ = _
        by_cases hpos : 0 < a.maxConnections
        · have hroom : a.connectionCount < a.maxConnections :=
            not_le.1 fun hlimit => hfull ⟨hpos, hlimit⟩
          rw [kept_of_limited hpos,
            kept_of_limited (a := { opened with connectionCount := a.connectionCount + 1 }) hpos]
          show _ + min (rest.count true) (a.maxConnections - (a.connectionCount + 1)).toNat = _
          omega
        · rw [kept_of_unlimited hpos,
            kept_of_unlimited (a := { opened with connectionCount := a.connectionCount + 1 }) hpos]
          show _ + rest.count true = _
          omega

/-- `on_accept` returns exactly if the table has room for the connections that are kept and one
descriptor more, for the call of `accept` that finds the queue empty. -/
theorem on_accept_returns_iff (a : Acceptor) :
    (∃ r, Returns onAcceptIter a r) ↔ a.descriptors + a.kept < a.limit := by
  induction hlength : a.pending.length generalizing a with
  | zero =>
      have hpending := List.length_eq_zero_iff.1 hlength
      have hkept : a.kept = 0 := by simp [kept, hpending]
      rw [hkept, Nat.add_zero]
      by_cases hfull : a.limit ≤ a.descriptors
      · exact iff_of_false (not_returns_of_full hfull) (Nat.not_lt.2 hfull)
      · have hroom := Nat.not_le.1 hfull
        exact iff_of_true ⟨a, .of_done (on_accept_iter_empty hroom hpending)⟩ hroom
  | succ n ih =>
      obtain ⟨nonblocking, rest, hpending⟩ := List.exists_cons_of_length_eq_add_one hlength
      by_cases hfull : a.limit ≤ a.descriptors
      · exact iff_of_false (not_returns_of_full hfull) (by omega)
      · obtain ⟨b, hnext, hrest, hlimit, hsum⟩ :=
          on_accept_iter_pending (Nat.not_le.1 hfull) hpending
        rw [← hsum, ← hlimit, ← ih b (by rw [hpending] at hlength; rw [hrest]; simpa using hlength)]
        exact exists_congr fun r => returns_next_iff hnext

/-- Two connections are pending, and the table has room for one of them. -/
def crowded : Acceptor where
  pending := [true, true]
  descriptors := 1023
  limit := 1024
  connectionCount := 1000
  maxConnections := 10000

/-- After the first connection `accept` fails with `EMFILE` for ever. -/
theorem on_accept_spins : ¬ ∃ r, Returns onAcceptIter crowded r := by
  have hfirst : onAcceptIter crowded = .next
      { crowded with pending := [true], descriptors := 1024, connectionCount := 1001 } := rfl
  rintro ⟨r, hr⟩
  exact not_returns_of_full (by decide) ⟨r, (returns_next_iff hfirst).1 hr⟩

end Acceptor

end ApiGateway.Net

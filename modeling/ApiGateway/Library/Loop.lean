import Mathlib

/-!
# Loops as iterated bodies

A `while` loop is given by its body: one pass either goes round again from a new state or
leaves the loop with a result. `run` executes a bounded number of passes, so a loop that
never leaves is a loop on which `run` answers `none` for every bound.

Four rules carry the proofs about programs. `Returns.invariant` transports an invariant to the
result, `Returns.relates` relates the result to the start, `run_of_measure` proves that a loop with
a decreasing measure leaves, and `not_returns_of_closed` proves that a loop trapped in a set of
states never does. A loop with a measure on all states is a total function, `total`.
-/

namespace ApiGateway.Loop

universe u v

variable {σ : Type u} {ρ : Type v}

/-- The outcome of one pass through a loop body: go round again from `state`, or leave the
loop with `result`. -/
inductive Iter (σ : Type u) (ρ : Type v) where
  | next (state : σ)
  | done (result : ρ)

/-- Execute at most `fuel` passes. The answer `none` means that the loop is still running. -/
def run (body : σ → Iter σ ρ) : Nat → σ → Option ρ
  | 0, _ => none
  | fuel + 1, state =>
      match body state with
      | .next following => run body fuel following
      | .done result => some result

/-- The loop leaves with `result` after finitely many passes. -/
def Returns (body : σ → Iter σ ρ) (state : σ) (result : ρ) : Prop :=
  ∃ fuel, run body fuel state = some result

variable {body : σ → Iter σ ρ} {state following : σ} {result other : ρ}

theorem run_succ_next (h : body state = .next following) (fuel : Nat) :
    run body (fuel + 1) state = run body fuel following := by
  simp [run, h]

theorem run_succ_done (h : body state = .done result) (fuel : Nat) :
    run body (fuel + 1) state = some result := by
  simp [run, h]

/-- A pass that leaves the loop fixes its result. -/
theorem Returns.of_done (h : body state = .done result) : Returns body state result :=
  ⟨1, run_succ_done h 0⟩

/-- A pass that goes round again has the results of the state it leads to. -/
theorem returns_next_iff (h : body state = .next following) :
    Returns body state result ↔ Returns body following result := by
  refine ⟨fun ⟨fuel, hrun⟩ => ?_, fun ⟨fuel, hrun⟩ => ⟨fuel + 1, ?_⟩⟩
  · cases fuel with
    | zero => simp [run] at hrun
    | succ fuel => exact ⟨fuel, by rwa [run_succ_next h] at hrun⟩
  · rwa [run_succ_next h]

/-- Extra fuel does not change the result. -/
theorem run_mono {fuel more : Nat} (hle : fuel ≤ more) (h : run body fuel state = some result) :
    run body more state = some result := by
  induction fuel generalizing state more with
  | zero => simp [run] at h
  | succ fuel ih =>
      obtain ⟨more, rfl⟩ : ∃ n, more = n + 1 := ⟨more - 1, by omega⟩
      cases hbody : body state with
      | next following =>
          rw [run_succ_next hbody] at h ⊢
          exact ih (by omega) h
      | done answer =>
          rw [run_succ_done hbody] at h ⊢
          exact h

/-- A loop has at most one result. -/
theorem Returns.unique (h : Returns body state result) (hother : Returns body state other) :
    result = other := by
  obtain ⟨fuel, hrun⟩ := h
  obtain ⟨more, hmore⟩ := hother
  have hmax := run_mono (Nat.le_max_left fuel more) hrun
  exact Option.some.inj (hmax.symm.trans (run_mono (Nat.le_max_right fuel more) hmore))

/-- The invariant rule: an invariant kept by every pass that goes round again, and turned into
`post` by every pass that leaves, gives `post` of the result. -/
theorem Returns.invariant (inv : σ → Prop) (post : ρ → Prop)
    (hnext : ∀ s t, inv s → body s = .next t → inv t)
    (hdone : ∀ s r, inv s → body s = .done r → post r)
    (hstart : inv state) (h : Returns body state result) : post result := by
  obtain ⟨fuel, hrun⟩ := h
  induction fuel generalizing state with
  | zero => simp [run] at hrun
  | succ fuel ih =>
      cases hbody : body state with
      | next following =>
          rw [run_succ_next hbody] at hrun
          exact ih (hnext _ _ hstart hbody) hrun
      | done answer =>
          rw [run_succ_done hbody] at hrun
          exact Option.some.inj hrun ▸ hdone _ _ hstart hbody

/-- Rule induction for `Returns`: a relation between start and result that holds when a pass
leaves, and is inherited from the next pass, holds of the loop. -/
theorem Returns.relates (rel : σ → ρ → Prop)
    (hnext : ∀ s t r, body s = .next t → rel t r → rel s r)
    (hdone : ∀ s r, body s = .done r → rel s r)
    (h : Returns body state result) : rel state result := by
  obtain ⟨fuel, hrun⟩ := h
  induction fuel generalizing state with
  | zero => simp [run] at hrun
  | succ fuel ih =>
      cases hbody : body state with
      | next following =>
          rw [run_succ_next hbody] at hrun
          exact hnext _ _ _ hbody (ih hrun)
      | done answer =>
          rw [run_succ_done hbody] at hrun
          exact hdone _ _ (Option.some.inj hrun ▸ hbody)

/-- A loop whose passes decrease a measure on the states of an invariant leaves, and the value
of the measure bounds the number of passes. -/
theorem run_of_measure (inv : σ → Prop) (measure : σ → Nat)
    (hnext : ∀ s t, inv s → body s = .next t → inv t ∧ measure t < measure s)
    (hstart : inv state) {fuel : Nat} (hfuel : measure state < fuel) :
    ∃ result, run body fuel state = some result := by
  induction fuel generalizing state with
  | zero => omega
  | succ fuel ih =>
      cases hbody : body state with
      | next following =>
          obtain ⟨hinv, hlt⟩ := hnext _ _ hstart hbody
          rw [run_succ_next hbody]
          exact ih hinv (by omega)
      | done answer => exact ⟨answer, run_succ_done hbody fuel⟩

/-- A loop whose passes decrease a measure or repeat their state leaves within the bound of the
measure, if it leaves at all. -/
theorem Returns.run_eq (measure : σ → Nat)
    (hnext : ∀ s t, body s = .next t → measure t < measure s ∨ t = s)
    (h : Returns body state result) : run body (measure state + 1) state = some result := by
  refine h.relates (fun s r => run body (measure s + 1) s = some r) (fun s t r hbody ih => ?_)
    fun s r hbody => run_succ_done hbody _
  rcases hnext s t hbody with hlt | rfl
  · rw [run_succ_next hbody]
    exact run_mono hlt ih
  · exact ih

/-- A loop that enters a set of states from which every pass goes round again inside the set
never leaves. -/
theorem not_returns_of_closed (trap : σ → Prop)
    (hclosed : ∀ s, trap s → ∃ t, body s = .next t ∧ trap t) (hstart : trap state) :
    ¬ ∃ result, Returns body state result := by
  intro ⟨result, fuel, hrun⟩
  induction fuel generalizing state with
  | zero => simp [run] at hrun
  | succ fuel ih =>
      obtain ⟨following, hbody, htrap⟩ := hclosed state hstart
      rw [run_succ_next hbody] at hrun
      exact ih htrap hrun

/-- The states at the start of the passes that a loop makes. -/
def Visits (body : σ → Iter σ ρ) : σ → σ → Prop :=
  Relation.ReflTransGen fun s t => body s = .next t

/-- A loop has the results of every state it visits. -/
theorem Visits.returns_iff (h : Visits body state following) :
    Returns body state result ↔ Returns body following result := by
  induction h with
  | refl => exact Iff.rfl
  | tail _ hlast ih => exact ih.trans (returns_next_iff hlast)

section Total

variable (body) (measure : σ → Nat)

/-- Every pass that goes round again decreases the measure. -/
def Decreasing : Prop :=
  ∀ s t, body s = .next t → measure t < measure s

variable {body measure}

theorem Decreasing.run_isSome (h : Decreasing body measure) (state : σ) :
    (run body (measure state + 1) state).isSome := by
  obtain ⟨result, hrun⟩ := run_of_measure (fun _ => True) measure
    (fun s t _ hbody => ⟨trivial, h s t hbody⟩) trivial (Nat.lt_succ_self (measure state))
  simp [hrun]

/-- The result of a loop that has a decreasing measure. -/
def total (h : Decreasing body measure) (state : σ) : ρ :=
  (run body (measure state + 1) state).get (h.run_isSome state)

theorem returns_total (h : Decreasing body measure) (state : σ) :
    Returns body state (total h state) :=
  ⟨_, (Option.some_get (h.run_isSome state)).symm⟩

theorem returns_iff_total (h : Decreasing body measure) :
    Returns body state result ↔ total h state = result :=
  ⟨fun hreturns => (returns_total h state).unique hreturns,
    fun heq => heq ▸ returns_total h state⟩

/-- One unfolding of a total loop whose next pass goes round again. -/
theorem total_next (h : Decreasing body measure) (hbody : body state = .next following) :
    total h state = total h following :=
  (returns_iff_total h).1 ((returns_next_iff hbody).2 (returns_total h following))

/-- One unfolding of a total loop whose next pass leaves. -/
theorem total_done (h : Decreasing body measure) (hbody : body state = .done result) :
    total h state = result :=
  (returns_iff_total h).1 (.of_done hbody)

end Total

end ApiGateway.Loop

import Mathlib

/-!
# Machines that read a stream

A stream machine consumes its input in elementary steps and receives more input at any time. It
is required that a step which is possible now is still possible, with the same effect, after
more input has arrived (`step_feed`). `Settles` relates a state to the state in which the
machine has to wait. The main result, `settles_feed_iff`, says that it does not matter whether
the machine settles before or after further input arrives, so the state in which the machine
finally waits does not depend on how its input was cut into pieces.
-/

namespace ApiGateway

universe u v

/-- A deterministic machine whose steps are not disturbed by further input. -/
structure StreamMachine (σ : Type u) (α : Type v) where
  step : σ → Option σ
  feed : σ → List α → σ
  step_feed : ∀ {s t : σ} (input : List α), step s = some t →
    step (feed s input) = some (feed t input)

namespace StreamMachine

variable {σ : Type u} {α : Type v} (M : StreamMachine σ α)

/-- Finitely many steps. -/
def Steps : σ → σ → Prop :=
  Relation.ReflTransGen fun s t => M.step s = some t

/-- The machine takes steps from `s` until it has to wait in `t`. -/
def Settles (s t : σ) : Prop :=
  M.Steps s t ∧ M.step t = none

variable {M} {s t u : σ}

theorem Steps.refl (s : σ) : M.Steps s s := Relation.ReflTransGen.refl

theorem Steps.single (h : M.step s = some t) : M.Steps s t := Relation.ReflTransGen.single h

theorem Steps.trans (h : M.Steps s t) (hrest : M.Steps t u) : M.Steps s u :=
  Relation.ReflTransGen.trans h hrest

/-- An invariant of single steps is an invariant of finitely many steps. -/
theorem Steps.invariant (inv : σ → Prop) (hstep : ∀ s t, inv s → M.step s = some t → inv t)
    (h : M.Steps s t) (hs : inv s) : inv t := by
  induction h with
  | refl => exact hs
  | tail _ hlast ih => exact hstep _ _ ih hlast

/-- Further input does not disturb finitely many steps. -/
theorem Steps.feed (h : M.Steps s t) (input : List α) :
    M.Steps (M.feed s input) (M.feed t input) := by
  induction h with
  | refl => exact .refl _
  | tail _ hlast ih => exact ih.trans (.single (M.step_feed input hlast))

/-- The machine is deterministic, so the state it settles in is not affected by steps already
taken. -/
theorem Steps.settles_iff (h : M.Steps s t) : M.Settles s u ↔ M.Settles t u := by
  induction h using Relation.ReflTransGen.head_induction_on with
  | refl => exact Iff.rfl
  | head hfirst _ ih =>
      rw [← ih]
      refine ⟨fun ⟨hsteps, hlast⟩ => ?_, fun ⟨hsteps, hlast⟩ => ⟨hsteps.head hfirst, hlast⟩⟩
      rcases hsteps.cases_head with rfl | ⟨v, hv, hrest⟩
      · rw [hlast] at hfirst
        cases hfirst
      · obtain rfl : _ = v := Option.some.inj (hfirst.symm.trans hv)
        exact ⟨hrest, hlast⟩

theorem Settles.unique (h : M.Settles s t) (hother : M.Settles s u) : t = u := by
  obtain ⟨hsteps, hlast⟩ := h
  obtain ⟨hrest, -⟩ := hsteps.settles_iff.1 hother
  rcases hrest.cases_head with rfl | ⟨v, hv, -⟩
  · rfl
  · rw [hlast] at hv
    cases hv

/-- Settling before more input arrives does not change the state the machine settles in. -/
theorem settles_feed_iff (h : M.Settles s t) (input : List α) :
    M.Settles (M.feed s input) u ↔ M.Settles (M.feed t input) u :=
  (h.1.feed input).settles_iff

/-- A machine whose steps decrease a measure settles. -/
theorem exists_settles (measure : σ → Nat)
    (hdec : ∀ s t, M.step s = some t → measure t < measure s) (s : σ) : ∃ t, M.Settles s t := by
  induction hn : measure s using Nat.strong_induction_on generalizing s with
  | _ n ih =>
      cases hstep : M.step s with
      | none => exact ⟨s, .refl s, hstep⟩
      | some t =>
          obtain ⟨u, hu⟩ := ih (measure t) (hn ▸ hdec s t hstep) t rfl
          exact ⟨u, (Steps.single hstep).settles_iff.2 hu⟩

end StreamMachine

end ApiGateway

import ApiGateway.Library.Loop

/-!
# Computations that may not return

A `Fueled` computation answers within a bound on the passes of its loops, or not at all; more fuel
never changes an answer, so a computation has at most one result (`Returns.unique`). Computations
form a monad with loops whose bodies are computations again, so nested loops are written as they
are in a program. `returns_pure_iff`, `returns_bind_iff`, `Returns.loop_done` and
`Returns.loop_next` say what each construct returns. Two computations that return the same are
`Same`; `same_loop_bind` unrolls a loop once, with what comes after it. A computation can be
executed by giving it fuel.
-/

namespace ApiGateway

open Loop

universe u

/-- A computation whose answer, once it is there, does not change with more fuel. -/
structure Fueled (α : Type u) where
  run : Nat → Option α
  mono : ∀ {fuel more : Nat} {a : α}, fuel ≤ more → run fuel = some a → run more = some a

namespace Fueled

variable {α β σ ρ : Type u}

/-- The computation returns `a`. -/
def Returns (c : Fueled α) (a : α) : Prop :=
  ∃ fuel, c.run fuel = some a

theorem Returns.unique {c : Fueled α} {a b : α} (h : c.Returns a) (h' : c.Returns b) : a = b := by
  obtain ⟨fuel, hfuel⟩ := h
  obtain ⟨more, hmore⟩ := h'
  have hmax := c.mono (Nat.le_max_left fuel more) hfuel
  exact Option.some.inj (hmax.symm.trans (c.mono (Nat.le_max_right fuel more) hmore))

/-- The computation that returns at once. -/
def ret (a : α) : Fueled α where
  run _ := some a
  mono _ h := h

/-- One computation after the other, each with the whole fuel. -/
def andThen (c : Fueled α) (f : α → Fueled β) : Fueled β where
  run fuel := (c.run fuel).bind fun a => (f a).run fuel
  mono hle h := by
    obtain ⟨a, ha, hb⟩ := Option.bind_eq_some_iff.1 h
    exact Option.bind_eq_some_iff.2 ⟨a, c.mono hle ha, (f a).mono hle hb⟩

instance : Monad Fueled where
  pure := ret
  bind := andThen

/-- At most `passes` passes through a loop, each with the same fuel. -/
def loopRun (body : σ → Fueled (Iter σ ρ)) (fuel : Nat) : Nat → σ → Option ρ
  | 0, _ => none
  | passes + 1, s =>
      ((body s).run fuel).bind fun
        | .next t => loopRun body fuel passes t
        | .done r => some r

theorem loop_run_mono {body : σ → Fueled (Iter σ ρ)} {fuel more passes passes' : Nat} {s : σ}
    {r : ρ} (hfuel : fuel ≤ more) (hpasses : passes ≤ passes')
    (h : loopRun body fuel passes s = some r) : loopRun body more passes' s = some r := by
  induction passes generalizing s passes' with
  | zero => cases h
  | succ passes ih =>
      obtain ⟨passes', rfl⟩ : ∃ n, passes' = n + 1 := ⟨passes' - 1, by omega⟩
      obtain ⟨i, hi, hrest⟩ := Option.bind_eq_some_iff.1 h
      refine Option.bind_eq_some_iff.2 ⟨i, (body s).mono hfuel hi, ?_⟩
      cases i with
      | next t => exact ih (by omega) hrest
      | done r => exact hrest

/-- A loop whose body is a computation. -/
def loop (body : σ → Fueled (Iter σ ρ)) (s : σ) : Fueled ρ where
  run fuel := loopRun body fuel fuel s
  mono hle h := loop_run_mono hle hle h

@[simp] theorem returns_pure_iff {a b : α} : (pure a : Fueled α).Returns b ↔ a = b :=
  ⟨fun ⟨_, h⟩ => Option.some.inj h, fun h => ⟨0, congrArg some h⟩⟩

theorem returns_bind_iff {c : Fueled α} {f : α → Fueled β} {b : β} :
    (c >>= f).Returns b ↔ ∃ a, c.Returns a ∧ (f a).Returns b := by
  constructor
  · rintro ⟨fuel, h⟩
    obtain ⟨a, ha, hb⟩ := Option.bind_eq_some_iff.1 h
    exact ⟨a, ⟨fuel, ha⟩, fuel, hb⟩
  · rintro ⟨a, ⟨fuel, ha⟩, more, hb⟩
    exact ⟨max fuel more, Option.bind_eq_some_iff.2 ⟨a, c.mono (Nat.le_max_left _ _) ha,
      (f a).mono (Nat.le_max_right _ _) hb⟩⟩

theorem Returns.bind {c : Fueled α} {f : α → Fueled β} {a : α} {b : β} (h : c.Returns a)
    (h' : (f a).Returns b) : (c >>= f).Returns b :=
  returns_bind_iff.2 ⟨a, h, h'⟩

/-- A pass that leaves the loop. -/
theorem Returns.loop_done {body : σ → Fueled (Iter σ ρ)} {s : σ} {r : ρ}
    (h : (body s).Returns (.done r)) : (loop body s).Returns r := by
  obtain ⟨fuel, hfuel⟩ := h
  exact ⟨fuel + 1, Option.bind_eq_some_iff.2 ⟨_, (body s).mono (Nat.le_succ fuel) hfuel, rfl⟩⟩

/-- A pass that goes round again. -/
theorem Returns.loop_next {body : σ → Fueled (Iter σ ρ)} {s t : σ} {r : ρ}
    (h : (body s).Returns (.next t)) (h' : (loop body t).Returns r) : (loop body s).Returns r := by
  obtain ⟨fuel, hfuel⟩ := h
  obtain ⟨more, hmore⟩ := h'
  refine ⟨max fuel more + 1, Option.bind_eq_some_iff.2
    ⟨_, (body s).mono (Nat.le_succ_of_le (Nat.le_max_left fuel more)) hfuel, ?_⟩⟩
  exact loop_run_mono (Nat.le_succ_of_le (Nat.le_max_right fuel more)) (Nat.le_max_right fuel more)
    hmore

/-- A loop whose body always answers is an ordinary loop. -/
theorem loop_run_pure (body : σ → Iter σ ρ) (fuel passes : Nat) (s : σ) :
    loopRun (fun s => pure (body s)) fuel passes s = Loop.run body passes s := by
  induction passes generalizing s with
  | zero => rfl
  | succ passes ih =>
      cases hbody : body s with
      | next t => rw [run_succ_next hbody, ← ih]; simp only [loopRun, hbody]; rfl
      | done r => rw [run_succ_done hbody]; simp only [loopRun, hbody]; rfl

theorem returns_loop_pure_iff {body : σ → Iter σ ρ} {s : σ} {r : ρ} :
    (loop (fun s => pure (body s)) s).Returns r ↔ Loop.Returns body s r :=
  exists_congr fun fuel => Eq.congr_left (loop_run_pure body fuel fuel s)

/-! ## Equal results -/

theorem ext {c d : Fueled α} (h : ∀ fuel, c.run fuel = d.run fuel) : c = d := by
  cases c
  cases d
  simp only [mk.injEq]
  exact funext h

instance : LawfulMonad Fueled :=
  LawfulMonad.mk' _
    (fun c => ext fun fuel => Option.bind_fun_some (c.run fuel))
    (fun _ _ => rfl)
    (fun c f g => ext fun fuel => Option.bind_assoc (c.run fuel) _ _)

/-- Two computations return the same, or both return nothing. -/
def Same (c d : Fueled α) : Prop :=
  ∀ a, c.Returns a ↔ d.Returns a

namespace Same

variable {c d e : Fueled α}

@[refl] theorem refl (c : Fueled α) : Same c c :=
  fun _ => Iff.rfl

theorem symm (h : Same c d) : Same d c :=
  fun a => (h a).symm

theorem trans (h : Same c d) (h' : Same d e) : Same c e :=
  fun a => (h a).trans (h' a)

theorem of_eq (h : c = d) : Same c d :=
  h ▸ refl c

theorem exists_returns_iff (h : Same c d) : (∃ a, c.Returns a) ↔ ∃ a, d.Returns a :=
  exists_congr h

theorem bind (c : Fueled α) {f g : α → Fueled β} (h : ∀ a, Same (f a) (g a)) :
    Same (c >>= f) (c >>= g) := by
  intro b
  rw [returns_bind_iff, returns_bind_iff]
  exact exists_congr fun a => and_congr_right fun _ => h a b

end Same

/-- What follows a computation that returns. -/
theorem Returns.same_bind {c : Fueled α} {a : α} (h : c.Returns a) (f : α → Fueled β) :
    Same (c >>= f) (f a) := by
  intro b
  rw [returns_bind_iff]
  exact ⟨fun ⟨a', ha', hb⟩ => h.unique ha' ▸ hb, fun hb => ⟨a, h, hb⟩⟩

theorem not_returns_bind {c : Fueled α} (h : ¬ ∃ a, c.Returns a) (f : α → Fueled β) :
    ¬ ∃ b, (c >>= f).Returns b := by
  rintro ⟨b, hb⟩
  obtain ⟨a, ha, -⟩ := returns_bind_iff.1 hb
  exact h ⟨a, ha⟩

theorem returns_loop_iff {body : σ → Fueled (Iter σ ρ)} {s : σ} {r : ρ} :
    (loop body s).Returns r ↔
      (body s).Returns (.done r) ∨ ∃ t, (body s).Returns (.next t) ∧ (loop body t).Returns r := by
  constructor
  · rintro ⟨fuel, h⟩
    cases fuel with
    | zero => cases h
    | succ fuel =>
        obtain ⟨i, hi, hrest⟩ := Option.bind_eq_some_iff.1 h
        cases i with
        | done r' => cases hrest; exact .inl ⟨fuel + 1, hi⟩
        | next t => exact .inr ⟨t, ⟨_, hi⟩, fuel + 1, loop_run_mono le_rfl (Nat.le_succ fuel) hrest⟩
  · rintro (h | ⟨t, h, h'⟩)
    · exact .loop_done h
    · exact .loop_next h h'

/-- A loop that enters a set of states from which every pass goes round again inside the set
never leaves. -/
theorem not_returns_loop_of_closed {body : σ → Fueled (Iter σ ρ)} (trap : σ → Prop)
    (hclosed : ∀ s, trap s → ∃ t, (body s).Returns (.next t) ∧ trap t) {s : σ} (hstart : trap s) :
    ¬ ∃ r, (loop body s).Returns r := by
  rintro ⟨r, fuel, h⟩
  have hpasses : ∀ passes s, trap s → loopRun body fuel passes s ≠ some r := by
    intro passes
    induction passes with
    | zero => exact fun s _ h => by cases h
    | succ passes ih =>
        intro s hs h
        obtain ⟨i, hi, hrest⟩ := Option.bind_eq_some_iff.1 h
        obtain ⟨t, hbody, ht⟩ := hclosed s hs
        cases Returns.unique ⟨fuel, hi⟩ hbody
        exact ih t ht hrest
  exact hpasses fuel s hstart h

/-- A loop and what follows it, after one pass. -/
theorem same_loop_bind (body : σ → Fueled (Iter σ ρ)) (s : σ) (f : ρ → Fueled α) :
    Same (loop body s >>= f) (body s >>= fun
      | .next t => loop body t >>= f
      | .done r => f r) := by
  intro a
  simp only [returns_bind_iff, returns_loop_iff (s := s)]
  constructor
  · rintro ⟨r, h | ⟨t, h, h'⟩, hr⟩
    · exact ⟨.done r, h, hr⟩
    · exact ⟨.next t, h, returns_bind_iff.2 ⟨r, h', hr⟩⟩
  · rintro ⟨i, h, hi⟩
    cases i with
    | done r => exact ⟨r, .inl h, hi⟩
    | next t =>
        obtain ⟨r, h', hr⟩ := returns_bind_iff.1 hi
        exact ⟨r, .inr ⟨t, h, h'⟩, hr⟩

/-- A loop after one pass. -/
theorem same_loop (body : σ → Fueled (Iter σ ρ)) (s : σ) :
    Same (loop body s) (body s >>= fun
      | .next t => loop body t
      | .done r => pure r) := by
  have h := same_loop_bind body s pure
  simpa only [bind_pure] using h

end Fueled

end ApiGateway

import ApiGateway.Library.Table

/-!
# Token buckets

A bucket that is filled at a constant rate up to a capacity, and from which every admitted request
takes one token. `admitted_window` bounds the number of requests that are admitted in a window of
time. The potential is the number of tokens: what has been admitted in a window and what is still in
the bucket has been there at the beginning of the window or has been filled in since.
-/

namespace ApiGateway.TokenBucket

universe u

variable {K : Type u} [Field K] [LinearOrder K]

/-- The tokens in a bucket when it was last filled, and the time of that. -/
@[ext]
structure Bucket (K : Type u) where
  tokens : K
  last : K

/-- The tokens in a bucket at a later time. -/
def Bucket.level (rate burst : K) (b : Bucket K) (now : K) : K :=
  min burst (b.tokens + rate * (now - b.last))

/-- A request fills the bucket and takes a token if there is one. -/
def Bucket.take (rate burst : K) (b : Bucket K) (now : K) : Bool × Bucket K :=
  if 1 ≤ b.level rate burst now then (true, ⟨b.level rate burst now - 1, now⟩)
  else (false, ⟨b.level rate burst now, now⟩)

/-- The decisions on requests at the given times. -/
def Bucket.decisions (rate burst : K) : Bucket K → List K → List (K × Bool)
  | _, [] => []
  | b, now :: times =>
      (now, (b.take rate burst now).1) :: decisions rate burst (b.take rate burst now).2 times

/-- Whether a decision admits a request in the window from `s` to `t`. -/
def admittedIn (s t : K) (decision : K × Bool) : Bool :=
  s ≤ decision.1 ∧ decision.1 ≤ t ∧ decision.2

namespace Bucket

variable {rate burst s t now : K} {b : Bucket K} {times : List K}

theorem level_le (rate burst : K) (b : Bucket K) (now : K) : b.level rate burst now ≤ burst :=
  min_le_left _ _

@[simp] theorem last_take (rate burst : K) (b : Bucket K) (now : K) :
    (b.take rate burst now).2.last = now := by
  unfold take
  split_ifs <;> rfl

theorem time_of_mem_decisions {decision : K × Bool}
    (h : decision ∈ b.decisions rate burst times) : decision.1 ∈ times := by
  induction times generalizing b with
  | nil => cases h
  | cons now times ih =>
      rcases List.mem_cons.1 h with rfl | h
      · exact List.mem_cons_self
      · exact List.mem_cons_of_mem _ (ih h)

/-- Requests after the end of a window do not count for it. -/
theorem count_after_window (hafter : ∀ x ∈ times, t < x) :
    (b.decisions rate burst times).countP (admittedIn s t) = 0 := by
  refine List.countP_eq_zero.2 fun decision hmem hin => ?_
  have hlate := hafter _ (time_of_mem_decisions hmem)
  simp only [admittedIn, decide_eq_true_eq] at hin
  exact absurd hin.2.1 (not_le.2 hlate)

variable [IsStrictOrderedRing K]

theorem level_nonneg (hrate : 0 ≤ rate) (hburst : 0 ≤ burst) (htokens : 0 ≤ b.tokens)
    (hnow : b.last ≤ now) : 0 ≤ b.level rate burst now := by
  have hfilled : 0 ≤ rate * (now - b.last) := mul_nonneg hrate (sub_nonneg.2 hnow)
  exact le_min hburst (add_nonneg htokens hfilled)

/-- Time fills the bucket at most at its rate. -/
theorem level_le_add (hrate : 0 ≤ rate) {later : K} (hlater : now ≤ later) :
    b.level rate burst later ≤ b.level rate burst now + rate * (later - now) := by
  have hfilled : 0 ≤ rate * (later - now) := mul_nonneg hrate (sub_nonneg.2 hlater)
  unfold level
  rcases le_total burst (b.tokens + rate * (now - b.last)) with h | h
  · rw [min_eq_left h]
    exact (min_le_left _ _).trans (le_add_of_nonneg_right hfilled)
  · rw [min_eq_right h]
    refine (min_le_right _ _).trans (le_of_eq ?_)
    ring

theorem tokens_take_nonneg (hrate : 0 ≤ rate) (hburst : 0 ≤ burst) (htokens : 0 ≤ b.tokens)
    (hnow : b.last ≤ now) : 0 ≤ (b.take rate burst now).2.tokens := by
  unfold take
  split_ifs with h
  · exact sub_nonneg.2 h
  · exact level_nonneg hrate hburst htokens hnow

/-- What a request takes is no longer in the bucket. -/
theorem level_take (rate burst : K) (b : Bucket K) (now : K) :
    (b.take rate burst now).2.level rate burst now + ((b.take rate burst now).1.toNat : K) ≤
      b.level rate burst now := by
  have hle : ∀ tokens : K, (⟨tokens, now⟩ : Bucket K).level rate burst now ≤ tokens := by
    intro tokens
    simp [level]
  unfold take
  split_ifs with h
  · have := hle (b.level rate burst now - 1)
    simp only [Bool.toNat_true, Nat.cast_one]
    linarith
  · simpa using hle (b.level rate burst now)

theorem budget_nonneg (hrate : 0 ≤ rate) (hburst : 0 ≤ burst) (htokens : 0 ≤ b.tokens)
    (hlast : b.last ≤ now) (hnow : now ≤ t) :
    0 ≤ b.level rate burst now + rate * (t - now) :=
  add_nonneg (level_nonneg hrate hburst htokens hlast) (mul_nonneg hrate (sub_nonneg.2 hnow))

/-- From time `now` on, no more requests are admitted than there are tokens in the bucket and are
filled in. -/
theorem admitted_le_level (hrate : 0 ≤ rate) (hburst : 0 ≤ burst) (htokens : 0 ≤ b.tokens)
    (hlast : b.last ≤ now) (hnow : now ≤ t) (hsorted : times.Pairwise (· ≤ ·))
    (hlater : ∀ x ∈ times, now ≤ x) :
    ((b.decisions rate burst times).countP (admittedIn s t) : K) ≤
      b.level rate burst now + rate * (t - now) := by
  induction times generalizing b now with
  | nil => simpa [decisions] using budget_nonneg hrate hburst htokens hlast hnow
  | cons next times ih =>
      obtain ⟨hfirst, hrest⟩ := List.pairwise_cons.1 hsorted
      have hnext : now ≤ next := hlater next List.mem_cons_self
      by_cases hin : next ≤ t
      · have htail := ih (tokens_take_nonneg hrate hburst htokens (hlast.trans hnext))
          (last_take rate burst b next).le hin hrest hfirst
        have hone : ((admittedIn s t (next, (b.take rate burst next).1)).toNat : K) ≤
            ((b.take rate burst next).1.toNat : K) := by
          cases (b.take rate burst next).1 with
          | false => simp [admittedIn]
          | true => exact_mod_cast Bool.toNat_le _
        have htake := level_take rate burst b next
        have hfill : b.level rate burst next ≤ b.level rate burst now + rate * (next - now) :=
          level_le_add hrate hnext
        calc ((b.decisions rate burst (next :: times)).countP (admittedIn s t) : K)
            = (((b.take rate burst next).2.decisions rate burst times).countP
                (admittedIn s t) : K) +
              ((admittedIn s t (next, (b.take rate burst next).1)).toNat : K) := by
              rw [decisions, Table.countP_cons, Nat.cast_add]
          _ ≤ (b.take rate burst next).2.level rate burst next + rate * (t - next) +
                ((b.take rate burst next).1.toNat : K) := add_le_add htail hone
          _ ≤ b.level rate burst next + rate * (t - next) := by linarith
          _ ≤ b.level rate burst now + rate * (t - now) := by linarith
      · have hafter : ∀ x ∈ next :: times, t < x := by
          intro x hx
          rcases List.mem_cons.1 hx with rfl | hx
          · exact not_le.1 hin
          · exact (not_le.1 hin).trans_le (hfirst x hx)
        rw [count_after_window hafter]
        simpa using budget_nonneg hrate hburst htokens hlast hnow

/-- In a window of time no more requests are admitted than the bucket holds and are filled in during
the window. -/
theorem admitted_window (hrate : 0 ≤ rate) (hburst : 0 ≤ burst) (htokens : 0 ≤ b.tokens)
    (hst : s ≤ t) (hsorted : times.Pairwise (· ≤ ·)) (hlater : ∀ x ∈ times, b.last ≤ x) :
    ((b.decisions rate burst times).countP (admittedIn s t) : K) ≤ burst + rate * (t - s) := by
  induction times generalizing b with
  | nil => simpa [decisions] using add_nonneg hburst (mul_nonneg hrate (sub_nonneg.2 hst))
  | cons now times ih =>
      obtain ⟨hfirst, hrest⟩ := List.pairwise_cons.1 hsorted
      have hlast : b.last ≤ now := hlater now List.mem_cons_self
      by_cases hbefore : now < s
      · -- a request before the window does not count, and leaves a bucket to start from
        have hnot : admittedIn s t (now, (b.take rate burst now).1) = false := by
          simp [admittedIn, hbefore]
        rw [decisions, Table.countP_cons, hnot, Bool.toNat_false, Nat.add_zero]
        exact ih (tokens_take_nonneg hrate hburst htokens hlast) hrest
          (by simpa using hfirst)
      · have hs : s ≤ now := not_lt.1 hbefore
        have hall : ∀ x ∈ now :: times, now ≤ x := by
          intro x hx
          rcases List.mem_cons.1 hx with rfl | hx
          · exact le_refl x
          · exact hfirst x hx
        by_cases hin : now ≤ t
        · have hlevel := level_le rate burst b now
          have hshorter : rate * (t - now) ≤ rate * (t - s) :=
            mul_le_mul_of_nonneg_left (sub_le_sub_left hs t) hrate
          exact (admitted_le_level hrate hburst htokens hlast hin hsorted hall).trans
            (add_le_add hlevel hshorter)
        · rw [count_after_window fun x hx => (not_le.1 hin).trans_le (hall x hx)]
          simpa using add_nonneg hburst (mul_nonneg hrate (sub_nonneg.2 hst))

end Bucket

/-! ## Metering

The same bound for a bucket that is used step by step: time passes, and requests take tokens. -/

/-- A bucket at a time, with the times at which requests have been admitted so far. The potential is
stated for every beginning of a window, and what follows from it for the windows that are over. -/
structure Metered (rate burst : K) (b : Bucket K) (clock : K) (times : List K) : Prop where
  past : ∀ x ∈ times, x ≤ clock
  budget : ∀ s, s ≤ clock → (times.countP (fun x => s ≤ x) : K) + b.level rate burst clock ≤
    burst + rate * (clock - s)
  window : ∀ s t, s ≤ t → (times.countP (fun x => s ≤ x ∧ x ≤ t) : K) ≤ burst + rate * (t - s)

namespace Metered

variable [IsStrictOrderedRing K] {rate burst clock : K} {b : Bucket K} {times : List K}

theorem start (hrate : 0 ≤ rate) (hburst : 0 ≤ burst) (b : Bucket K) (clock : K) :
    Metered rate burst b clock [] where
  past := by simp
  budget s hs := by
    have hfilled : 0 ≤ rate * (clock - s) := mul_nonneg hrate (sub_nonneg.2 hs)
    simpa using (b.level_le rate burst clock).trans (le_add_of_nonneg_right hfilled)
  window s t hst := by
    simpa using add_nonneg hburst (mul_nonneg hrate (sub_nonneg.2 hst))

omit [IsStrictOrderedRing K] in
theorem perm (h : Metered rate burst b clock times) {times' : List K} (hperm : times'.Perm times) :
    Metered rate burst b clock times' where
  past x hx := h.past x (hperm.mem_iff.1 hx)
  budget s hs := by
    rw [hperm.countP_eq]
    exact h.budget s hs
  window s t hst := by
    rw [hperm.countP_eq]
    exact h.window s t hst

theorem elapse (h : Metered rate burst b clock times) (hrate : 0 ≤ rate) {later : K}
    (hlater : clock ≤ later) : Metered rate burst b later times where
  past x hx := (h.past x hx).trans hlater
  budget s hs := by
    by_cases hbefore : s ≤ clock
    · have hbudget := h.budget s hbefore
      have hfill : b.level rate burst later ≤ b.level rate burst clock + rate * (later - clock) :=
        Bucket.level_le_add hrate hlater
      calc (times.countP (fun x => s ≤ x) : K) + b.level rate burst later
          ≤ times.countP (fun x => s ≤ x) + b.level rate burst clock + rate * (later - clock) := by
            linarith
        _ ≤ burst + rate * (later - s) := by linarith
    · -- nothing has been admitted in a window that begins now
      have hnone : times.countP (fun x => s ≤ x) = 0 :=
        List.countP_eq_zero.2 fun x hx hsx =>
          hbefore ((of_decide_eq_true hsx).trans (h.past x hx))
      have hfilled : 0 ≤ rate * (later - s) := mul_nonneg hrate (sub_nonneg.2 hs)
      rw [hnone, Nat.cast_zero, zero_add]
      exact (b.level_le rate burst later).trans (le_add_of_nonneg_right hfilled)
  window := h.window

/-- A request that is refused leaves the bucket as full as it was. -/
theorem refuse (h : Metered rate burst b clock times)
    (htake : (b.take rate burst clock).1 = false) :
    Metered rate burst (b.take rate burst clock).2 clock times where
  past := h.past
  budget s hs := by
    have hlevel := Bucket.level_take rate burst b clock
    rw [htake, Bool.toNat_false, Nat.cast_zero, add_zero] at hlevel
    linarith [h.budget s hs]
  window := h.window

/-- A request that is admitted counts for every window it is in. -/
theorem grant (h : Metered rate burst b clock times) (hrate : 0 ≤ rate) (hburst : 0 ≤ burst)
    (htokens : 0 ≤ b.tokens) (hlast : b.last ≤ clock) (htake : (b.take rate burst clock).1 = true) :
    Metered rate burst (b.take rate burst clock).2 clock (clock :: times) where
  past x hx := by
    rcases List.mem_cons.1 hx with rfl | hx
    · exact le_refl x
    · exact h.past x hx
  budget s hs := by
    have hlevel := Bucket.level_take rate burst b clock
    rw [htake, Bool.toNat_true, Nat.cast_one] at hlevel
    rw [Table.countP_cons, decide_eq_true hs, Bool.toNat_true, Nat.cast_add, Nat.cast_one]
    linarith [h.budget s hs]
  window s t hst := by
    by_cases hin : s ≤ clock ∧ clock ≤ t
    · have hall : (times.countP (fun x => s ≤ x ∧ x ≤ t) : K) ≤ times.countP (fun x => s ≤ x) := by
        refine Nat.cast_le.2 (List.countP_mono_left fun x _ hx => ?_)
        exact decide_eq_true ((decide_eq_true_iff.1 hx).1)
      have hlevel := Bucket.level_take rate burst b clock
      rw [htake, Bool.toNat_true, Nat.cast_one] at hlevel
      have hleft : 0 ≤ (b.take rate burst clock).2.level rate burst clock :=
        Bucket.level_nonneg hrate hburst (Bucket.tokens_take_nonneg hrate hburst htokens hlast)
          (Bucket.last_take rate burst b clock).le
      have hlonger : rate * (clock - s) ≤ rate * (t - s) :=
        mul_le_mul_of_nonneg_left (sub_le_sub_right hin.2 s) hrate
      rw [Table.countP_cons, decide_eq_true hin, Bool.toNat_true, Nat.cast_add, Nat.cast_one]
      linarith [h.budget s hin.1]
    · rw [Table.countP_cons, decide_eq_false hin, Bool.toNat_false, Nat.add_zero]
      exact h.window s t hst

end Metered

end ApiGateway.TokenBucket

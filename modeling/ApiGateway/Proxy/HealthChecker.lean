import ApiGateway.Proxy.Backend

/-!
# The health checker

`HealthChecker` of `health_checker.cpp`. `check_all` copies the records of all backends, checks each
one and writes its copy back, while other threads add and remove backends. The locked parts, and the
beginning and the end of a `tcp_check`, are single steps. For each backend it is recorded what the
checks since its registration have found (`CheckRecord`). The main result,
`healthy_since_registration`, says that the flags reflect this record in runs that do not register a
backend while a copy of its old record is in use. `healthy_unchecked` is a run that does.
-/

namespace ApiGateway.Proxy

open ApiGateway.Core (Backend)

/-- The key of a backend. -/
def backendKey (backend : Backend) : Bytes :=
  makeKey backend.host backend.port

/-- `HealthChecker::BackendHealth`. -/
structure BackendHealth where
  backend : Backend
  healthy : Bool := false
  lastCheck : Int := 0
  consecutiveFailures : Nat := 0

namespace BackendHealth

/-- The key of a record. -/
def key (bh : BackendHealth) : Bytes :=
  backendKey bh.backend

/-- The part of the loop of `check_all` between the check and the write-back. -/
def update (bh : BackendHealth) (now : Int) (nowHealthy : Bool) : BackendHealth :=
  if nowHealthy then { bh with lastCheck := now, consecutiveFailures := 0, healthy := true }
  else
    { bh with
      lastCheck := now
      consecutiveFailures := bh.consecutiveFailures + 1
      healthy := if 3 ≤ bh.consecutiveFailures + 1 then false else bh.healthy }

@[simp] theorem key_update (bh : BackendHealth) (now : Int) (nowHealthy : Bool) :
    (bh.update now nowHealthy).key = bh.key := by
  cases nowHealthy <;> rfl

end BackendHealth

/-- `class HealthChecker`: the map `backends_`. -/
structure HealthChecker where
  backends : Bytes → Option BackendHealth := fun _ => none

namespace HealthChecker

/-- `add_backend`. -/
def addBackend (checker : HealthChecker) (backend : Backend) : HealthChecker :=
  if checker.backends (backendKey backend) = none then
    { backends := Function.update checker.backends (backendKey backend) (some { backend }) }
  else checker

/-- `remove_backend`. -/
def removeBackend (checker : HealthChecker) (backend : Backend) : HealthChecker :=
  { backends := Function.update checker.backends (backendKey backend) none }

/-- The write-back of `check_all`. -/
def writeBack (checker : HealthChecker) (bh : BackendHealth) : HealthChecker :=
  if checker.backends bh.key = none then checker
  else { backends := Function.update checker.backends bh.key (some bh) }

/-- `is_healthy`. -/
def isHealthy (checker : HealthChecker) (backend : Backend) : Bool :=
  match checker.backends (backendKey backend) with
  | some bh => bh.healthy
  | none => false

section Entries

variable {checker : HealthChecker} {backend : Backend} {bh : BackendHealth} {k : Bytes}

theorem add_backend_self (hnew : checker.backends (backendKey backend) = none) :
    (checker.addBackend backend).backends (backendKey backend) = some { backend } := by
  simp [addBackend, hnew]

theorem add_backend_of_ne (hk : k ≠ backendKey backend) :
    (checker.addBackend backend).backends k = checker.backends k := by
  unfold addBackend
  split
  · exact Function.update_of_ne hk ..
  · rfl

theorem remove_backend_some (h : (checker.removeBackend backend).backends k = some bh) :
    checker.backends k = some bh := by
  by_cases hk : k = backendKey backend
  · simp [removeBackend, hk] at h
  · simpa [removeBackend, hk] using h

theorem write_back_of_ne (hk : k ≠ bh.key) :
    (checker.writeBack bh).backends k = checker.backends k := by
  unfold writeBack
  split
  · rfl
  · exact Function.update_of_ne hk ..

/-- A copy replaces an entry, and adds none. -/
theorem write_back_self {new : BackendHealth}
    (h : (checker.writeBack bh).backends bh.key = some new) :
    new = bh ∧ ∃ old, checker.backends bh.key = some old := by
  unfold writeBack at h
  split at h
  · rename_i hnone
    rw [hnone] at h
    cases h
  · rename_i hsome
    replace h : Function.update checker.backends bh.key (some bh) bh.key = some new := h
    rw [Function.update_self] at h
    exact ⟨(Option.some.inj h).symm, Option.ne_none_iff_exists'.1 hsome⟩

end Entries

end HealthChecker

/-- Where `check_all` is: not called, at the head of its loop, in `tcp_check`, or behind it
with the new record. `rest` are the copies that are still to be checked, and `now` is the time
of the call. -/
inductive Phase where
  | idle
  | between (now : Int) (rest : List BackendHealth)
  | checking (now : Int) (bh : BackendHealth) (rest : List BackendHealth)
  | checked (now : Int) (bh : BackendHealth) (rest : List BackendHealth)

namespace Phase

/-- The copies that have not been written back. -/
def pending : Phase → List BackendHealth
  | .idle => []
  | .between _ rest => rest
  | .checking _ bh rest | .checked _ bh rest => bh :: rest

/-- The copies that have not been changed. -/
def waiting : Phase → List BackendHealth
  | .idle => []
  | .between _ rest | .checked _ _ rest => rest
  | .checking _ bh rest => bh :: rest

/-- The copy that has been changed and not been written back. -/
def unwritten : Phase → Option BackendHealth
  | .checked _ bh _ => some bh
  | _ => none

end Phase

/-- What the checks of a backend have found since its registration: whether one of them that began
after it has succeeded, and how many have failed since the last such success. `fresh` tells that the
last check to begin began after the registration. -/
structure CheckRecord where
  succeeded : Bool := false
  failures : Nat := 0
  fresh : Bool := false

/-- The end of a check. -/
def CheckRecord.finish (record : CheckRecord) (ok : Bool) : CheckRecord :=
  if ok then
    if record.fresh then { record with succeeded := true, failures := 0 } else record
  else { record with failures := record.failures + 1 }

/-- The health checker, where `check_all` is, and the records of the checks. -/
structure HealthRun where
  checker : HealthChecker := {}
  phase : Phase := .idle
  record : Bytes → CheckRecord := fun _ => {}

namespace HealthRun

/-- What kind of step is made: a registration, or another step. -/
inductive Label where
  | registers (key : Bytes)
  | other

/-- One step of `check_all`, or a call from another thread. A snapshot has the records of the map in
any order. -/
inductive Step : HealthRun → Label → HealthRun → Prop where
  | register {s : HealthRun} (backend : Backend)
      (hnew : s.checker.backends (backendKey backend) = none) :
      Step s (.registers (backendKey backend))
        { s with
          checker := s.checker.addBackend backend
          record := Function.update s.record (backendKey backend) {} }
  | addAgain {s : HealthRun} (backend : Backend)
      (hold : s.checker.backends (backendKey backend) ≠ none) :
      Step s .other { s with checker := s.checker.addBackend backend }
  | remove {s : HealthRun} (backend : Backend) :
      Step s .other { s with checker := s.checker.removeBackend backend }
  | snapshot {s : HealthRun} (now : Int) {snapshot : List BackendHealth} (hidle : s.phase = .idle)
      (hmem : ∀ bh, bh ∈ snapshot ↔ s.checker.backends bh.key = some bh)
      (hnodup : (snapshot.map BackendHealth.key).Nodup) :
      Step s .other { s with phase := .between now snapshot }
  | begin {s : HealthRun} {now : Int} {bh : BackendHealth} {rest : List BackendHealth}
      (hphase : s.phase = .between now (bh :: rest)) :
      Step s .other
        { s with
          phase := .checking now bh rest
          record := Function.update s.record bh.key { s.record bh.key with fresh := true } }
  | finish {s : HealthRun} {now : Int} {bh : BackendHealth} {rest : List BackendHealth}
      (hphase : s.phase = .checking now bh rest) (ok : Bool) :
      Step s .other
        { s with
          phase := .checked now (bh.update now ok) rest
          record := Function.update s.record bh.key ((s.record bh.key).finish ok) }
  | writeBack {s : HealthRun} {now : Int} {bh : BackendHealth} {rest : List BackendHealth}
      (hphase : s.phase = .checked now bh rest) :
      Step s .other { s with checker := s.checker.writeBack bh, phase := .between now rest }
  | done {s : HealthRun} {now : Int} (hphase : s.phase = .between now []) :
      Step s .other { s with phase := .idle }

/-- The states of a health checker. -/
def Reachable : HealthRun → Prop :=
  Relation.ReflTransGen (fun s t => ∃ l, Step s l t) {}

/-- The condition on a step: a backend is not registered while `check_all` has a copy of an old
record of it to write back. -/
def Allowed (s : HealthRun) : Label → Prop
  | .registers key => key ∉ s.phase.pending.map BackendHealth.key
  | .other => True

/-- The states that are reached by such steps. -/
def CleanReachable : HealthRun → Prop :=
  Relation.ReflTransGen (fun s t => ∃ l, Step s l t ∧ Allowed s l) {}

/-- A check of a backend has ended, and its result has not been written back. -/
def Unrecorded (s : HealthRun) (key : Bytes) : Prop :=
  ∃ bh, s.phase.unwritten = some bh ∧ bh.key = key

/-- The flag of a record reflects the checks. -/
def Reflects (bh : BackendHealth) (record : CheckRecord) : Prop :=
  bh.healthy = true → record.succeeded = true ∧ record.failures = bh.consecutiveFailures ∧
    bh.consecutiveFailures < 3

/-- The invariant of runs that meet the condition. -/
structure Inv (s : HealthRun) : Prop where
  keyed : ∀ k bh, s.checker.backends k = some bh → bh.key = k
  nodup : (s.phase.pending.map BackendHealth.key).Nodup
  waiting : ∀ bh ∈ s.phase.waiting, ∀ old, s.checker.backends bh.key = some old → old = bh
  fresh : ∀ now bh rest, s.phase = .checking now bh rest → s.checker.backends bh.key ≠ none →
    (s.record bh.key).fresh = true
  reflects : ∀ k bh, s.checker.backends k = some bh → ¬ s.Unrecorded k → Reflects bh (s.record k)
  unwritten : ∀ bh, s.phase.unwritten = some bh → ∀ old, s.checker.backends bh.key = some old →
    Reflects bh (s.record bh.key) ∧ (old.healthy = true → (s.record bh.key).succeeded = true)

theorem inv_start : Inv {} where
  keyed := nofun
  nodup := List.nodup_nil
  waiting := nofun
  fresh := nofun
  reflects := nofun
  unwritten := nofun

variable {s t : HealthRun} {now : Int} {bh : BackendHealth} {rest : List BackendHealth}

theorem reflects_update {record : CheckRecord} (h : Reflects bh record)
    (hfresh : record.fresh = true) (now : Int) (ok : Bool) :
    Reflects (bh.update now ok) (record.finish ok) := by
  cases ok with
  | true =>
      intro _
      simp [CheckRecord.finish, BackendHealth.update, hfresh]
  | false =>
      intro hhealthy
      have hboth : bh.consecutiveFailures + 1 < 3 ∧ bh.healthy = true := by
        by_cases hmany : 3 ≤ bh.consecutiveFailures + 1
        · simp [BackendHealth.update, hmany] at hhealthy
        · simpa [BackendHealth.update, hmany, Nat.not_le.1 hmany] using hhealthy
      obtain ⟨hsucceeded, hfailures, -⟩ := h hboth.2
      exact ⟨hsucceeded, congrArg (· + 1) hfailures, hboth.1⟩

/-- A success is not forgotten at the end of a check. -/
theorem succeeded_finish {record : CheckRecord} (h : record.succeeded = true) (ok : Bool) :
    (record.finish ok).succeeded = true := by
  cases ok with
  | true =>
      simp only [CheckRecord.finish, if_true]
      split
      · rfl
      · exact h
  | false => exact h

/-- Entries are removed from the map. -/
theorem Inv.mono (hs : Inv s) {checker : HealthChecker}
    (h : ∀ k bh, checker.backends k = some bh → s.checker.backends k = some bh) :
    Inv { s with checker := checker } where
  keyed k bh hk := hs.keyed k bh (h k bh hk)
  nodup := hs.nodup
  waiting bh hbh old hold := hs.waiting bh hbh old (h _ _ hold)
  fresh now bh rest hphase hne := by
    obtain ⟨old, hold⟩ := Option.ne_none_iff_exists'.1 hne
    exact hs.fresh now bh rest hphase (Option.ne_none_iff_exists'.2 ⟨old, h _ _ hold⟩)
  reflects k bh hk := hs.reflects k bh (h k bh hk)
  unwritten bh hbh old hold := hs.unwritten bh hbh old (h _ _ hold)

theorem mem_pending_of_waiting {phase : Phase} (h : bh ∈ phase.waiting) : bh ∈ phase.pending := by
  cases phase with
  | idle => exact h
  | between now rest => exact h
  | checking now bh' rest => exact h
  | checked now bh' rest => exact List.mem_cons_of_mem _ h

theorem mem_pending_of_unwritten {phase : Phase} (h : phase.unwritten = some bh) :
    bh ∈ phase.pending := by
  cases phase with
  | checked now bh' rest =>
      cases h
      exact List.mem_cons_self
  | _ => cases h

theorem not_unrecorded (h : s.phase.unwritten = none) (k : Bytes) : ¬ s.Unrecorded k := by
  rintro ⟨bh, hbh, -⟩
  rw [h] at hbh
  cases hbh

theorem inv_register (hs : Inv s) (backend : Backend)
    (hnew : s.checker.backends (backendKey backend) = none)
    (hallowed : backendKey backend ∉ s.phase.pending.map BackendHealth.key) :
    Inv { s with
      checker := s.checker.addBackend backend
      record := Function.update s.record (backendKey backend) {} } := by
  have hself := HealthChecker.add_backend_self hnew
  have hother : ∀ {k}, k ≠ backendKey backend →
      (s.checker.addBackend backend).backends k = s.checker.backends k ∧
        Function.update s.record (backendKey backend) {} k = s.record k := fun hk =>
    ⟨HealthChecker.add_backend_of_ne hk, Function.update_of_ne hk ..⟩
  -- copies are not of the new backend
  have hpending : ∀ {bh}, bh ∈ s.phase.pending → bh.key ≠ backendKey backend := fun hbh hkey =>
    hallowed (hkey ▸ List.mem_map_of_mem hbh)
  refine ⟨fun k bh hk => ?_, hs.nodup, fun bh hbh old hold => ?_, fun now bh rest hphase hne => ?_,
    fun k bh hk hnot => ?_, fun bh hbh old hold => ?_⟩
  · by_cases hkey : k = backendKey backend
    · subst hkey
      cases hself.symm.trans hk
      rfl
    · exact hs.keyed k bh ((hother hkey).1.symm.trans hk)
  · have hkey := hpending (mem_pending_of_waiting hbh)
    exact hs.waiting bh hbh old ((hother hkey).1.symm.trans hold)
  · replace hphase : s.phase = .checking now bh rest := hphase
    have hkey : bh.key ≠ backendKey backend := hpending (by rw [hphase]; exact List.mem_cons_self)
    show (Function.update s.record (backendKey backend) {} bh.key).fresh = true
    rw [(hother hkey).2]
    exact hs.fresh now bh rest hphase fun hnone => hne ((hother hkey).1.trans hnone)
  · by_cases hkey : k = backendKey backend
    · subst hkey
      cases hself.symm.trans hk
      exact nofun
    · show Reflects bh (Function.update s.record (backendKey backend) {} k)
      rw [(hother hkey).2]
      exact hs.reflects k bh ((hother hkey).1.symm.trans hk) hnot
  · have hkey := hpending (mem_pending_of_unwritten hbh)
    show Reflects bh (Function.update s.record (backendKey backend) {} bh.key) ∧
      (_ → (Function.update s.record (backendKey backend) {} bh.key).succeeded = true)
    rw [(hother hkey).2]
    exact hs.unwritten bh hbh old ((hother hkey).1.symm.trans hold)

theorem inv_snapshot (hs : Inv s) (hidle : s.phase = .idle) {snapshot : List BackendHealth}
    (hmem : ∀ bh, bh ∈ snapshot ↔ s.checker.backends bh.key = some bh)
    (hnodup : (snapshot.map BackendHealth.key).Nodup) :
    Inv { s with phase := .between now snapshot } := by
  refine ⟨hs.keyed, hnodup, fun bh hbh old hold => ?_, nofun, fun k bh hk _ => ?_, nofun⟩
  · exact Option.some.inj (hold.symm.trans ((hmem bh).1 hbh))
  · exact hs.reflects k bh hk (not_unrecorded (by rw [hidle]; rfl) k)

theorem inv_begin (hs : Inv s) (hphase : s.phase = .between now (bh :: rest)) :
    Inv { s with
      phase := .checking now bh rest
      record := Function.update s.record bh.key { s.record bh.key with fresh := true } } := by
  have hnodup := hs.nodup
  have hwaiting := hs.waiting
  rw [hphase] at hnodup hwaiting
  -- what has been found so far is the same
  have hrecord : ∀ k, ∃ fresh, Function.update s.record bh.key
    { s.record bh.key with fresh := true } k =
      { s.record k with fresh := fresh } := fun k => by
    by_cases hk : k = bh.key
    · subst hk
      exact ⟨true, Function.update_self ..⟩
    · exact ⟨_, Function.update_of_ne hk ..⟩
  refine ⟨hs.keyed, hnodup, hwaiting, fun now' bh' rest' hphase' _ => ?_,
      fun k bh' hk _ => ?_, nofun⟩
  · cases hphase'
    show (Function.update s.record bh.key _ bh.key).fresh = true
    rw [Function.update_self]
  · show Reflects bh' (Function.update s.record bh.key _ k)
    obtain ⟨fresh, heq⟩ := hrecord k
    rw [heq]
    exact hs.reflects k bh' hk (not_unrecorded (by rw [hphase]; rfl) k)

theorem inv_finish (hs : Inv s) (hphase : s.phase = .checking now bh rest) (ok : Bool) :
    Inv { s with
      phase := .checked now (bh.update now ok) rest
      record := Function.update s.record bh.key ((s.record bh.key).finish ok) } := by
  have hnodup := hs.nodup
  have hwaiting := hs.waiting
  rw [hphase] at hnodup hwaiting
  have hrecorded := not_unrecorded (s := s) (by rw [hphase]; rfl)
  refine ⟨hs.keyed, ?_, fun bh' hbh' => hwaiting bh' (List.mem_cons_of_mem _ hbh'), nofun,
    fun k bh' hk hnot => ?_, fun bh' hbh' old hold => ?_⟩
  · show ((bh.update now ok :: rest).map BackendHealth.key).Nodup
    rw [List.map_cons, BackendHealth.key_update]
    exact hnodup
  · have hkey : k ≠ bh.key := fun hkey => hnot ⟨_, rfl, by rw [BackendHealth.key_update, hkey]⟩
    show Reflects bh' (Function.update s.record bh.key _ k)
    rw [Function.update_of_ne hkey]
    exact hs.reflects k bh' hk (hrecorded k)
  · cases hbh'
    rw [BackendHealth.key_update] at hold ⊢
    show Reflects _ (Function.update s.record bh.key _ bh.key) ∧
      (_ → (Function.update s.record bh.key _ bh.key).succeeded = true)
    rw [Function.update_self]
    -- the entry is the one that has been copied
    cases hwaiting bh List.mem_cons_self old hold
    have hreflects := hs.reflects bh.key bh hold (hrecorded _)
    have hfresh := hs.fresh now bh rest hphase (Option.ne_none_iff_exists'.2 ⟨bh, hold⟩)
    exact ⟨reflects_update hreflects hfresh now ok,
      fun hhealthy => succeeded_finish (hreflects hhealthy).1 ok⟩

theorem inv_write_back (hs : Inv s) (hphase : s.phase = .checked now bh rest) :
    Inv { s with checker := s.checker.writeBack bh, phase := .between now rest } := by
  have hnodup := hs.nodup
  have hwaiting := hs.waiting
  have hunwritten := hs.unwritten
  rw [hphase] at hnodup hwaiting hunwritten
  rw [Phase.pending, List.map_cons, List.nodup_cons] at hnodup
  have hother : ∀ {k}, k ≠ bh.key →
      (s.checker.writeBack bh).backends k = s.checker.backends k :=
    HealthChecker.write_back_of_ne
  refine ⟨fun k new hk => ?_, hnodup.2, fun bh' hbh' old hold => ?_, nofun, fun k new hk _ => ?_,
    nofun⟩
  · by_cases hkey : k = bh.key
    · subst hkey
      rw [(HealthChecker.write_back_self hk).1]
    · exact hs.keyed k new ((hother hkey).symm.trans hk)
  · have hkey : bh'.key ≠ bh.key := fun hkey => hnodup.1 (hkey ▸ List.mem_map_of_mem hbh')
    exact hwaiting bh' hbh' old ((hother hkey).symm.trans hold)
  · show Reflects new (s.record k)
    by_cases hkey : k = bh.key
    · subst hkey
      obtain ⟨rfl, old, hold⟩ := HealthChecker.write_back_self hk
      exact (hunwritten new rfl old hold).1
    · refine hs.reflects k new ((hother hkey).symm.trans hk) ?_
      rintro ⟨bh', hbh', hkey'⟩
      rw [hphase] at hbh'
      cases hbh'
      exact hkey hkey'.symm

theorem inv_step {l : Label} (hs : Inv s) (h : Step s l t) (hallowed : Allowed s l) : Inv t := by
  cases h with
  | register backend hnew => exact inv_register hs backend hnew hallowed
  | addAgain backend hold =>
      refine hs.mono fun k bh hk => ?_
      rwa [HealthChecker.addBackend, if_neg hold] at hk
  | remove backend => exact hs.mono fun k bh => HealthChecker.remove_backend_some
  | snapshot now hidle hmem hnodup => exact inv_snapshot hs hidle hmem hnodup
  | begin hphase => exact inv_begin hs hphase
  | finish hphase ok => exact inv_finish hs hphase ok
  | writeBack hphase => exact inv_write_back hs hphase
  | @done now hphase =>
      have hrecorded := not_unrecorded (s := s) (by rw [hphase]; rfl)
      exact ⟨hs.keyed, List.nodup_nil, nofun, nofun,
        fun k bh hk _ => hs.reflects k bh hk (hrecorded k), nofun⟩

theorem inv_reachable (h : CleanReachable s) : Inv s := by
  induction h with
  | refl => exact inv_start
  | tail _ hstep ih =>
      obtain ⟨l, hstep, hallowed⟩ := hstep
      exact inv_step ih hstep hallowed

/-- If no backend is registered while a copy of an old record of it is to be written back, a
backend that is reported as healthy has been checked with success since its registration, and
fewer than three checks have failed since then; a check that has ended counts when its result is
written back. -/
theorem healthy_since_registration (s : HealthRun) (h : CleanReachable s) (backend : Backend)
    (hhealthy : s.checker.isHealthy backend = true) :
    (s.record (backendKey backend)).succeeded = true ∧
      (¬ s.Unrecorded (backendKey backend) → (s.record (backendKey backend)).failures < 3) := by
  have hs := inv_reachable h
  unfold HealthChecker.isHealthy at hhealthy
  split at hhealthy
  · rename_i bh hbh
    have hrecorded : ¬ s.Unrecorded (backendKey backend) →
        Reflects bh (s.record (backendKey backend)) := hs.reflects _ bh hbh
    constructor
    · by_cases hunrecorded : s.Unrecorded (backendKey backend)
      · obtain ⟨copy, hcopy, hkey⟩ := hunrecorded
        rw [← hkey] at hbh ⊢
        exact (hs.unwritten copy hcopy bh hbh).2 hhealthy
      · exact (hrecorded hunrecorded hhealthy).1
    · intro hnot
      obtain ⟨-, hfailures, hfew⟩ := hrecorded hnot hhealthy
      rw [hfailures]
      exact hfew
  · cases hhealthy

/-! ## Runs with one backend -/

/-- A health checker with one backend. -/
def single (bh : BackendHealth) : HealthChecker where
  backends := Function.update (fun _ => none) bh.key (some bh)

/-- The snapshot of such a health checker. -/
theorem mem_snapshot_single (bh : BackendHealth) :
    ∀ bh', bh' ∈ [bh] ↔ (single bh).backends bh'.key = some bh' := by
  intro bh'
  by_cases hkey : bh'.key = bh.key
  · simp [single, hkey, eq_comm]
  · have hne : bh' ≠ bh := fun h => hkey (h ▸ rfl)
    simp [single, hkey, hne]

theorem write_back_single (old new : BackendHealth) (hkey : new.key = old.key) :
    (single old).writeBack new = single new := by
  simp [HealthChecker.writeBack, single, hkey]

/-- A backend. -/
def target : Backend :=
  { host := ascii "10.0.0.1", port := 80 }

/-- Its record after a check with success at time 0. -/
def upTarget : BackendHealth :=
  { backend := target, healthy := true }

theorem up_reachable :
    ∃ s, CleanReachable s ∧ s.checker = single upTarget ∧ s.phase = .idle := by
  have hregistered : CleanReachable _ := .single ⟨_, .register target rfl, List.not_mem_nil⟩
  have hsnapshot : CleanReachable _ := hregistered.tail
    ⟨_, .snapshot 0 rfl (mem_snapshot_single { backend := target })
      (List.nodup_singleton (backendKey target)), trivial⟩
  have hchecking : CleanReachable _ := hsnapshot.tail ⟨_, .begin rfl, trivial⟩
  have hchecked : CleanReachable _ := hchecking.tail ⟨_, .finish rfl true, trivial⟩
  have hwritten : CleanReachable _ := hchecked.tail ⟨_, .writeBack rfl, trivial⟩
  have hdone : CleanReachable _ := hwritten.tail ⟨_, .done rfl, trivial⟩
  exact ⟨_, hdone, write_back_single { backend := target } upTarget rfl, rfl⟩

theorem healthy_since_registration_up :
    ∃ s, CleanReachable s ∧ s.checker.isHealthy target = true ∧
      (s.record (backendKey target)).succeeded = true := by
  obtain ⟨s, hs, hchecker, -⟩ := up_reachable
  have hhealthy : s.checker.isHealthy target = true := by
    rw [hchecker]
    rfl
  exact ⟨s, hs, hhealthy, (healthy_since_registration s hs target hhealthy).1⟩

theorem reachable_of_clean (h : CleanReachable s) : Reachable s :=
  Relation.ReflTransGen.mono (fun _ _ ⟨l, hstep, _⟩ => ⟨l, hstep⟩) _ _ h

/-- A backend that was healthy is removed and added again between the snapshot and the write-back.
It is reported as healthy although the only check since then has failed. -/
theorem healthy_unchecked :
    ∃ s, Reachable s ∧ s.checker.isHealthy target = true ∧ s.phase = .idle ∧
      (s.record (backendKey target)).succeeded = false := by
  obtain ⟨⟨checker, phase, record⟩, hs, hchecker, hphase⟩ := up_reachable
  cases hchecker
  cases hphase
  have hup : Reachable _ := reachable_of_clean hs
  have hsnapshot : Reachable _ := hup.tail
    ⟨_, .snapshot 1 rfl (mem_snapshot_single upTarget) (List.nodup_singleton (backendKey target))⟩
  have hremoved : Reachable _ := hsnapshot.tail ⟨_, .remove target⟩
  have hregistered : Reachable _ := hremoved.tail ⟨_, .register target rfl⟩
  have hchecking : Reachable _ := hregistered.tail ⟨_, .begin rfl⟩
  have hchecked : Reachable _ := hchecking.tail ⟨_, .finish rfl false⟩
  have hwritten : Reachable _ := hchecked.tail ⟨_, .writeBack rfl⟩
  have hdone : Reachable _ := hwritten.tail ⟨_, .done rfl⟩
  exact ⟨_, hdone, rfl, rfl, rfl⟩

end HealthRun

end ApiGateway.Proxy

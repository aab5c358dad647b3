import ApiGateway.Logger.RollingFile

/-!
# The asynchronous logger

`AsyncLogger` of `async_logger.cpp`: threads append lines to one buffer, and the backend thread
swaps it with the other one and writes this to the file. The locked parts, and the passes of the
loop of `flush_buf`, are single steps. `wait_for` ends by a notification, a spurious wakeup or a
timeout, so that the swap behind it can come at any time. A logger is started once; a `stop` that
finds it not running returns at once and is no step. A line that makes the logger roll ends the
process, and with it all threads. The main result is `lines_handed_over`: what has been written is
always in order and without a loss, and the backend thread of a logger that is stopped comes to its
end exactly if none of the lines it has to write rolls the file.
-/

namespace ApiGateway.Logger

/-- Where the backend thread is: at the test of its loop, in `wait_for`, at the test behind a swap,
in `flush_buf` with some lines of `next_buf_` written, behind the loop, or at its end. `last` tells
that it has left the loop. -/
inductive Backend where
  | test
  | waiting
  | swapped (last : Bool)
  | flushing (last : Bool) (done : Nat)
  | leaving
  | exited
  deriving DecidableEq

namespace Backend

/-- Whether `next_buf_` may hold lines. -/
def holds : Backend → Bool
  | .swapped _ | .flushing _ _ => true
  | _ => false

/-- Whether the thread has left its loop. -/
def left : Backend → Bool
  | .swapped last | .flushing last _ => last
  | .leaving | .exited => true
  | .test | .waiting => false

/-- Whether the thread is behind the last swap. -/
def final : Backend → Bool
  | .swapped last | .flushing last _ => last
  | .exited => true
  | .test | .waiting | .leaving => false

end Backend

/-- `class AsyncLogger`, with the lines that have been appended and those that have been written so
far; how many lines had been appended when `stop` was called, while it is in progress and when it
has returned; and whether the process has ended in `flush_buf`. -/
structure AsyncLogger where
  curBuf : List Bytes := []
  nextBuf : List Bytes := []
  running : Bool := false
  file : RollingFile
  backend : Backend := .exited
  appended : List Bytes := []
  written : List Bytes := []
  stopping : Option Nat := none
  stopped : Option Nat := none
  aborted : Bool := false

namespace AsyncLogger

/-- `append`. -/
def append (s : AsyncLogger) (line : Bytes) : AsyncLogger :=
  { s with curBuf := s.curBuf ++ [line], appended := s.appended ++ [line] }

/-- The next step of the backend thread, at the given time; `opens` tells whether `fopen` succeeds.
A process that has ended makes no step. -/
def advance (stamp : Int → Bytes) (now : Int) (opens : Bool) (s : AsyncLogger) : AsyncLogger :=
  if s.aborted then s
  else match s.backend with
  | .test => { s with backend := if s.running then .waiting else .leaving }
  | .waiting => { s with curBuf := s.nextBuf, nextBuf := s.curBuf, backend := .swapped false }
  | .swapped last =>
      { s with
        backend :=
          if s.nextBuf ≠ [] then .flushing last 0 else if last then .exited else .test }
  | .flushing last done =>
      match s.nextBuf[done]? with
      | some line =>
          match s.file.writeLine stamp now opens line with
          | .ok file =>
              { s with
                file := file
                written := s.written ++ [line]
                backend := .flushing last (done + 1) }
          | .error file => { s with file := file, aborted := true }
      | none => { s with nextBuf := [], backend := if last then .exited else .test }
  | .leaving =>
      if s.curBuf ≠ [] then
        { s with curBuf := s.nextBuf, nextBuf := s.curBuf, backend := .swapped true }
      else { s with backend := .swapped true }
  | .exited => s

/-- One step of a thread that appends, of one that starts or stops the logger, or of the backend
thread. -/
inductive Step (stamp : Int → Bytes) : AsyncLogger → AsyncLogger → Prop where
  | append {s : AsyncLogger} (hlives : s.aborted = false) (line : Bytes) :
      Step stamp s (s.append line)
  | start {s : AsyncLogger} (opens : Bool) {file : RollingFile} (hlives : s.aborted = false)
      (hexited : s.backend = .exited) (hstopping : s.stopping = none) (hstopped : s.stopped = none)
      (hfile : s.file.openFile opens = .ok file) :
      Step stamp s { s with running := true, file := file, backend := .test }
  | stop {s : AsyncLogger} (hlives : s.aborted = false) (hrunning : s.running = true) :
      Step stamp s { s with running := false, stopping := some s.appended.length }
  | join {s : AsyncLogger} {n : Nat} {file : RollingFile} (hlives : s.aborted = false)
      (hstopping : s.stopping = some n) (hexited : s.backend = .exited)
      (hfile : s.file.fclose = .ok file) :
      Step stamp s
        { s with file := { file with fp := .null }, stopping := none, stopped := some n }
  | backend {s : AsyncLogger} (now : Int) (opens : Bool) : Step stamp s (s.advance stamp now opens)

/-- The states of a logger that is created for a file. -/
def Reachable (stamp : Int → Bytes) (filepath : Bytes) (rollSize : Nat) (disk : Disk) :
    AsyncLogger → Prop :=
  Relation.ReflTransGen (Step stamp) { file := { filepath, rollSize, disk } }

/-- The lines of `next_buf_` that have not been written. -/
def unwritten (s : AsyncLogger) : List Bytes :=
  match s.backend with
  | .swapped _ => s.nextBuf
  | .flushing _ done => s.nextBuf.drop done
  | _ => []

/-- The invariant: every line that has been appended is written or in one of the buffers, in this
order. Behind its last swap, the backend thread has taken all lines that had been appended when
`stop` was called. -/
structure Inv (s : AsyncLogger) : Prop where
  lines : s.written ++ s.unwritten ++ s.curBuf = s.appended
  empty : s.backend.holds = false → s.nextBuf = []
  halted : s.backend.left = true → s.running = false
  halting : ∀ n, s.stopping = some n → s.running = false
  called : ∀ n, s.stopping = some n → n ≤ s.appended.length
  taken : ∀ n, s.stopping = some n → s.backend.final = true →
    n ≤ (s.written ++ s.unwritten).length
  stopped : ∀ n, s.stopped = some n → n ≤ s.written.length

variable {stamp : Int → Bytes} {now : Int} {opens : Bool} {s t : AsyncLogger}

theorem inv_start (file : RollingFile) : Inv { file := file } where
  lines := rfl
  empty _ := rfl
  halted _ := rfl
  halting := nofun
  called := nofun
  taken := nofun
  stopped := nofun

theorem inv_append (hs : Inv s) (line : Bytes) : Inv (s.append line) := by
  refine { hs with lines := ?_, called := fun n hn => ?_ }
  · show s.written ++ s.unwritten ++ (s.curBuf ++ [line]) = s.appended ++ [line]
    rw [← List.append_assoc, hs.lines]
  · show n ≤ (s.appended ++ [line]).length
    rw [List.length_append]
    exact (hs.called n hn).trans (Nat.le_add_right _ _)

/-- The backend thread goes on without touching a line. -/
theorem Inv.control (hs : Inv s) {backend : Backend}
    (hunwritten : unwritten { s with backend := backend } = s.unwritten)
    (hempty : backend.holds = false → s.nextBuf = [])
    (hhalted : backend.left = true → s.running = false)
    (hfinal : backend.final = true → s.backend.final = true) :
    Inv { s with backend := backend } := by
  refine ⟨?_, hempty, hhalted, hs.halting, hs.called, fun n hn h => ?_, hs.stopped⟩
  · show s.written ++ unwritten { s with backend := backend } ++ s.curBuf = s.appended
    rw [hunwritten, hs.lines]
  · show n ≤ (s.written ++ unwritten { s with backend := backend }).length
    rw [hunwritten]
    exact hs.taken n hn (hfinal h)

/-- The backend thread takes all lines, when it has none. -/
theorem Inv.swap (hs : Inv s) (hnone : s.unwritten = []) (hnext : s.nextBuf = []) {last : Bool}
    (hhalted : last = true → s.running = false) :
    Inv { s with curBuf := s.nextBuf, nextBuf := s.curBuf, backend := .swapped last } := by
  have hlines : s.written ++ s.curBuf = s.appended := by
    rw [← hs.lines, hnone, List.append_nil]
  refine ⟨?_, nofun, hhalted, hs.halting, hs.called, fun n hn _ => ?_, hs.stopped⟩
  · show s.written ++ s.curBuf ++ s.nextBuf = s.appended
    rw [hnext, List.append_nil, hlines]
  · show n ≤ (s.written ++ s.curBuf).length
    rw [hlines]
    exact hs.called n hn

/-- One pass of the loop of `flush_buf`. -/
theorem Inv.write (hs : Inv s) {last : Bool} {done : Nat} {line : Bytes}
    (hbackend : s.backend = .flushing last done) (hline : s.nextBuf[done]? = some line)
    (file : RollingFile) :
    Inv { s with
      file := file
      written := s.written ++ [line]
      backend := .flushing last (done + 1) } := by
  have hlines : s.written ++ [line] ++ s.nextBuf.drop (done + 1) = s.written ++ s.unwritten := by
    obtain ⟨hlt, rfl⟩ := List.getElem?_eq_some_iff.1 hline
    simp only [unwritten, hbackend, List.drop_eq_getElem_cons hlt]
    simp
  have hstate := hs.halted
  have htaken := hs.taken
  rw [hbackend] at hstate htaken
  refine ⟨?_, nofun, hstate, hs.halting, hs.called, fun n hn h => ?_,
    fun n hn => (hs.stopped n hn).trans ?_⟩
  · show s.written ++ [line] ++ s.nextBuf.drop (done + 1) ++ s.curBuf = _
    rw [hlines]
    exact hs.lines
  · show n ≤ (s.written ++ [line] ++ s.nextBuf.drop (done + 1)).length
    rw [hlines]
    exact htaken n hn h
  · simp

/-- The end of `flush_buf`. -/
theorem Inv.clear (hs : Inv s) {last : Bool} {done : Nat}
    (hbackend : s.backend = .flushing last done) (hline : s.nextBuf[done]? = none) :
    Inv { s with nextBuf := [], backend := if last then .exited else .test } := by
  have hnone : s.unwritten = [] := by
    simp only [unwritten, hbackend]
    exact List.drop_eq_nil_of_le (List.getElem?_eq_none_iff.1 hline)
  have hlines := hs.lines
  have hstate := hs.halted
  have htaken := hs.taken
  rw [hnone, List.append_nil] at hlines htaken
  rw [hbackend] at hstate htaken
  have hend : s.written ++ [] ++ s.curBuf = s.appended := by rw [List.append_nil, hlines]
  cases last with
  | false => exact ⟨hend, fun _ => rfl, nofun, hs.halting, hs.called, nofun, hs.stopped⟩
  | true =>
      refine ⟨hend, fun _ => rfl, hstate, hs.halting, hs.called, fun n hn _ => ?_, hs.stopped⟩
      show n ≤ (s.written ++ []).length
      rw [List.append_nil]
      exact htaken n hn rfl

/-- The test for lines behind a swap. -/
theorem Inv.after_swap (hs : Inv s) {last : Bool} (hbackend : s.backend = .swapped last) :
    Inv { s with
      backend :=
        if s.nextBuf ≠ [] then .flushing last 0 else if last then .exited else .test } := by
  have hstate := hs.halted
  rw [hbackend] at hstate
  by_cases hnext : s.nextBuf = []
  · rw [if_neg (not_not.2 hnext)]
    refine hs.control ?_ (fun _ => hnext) ?_ ?_
    · cases last <;> simp [unwritten, hbackend, hnext]
    · cases last <;> simp_all [Backend.left]
    · cases last <;> simp [Backend.final, hbackend]
  · rw [if_pos hnext]
    refine hs.control ?_ nofun hstate ?_
    · simp [unwritten, hbackend]
    · simp [Backend.final, hbackend]

/-- The last swap of the backend thread, which it leaves out if there is no line to take. -/
theorem Inv.leave (hs : Inv s) (hbackend : s.backend = .leaving) :
    Inv (if s.curBuf ≠ [] then
      { s with curBuf := s.nextBuf, nextBuf := s.curBuf, backend := .swapped true }
      else { s with backend := .swapped true }) := by
  have hnone : s.unwritten = [] := by simp [unwritten, hbackend]
  have hnext := hs.empty (by rw [hbackend]; rfl)
  have hrunning := hs.halted (by rw [hbackend]; rfl)
  split
  · exact hs.swap hnone hnext fun _ => hrunning
  · rename_i hcur
    rw [ne_eq, not_not] at hcur
    -- two empty buffers are the same when they are swapped
    have hsame : { s with backend := .swapped true } =
        { s with curBuf := s.nextBuf, nextBuf := s.curBuf, backend := .swapped true } := by
      simp only [hcur, hnext]
    rw [hsame]
    exact hs.swap hnone hnext fun _ => hrunning

theorem inv_advance (hs : Inv s) : Inv (s.advance stamp now opens) := by
  unfold advance
  split
  · exact hs
  split
  · rename_i hbackend
    have hnext := hs.empty (by rw [hbackend]; rfl)
    refine hs.control ?_ (fun _ => hnext) ?_ ?_
    · cases s.running <;> simp [unwritten, hbackend]
    · cases s.running <;> simp [Backend.left]
    · cases s.running <;> simp [Backend.final]
  · rename_i hbackend
    exact hs.swap (by simp [unwritten, hbackend]) (hs.empty (by rw [hbackend]; rfl)) nofun
  · rename_i last hbackend
    exact hs.after_swap hbackend
  · rename_i last done hbackend
    split
    · rename_i line hline
      split
      · exact hs.write hbackend hline _
      · exact { hs with }
    · rename_i hline
      exact hs.clear hbackend hline
  · rename_i hbackend
    exact hs.leave hbackend
  · exact hs

theorem inv_step (hs : Inv s) (h : Step stamp s t) : Inv t := by
  cases h with
  | append _ line => exact inv_append hs line
  | start _ _ hexited hstopping hstopped _ =>
      have hlines := hs.lines
      simp only [unwritten, hexited] at hlines
      have hnext := hs.empty (by rw [hexited]; rfl)
      refine ⟨hlines, fun _ => hnext, nofun, fun n hn => ?_, hs.called, nofun, hs.stopped⟩
      rw [hstopping] at hn
      cases hn
  | stop _ hrunning =>
      -- the backend thread is still in its loop
      have hnot : s.backend.left = false := by
        by_contra h
        rw [hs.halted (Bool.not_eq_false _ ▸ h)] at hrunning
        cases hrunning
      have hfinal : s.backend.final = false := by
        cases hbackend : s.backend <;> simp_all [Backend.left, Backend.final]
      refine ⟨hs.lines, hs.empty, fun _ => rfl, fun _ _ => rfl, ?_, fun n _ h => ?_, hs.stopped⟩
      · intro n hn
        cases hn
        exact Nat.le_refl _
      · rw [hfinal] at h
        cases h
  | @join n _ _ hstopping hexited _ =>
      have htaken := hs.taken n hstopping (by rw [hexited]; rfl)
      simp only [unwritten, hexited, List.append_nil] at htaken
      refine ⟨hs.lines, hs.empty, hs.halted, nofun, nofun, nofun, ?_⟩
      intro m hm
      cases hm
      exact htaken
  | backend now opens => exact inv_advance hs

/-! ## The file -/

/-- A step of the backend thread leaves the file as it is, writes the next line of `next_buf_`, or
ends the process there. -/
inductive Advances (stamp : Int → Bytes) (now : Int) (opens : Bool) (s t : AsyncLogger) : Prop where
  | control (hfile : t.file = s.file) (hwritten : t.written = s.written)
      (haborted : t.aborted = s.aborted) (hstays : s.aborted = true → t = s)
  | wrote {last : Bool} {done : Nat} {line : Bytes} {file : RollingFile}
      (hbackend : s.backend = .flushing last done) (hline : s.nextBuf[done]? = some line)
      (hlives : s.aborted = false) (hwrite : s.file.writeLine stamp now opens line = .ok file)
      (ht : t = { s with
        file := file, written := s.written ++ [line], backend := .flushing last (done + 1) })
  | ended {last : Bool} {done : Nat} {line : Bytes} {file : RollingFile}
      (hbackend : s.backend = .flushing last done) (hline : s.nextBuf[done]? = some line)
      (hlives : s.aborted = false) (hwrite : s.file.writeLine stamp now opens line = .error file)
      (ht : t = { s with file := file, aborted := true })

theorem advances (stamp : Int → Bytes) (now : Int) (opens : Bool) (s : AsyncLogger) :
    Advances stamp now opens s (s.advance stamp now opens) := by
  unfold advance
  split
  · exact .control rfl rfl rfl fun _ => rfl
  rename_i hlives
  have hstays {t : AsyncLogger} : s.aborted = true → t = s := fun h => absurd h hlives
  rw [Bool.not_eq_true] at hlives
  split
  case h_4 last done hbackend =>
    split
    · rename_i line hline
      split
      · rename_i file hwrite
        exact .wrote hbackend hline hlives hwrite rfl
      · rename_i file hwrite
        exact .ended hbackend hline hlives hwrite rfl
    · exact .control rfl rfl rfl hstays
  case h_5 hbackend => split <;> exact .control rfl rfl rfl hstays
  all_goals exact .control rfl rfl rfl hstays

/-- What a step of the backend thread does not change. -/
theorem advance_frame (stamp : Int → Bytes) (now : Int) (opens : Bool) (s : AsyncLogger) :
    (s.advance stamp now opens).running = s.running ∧
      (s.advance stamp now opens).stopping = s.stopping ∧
      (s.advance stamp now opens).stopped = s.stopped ∧
      (s.advance stamp now opens).appended = s.appended := by
  unfold advance
  split
  · exact ⟨rfl, rfl, rfl, rfl⟩
  split
  case h_4 last done hbackend =>
    split
    · split <;> exact ⟨rfl, rfl, rfl, rfl⟩
    · exact ⟨rfl, rfl, rfl, rfl⟩
  case h_5 hbackend => split <;> exact ⟨rfl, rfl, rfl, rfl⟩
  all_goals exact ⟨rfl, rfl, rfl, rfl⟩

/-- The log file has been opened: all lines have been written to it, or the first of them that makes
the logger roll has ended the process. -/
inductive Opened (rollSize : Nat) (s : AsyncLogger) : Prop where
  | live {opening : Bytes} (hlives : s.aborted = false)
      (hf : s.file.Holds rollSize opening s.written)
      (hnever : RollingFile.NeverRolls rollSize s.written)
  | ended {last : Bool} {done : Nat} {line : Bytes} (haborted : s.aborted = true)
      (hfp : s.file.fp ≠ .stderr) (hbackend : s.backend = .flushing last done)
      (hline : s.nextBuf[done]? = some line)
      (hrolls : RollingFile.Rolls rollSize s.written line)

/-- The log file could not be opened, and the lines are written to `stderr`. -/
structure Diverted (s : AsyncLogger) : Prop where
  lives : s.aborted = false
  fp : s.file.fp = .stderr

theorem write_line_fp {f file : RollingFile} {line : Bytes}
    (h : f.writeLine stamp now opens line = .error file) (hfp : f.fp = .opened) :
    file.fp = .closed := by
  rw [RollingFile.write_line_opened hfp] at h
  split at h
  · cases h
    rfl
  · cases h

theorem Opened.advance {rollSize : Nat} (hs : Opened rollSize s) :
    Opened rollSize (s.advance stamp now opens) := by
  cases advances stamp now opens s with
  | control hfile hwritten haborted hstays =>
      cases hs with
      | live hlives hf hnever =>
          exact .live (haborted.trans hlives) (hfile ▸ hwritten ▸ hf) (hwritten ▸ hnever)
      | ended hended hfp hbackend hline hrolls =>
          rw [hstays hended]
          exact .ended hended hfp hbackend hline hrolls
  | @wrote last done line file hbackend hline hlives hwrite ht =>
      rw [ht]
      cases hs with
      | live _ hf hnever =>
          by_cases hrolls : RollingFile.Rolls rollSize s.written line
          · obtain ⟨file', hfile', -⟩ := hf.roll hrolls
            cases hwrite.symm.trans hfile'
          · obtain ⟨file', hfile', hholds⟩ := hf.write hrolls
            cases hwrite.symm.trans hfile'
            exact .live hlives hholds (RollingFile.never_rolls_concat_iff.2 ⟨hnever, hrolls⟩)
      | ended hended => cases hlives.symm.trans hended
  | @ended last done line file hbackend hline hlives hwrite ht =>
      rw [ht]
      cases hs with
      | live _ hf hnever =>
          by_cases hrolls : RollingFile.Rolls rollSize s.written line
          · have hclosed := write_line_fp hwrite hf.fp
            exact .ended rfl (by simp [hclosed]) hbackend hline hrolls
          · obtain ⟨file', hfile', -⟩ := hf.write hrolls
            cases hwrite.symm.trans hfile'
      | ended hended => cases hlives.symm.trans hended

theorem Diverted.advance (hs : Diverted s) : Diverted (s.advance stamp now opens) := by
  cases advances stamp now opens s with
  | control hfile _ haborted => exact ⟨haborted.trans hs.lives, hfile ▸ hs.fp⟩
  | wrote _ _ hlives hwrite ht =>
      rw [RollingFile.write_line_stderr hs.fp] at hwrite
      cases hwrite
      rw [ht]
      exact ⟨hlives, hs.fp⟩
  | ended _ _ _ hwrite =>
      rw [RollingFile.write_line_stderr hs.fp] at hwrite
      cases hwrite

/-- The life of the logger, as far as its file is concerned. -/
inductive FileState (rollSize : Nat) (s : AsyncLogger) : Prop where
  | created (hlives : s.aborted = false) (hfile : s.file.Unopened rollSize)
      (hwritten : s.written = [])
      (hbackend : s.backend = .exited) (hrunning : s.running = false)
        (hstopping : s.stopping = none)
  | started (hfile : Opened rollSize s ∨ Diverted s)
      (honce : s.running = true ∨ s.stopping ≠ none)
  | stopped (hbackend : s.backend = .exited) (hrunning : s.running = false)
      (hstopping : s.stopping = none) (hstopped : s.stopped ≠ none)

theorem file_state_advance {rollSize : Nat} (hs : FileState rollSize s) :
    FileState rollSize (s.advance stamp now opens) := by
  cases hs with
  | created hlives hfile hwritten hbackend hrunning hstopping =>
      have hsame : s.advance stamp now opens = s := by
        simp [advance, hlives, hbackend]
      rw [hsame]
      exact .created hlives hfile hwritten hbackend hrunning hstopping
  | started hfile honce =>
      obtain ⟨hrunning, hstopping, -, -⟩ := advance_frame stamp now opens s
      refine .started (hfile.imp (·.advance) (·.advance)) ?_
      rwa [hrunning, hstopping]
  | stopped hbackend hrunning hstopping hstopped =>
      have hsame : s.advance stamp now opens = s := by
        simp [advance, hbackend]
      rw [hsame]
      exact .stopped hbackend hrunning hstopping hstopped

theorem file_state_step {rollSize : Nat} (hs : FileState rollSize s) (hinv : Inv s)
    (h : Step stamp s t) : FileState rollSize t := by
  cases h with
  | append hlives line =>
      cases hs with
      | created hlives hfile hwritten hbackend hrunning hstopping =>
          exact .created hlives hfile hwritten hbackend hrunning hstopping
      | started hfile honce =>
          refine .started (hfile.imp (fun hopened => ?_) fun h => ⟨h.lives, h.fp⟩) honce
          cases hopened with
          | live hlives hf hnever => exact .live hlives hf hnever
          | ended haborted => cases hlives.symm.trans haborted
      | stopped hbackend hrunning hstopping hstopped =>
          exact .stopped hbackend hrunning hstopping hstopped
  | start opens hlives hexited hstopping hstopped hfile =>
      cases hs with
      | created _ hnew hwritten =>
          refine .started ?_ (.inl rfl)
          cases opens with
          | true =>
              obtain ⟨opened, hopened, hholds⟩ := hnew.open_file
              cases hfile.symm.trans hopened
              rw [← hwritten] at hholds
              exact .inl (.live hlives hholds (hwritten ▸ RollingFile.never_rolls_nil rollSize))
          | false =>
              cases hfile.symm.trans hnew.divert
              exact .inr ⟨hlives, rfl⟩
      | started _ honce =>
          have hrunning := hinv.halted (by rw [hexited]; rfl)
          rcases honce with honce | honce
          · cases hrunning.symm.trans honce
          · exact absurd hstopping honce
      | stopped _ _ _ hnone => exact absurd hstopped hnone
  | stop hlives hrunning =>
      cases hs with
      | created _ _ _ _ hnot => cases hnot.symm.trans hrunning
      | started hfile honce =>
          refine .started (hfile.imp (fun hopened => ?_) fun h => ⟨h.lives, h.fp⟩)
            (.inr (Option.some_ne_none _))
          cases hopened with
          | live hlives hf hnever => exact .live hlives hf hnever
          | ended haborted => cases hlives.symm.trans haborted
      | stopped _ hnot => cases hnot.symm.trans hrunning
  | join hlives hstopping hexited hfile =>
      exact .stopped hexited (hinv.halted (by rw [hexited]; rfl)) rfl (Option.some_ne_none _)
  | backend now opens => exact file_state_advance hs

theorem reachable_inv {filepath : Bytes} {rollSize : Nat} {disk : Disk}
    (h : Reachable stamp filepath rollSize disk s) : Inv s ∧ FileState rollSize s := by
  induction h with
  | refl => exact ⟨inv_start _, .created rfl ⟨rfl, rfl, rfl⟩ rfl rfl rfl rfl⟩
  | tail _ hstep ih => exact ⟨inv_step ih.1 hstep, file_state_step ih.2 ih.1 hstep⟩

/-! ## The end of the backend thread -/

/-- The lines that the backend thread writes up to its end if no more are appended: behind its last
swap those it has taken, and before it all of them. -/
def due (s : AsyncLogger) : List Bytes :=
  if s.backend.final then s.written ++ s.unwritten else s.appended

/-- The lines of `next_buf_` from one that is about to be written. -/
theorem drop_of_line {done : Nat} {line : Bytes} (h : s.nextBuf[done]? = some line) :
    s.nextBuf.drop done = line :: s.nextBuf.drop (done + 1) := by
  obtain ⟨hlt, rfl⟩ := List.getElem?_eq_some_iff.1 h
  exact List.drop_eq_getElem_cons hlt

/-- The backend thread of a logger that is not running keeps to these lines. -/
theorem due_advance (hs : Inv s) (hrunning : s.running = false) :
    (s.advance stamp now opens).due = s.due := by
  unfold advance
  split
  · rfl
  split
  · rename_i hbackend
    simp [due, hbackend, hrunning, Backend.final]
  · rename_i hbackend
    simp [due, hbackend, Backend.final]
  · rename_i last hbackend
    cases last <;> by_cases hnext : s.nextBuf = [] <;>
      simp [due, unwritten, hbackend, hnext, Backend.final]
  · rename_i last done hbackend
    split
    · rename_i line hline
      split
      · cases last <;> simp [due, unwritten, hbackend, Backend.final, drop_of_line hline]
      · rfl
    · rename_i hline
      have hdrop := List.drop_eq_nil_of_le (List.getElem?_eq_none_iff.1 hline)
      cases last <;> simp [due, unwritten, hbackend, Backend.final, hdrop]
  · rename_i hbackend
    -- the last swap takes all lines that are left
    have hnext := hs.empty (by rw [hbackend]; rfl)
    have hlines := hs.lines
    simp only [unwritten, hbackend, List.append_nil] at hlines
    split
    · simp [due, unwritten, hbackend, Backend.final, hlines]
    · rename_i hcur
      rw [ne_eq, not_not] at hcur
      rw [hcur, List.append_nil] at hlines
      simp [due, unwritten, hbackend, Backend.final, hnext, hlines]
  · rfl

/-- How many steps the backend thread makes at most before it ends, when the logger is not
running. -/
def remaining (s : AsyncLogger) : Nat :=
  match s.backend with
  | .exited => 0
  | .flushing true done => s.nextBuf.length - done + 1
  | .swapped true => s.nextBuf.length + 2
  | .leaving => s.curBuf.length + s.nextBuf.length + 3
  | .test => s.curBuf.length + s.nextBuf.length + 4
  | .flushing false done => s.curBuf.length + (s.nextBuf.length - done) + 5
  | .swapped false => s.curBuf.length + s.nextBuf.length + 6
  | .waiting => s.curBuf.length + s.nextBuf.length + 7

theorem remaining_advance (hrunning : s.running = false)
    (hlives : (s.advance stamp now opens).aborted = false) (h : s.backend ≠ .exited) :
    (s.advance stamp now opens).remaining < s.remaining := by
  unfold advance at hlives ⊢
  split at hlives <;> rename_i halive
  · cases halive.symm.trans hlives
  rw [if_neg halive]
  split at hlives <;> rename_i hbackend
  · simp [remaining, hbackend, hrunning]
  · simp only [remaining, hbackend]
    omega
  · rename_i last
    cases last <;> by_cases hnext : s.nextBuf = [] <;> simp [remaining, hbackend, hnext]
  · rename_i last done
    split at hlives
    · rename_i line hline
      have hlt := (List.getElem?_eq_some_iff.1 hline).1
      split at hlives
      · cases last <;> simp only [remaining, hbackend] <;> omega
      · cases hlives
    · cases last <;> simp [remaining, hbackend]
  · split
    · simp only [remaining, hbackend]
      omega
    · simp only [remaining, hbackend]
      omega
  · exact absurd hbackend h

/-- The thread writes no line that is not due. -/
theorem due_of_flushing (hs : Inv s) {last : Bool} {done : Nat} {line : Bytes}
    (hbackend : s.backend = .flushing last done) (hline : s.nextBuf[done]? = some line) :
    s.written ++ [line] <+: s.due := by
  have hlines := hs.lines
  have htaken : s.written ++ s.unwritten = s.written ++ [line] ++ s.nextBuf.drop (done + 1) := by
    simp [unwritten, hbackend, drop_of_line hline]
  rw [htaken] at hlines
  unfold due
  split
  · rw [htaken]
    exact List.prefix_append _ _
  · rw [← hlines, List.append_assoc]
    exact List.prefix_append _ _

/-- At its end the thread has written all lines that were due. -/
theorem due_of_exited (hbackend : s.backend = .exited) : s.due = s.written := by
  simp [due, unwritten, hbackend, Backend.final]

/-- What holds of a logger that is being stopped, along the steps of the backend thread. -/
structure Halting (rollSize : Nat) (s : AsyncLogger) : Prop where
  inv : Inv s
  halted : s.running = false
  file : Opened rollSize s ∨ Diverted s

theorem Halting.advance {rollSize : Nat} (hs : Halting rollSize s) :
    Halting rollSize (s.advance stamp now opens) where
  inv := inv_advance hs.inv
  halted := (advance_frame stamp now opens s).1.trans hs.halted
  file := hs.file.imp (·.advance) (·.advance)

/-- A line that does not roll the file does not end the process. -/
theorem Halting.lives {rollSize : Nat} (hs : Halting rollSize s)
    (hdue : Diverted s ∨ RollingFile.NeverRolls rollSize s.due) : s.aborted = false := by
  rcases hs.file with hopened | hdiverted
  · cases hopened with
    | live hlives => exact hlives
    | ended haborted hfp hbackend hline hrolls =>
        rcases hdue with hdiverted | hnever
        · exact absurd hdiverted.fp hfp
        · exact absurd hrolls (hnever _ _ (due_of_flushing hs.inv hbackend hline))
  · exact hdiverted.lives

theorem Halting.exits {rollSize : Nat} (hs : Halting rollSize s)
    (hdue : Diverted s ∨ RollingFile.NeverRolls rollSize s.due) (stamp : Int → Bytes) (now : Int)
    (opens : Bool) : ∃ k, ((AsyncLogger.advance stamp now opens)^[k] s).backend = .exited := by
  induction hremaining : s.remaining using Nat.strong_induction_on generalizing s with
  | _ n ih =>
      by_cases h : s.backend = .exited
      · exact ⟨0, h⟩
      · have hnext : Halting rollSize (s.advance stamp now opens) := hs.advance
        have hdue' : Diverted (s.advance stamp now opens) ∨
            RollingFile.NeverRolls rollSize (s.advance stamp now opens).due := by
          rw [due_advance hs.inv hs.halted]
          exact hdue.imp_left (·.advance)
        have hlt := remaining_advance hs.halted (hnext.lives hdue') h
        obtain ⟨k, hk⟩ := ih _ (hremaining ▸ hlt) hnext hdue' rfl
        exact ⟨k + 1, hk⟩

/-- A thread that has come to its end has written all lines that were due. -/
theorem Halting.never_rolls {rollSize : Nat} (hs : Halting rollSize s) {k : Nat}
    (hexits : ((AsyncLogger.advance stamp now opens)^[k] s).backend = .exited) :
    Diverted s ∨ RollingFile.NeverRolls rollSize s.due := by
  induction k generalizing s with
  | zero =>
      have hbackend : s.backend = .exited := hexits
      rcases hs.file with hopened | hdiverted
      · cases hopened with
        | live _ _ hnever => exact .inr (by rwa [due_of_exited hbackend])
        | ended _ _ hflushing => cases hbackend.symm.trans hflushing
      · exact .inl hdiverted
  | succ k ih =>
      rcases hs.file with hopened | hdiverted
      · have hdue : (s.advance stamp now opens).due = s.due := due_advance hs.inv hs.halted
        have hnext : Opened rollSize (s.advance stamp now opens) := hopened.advance
        refine .inr (hdue ▸ (ih hs.advance hexits).resolve_left fun hdiverted => ?_)
        cases hnext with
        | live _ hf => cases hf.fp.symm.trans hdiverted.fp
        | ended haborted => cases haborted.symm.trans hdiverted.lives
      · exact .inl hdiverted

/-- The lines are written in the order in which they have been appended, each one once, and all
lines that had been appended when `stop` was called are written when it has returned. While it
waits, the backend thread goes on to its end exactly if the log file could not be opened, or none of
the lines that are due makes the logger roll. -/
theorem lines_handed_over (stamp : Int → Bytes) (filepath : Bytes) (rollSize : Nat) (disk : Disk)
    (s : AsyncLogger) (h : Reachable stamp filepath rollSize disk s) :
    s.written <+: s.appended ∧
    (∀ n, s.stopped = some n → s.appended.take n <+: s.written) ∧
    ∀ n, s.stopping = some n → s.appended.take n <+: s.due ∧ ∀ now opens,
      ((∃ k, ((advance stamp now opens)^[k] s).backend = .exited) ↔
        s.file.fp = .stderr ∨ RollingFile.NeverRolls rollSize s.due) := by
  obtain ⟨hs, hfile⟩ := reachable_inv h
  have hpre : s.written <+: s.appended := by
    rw [← hs.lines, List.append_assoc]
    exact List.prefix_append _ _
  refine ⟨hpre, fun n hn => ?_, fun n hn => ⟨?_, fun now opens => ?_⟩⟩
  · refine List.prefix_of_prefix_length_le (List.take_prefix n _) hpre ?_
    rw [List.length_take]
    exact (Nat.min_le_left _ _).trans (hs.stopped n hn)
  · unfold due
    split
    · rename_i hfinal
      have htaken : s.written ++ s.unwritten <+: s.appended := hs.lines ▸ List.prefix_append _ _
      refine List.prefix_of_prefix_length_le (List.take_prefix n _) htaken ?_
      rw [List.length_take]
      exact (Nat.min_le_left _ _).trans (hs.taken n hn hfinal)
    · exact List.take_prefix n _
  · cases hfile with
    | created _ _ _ _ _ hstopping => cases hn.symm.trans hstopping
    | stopped _ _ hstopping => cases hn.symm.trans hstopping
    | started hstarted =>
        have hhalting : Halting rollSize s := ⟨hs, hs.halting n hn, hstarted⟩
        have hdiverted : s.file.fp = .stderr ↔ Diverted s := by
          refine ⟨fun hfp => ?_, fun h => h.fp⟩
          rcases hstarted with hopened | h
          · cases hopened with
            | live _ hf => cases hf.fp.symm.trans hfp
            | ended _ hne => exact absurd hfp hne
          · exact h
        rw [hdiverted]
        refine ⟨?_, fun hdue => hhalting.exits hdue stamp now opens⟩
        rintro ⟨k, hk⟩
        exact hhalting.never_rolls hk

/-- A fixed local time. -/
def noon (_ : Int) : Bytes :=
  ascii "20260101_120000"

/-- Two lines have been appended, and the logger has been started and stopped. -/
theorem lines_handed_over_stopped : ∃ s, Reachable noon (ascii "gateway.log") 10 (fun _ => none) s ∧
    s.stopped = some 2 ∧ [ascii "up", ascii "down"] <+: s.written := by
  have hfirst : Reachable noon (ascii "gateway.log") 10 (fun _ => none) _ :=
    .single (.append rfl (ascii "up"))
  have hstarted : Reachable noon _ 10 _ _ := hfirst.tail (.start true rfl rfl rfl rfl rfl)
  have hsecond : Reachable noon _ 10 _ _ := hstarted.tail (.append rfl (ascii "down"))
  have hstopping : Reachable noon _ 10 _ _ := hsecond.tail (.stop rfl rfl)
  have hleaving : Reachable noon _ 10 _ _ := hstopping.tail (.backend 0 true)
  have hswapped : Reachable noon _ 10 _ _ := hleaving.tail (.backend 0 true)
  have hflushing : Reachable noon _ 10 _ _ := hswapped.tail (.backend 0 true)
  have hone : Reachable noon _ 10 _ _ := hflushing.tail (.backend 0 true)
  have htwo : Reachable noon _ 10 _ _ := hone.tail (.backend 0 true)
  have hexited : Reachable noon _ 10 _ _ := htwo.tail (.backend 0 true)
  have hstopped : Reachable noon _ 10 _ _ := hexited.tail (.join rfl rfl rfl rfl)
  exact ⟨_, hstopped, rfl, (lines_handed_over _ _ _ _ _ hstopped).2.1 2 rfl⟩

/-- No thread goes on in a process that has ended. -/
theorem step_of_aborted (haborted : s.aborted = true) (h : Step stamp s t) : t = s := by
  cases h with
  | append hlives => cases haborted.symm.trans hlives
  | start _ hlives => cases haborted.symm.trans hlives
  | stop hlives => cases haborted.symm.trans hlives
  | join hlives => cases haborted.symm.trans hlives
  | backend => exact if_pos haborted

/-- The second of two lines makes the logger roll. The process ends in `flush_buf`, the line is
never passed on, and `stop` does not return. -/
theorem line_never_written : ∃ s, Reachable noon (ascii "gateway.log") 4 (fun _ => none) s ∧
    s.appended = [ascii "abc", ascii "def"] ∧ s.stopping = some 2 ∧ s.written = [ascii "abc"] ∧
    ∀ t, Step noon s t → t = s := by
  have hfirst : Reachable noon (ascii "gateway.log") 4 (fun _ => none) _ :=
    .single (.append rfl (ascii "abc"))
  have hsecond : Reachable noon _ 4 _ _ := hfirst.tail (.append rfl (ascii "def"))
  have hstarted : Reachable noon _ 4 _ _ := hsecond.tail (.start true rfl rfl rfl rfl rfl)
  have hstopping : Reachable noon _ 4 _ _ := hstarted.tail (.stop rfl rfl)
  have hleaving : Reachable noon _ 4 _ _ := hstopping.tail (.backend 0 true)
  have hswapped : Reachable noon _ 4 _ _ := hleaving.tail (.backend 0 true)
  have hflushing : Reachable noon _ 4 _ _ := hswapped.tail (.backend 0 true)
  have hone : Reachable noon _ 4 _ _ := hflushing.tail (.backend 0 true)
  have htwo : Reachable noon _ 4 _ _ := hone.tail (.backend 0 true)
  exact ⟨_, htwo, rfl, rfl, rfl, fun t ht => step_of_aborted rfl ht⟩

end AsyncLogger

end ApiGateway.Logger

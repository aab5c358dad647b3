import ApiGateway.Utils.ParseInt

/-!
# The log file and its rolls

`flush_buf`, `open_file` and `roll_file` of `async_logger.cpp`, over a file system in which `rename`
replaces a file that has the new name already. `roll_file` closes the file and leaves its pointer in
`fp_`; `open_file`, which it calls then, closes what `fp_` points to once more. A second `fclose` is
undefined, and the process ends there (`write_line_opened`), so no roll ever comes to its end. The
main results are `no_line_lost_iff`, that every line is on the disk exactly if none of them makes
the logger roll, and `roll_size_respected_iff`, when the active file stays within its limit until
then: the test before a line leaves out its newline, and what the file held when it was opened.
-/

namespace ApiGateway.Logger

/-- The files on the disk with their contents. -/
abbrev Disk := Bytes → Option Bytes

/-- The contents of a file; there are none if it does not exist. -/
def Disk.contents (disk : Disk) (name : Bytes) : Bytes :=
  (disk name).getD []

/-- `fopen` in mode `"a"`, which creates a file that does not exist. -/
def Disk.openAppend (disk : Disk) (name : Bytes) : Disk :=
  Function.update disk name (some (disk.contents name))

/-- `fwrite` to a file that has been opened in this mode, up to the next `fflush` or `fclose`. -/
def Disk.append (disk : Disk) (name bytes : Bytes) : Disk :=
  Function.update disk name (some (disk.contents name ++ bytes))

/-- `rename`, which replaces a file with the new name. -/
def Disk.rename (disk : Disk) (old new : Bytes) : Disk :=
  if old = new then disk else Function.update (Function.update disk new (disk old)) old none

/-- What `fp_` points to: nothing, an open file, a `FILE` that has been closed, or `stderr`. -/
inductive FilePointer where
  | null
  | opened
  | closed
  | stderr
  deriving DecidableEq

/-- The fields of `AsyncLogger` that concern its file, the disk, and the names of the rolled files
in the order of their rolls. -/
structure RollingFile where
  filepath : Bytes
  rollSize : Nat
  fp : FilePointer := .null
  writtenBytes : Nat := 0
  disk : Disk
  rolled : List Bytes := []

/-- The end of a function that works on the file: it returns, or the process ends in it and leaves
the file as it is at that point. -/
abbrev FileResult := Except RollingFile RollingFile

namespace RollingFile

/-- What is left of the file in either case. -/
def left : FileResult → RollingFile
  | .ok f => f
  | .error f => f

/-- `fclose(fp_)`. The pointer stays as it is, and closing it a second time ends the process. -/
def fclose (f : RollingFile) : FileResult :=
  if f.fp = .null ∨ f.fp = .closed then .error f else .ok { f with fp := .closed }

/-- `open_file`; `opens` tells whether `fopen` succeeds. -/
def openFile (opens : Bool) (f : RollingFile) : FileResult := do
  let f ← if f.fp ≠ .null then f.fclose else .ok f
  if opens then
    .ok { f with fp := .opened, disk := f.disk.openAppend f.filepath, writtenBytes := 0 }
  else .ok { f with fp := .stderr }

/-- The name for a roll. `stamp` is the local time as `strftime` writes it in `roll_file`. -/
def rollName (stamp : Int → Bytes) (f : RollingFile) (now : Int) : Bytes :=
  f.filepath ++ ascii "." ++ stamp now

/-- `roll_file`. A file that it replaces is no longer among the rolled ones. -/
def rollFile (stamp : Int → Bytes) (now : Int) (opens : Bool) (f : RollingFile) : FileResult :=
  if f.fp = .null ∨ f.fp = .stderr then .ok f
  else do
    let f ← f.fclose
    openFile opens
      { f with
        disk := f.disk.rename f.filepath (f.rollName stamp now)
        rolled := f.rolled.erase (f.rollName stamp now) ++ [f.rollName stamp now] }

/-- The test of `flush_buf` before a line of the given length is written. -/
def mustRoll (f : RollingFile) (len : Nat) : Bool :=
  0 < f.rollSize && f.rollSize < (f.writtenBytes + len) % 2 ^ 64

/-- The two `fwrite` calls of `flush_buf`, and the count of what has been written. -/
def put (line : Bytes) (f : RollingFile) : FileResult :=
  let written := (f.writtenBytes + line.length + 1) % 2 ^ 64
  match f.fp with
  | .opened =>
      .ok { f with
        disk := f.disk.append f.filepath (line ++ ascii "\n"), writtenBytes := written }
  | .stderr => .ok { f with writtenBytes := written }
  | .null | .closed => .error f

/-- One pass of the loop of `flush_buf`, at the given time. -/
def writeLine (stamp : Int → Bytes) (now : Int) (opens : Bool) (line : Bytes) (f : RollingFile) :
    FileResult := do
  let f ← if f.mustRoll line.length then f.rollFile stamp now opens else .ok f
  f.put line

/-- The lines that are flushed one after the other, in whatever calls of `flush_buf`, with the times
of their writing, while all file operations succeed. -/
def flush (stamp : Int → Bytes) (lines : List (Int × Bytes)) (f : RollingFile) : FileResult :=
  lines.foldlM (fun f entry => f.writeLine stamp entry.1 true entry.2) f

/-- A logger that is started, and the lines that are flushed to its file. -/
def log (stamp : Int → Bytes) (filepath : Bytes) (rollSize : Nat) (disk : Disk)
    (lines : List (Int × Bytes)) : FileResult := do
  let f ← openFile true { filepath, rollSize, disk }
  f.flush stamp lines

/-- The contents of the active file. -/
def active (f : RollingFile) : Bytes :=
  f.disk.contents f.filepath

/-- What can be read afterwards: the rolled files in the order of their rolls, and the
active file. -/
def onDisk (f : RollingFile) : Bytes :=
  f.rolled.flatMap f.disk.contents ++ f.active

/-- The lines with their newlines. -/
def flushed (lines : List Bytes) : Bytes :=
  lines.flatMap (· ++ ascii "\n")

/-- A line, written to a file that has been opened for the lines before it, makes the
logger roll. -/
def Rolls (rollSize : Nat) (before : List Bytes) (line : Bytes) : Prop :=
  0 < rollSize ∧ rollSize < ((flushed before).length + line.length) % 2 ^ 64

/-- None of the lines does so. -/
def NeverRolls (rollSize : Nat) (lines : List Bytes) : Prop :=
  ∀ before line, before ++ [line] <+: lines → ¬ Rolls rollSize before line

variable {stamp : Int → Bytes} {f : RollingFile} {now : Int} {opens : Bool} {line : Bytes}
  {rollSize : Nat} {lines : List Bytes}

/-! ## Files -/

theorem contents_append_self (disk : Disk) (name bytes : Bytes) :
    (disk.append name bytes).contents name = disk.contents name ++ bytes := by
  simp [Disk.append, Disk.contents]

theorem contents_open_append (disk : Disk) (name : Bytes) :
    (disk.openAppend name).contents = disk.contents := by
  funext other
  by_cases h : other = name
  · subst h
    simp [Disk.openAppend, Disk.contents]
  · simp [Disk.openAppend, Disk.contents, h]

theorem contents_rename_old (disk : Disk) {old new : Bytes} (h : old ≠ new) :
    (disk.rename old new).contents old = [] := by
  simp [Disk.rename, Disk.contents, h]

theorem contents_rename_new (disk : Disk) {old new : Bytes} (h : old ≠ new) :
    (disk.rename old new).contents new = disk.contents old := by
  simp [Disk.rename, Disk.contents, h, h.symm]

/-- A rolled file has a longer name than the active one. -/
theorem roll_name_ne : f.filepath ≠ f.rollName stamp now := by
  intro h
  have hlength := congrArg List.length h
  simp [rollName, ascii] at hlength

/-! ## Lines that roll -/

theorem flushed_concat (lines : List Bytes) (line : Bytes) :
    flushed (lines ++ [line]) = flushed lines ++ (line ++ ascii "\n") := by
  simp [flushed]

theorem length_flushed_concat (lines : List Bytes) (line : Bytes) :
    (flushed (lines ++ [line])).length = (flushed lines).length + line.length + 1 := by
  rw [flushed_concat, List.length_append, List.length_append]
  rfl

theorem length_flushed_le {before : List Bytes} (h : before <+: lines) :
    (flushed before).length ≤ (flushed lines).length := by
  obtain ⟨rest, rfl⟩ := h
  simp [flushed]

theorem NeverRolls.mono {before : List Bytes} (h : NeverRolls rollSize lines)
    (hbefore : before <+: lines) : NeverRolls rollSize before :=
  fun first line hline => h first line (hline.trans hbefore)

theorem never_rolls_nil (rollSize : Nat) : NeverRolls rollSize [] := by
  intro before line h
  simp at h

theorem never_rolls_concat_iff :
    NeverRolls rollSize (lines ++ [line]) ↔
      NeverRolls rollSize lines ∧ ¬ Rolls rollSize lines line := by
  refine ⟨fun h => ⟨h.mono (List.prefix_append _ _), h lines line (List.prefix_refl _)⟩, ?_⟩
  rintro ⟨hlines, hline⟩ before last hpre
  rcases List.prefix_concat_iff.1 hpre with heq | hbefore
  · obtain ⟨rfl, hlast⟩ := List.append_inj' heq rfl
    cases hlast
    exact hline
  · exact hlines before last hbefore

/-! ## One line -/

/-- Every line that makes the logger roll ends the process: the file has been renamed and closed,
and is closed once more. -/
theorem write_line_opened (h : f.fp = .opened) :
    f.writeLine stamp now opens line =
      if f.mustRoll line.length then
        .error { f with
          fp := .closed
          disk := f.disk.rename f.filepath (f.rollName stamp now)
          rolled := f.rolled.erase (f.rollName stamp now) ++ [f.rollName stamp now] }
      else
        .ok { f with
          disk := f.disk.append f.filepath (line ++ ascii "\n")
          writtenBytes := (f.writtenBytes + line.length + 1) % 2 ^ 64 } := by
  unfold writeLine
  split
  · have hclose : f.fclose = .ok { f with fp := .closed } := by
      unfold fclose
      rw [if_neg (by simp [h])]
    unfold rollFile
    rw [if_neg (by simp [h]), hclose]
    rfl
  · show f.put line = _
    unfold put
    rw [h]

theorem write_line_stderr (h : f.fp = .stderr) :
    f.writeLine stamp now opens line =
      .ok { f with writtenBytes := (f.writtenBytes + line.length + 1) % 2 ^ 64 } := by
  have hroll : f.rollFile stamp now opens = .ok f := if_pos (.inr h)
  unfold writeLine
  rw [hroll, ite_self]
  show f.put line = _
  unfold put
  rw [h]

/-! ## All lines -/

/-- The file after lines that have all been written: `opening` was in it when it was opened. -/
structure Holds (rollSize : Nat) (opening : Bytes) (lines : List Bytes) (f : RollingFile) :
    Prop where
  fp : f.fp = .opened
  size : f.rollSize = rollSize
  written : f.writtenBytes = (flushed lines).length % 2 ^ 64
  active : f.active = opening ++ flushed lines
  rolled : f.rolled = []

/-- A file that has not been opened yet. -/
structure Unopened (rollSize : Nat) (f : RollingFile) : Prop where
  fp : f.fp = .null
  size : f.rollSize = rollSize
  rolled : f.rolled = []

theorem Unopened.open_file (h : Unopened rollSize f) :
    ∃ f', f.openFile true = .ok f' ∧ Holds rollSize f.active [] f' := by
  have hopen : f.openFile true =
      .ok { f with fp := .opened, disk := f.disk.openAppend f.filepath, writtenBytes := 0 } := by
    unfold openFile
    rw [if_neg (by simp [h.fp])]
    rfl
  refine ⟨_, hopen, rfl, h.size, rfl, ?_, h.rolled⟩
  show (f.disk.openAppend f.filepath).contents f.filepath = _
  rw [contents_open_append]
  exact (List.append_nil _).symm

theorem Unopened.divert (h : Unopened rollSize f) :
    f.openFile false = .ok { f with fp := .stderr } := by
  unfold openFile
  rw [if_neg (by simp [h.fp])]
  rfl

theorem Holds.must_roll_iff {opening : Bytes} (h : Holds rollSize opening lines f) :
    f.mustRoll line.length = true ↔ Rolls rollSize lines line := by
  simp [mustRoll, Rolls, h.size, h.written]

theorem Holds.write {opening : Bytes} (h : Holds rollSize opening lines f)
    (hline : ¬ Rolls rollSize lines line) :
    ∃ f', f.writeLine stamp now opens line = .ok f' ∧
      Holds rollSize opening (lines ++ [line]) f' := by
  rw [write_line_opened h.fp, if_neg (h.must_roll_iff.not.2 hline)]
  refine ⟨_, rfl, h.fp, h.size, ?_, ?_, h.rolled⟩
  · show (f.writtenBytes + line.length + 1) % 2 ^ 64 = _
    rw [h.written, length_flushed_concat]
    omega
  · show (f.disk.append f.filepath (line ++ ascii "\n")).contents f.filepath = _
    rw [contents_append_self, flushed_concat, ← List.append_assoc opening, ← h.active]
    rfl

/-- What was written before a roll is in the rolled file, and the line that has led to it is
nowhere. -/
theorem Holds.roll {opening : Bytes} (h : Holds rollSize opening lines f)
    (hline : Rolls rollSize lines line) :
    ∃ f', f.writeLine stamp now opens line = .error f' ∧
      f'.onDisk = opening ++ flushed lines := by
  rw [write_line_opened h.fp, if_pos (h.must_roll_iff.2 hline)]
  refine ⟨_, rfl, ?_⟩
  show (f.rolled.erase _ ++ [f.rollName stamp now]).flatMap
      (f.disk.rename f.filepath (f.rollName stamp now)).contents ++
    (f.disk.rename f.filepath (f.rollName stamp now)).contents f.filepath = _
  rw [h.rolled, contents_rename_old _ roll_name_ne, List.append_nil, ← h.active]
  simp only [List.erase_nil, List.nil_append, List.flatMap_singleton,
    contents_rename_new _ roll_name_ne]
  rfl

/-- How a run of the logger ends: all lines have been written, or the first of those that make it
roll has ended the process. -/
inductive Logged (rollSize : Nat) (opening : Bytes) (lines : List Bytes) : FileResult → Prop where
  | written {f : RollingFile} (hnever : NeverRolls rollSize lines)
      (hf : Holds rollSize opening lines f) : Logged rollSize opening lines (.ok f)
  | ended {before : List Bytes} {line : Bytes} {f : RollingFile}
      (hbefore : before ++ [line] <+: lines) (hline : Rolls rollSize before line)
      (hdisk : f.onDisk = opening ++ flushed before) :
      Logged rollSize opening lines (.error f)

theorem log_concat (stamp : Int → Bytes) (filepath : Bytes) (rollSize : Nat) (disk : Disk)
    (entries : List (Int × Bytes)) (now : Int) (line : Bytes) :
    log stamp filepath rollSize disk (entries ++ [(now, line)]) =
      log stamp filepath rollSize disk entries >>= writeLine stamp now true line := by
  simp [log, flush]

theorem logged (stamp : Int → Bytes) (filepath : Bytes) (rollSize : Nat) (disk : Disk)
    (entries : List (Int × Bytes)) :
    Logged rollSize (disk.contents filepath) (entries.map Prod.snd)
      (log stamp filepath rollSize disk entries) := by
  induction entries using List.reverseRecOn with
  | nil =>
      have hnew : Unopened rollSize { filepath, rollSize, disk } := ⟨rfl, rfl, rfl⟩
      obtain ⟨f, hopen, hholds⟩ := hnew.open_file
      have hlog : log stamp filepath rollSize disk [] = .ok f := by
        rw [log, hopen]
        rfl
      rw [hlog]
      exact .written (never_rolls_nil rollSize) hholds
  | append_singleton entries entry ih =>
      rw [log_concat, List.map_append]
      generalize log stamp filepath rollSize disk entries = result at ih
      cases ih with
      | written hnever hf =>
          by_cases hline : Rolls rollSize (entries.map Prod.snd) entry.2
          · obtain ⟨f', hf', hdisk⟩ := hf.roll hline
            show Logged _ _ _ (writeLine _ _ _ _ _)
            rw [hf']
            exact .ended (List.prefix_refl _) hline hdisk
          · obtain ⟨f', hf', hholds⟩ := hf.write hline
            show Logged _ _ _ (writeLine _ _ _ _ _)
            rw [hf']
            exact .written (never_rolls_concat_iff.2 ⟨hnever, hline⟩) hholds
      | ended hbefore hline hdisk =>
          exact .ended (hbefore.trans (List.prefix_append _ _)) hline hdisk

/-- The rolled files and the active file hold what was in the file at the start and every line that
has been given to the logger, exactly if no line makes it roll. -/
theorem no_line_lost_iff (stamp : Int → Bytes) (filepath : Bytes) (rollSize : Nat) (disk : Disk)
    (lines : List (Int × Bytes)) :
    (left (log stamp filepath rollSize disk lines)).onDisk =
        disk.contents filepath ++ flushed (lines.map Prod.snd) ↔
      NeverRolls rollSize (lines.map Prod.snd) := by
  have hlogged := logged stamp filepath rollSize disk lines
  generalize log stamp filepath rollSize disk lines = result at hlogged
  cases hlogged with
  | @written f hnever hf =>
      refine iff_of_true ?_ hnever
      show f.rolled.flatMap f.disk.contents ++ f.active = _
      rw [hf.rolled, hf.active]
      rfl
  | @ended before line f hbefore hline hdisk =>
      -- the line itself is missing
      refine iff_of_false (fun heq => ?_) fun hnever => hnever before line hbefore hline
      have hle := length_flushed_le hbefore
      have hlength := congrArg List.length (hdisk.symm.trans heq)
      rw [length_flushed_concat] at hle
      rw [List.length_append, List.length_append] at hlength
      omega

/-- The second of two lines makes the logger roll: the process ends, and the line is lost. -/
theorem line_lost :
    (left (log (fun _ => ascii "20260101_120000") (ascii "gateway.log") 4 (fun _ => none)
      [(0, ascii "abc"), (0, ascii "def")])).onDisk = ascii "abc\n" ∧
    (log (fun _ => ascii "20260101_120000") (ascii "gateway.log") 4 (fun _ => none)
      [(0, ascii "abc"), (0, ascii "def")]).isOk = false ∧
    flushed [ascii "abc", ascii "def"] = ascii "abc\ndef\n" := by
  decide

/-! ## The size of the active file -/

/-- No line but the first fills an empty file exactly up to the limit, before its newline. -/
def FillsNone (rollSize : Nat) (lines : List Bytes) : Prop :=
  ∀ before line, before ≠ [] → before ++ [line] <+: lines →
    NeverRolls rollSize (before ++ [line]) → (flushed before).length + line.length ≠ rollSize

/-- What was in the file at the start and the lines that are written before the first roll fit
together. -/
def FitsTogether (rollSize : Nat) (opening : Bytes) (lines : List Bytes) : Prop :=
  ∀ before, before ≠ [] → before <+: lines → NeverRolls rollSize before →
    opening.length + (flushed before).length ≤ rollSize

/-- The file is within the limit, or consists of the line that has been written last. -/
def Respects (rollSize : Nat) (line : Bytes) (f : RollingFile) : Prop :=
  f.active.length ≤ rollSize ∨ f.active = line ++ ascii "\n"

theorem Holds.respects_iff {opening : Bytes} (h : Holds rollSize opening (lines ++ [line]) f) :
    f.Respects rollSize line ↔
      opening.length + (flushed lines).length + line.length + 1 ≤ rollSize ∨
        opening = [] ∧ lines = [] := by
  have hempty : flushed lines = [] ↔ lines = [] := by
    cases lines <;> simp [flushed, ascii]
  unfold Respects
  rw [h.active, flushed_concat, ← List.append_assoc, List.append_left_eq_self,
    List.append_eq_nil_iff, hempty]
  refine or_congr_left ?_
  simp only [List.length_append]
  rfl

/-- A line that is written in a run of fewer than `2 ^ 64` bytes has been found to fit. -/
theorem length_le_of_never_rolls (hpos : 0 < rollSize)
    (hbytes : (flushed (lines ++ [line])).length < 2 ^ 64)
    (h : NeverRolls rollSize (lines ++ [line])) :
    (flushed lines).length + line.length ≤ rollSize := by
  have hline := (never_rolls_concat_iff.1 h).2
  rw [length_flushed_concat] at hbytes
  rw [Rolls, Nat.mod_eq_of_lt (by omega)] at hline
  omega

/-- The limit is respected after every line, in terms of the lines. -/
theorem respects_each_iff {filepath : Bytes} {disk : Disk} {entries : List (Int × Bytes)} :
    (∀ before now line f, before ++ [(now, line)] <+: entries →
      log stamp filepath rollSize disk (before ++ [(now, line)]) = .ok f →
        f.Respects rollSize line) ↔
      ∀ before line, before ++ [line] <+: entries.map Prod.snd →
        NeverRolls rollSize (before ++ [line]) →
          (disk.contents filepath).length + (flushed before).length + line.length + 1 ≤ rollSize ∨
            disk.contents filepath = [] ∧ before = [] := by
  constructor
  · intro heach before line hpre hnever
    obtain ⟨first, hfirst, hmap⟩ := List.prefix_map_iff.1 hpre
    obtain ⟨earlier, ⟨now, last⟩, rfl⟩ := (List.eq_nil_or_concat' first).resolve_left
      (fun hnil : first = [] => by simp [hnil] at hmap)
    rw [List.map_append] at hmap
    obtain ⟨rfl, hlast⟩ := List.append_inj' hmap rfl
    cases hlast
    have hlogged := logged stamp filepath rollSize disk (earlier ++ [(now, last)])
    rw [List.map_append] at hlogged
    generalize hresult : log stamp filepath rollSize disk (earlier ++ [(now, last)]) = result
      at hlogged
    cases hlogged with
    | written _ hf => exact hf.respects_iff.1 (heach earlier now last _ hfirst hresult)
    | ended hbefore hline => exact absurd hline (hnever _ _ hbefore)
  · intro heach before now line f hpre hresult
    have hlogged := logged stamp filepath rollSize disk (before ++ [(now, line)])
    rw [hresult, List.map_append] at hlogged
    cases hlogged with
    | written hnever hf =>
        refine hf.respects_iff.2 (heach _ _ ?_ hnever)
        rw [← List.map_singleton, ← List.map_append]
        exact hpre.map Prod.snd

/-- After each line that is written, the active file is within the limit or consists of that line,
exactly if the file was empty at the start and no line but the first fills it up to the limit, or
what was in it and the lines written before the first roll fit together. -/
theorem roll_size_respected_iff (stamp : Int → Bytes) (filepath : Bytes) (rollSize : Nat)
    (hpos : 0 < rollSize) (disk : Disk) (lines : List (Int × Bytes))
    (hbytes : (flushed (lines.map Prod.snd)).length < 2 ^ 64) :
    (∀ before now line f, before ++ [(now, line)] <+: lines →
      log stamp filepath rollSize disk (before ++ [(now, line)]) = .ok f →
        f.Respects rollSize line) ↔
      disk.contents filepath = [] ∧ FillsNone rollSize (lines.map Prod.snd) ∨
        FitsTogether rollSize (disk.contents filepath) (lines.map Prod.snd) := by
  rw [respects_each_iff]
  generalize lines.map Prod.snd = lines at hbytes
  constructor
  · intro heach
    by_cases hopening : disk.contents filepath = []
    · refine .inl ⟨hopening, fun before line hne hpre hnever heq => ?_⟩
      rcases heach before line hpre hnever with hfits | ⟨-, hnone⟩
      · rw [hopening, List.length_nil] at hfits
        omega
      · exact hne hnone
    · refine .inr fun before hne hpre hnever => ?_
      obtain ⟨first, line, rfl⟩ := (List.eq_nil_or_concat' before).resolve_left hne
      rcases heach first line hpre hnever with hfits | ⟨hnone, -⟩
      · rw [length_flushed_concat]
        omega
      · exact absurd hnone hopening
  · rintro (⟨hopening, hfills⟩ | hfits) before line hpre hnever
    · by_cases hfirst : before = []
      · exact .inr ⟨hopening, hfirst⟩
      · have hle := length_le_of_never_rolls hpos
          ((length_flushed_le hpre).trans_lt hbytes) hnever
        have hne := hfills before line hfirst hpre hnever
        rw [hopening, List.length_nil]
        exact .inl (by omega)
    · have hle := hfits (before ++ [line]) (by simp) hpre hnever
      rw [length_flushed_concat] at hle
      exact .inl (by omega)

/-- Lines of two and one byte in an empty file of at most six. -/
theorem roll_size_respected_six :
    FillsNone 6 [ascii "ab", ascii "c"] ∧
    ∀ before now line f, before ++ [(now, line)] <+: [((0 : Int), ascii "ab"), (0, ascii "c")] →
      log (fun _ => ascii "20260101_120000") (ascii "gateway.log") 6 (fun _ => none)
        (before ++ [(now, line)]) = .ok f → f.Respects 6 line := by
  have hfills : FillsNone 6 [ascii "ab", ascii "c"] := by
    intro before line hne hpre _
    rcases List.prefix_concat_iff.1 (show before ++ [line] <+: [ascii "ab"] ++ [ascii "c"] from
      hpre) with heq | hshort
    · obtain ⟨rfl, hline⟩ := List.append_inj' heq rfl
      cases hline
      decide
    · have hlength := hshort.length_le
      rw [List.length_append, List.length_singleton, List.length_singleton] at hlength
      exact absurd (List.length_eq_zero_iff.1 (by omega)) hne
  exact ⟨hfills, (roll_size_respected_iff _ _ 6 (by decide) (fun _ => none)
    [(0, ascii "ab"), (0, ascii "c")] (by decide)).2 (.inl ⟨rfl, hfills⟩)⟩

/-- A line that fills the file up to the limit takes its newline beyond it, and what is in the file
at the start is not counted. -/
theorem roll_size_exceeded :
    (left (log (fun _ => ascii "20260101_120000") (ascii "gateway.log") 10 (fun _ => none)
      [(0, ascii "abcd"), (0, ascii "efghi")])).active = ascii "abcd\nefghi\n" ∧
    (left (log (fun _ => ascii "20260101_120000") (ascii "gateway.log") 10
      (fun _ => some (ascii "started\n")) [(0, ascii "abcd")])).active =
        ascii "started\nabcd\n" := by
  decide

end RollingFile

end ApiGateway.Logger

import ApiGateway.Http.Request

/-!
# Lines of a head

The head of a message is a sequence of lines with a line end between them. `linesOf` are the lines
of a byte string, and `joinFields` puts lines behind others. A search for a line end and a name
finds the first line that starts with the name (`cut_fields`), and a search for a blank line finds
the end of the head, also after more lines have been added (`cut_blank_line`).
-/

namespace ApiGateway.Http

open Search

/-- Lines with a line end before each. -/
def joinFields (fields : List Bytes) : Bytes :=
  (fields.map fun field => crlf ++ field).flatten

theorem join_fields_head (fields : List Bytes) : ∀ c ∈ (joinFields fields).head?, c = cr := by
  intro c hc
  cases fields with
  | nil => cases hc
  | cons field rest => exact (Option.some.inj hc).symm

section Fields

variable {name line tail : Bytes}

/-- A line end does not start in a line. -/
theorem crlf_not_in_line (hline : ¬ crlf <:+: line) (htail : ∀ c ∈ tail.head?, c = cr) {i : Nat}
    (hi : i < line.length) : ¬ crlf ++ name <+: (line ++ tail).drop i := by
  intro hpre
  rw [List.drop_append_of_le_length hi.le, List.drop_eq_getElem_cons hi] at hpre
  obtain ⟨hcr, hrest⟩ := List.cons_prefix_cons.1
    (show cr :: lf :: name <+: line.get ⟨i, hi⟩ :: (line.drop (i + 1) ++ tail) from hpre)
  cases hdrop : line.drop (i + 1) with
  | nil =>
      -- the line ends with a carriage return, and another one follows
      rw [hdrop, List.nil_append] at hrest
      obtain ⟨more, hmore⟩ := hrest
      have hhead := htail lf (by rw [← hmore]; rfl)
      exact absurd hhead (by decide)
  | cons y rest =>
      rw [hdrop, List.cons_append, List.cons_prefix_cons] at hrest
      have hwhole := List.take_append_drop i line
      rw [List.drop_eq_getElem_cons hi, hdrop] at hwhole
      refine hline ⟨line.take i, rest, ?_⟩
      rw [List.append_assoc]
      show line.take i ++ (cr :: lf :: rest) = line
      rw [hcr, hrest.1]
      exact hwhole

theorem cut_line (hline : ¬ crlf <:+: line) (htail : ∀ c ∈ tail.head?, c = cr) :
    cutSub (crlf ++ name) (line ++ tail) =
      (cutSub (crlf ++ name) tail).map fun parts => (line ++ parts.1, parts.2) :=
  cutSub_append_of_not_prefix fun _ hi => crlf_not_in_line hline htail hi

/-- A name that does not go over the end of a line stands in the line. -/
theorem name_in_line (hname : cr ∉ name) (htail : ∀ c ∈ tail.head?, c = cr)
    (hpre : name <+: line ++ tail) : name <+: line := by
  rcases Nat.le_total name.length line.length with hle | hle
  · exact List.prefix_of_prefix_length_le hpre (List.prefix_append line tail) hle
  · obtain ⟨more, rfl⟩ := List.prefix_of_prefix_length_le (List.prefix_append line tail) hpre hle
    rw [List.prefix_append_right_inj] at hpre
    cases more with
    | nil => simp
    | cons c more =>
        obtain ⟨rest, rfl⟩ := hpre
        have hc := htail c rfl
        exact absurd (List.mem_append_right line (hc ▸ List.mem_cons_self)) hname

/-- The search passes over a line if what comes after its line end does not start with the name. -/
theorem cut_field_miss (hmiss : ¬ name <+: line ++ tail) (hline : ¬ crlf <:+: line)
    (htail : ∀ c ∈ tail.head?, c = cr) :
    cutSub (crlf ++ name) (crlf ++ line ++ tail) =
      (cutSub (crlf ++ name) tail).map fun parts => (crlf ++ line ++ parts.1, parts.2) := by
  have hstart : ¬ crlf ++ name <+: cr :: (lf :: line ++ tail) := by
    intro hpre
    have hpre' : crlf ++ name <+: crlf ++ (line ++ tail) := hpre
    rw [List.prefix_append_right_inj] at hpre'
    exact hmiss hpre'
  have hline' : ¬ crlf <:+: lf :: line := by
    intro hpart
    rcases List.infix_cons_iff.1 hpart with hpre | hlater
    · exact absurd (List.cons_prefix_cons.1 hpre).1 (by decide)
    · exact hline hlater
  show cutSub (crlf ++ name) (cr :: (lf :: line ++ tail)) = _
  rw [cutSub_cons hstart, cut_line hline' htail, Option.map_map]
  rfl

/-- The search passes over lines of which none is where the name starts. -/
theorem cut_fields_skip {fields : List Bytes}
    (hfields : ∀ field ∈ fields, ¬ crlf <:+: field ∧
      ∀ tail : Bytes, (∀ c ∈ tail.head?, c = cr) → ¬ name <+: field ++ tail)
    (htail : ∀ c ∈ tail.head?, c = cr) :
    cutSub (crlf ++ name) (joinFields fields ++ tail) =
      (cutSub (crlf ++ name) tail).map fun parts => (joinFields fields ++ parts.1, parts.2) := by
  induction fields with
  | nil => simp [joinFields]
  | cons field rest ih =>
      obtain ⟨hline, hmiss⟩ := hfields field List.mem_cons_self
      have hhead : ∀ c ∈ (joinFields rest ++ tail).head?, c = cr := by
        cases rest with
        | nil => exact htail
        | cons next rest => exact join_fields_head (next :: rest)
      have hsplit : joinFields (field :: rest) ++ tail =
          crlf ++ field ++ (joinFields rest ++ tail) := by simp [joinFields]
      rw [hsplit, cut_field_miss (hmiss _ hhead) hline hhead,
        ih fun f hf => hfields f (List.mem_cons_of_mem field hf), Option.map_map]
      congr 1
      funext parts
      simp [joinFields]

theorem cut_fields_miss {fields : List Bytes} (hname : cr ∉ name)
    (hfields : ∀ field ∈ fields, ¬ crlf <:+: field ∧ ¬ name <+: field)
    (htail : ∀ c ∈ tail.head?, c = cr) :
    cutSub (crlf ++ name) (joinFields fields ++ tail) =
      (cutSub (crlf ++ name) tail).map fun parts => (joinFields fields ++ parts.1, parts.2) := by
  refine cut_fields_skip (fun field hfield => ⟨(hfields field hfield).1, fun tail htail hpre => ?_⟩)
    htail
  exact (hfields field hfield).2 (name_in_line hname htail hpre)

/-- The search finds the first line that starts with the name. -/
theorem cut_fields {status value : Bytes} {before after : List Bytes} (hname : cr ∉ name)
    (hstatus : ¬ crlf <:+: status)
    (hbefore : ∀ field ∈ before, ¬ crlf <:+: field ∧ ¬ name <+: field) :
    cutSub (crlf ++ name) (status ++ joinFields (before ++ (name ++ value) :: after)) =
      some (status ++ joinFields before, value ++ joinFields after) := by
  have hsplit : joinFields (before ++ (name ++ value) :: after) =
      joinFields before ++ (crlf ++ name ++ (value ++ joinFields after)) := by
    simp [joinFields]
  have hfound : cutSub (crlf ++ name) (crlf ++ name ++ (value ++ joinFields after)) =
      some ([], value ++ joinFields after) := by
    rw [cutSub_at_start (List.prefix_append _ _), List.drop_left]
  have hhead : ∀ c ∈ (crlf ++ name ++ (value ++ joinFields after)).head?, c = cr :=
    fun c hc => (Option.some.inj hc).symm
  rw [cut_line hstatus (join_fields_head _), hsplit, cut_fields_miss hname hbefore hhead, hfound]
  simp

/-- A head without such a line holds no occurrence. -/
theorem cut_fields_none {status : Bytes} {fields : List Bytes} (hname : cr ∉ name)
    (hstatus : ¬ crlf <:+: status)
    (hfields : ∀ field ∈ fields, ¬ crlf <:+: field ∧ ¬ name <+: field) :
    cutSub (crlf ++ name) (status ++ joinFields fields) = none := by
  have hnil : ∀ c ∈ ([] : Bytes).head?, c = cr := fun c hc => nomatch hc
  have hmiss := cut_fields_miss hname hfields hnil
  rw [List.append_nil] at hmiss
  rw [cut_line hstatus (join_fields_head _), hmiss]
  simp [cutSub]

end Fields

/-! ## Blank lines -/

/-- A blank line does not start in a line that is not empty. -/
theorem not_blank_line {line tail : Bytes} (hne : line ≠ []) (hline : ¬ crlf <:+: line)
    (htail : ∀ c ∈ tail.head?, c = cr) : ¬ crlf <+: line ++ tail := by
  have hstart : ¬ crlf ++ [] <+: (line ++ tail).drop 0 :=
    crlf_not_in_line hline htail (List.length_pos_iff.2 hne)
  rwa [List.append_nil, List.drop_zero] at hstart

/-- Whether a blank line starts inside a head does not depend on what comes after its line end. -/
theorem blank_line_in_head {head x : Bytes} (y : Bytes) {i : Nat} (hi : i < head.length)
    (h : crlfcrlf <+: (head ++ (crlf ++ x)).drop i) :
    crlfcrlf <+: (head ++ (crlf ++ y)).drop i := by
  rw [List.drop_append_of_le_length hi.le] at h ⊢
  have hpos : 0 < (head.drop i).length := by
    rw [List.length_drop]
    omega
  generalize head.drop i = rest at h hpos ⊢
  match rest, hpos with
  | [c], _ =>
      -- the second byte would be a carriage return
      have hlf := (List.cons_prefix_cons.1 (List.cons_prefix_cons.1 h).2).1
      exact absurd hlf (by decide)
  | c :: d :: rest, _ =>
      have hinside : crlfcrlf <+: c :: d :: rest ++ crlf := by
        refine List.prefix_of_prefix_length_le h ⟨x, by simp⟩ ?_
        simp
      exact hinside.trans ⟨y, by simp⟩

/-- A head ends at the same place whatever the body is. -/
theorem cut_blank_line_of_body {head body : Bytes}
    (hcut : cutSub crlfcrlf (head ++ crlfcrlf ++ body) = some (head, body)) (other : Bytes) :
    cutSub crlfcrlf (head ++ crlfcrlf ++ other) = some (head, other) := by
  refine cutSub_eq_some_iff.2 ⟨rfl, fun i hi hpre => (cutSub_eq_some_iff.1 hcut).2 i hi ?_⟩
  rw [List.append_assoc] at hpre ⊢
  exact blank_line_in_head (crlf ++ body) hi hpre

/-- Lines added to a head move the blank line behind it, and do not make another one. -/
theorem cut_blank_line {head body : Bytes} {fields : List Bytes}
    (hcut : cutSub crlfcrlf (head ++ crlfcrlf ++ body) = some (head, body))
    (hfields : ∀ field ∈ fields, field ≠ [] ∧ ¬ crlf <:+: field) :
    cutSub crlfcrlf (head ++ joinFields fields ++ crlfcrlf ++ body) =
      some (head ++ joinFields fields, body) := by
  have hend : cutSub crlfcrlf (crlfcrlf ++ body) = some ([], body) := by
    rw [cutSub_at_start (List.prefix_append _ _), List.drop_left]
  have hhead : ∀ c ∈ (crlfcrlf ++ body).head?, c = cr := fun c hc => (Option.some.inj hc).symm
  have hlines : cutSub crlfcrlf (joinFields fields ++ (crlfcrlf ++ body)) =
      some (joinFields fields, body) := by
    have hskip := cut_fields_skip (fun field hfield => ⟨(hfields field hfield).2,
      fun tail htail => not_blank_line (hfields field hfield).1 (hfields field hfield).2 htail⟩)
      hhead
    rw [show crlf ++ crlf = crlfcrlf from rfl, hend] at hskip
    simpa using hskip
  -- what follows the head starts with a line end, as before
  obtain ⟨x, hx⟩ : ∃ x, joinFields fields ++ (crlfcrlf ++ body) = crlf ++ x := by
    cases fields with
    | nil => exact ⟨crlf ++ body, rfl⟩
    | cons field rest => exact ⟨field ++ joinFields rest ++ (crlfcrlf ++ body), by
        simp [joinFields]⟩
  have hpass := cutSub_append_of_not_prefix (a := head) (w := crlfcrlf)
    (s := joinFields fields ++ (crlfcrlf ++ body)) fun i hi hpre => by
      rw [hx] at hpre
      have hearlier := blank_line_in_head (crlf ++ body) hi hpre
      exact (cutSub_eq_some_iff.1 hcut).2 i hi (by simpa using hearlier)
  rw [hlines] at hpass
  simpa using hpass

/-! ## The lines of a string -/

/-- Put a byte in front of the first line. -/
def consLine (c : UInt8) : List Bytes → List Bytes
  | [] => [[c]]
  | line :: rest => (c :: line) :: rest

/-- The lines of a string, without their line ends. -/
def linesOf : Bytes → List Bytes
  | [] => [[]]
  | 13 :: 10 :: rest => [] :: linesOf rest
  | c :: rest => consLine c (linesOf rest)

/-- The third case of `linesOf`: the string does not start with a line end. -/
theorem not_line_end {c : UInt8} {rest : Bytes}
    (h : ∀ more, c = 13 → rest = 10 :: more → False) : ¬ crlf <+: c :: rest := by
  rintro ⟨more, hmore⟩
  obtain ⟨hc, hrest⟩ := List.cons.inj hmore
  exact h more hc.symm hrest.symm

theorem lines_of_cons {c : UInt8} {rest : Bytes} (h : ¬ crlf <+: c :: rest) :
    linesOf (c :: rest) = consLine c (linesOf rest) := by
  rw [linesOf]
  rintro more rfl rfl
  exact h ⟨more, rfl⟩

theorem lines_of_ne_nil (s : Bytes) : linesOf s ≠ [] := by
  induction s using linesOf.induct with
  | case1 => simp [linesOf]
  | case2 rest ih => simp [linesOf]
  | case3 c rest hne ih =>
      rw [lines_of_cons (not_line_end hne)]
      cases linesOf rest <;> simp [consLine]

theorem cons_line_append {c : UInt8} {first : List Bytes} (hne : first ≠ []) (second : List Bytes) :
    consLine c (first ++ second) = consLine c first ++ second := by
  cases first with
  | nil => exact absurd rfl hne
  | cons line rest => rfl

/-- A line end separates lines. -/
theorem lines_of_append (a b : Bytes) : linesOf (a ++ (crlf ++ b)) = linesOf a ++ linesOf b := by
  induction a using linesOf.induct with
  | case1 => rfl
  | case2 rest ih =>
      show [] :: linesOf (rest ++ (crlf ++ b)) = [] :: linesOf rest ++ linesOf b
      rw [ih]
      rfl
  | case3 c rest hne ih =>
      have hstart := not_line_end hne
      have hstart' : ¬ crlf <+: c :: (rest ++ (crlf ++ b)) := by
        intro hpre
        obtain ⟨hc, hrest⟩ := List.cons_prefix_cons.1 hpre
        cases rest with
        | nil => exact absurd (List.cons_prefix_cons.1 hrest).1 (by decide)
        | cons d rest =>
            exact hne rest hc.symm (congrArg (· :: rest) (List.cons_prefix_cons.1 hrest).1.symm)
      rw [List.cons_append, lines_of_cons hstart', ih, lines_of_cons hstart,
        cons_line_append (lines_of_ne_nil rest)]

/-- A string without a line end is one line. -/
theorem lines_of_line {line : Bytes} (h : ¬ crlf <:+: line) : linesOf line = [line] := by
  induction line with
  | nil => rfl
  | cons c rest ih =>
      rw [lines_of_cons fun hpre => h hpre.isInfix, ih fun hpart => h (hpart.trans
        (List.suffix_cons c rest).isInfix)]
      rfl

theorem lines_of_join_fields (head : Bytes) {fields : List Bytes}
    (h : ∀ field ∈ fields, ¬ crlf <:+: field) :
    linesOf (head ++ joinFields fields) = linesOf head ++ fields := by
  induction fields generalizing head with
  | nil => simp [joinFields]
  | cons field rest ih =>
      have hsplit : head ++ joinFields (field :: rest) =
          head ++ (crlf ++ (field ++ joinFields rest)) := by simp [joinFields]
      rw [hsplit, lines_of_append, ih field fun f hf => h f (List.mem_cons_of_mem field hf),
        lines_of_line (h field List.mem_cons_self)]
      rfl

/-- The first line is the beginning of the string. -/
theorem first_line_starts {s line : Bytes} {rest : List Bytes} (h : linesOf s = line :: rest) :
    line <+: s := by
  induction s using linesOf.induct generalizing line rest with
  | case1 =>
      cases h
      exact List.prefix_rfl
  | case2 more ih =>
      cases h
      exact List.nil_prefix
  | case3 c more hne ih =>
      rw [lines_of_cons (not_line_end hne)] at h
      cases hlines : linesOf more with
      | nil => exact absurd hlines (lines_of_ne_nil more)
      | cons first others =>
          rw [hlines] at h
          cases h
          exact List.cons_prefix_cons.2 ⟨rfl, ih hlines⟩

/-- No line holds a line end. -/
theorem not_crlf_of_mem_lines {s line : Bytes} (h : line ∈ linesOf s) : ¬ crlf <:+: line := by
  induction s using linesOf.induct generalizing line with
  | case1 =>
      rw [linesOf, List.mem_singleton] at h
      rw [h]
      decide
  | case2 rest ih =>
      rcases List.mem_cons.1 h with rfl | h
      · decide
      · exact ih h
  | case3 c rest hne ih =>
      have hstart := not_line_end hne
      rw [lines_of_cons hstart] at h
      cases hlines : linesOf rest with
      | nil => exact absurd hlines (lines_of_ne_nil rest)
      | cons first others =>
          rw [hlines] at h ih
          rcases List.mem_cons.1 h with rfl | h
          · intro hpart
            rcases List.infix_cons_iff.1 hpart with hpre | hlater
            · have hfirst := first_line_starts hlines
              exact hstart (hpre.trans (List.cons_prefix_cons.2 ⟨rfl, hfirst⟩))
            · exact ih List.mem_cons_self hlater
          · exact ih (List.mem_cons_of_mem first h)

end ApiGateway.Http

import Ds4Studio.Files.Read
import Ds4Studio.Lib.Run
import Ds4Studio.Lib.Splits

/-!
What the model is shown of the output of a command: at first its beginning, later its end, without
the lines that only hold noise. The bytes and the lines are counted while the output is read from a
pipe and written to a file; what is shown is read from the file and then taken as a C string.
-/

namespace Ds4Studio.Agent

open Bytes Files List Option

/-! ### Noise -/

def agentNoiseMaxLineBytes : ℕ := 400

def isPrintable (c : UInt8) : Bool := c = 0x09 || (0x20 ≤ c && c ≠ 0x7f)

/-- `agent_line_is_noise`. The quotient of floats is less than 0.70f exactly if the quotient is less
than 7/10, since the lengths are small. -/
def lineIsNoise (line : Bytes) : Bool :=
  if agentNoiseMaxLineBytes < line.length then true
  else if str "Binary files " <+: line then true
  else if line = [] then false
  else 10 * line.countP isPrintable < 7 * line.length

/-- What stands for as many lines of noise. -/
def placeholder (elided : ℕ) : Bytes :=
  str "[... " ++ int elided ++ str " noise/binary line" ++
    (if elided = 1 then [] else str "s") ++ str " elided ...]\n"

/-- The lines of a text. -/
def textLines (s : Bytes) : List Bytes := Splits.lines 0x0a s

/-- The loop of `agent_elide_noise_lines`, with the lines of noise since the last line shown. -/
def elideLoop : ℕ → List Bytes → Bytes
  | elided, [] => if elided = 0 then [] else placeholder elided
  | elided, line :: rest =>
      if lineIsNoise line then elideLoop (elided + 1) rest
      else
        (if elided = 0 then [] else placeholder elided) ++ line ++ [0x0a] ++ elideLoop 0 rest

/-- `agent_elide_noise_lines` of a C string -/
def elideNoiseLines (s : Bytes) : Option Bytes :=
  if (textLines s).any lineIsNoise then some (elideLoop 0 (textLines s)) else none

/-! ### The job -/

def agentBashHeadBytes : ℕ := 8 * 1024
def agentBashHeadLines : ℕ := 100
def agentBashTailBytes : ℕ := 32 * 1024
def agentBashProgressTailLines : ℕ := 4
def agentBashFinalTailLines : ℕ := 20

/-- A job with the file that its output is written to. -/
structure BashJob where
  id : ℕ
  pid : ℕ
  path : Bytes
  file : Bytes
  bytes : ℕ
  newlineCount : ℤ
  lastByte : UInt8
  observedBytes : ℕ
  observedDisplayLines : ℤ
  observedOnce : Bool
  exitStatus : ℤ
  running : Bool
  timedOut : Bool

/-- `agent_bash_display_lines` -/
def displayLines (job : BashJob) : ℤ :=
  if job.bytes = 0 then 0
  else wrapInt (job.newlineCount + if job.lastByte ≠ 0x0a then 1 else 0)

def countNewline (count : ℤ) (c : UInt8) : ℤ := if c = 0x0a then wrapInt (count + 1) else count

/-- `agent_bash_note_output`, and the write behind it in `agent_bash_drain`. -/
def noteOutput (job : BashJob) (s : Bytes) : BashJob :=
  { job with
    newlineCount := s.foldl countNewline job.newlineCount
    lastByte := s.getLast?.getD job.lastByte
    bytes := job.bytes + s.length
    file := job.file ++ s }

/-- `agent_tail_append` -/
def tailAppend (b s : Bytes) (max : ℕ) : Bytes := (b ++ s).drop ((b ++ s).length - max)

/-- The loop of `agent_bash_read_head` over the file, behind lines and bytes that have been read. -/
def headLoop (maxLines maxBytes : ℕ) : ℕ → ℕ → Bytes → Bytes
  | _, _, [] => []
  | lines, len, c :: rest =>
      if lines < maxLines ∧ len < maxBytes then
        c :: headLoop maxLines maxBytes (if c = 0x0a then lines + 1 else lines) (len + 1) rest
      else []

structure Head where
  text : Bytes
  linesRead : ℤ
  byteLimited : Bool

/-- `agent_bash_read_head`. The end of the file is only noticed by a read behind it, which is not
made once the bytes are there. -/
def readHead (job : BashJob) (maxLines maxBytes : ℕ) : Head :=
  if job.path = [] ∨ job.bytes = 0 then ⟨[], 0, false⟩
  else
    let out := headLoop maxLines maxBytes 0 0 job.file
    { text := out
      linesRead := out.count 0x0a + if out ≠ [] ∧ out.getLast? ≠ some 0x0a then 1 else 0
      byteLimited := maxBytes ≤ out.length }

/-- The blocks that `fread` returns, at most as many as given. -/
def tailLoop : ℕ → Bytes → Bytes → Bytes
  | 0, tail, _ => tail
  | blocks + 1, tail, file =>
      tailLoop blocks (tailAppend tail (file.take 2048) agentBashTailBytes) (file.drop 2048)

/-- From the end of a text on, up to the line feed in front of as many ones; all reversed. -/
def lastLines : ℕ → Bytes → Bytes
  | _, [] => []
  | 0, c :: rest => if c = 0x0a then [] else c :: lastLines 0 rest
  | newlines + 1, c :: rest =>
      c :: lastLines (if c = 0x0a then newlines else newlines + 1) rest

/-- What `agent_bash_read_tail_lines` copies, with the zero bytes in it. -/
def tailOf (file : Bytes) (maxLines : ℕ) : Bytes :=
  (lastLines maxLines (tailLoop (file.length / 2048 + 1) [] file).reverse).reverse

/-- `agent_bash_read_tail_lines` -/
def readTailLines (job : BashJob) (maxLines : ℕ) : Bytes :=
  if job.path = [] ∨ job.bytes = 0 then [] else cstr (tailOf job.file maxLines)

/-! ### An observation -/

/-- The texts of the times in an observation. -/
structure Clock where
  elapsed : Bytes
  timeout : Bytes

/-- A text as it is put between its tags. -/
def shownText (s : Bytes) : Bytes :=
  let s := cstr s
  let text := (elideNoiseLines s).getD s
  text ++ if text ≠ [] ∧ text.getLast? ≠ some 0x0a then [0x0a] else []

def status (job : BashJob) (clock : Clock) : Bytes :=
  str "bash job=" ++ int job.id ++ str " pid=" ++ int job.pid ++
    if job.running then
      str " status=running elapsed_sec=" ++ clock.elapsed ++ str " timeout_sec=" ++ clock.timeout ++
        str "\n"
    else
      str " status=done elapsed_sec=" ++ clock.elapsed ++ str " timed_out=" ++
        int (if job.timedOut then 1 else 0) ++ str "\n" ++ str "exit_status=" ++
        int job.exitStatus ++ str "\n"

def hint (job : BashJob) : Bytes :=
  if job.running then
    str "\nUse bash_status job=" ++ int job.id ++
      str " to get info before refresh time; use bash_stop job=" ++ int job.id ++
      str " to stop execution\n"
  else []

/-- The bytes and the lines of a file. -/
def sizes (path : Bytes) (bytes : ℕ) (lines : ℤ) : Bytes :=
  str "output_path=" ++ (if path = [] then str "<unavailable>" else path) ++ str " (" ++
    int bytes ++ str " bytes, " ++ int lines ++ str " lines)\n"

def whole (shown : Bytes) : Bytes := str "<output>\n" ++ shown ++ str "</output>\n"

def headOf (path shown : Bytes) : Bytes :=
  str "<head -" ++ int agentBashHeadLines ++ str " " ++ path ++ str ">\n" ++ shown ++
    str "</head>\n"

def tailWith (maxLines : ℕ) (path shown : Bytes) : Bytes :=
  str "<tail -" ++ int maxLines ++ str " " ++ path ++ str ">\n" ++ shown ++ str "</tail>\n"

def tailLinesOf (job : BashJob) : ℕ :=
  if job.running then agentBashProgressTailLines else agentBashFinalTailLines

/-- What an observation says about the output. -/
def output (job : BashJob) : Bytes :=
  if job.bytes = 0 then str "<output>\n</output>\n"
  else if ¬ job.observedOnce then
    let head := readHead job agentBashHeadLines agentBashHeadBytes
    let truncated := head.byteLimited || decide (head.linesRead < displayLines job)
    if ¬ job.running ∧ ¬ truncated then whole (shownText head.text)
    else
      sizes job.path job.bytes (displayLines job) ++ headOf job.path (shownText head.text)
  else
    sizes job.path job.bytes (displayLines job) ++
      tailWith (tailLinesOf job) job.path (shownText (readTailLines job (tailLinesOf job)))

/-- `agent_bash_observation`, behind its poll. The file can be read, and the buffers of 128 KiB are
not filled: 32 KiB are shown at most, with at most 21 lines that a placeholder may stand for. -/
def bashObservation (job : BashJob) (clock : Clock) : Bytes :=
  status job clock ++ output job ++ hint job

/-- `mark_observed` -/
def markObserved (job : BashJob) : BashJob :=
  { job with
    observedBytes := job.bytes
    observedDisplayLines := displayLines job
    observedOnce := true }

/-! ### Runs -/

/-- `agent_bash_start`, with what `mkstemp` puts at the end of the name. -/
def BashJob.start (id pid : ℕ) (suffix : Bytes) : BashJob where
  id := id
  pid := pid
  path := str "/tmp/ds4_agent_output_" ++ suffix
  file := []
  bytes := 0
  newlineCount := 0
  lastByte := 0
  observedBytes := 0
  observedDisplayLines := 0
  observedOnce := false
  exitStatus := -1
  running := true
  timedOut := false

/-- A read of the pipe, the end of the process, or an observation. -/
inductive BashAction where
  | read (s : Bytes)
  | ends (exitStatus : ℤ) (timedOut : Bool)
  | observe

def bashStep (job : BashJob) (a : BashAction) (job' : BashJob) : Prop :=
  match a with
  | .read s => job.running = true ∧ s.length ≤ 4096 ∧ job' = noteOutput job s
  | .ends exitStatus timedOut =>
      job.running = true ∧
        job' = { job with running := false, exitStatus := exitStatus, timedOut := timedOut }
  | .observe => job' = markObserved job

/-! ### What is meant to be shown -/

/-- The lines of a text, and for each run of noise a placeholder that counts its lines. -/
def elide : List Bytes → Bytes
  | [] => []
  | line :: rest =>
      if lineIsNoise line then
        placeholder ((rest.takeWhile lineIsNoise).length + 1) ++ elide (rest.dropWhile lineIsNoise)
      else line ++ [0x0a] ++ elide rest
termination_by lines => lines.length
decreasing_by
  · exact Nat.lt_succ_of_le (dropWhile_suffix _).length_le
  · exact Nat.lt_succ_self _

/-- The end of an output from the beginning of a line on, or as far back as the tail goes. -/
def IsTail (file part : Bytes) : Prop :=
  ∃ front, file = front ++ part ∧
    (front = [] ∨ front.getLast? = some 0x0a ∨ part.length = agentBashTailBytes)

/-- The whole output, at the first observation of a finished job; or the numbers of its bytes and
lines with its beginning, at a first observation, or with its end, at a later one. -/
inductive Honest (job : BashJob) : Bytes → Prop
  | whole (hfirst : job.observedOnce = false) (hdone : job.running = false) :
      Honest job (whole (elide (textLines job.file)))
  | head {part : Bytes} (hfirst : job.observedOnce = false) (hpart : part <+: job.file) :
      Honest job (sizes job.path job.file.length (textLines job.file).length ++
        headOf job.path (elide (textLines part)))
  | tail {part : Bytes} (hlater : job.observedOnce = true) (hpart : IsTail job.file part) :
      Honest job (sizes job.path job.file.length (textLines job.file).length ++
        tailWith (tailLinesOf job) job.path (elide (textLines part)))

/-- The lines can be counted; an output that is empty is only observed once it is whole; one that is
shown as a whole has no zero byte, and neither has the end of one that is observed again. -/
structure Showable (job : BashJob) : Prop where
  counted : (textLines job.file).length ≤ intMax
  nonempty : job.file = [] → job.observedOnce = false ∧ job.running = false
  whole : job.observedOnce = false → job.running = false →
    job.file.length < agentBashHeadBytes → (textLines job.file).length ≤ agentBashHeadLines →
    (0 : UInt8) ∉ job.file
  tail : job.observedOnce = true → (0 : UInt8) ∉ tailOf job.file (tailLinesOf job)

/-! ### Noise is elided -/

theorem elideLoop_eq (lines : List Bytes) : ∀ elided, elideLoop elided lines =
    if elided = 0 then elide lines
    else placeholder (elided + (lines.takeWhile lineIsNoise).length) ++
      elide (lines.dropWhile lineIsNoise) := by
  induction lines with
  | nil =>
    intro elided
    rw [elideLoop]
    split <;> simp [elide]
  | cons line rest ih =>
    intro elided
    rw [elideLoop, elide]
    cases hnoise : lineIsNoise line with
    | true =>
      rw [if_pos rfl, ih, if_neg (Nat.succ_ne_zero _)]
      split
      case isTrue h => rw [h, if_pos rfl, Nat.add_comm]
      case isFalse =>
        rw [takeWhile_cons_of_pos hnoise, dropWhile_cons_of_pos hnoise, length_cons]
        congr 2
        omega
    | false =>
      have helide : elide (line :: rest) = line ++ [0x0a] ++ elide rest := by
        rw [elide, if_neg (by simp [hnoise])]
      rw [if_neg Bool.false_ne_true, ih, if_pos rfl, if_neg Bool.false_ne_true]
      split
      case isTrue => rw [nil_append]
      case isFalse =>
        rw [takeWhile_cons_of_neg (by simp [hnoise]),
          dropWhile_cons_of_neg (by simp [hnoise]), length_nil, Nat.add_zero, helide]
        simp only [append_assoc]

theorem placeholder_getLast (elided : ℕ) : (placeholder elided).getLast? = some 0x0a := by
  have hend : str " elided ...]\n" = str " elided ...]" ++ [0x0a] := by decide
  rw [placeholder, hend, ← append_assoc, getLast?_concat]

theorem elide_getLast (lines : List Bytes) :
    elide lines = [] ∨ (elide lines).getLast? = some 0x0a := by
  have hjoin : ∀ front back : Bytes, front.getLast? = some 0x0a →
      (back = [] ∨ back.getLast? = some 0x0a) → (front ++ back).getLast? = some 0x0a := by
    rintro front back hfront (rfl | hback)
    · rwa [append_nil]
    · rw [getLast?_append, hback, some_or]
  fun_induction elide lines with
  | case1 => exact .inl rfl
  | case2 line rest _ ih => exact .inr (hjoin _ _ (placeholder_getLast _) ih)
  | case3 line rest _ ih => exact .inr (hjoin _ _ getLast?_concat ih)

theorem elide_of_clean {lines : List Bytes} (h : lines.any lineIsNoise = false) :
    elide lines = lines.flatMap fun line => line ++ [0x0a] := by
  induction lines with
  | nil => rw [elide]; rfl
  | cons line rest ih =>
    rw [any_cons, Bool.or_eq_false_iff] at h
    rw [elide, if_neg (by simp [h.1]), ih h.2, flatMap_cons]

variable (s : Bytes)

theorem lastPart_isEmpty_iff :
    (Splits.lastPart 0x0a s).isEmpty = true ↔ ¬ (s ≠ [] ∧ s.getLast? ≠ some 0x0a) := by
  rw [List.isEmpty_iff, Splits.lastPart_eq_nil_iff]
  rcases eq_nil_or_concat s with rfl | ⟨front, c, rfl⟩
  · simp
  · simp [concat_eq_append]

theorem shownText_eq : shownText s = elide (textLines (cstr s)) := by
  unfold shownText elideNoiseLines
  generalize cstr s = t
  dsimp only
  cases hnoise : (textLines t).any lineIsNoise with
  | true =>
    rw [if_pos rfl, getD_some, elideLoop_eq, if_pos rfl]
    rcases elide_getLast (textLines t) with hnil | hlast
    · simp [hnil]
    · rw [if_neg (by simp [hlast]), append_nil]
  | false =>
    rw [if_neg nofun, getD_none, elide_of_clean hnoise]
    unfold textLines
    rw [Splits.flatMap_lines]
    by_cases hopen : t ≠ [] ∧ t.getLast? ≠ some 0x0a
    · rw [if_pos hopen, if_neg fun h => (lastPart_isEmpty_iff t).mp h hopen]
    · rw [if_neg hopen, if_pos ((lastPart_isEmpty_iff t).mpr hopen), append_nil]

/-! ### The beginning -/

/-- The loop stops at the end of the file, behind the line feed that completes the lines, or at the
bytes. -/
theorem headLoop_spec {maxLines maxBytes : ℕ} : ∀ lines len, lines ≤ maxLines →
    ∃ rest, s = headLoop maxLines maxBytes lines len s ++ rest ∧
      lines + (headLoop maxLines maxBytes lines len s).count 0x0a ≤ maxLines ∧
      (lines + (headLoop maxLines maxBytes lines len s).count 0x0a = maxLines →
        headLoop maxLines maxBytes lines len s = [] ∨
          (headLoop maxLines maxBytes lines len s).getLast? = some 0x0a) ∧
      (rest ≠ [] → lines + (headLoop maxLines maxBytes lines len s).count 0x0a = maxLines ∨
        maxBytes ≤ len + (headLoop maxLines maxBytes lines len s).length) := by
  induction s with
  | nil =>
    intro lines len hlines
    exact ⟨[], rfl, by simpa [headLoop] using hlines, fun _ => .inl rfl, fun h => absurd rfl h⟩
  | cons c s ih =>
    intro lines len hlines
    rw [headLoop]
    split
    case isTrue hroom =>
      have hcount : ∀ out : Bytes, lines + (c :: out).count 0x0a =
          (if c = 0x0a then lines + 1 else lines) + out.count 0x0a := by
        intro out
        by_cases hc : c = 0x0a
        · simp [hc]; omega
        · simp [hc]
      obtain ⟨rest, hsplit, hmost, hlast, hrest⟩ :=
        ih (if c = 0x0a then lines + 1 else lines) (len + 1) (by split <;> omega)
      generalize headLoop maxLines maxBytes (if c = 0x0a then lines + 1 else lines) (len + 1) s =
        out at hsplit hmost hlast hrest ⊢
      refine ⟨rest, by rw [cons_append, ← hsplit], (hcount out).trans_le hmost,
        fun hfull => .inr ?_, fun hne => ?_⟩
      · rw [hcount out] at hfull
        rcases hlast hfull with rfl | hend
        · -- the line feed just read completes the lines
          by_cases hc : c = 0x0a
          · rw [hc]; rfl
          · rw [if_neg hc] at hfull
            simp at hfull
            omega
        · rw [getLast?_cons, hend]
          rfl
      · rw [hcount out, length_cons]
        have := hrest hne
        omega
    case isFalse hfull =>
      simp
      omega

/-! ### The end -/

/-- The last letters of a text, as many as given. -/
def lastBytes (n : ℕ) (s : Bytes) : Bytes := s.drop (s.length - n)

theorem length_lastBytes_le (n : ℕ) (s : Bytes) : (lastBytes n s).length ≤ n := by
  unfold lastBytes
  rw [length_drop]
  omega

theorem lastBytes_append (n : ℕ) (s t : Bytes) :
    lastBytes n (lastBytes n s ++ t) = lastBytes n (s ++ t) := by
  unfold lastBytes
  rw [← drop_append_of_le_length (Nat.sub_le _ _), drop_drop]
  congr 1
  simp only [length_drop, length_append]
  omega

theorem tailLoop_eq (blocks : ℕ) : ∀ tail file : Bytes, file.length ≤ 2048 * blocks →
    tail.length ≤ agentBashTailBytes →
    tailLoop blocks tail file = lastBytes agentBashTailBytes (tail ++ file) := by
  induction blocks with
  | zero =>
    intro tail file hfile htail
    rw [eq_nil_of_length_eq_zero (by omega : file.length = 0), append_nil, lastBytes,
      Nat.sub_eq_zero_of_le htail]
    rfl
  | succ blocks ih =>
    intro tail file hfile htail
    have hblock : tailAppend tail (file.take 2048) agentBashTailBytes =
        lastBytes agentBashTailBytes (tail ++ file.take 2048) := rfl
    rw [tailLoop, hblock, ih _ _ (by rw [length_drop]; omega) (length_lastBytes_le _ _),
      lastBytes_append, append_assoc, take_append_drop]

theorem lastLines_spec : ∀ newlines, ∃ rest, s = lastLines newlines s ++ rest ∧
    (rest = [] ∨ rest.head? = some 0x0a) := by
  induction s with
  | nil => exact fun newlines => ⟨[], by simp [lastLines], .inl rfl⟩
  | cons c s ih =>
    intro newlines
    cases newlines with
    | zero =>
      rw [lastLines]
      split
      case isTrue hc => exact ⟨c :: s, rfl, .inr (by rw [hc]; rfl)⟩
      case isFalse =>
        obtain ⟨rest, hsplit, hrest⟩ := ih 0
        exact ⟨rest, congrArg (cons c) hsplit, hrest⟩
    | succ newlines =>
      obtain ⟨rest, hsplit, hrest⟩ := ih (if c = 0x0a then newlines else newlines + 1)
      exact ⟨rest, congrArg (cons c) hsplit, hrest⟩

theorem isTail_tailOf (file : Bytes) (maxLines : ℕ) : IsTail file (tailOf file maxLines) := by
  have hblocks : file.length ≤ 2048 * (file.length / 2048 + 1) := by omega
  have hloop := tailLoop_eq (file.length / 2048 + 1) [] file hblocks (Nat.zero_le _)
  rw [nil_append] at hloop
  unfold tailOf
  rw [hloop]
  obtain ⟨rest, hsplit, hrest⟩ :=
    lastLines_spec (lastBytes agentBashTailBytes file).reverse maxLines
  generalize lastLines maxLines (lastBytes agentBashTailBytes file).reverse = kept at hsplit ⊢
  have htail : lastBytes agentBashTailBytes file = rest.reverse ++ kept.reverse := by
    rw [← reverse_append, ← hsplit, reverse_reverse]
  have hfile : file = file.take (file.length - agentBashTailBytes) ++
      (rest.reverse ++ kept.reverse) := by
    rw [← htail]
    exact (take_append_drop _ _).symm
  refine ⟨file.take (file.length - agentBashTailBytes) ++ rest.reverse, ?_, ?_⟩
  · rw [append_assoc]
    exact hfile
  · rcases hrest with rfl | hhead
    · rcases Nat.le_total file.length agentBashTailBytes with hle | hle
      · exact .inl (by simp [Nat.sub_eq_zero_of_le hle])
      · refine .inr (.inr ?_)
        rw [reverse_nil, nil_append] at htail
        rw [← htail, lastBytes, length_drop]
        omega
    · refine .inr (.inl ?_)
      rw [getLast?_append, getLast?_reverse, hhead, some_or]

/-! ### The counters -/

/-- The counters are those of the file. -/
structure Tallied (job : BashJob) : Prop where
  path : job.path ≠ []
  bytes : job.bytes = job.file.length
  newlines : job.newlineCount = wrapInt (job.file.count 0x0a)
  last : ∀ c ∈ job.file.getLast?, c = job.lastByte

theorem wrapInt_wrapInt_add (m n : ℤ) : wrapInt (wrapInt m + n) = wrapInt (m + n) :=
  Int.bmod_add_bmod

theorem countNewline_wrapInt (n : ℤ) (c : UInt8) :
    countNewline (wrapInt n) c = wrapInt (n + [c].count 0x0a) := by
  unfold countNewline
  split
  case isTrue hc => rw [wrapInt_wrapInt_add, hc, count_singleton_self, Int.natCast_one]
  case isFalse hc =>
    have hnone : [c].count 0x0a = 0 := count_eq_zero_of_not_mem (by simpa using fun h => hc h.symm)
    rw [hnone, Int.natCast_zero, Int.add_zero]

theorem foldl_countNewline : ∀ n : ℤ,
    s.foldl countNewline (wrapInt n) = wrapInt (n + s.count 0x0a) := by
  induction s with
  | nil =>
    intro n
    rw [foldl_nil, count_nil, Int.natCast_zero, Int.add_zero]
  | cons c s ih =>
    intro n
    have hsplit : (c :: s).count 0x0a = [c].count 0x0a + s.count 0x0a := by
      rw [← count_append, singleton_append]
    rw [foldl_cons, countNewline_wrapInt, ih, hsplit, Int.natCast_add, Int.add_assoc]

variable {job : BashJob}

theorem Tallied.noteOutput (h : Tallied job) (s : Bytes) :
    Tallied (noteOutput job s) where
  path := h.path
  bytes := by simp only [Agent.noteOutput, length_append, h.bytes]
  newlines := by
    simp only [Agent.noteOutput, h.newlines, count_append, Int.natCast_add]
    exact foldl_countNewline s _
  last := by
    intro c hc
    simp only [Agent.noteOutput, getLast?_append] at hc ⊢
    cases hlast : s.getLast? with
    | none =>
      rw [hlast] at hc
      exact h.last c hc
    | some d =>
      rw [hlast] at hc
      exact (some.inj hc).symm

theorem bashStep_tallied {job' : BashJob} {a : BashAction} (h : Tallied job)
    (hstep : bashStep job a job') : Tallied job' := by
  cases a with
  | read s =>
    obtain ⟨-, -, rfl⟩ := hstep
    exact h.noteOutput s
  | ends exitStatus timedOut =>
    obtain ⟨-, rfl⟩ := hstep
    exact ⟨h.path, h.bytes, h.newlines, h.last⟩
  | observe =>
    rw [show job' = markObserved job from hstep]
    exact ⟨h.path, h.bytes, h.newlines, h.last⟩

theorem start_tallied (id pid : ℕ) (suffix : Bytes) : Tallied (.start id pid suffix) where
  path := by
    have hname : str "/tmp/ds4_agent_output_" ≠ [] := by decide
    simp [BashJob.start, hname]
  bytes := rfl
  newlines := by simp [BashJob.start, wrapInt]
  last := nofun

theorem Tallied.displayLines_eq (h : Tallied job)
    (hcounted : (textLines job.file).length ≤ intMax) :
    displayLines job = (textLines job.file).length := by
  have hlen := Splits.length_lines 0x0a job.file
  unfold displayLines
  rw [h.bytes]
  rcases eq_nil_or_concat job.file with hnil | ⟨front, c, hfile⟩
  · rw [hnil]
    rfl
  · rw [concat_eq_append] at hfile
    have hlast : c = job.lastByte := h.last c (by simp [hfile])
    have hpart : (Splits.lastPart 0x0a job.file).isEmpty = decide (job.lastByte = 0x0a) := by
      rw [Bool.eq_iff_iff, lastPart_isEmpty_iff, hfile, ← hlast]
      simp
    have hbit : (if job.lastByte ≠ 0x0a then (1 : ℤ) else 0) =
        (if (Splits.lastPart 0x0a job.file).isEmpty then 0 else 1 : ℕ) := by
      rw [hpart]
      by_cases hc : job.lastByte = 0x0a <;> simp [hc]
    rw [if_neg (by simp [hfile]), h.newlines, wrapInt_wrapInt_add, hbit, ← Int.natCast_add, ← hlen]
    exact wrapInt_eq_self (Int.natCast_nonneg _) hcounted

/-! ### Every observation -/

theorem prefix_cstr : cstr s <+: s := takeWhile_prefix _

/-- A text that was not cut by bytes and has as many lines as the output is the output. -/
theorem readHead_whole (h : Tallied job) (hfile : job.file ≠ [])
    (hcounted : (textLines job.file).length ≤ intMax)
    (hbytes : (readHead job agentBashHeadLines agentBashHeadBytes).byteLimited = false)
    (hlines : ¬ (readHead job agentBashHeadLines agentBashHeadBytes).linesRead < displayLines job) :
    (readHead job agentBashHeadLines agentBashHeadBytes).text = job.file ∧
      job.file.length < agentBashHeadBytes ∧
      (textLines job.file).length ≤ agentBashHeadLines := by
  have hempty : ¬ (job.path = [] ∨ job.bytes = 0) := by
    rw [h.bytes, length_eq_zero_iff]
    exact not_or.mpr ⟨h.path, hfile⟩
  obtain ⟨rest, hsplit, hmost, hlast, hrest⟩ :=
    headLoop_spec job.file 0 0 (Nat.zero_le agentBashHeadLines)
  rw [h.displayLines_eq hcounted] at hlines
  rw [readHead, if_neg hempty] at hbytes hlines ⊢
  dsimp only at hbytes hlines ⊢
  generalize headLoop agentBashHeadLines agentBashHeadBytes 0 0 job.file = out
    at hsplit hmost hlast hrest hbytes hlines ⊢
  rw [decide_eq_false_iff_not, Nat.not_le] at hbytes
  have hcount := Splits.length_lines 0x0a job.file
  rw [hsplit, count_append, ← hsplit] at hcount
  have hwhole : rest = [] := by
    -- a rest behind the last line that was read would be a line more
    by_contra hne
    have hfull : out.count 0x0a = agentBashHeadLines := by
      have := hrest hne
      omega
    have hread : ¬ (out ≠ [] ∧ out.getLast? ≠ some 0x0a) := by
      rcases hlast (by omega) with hnil | hend
      · exact fun hopen => hopen.1 hnil
      · exact fun hopen => hopen.2 hend
    rw [if_neg hread, textLines] at hlines
    have hmore : rest.count 0x0a +
        (if (Splits.lastPart 0x0a job.file).isEmpty then 0 else 1) = 0 := by omega
    rw [Nat.add_eq_zero_iff] at hmore
    have hend : (Splits.lastPart 0x0a job.file).isEmpty = true := by
      by_contra hopen
      rw [if_neg hopen] at hmore
      exact absurd hmore.2 Nat.one_ne_zero
    rw [List.isEmpty_iff, Splits.lastPart_eq_nil_iff, hsplit] at hend
    rcases eq_nil_or_concat rest with hnil | ⟨front, c, hrest'⟩
    · exact hne hnil
    · rw [concat_eq_append] at hrest'
      have hc : c = 0x0a := hend c (by simp [hrest'])
      rw [hrest', count_append, hc, count_singleton_self] at hmore
      omega
  rw [hwhole, append_nil] at hsplit
  refine ⟨hsplit.symm, hsplit ▸ hbytes, ?_⟩
  rw [hwhole, count_nil, hsplit] at hcount
  rw [textLines, hsplit, hcount]
  by_cases hend : (Splits.lastPart 0x0a out).isEmpty = true
  · rw [if_pos hend]
    omega
  · rw [if_neg hend]
    have hopen : out ≠ [] ∧ out.getLast? ≠ some 0x0a := by
      by_contra hclosed
      exact hend ((lastPart_isEmpty_iff out).mpr hclosed)
    have hfew : out.count 0x0a ≠ agentBashHeadLines := by
      intro hfull
      rcases hlast (by omega) with hnil | hlast'
      · exact hopen.1 hnil
      · exact hopen.2 hlast'
    omega

theorem prefix_readHead (job : BashJob) :
    (readHead job agentBashHeadLines agentBashHeadBytes).text <+: job.file := by
  unfold readHead
  split
  case isTrue => exact nil_prefix
  case isFalse =>
    obtain ⟨rest, hsplit, -⟩ := headLoop_spec job.file 0 0 (Nat.zero_le agentBashHeadLines)
    exact ⟨rest, hsplit.symm⟩

theorem output_honest (h : Tallied job) (hshow : Showable job) : Honest job (output job) := by
  have hlines := h.displayLines_eq hshow.counted
  by_cases hfile : job.file = []
  · obtain ⟨hfirst, hdone⟩ := hshow.nonempty hfile
    have hempty : output job = whole (elide (textLines job.file)) := by
      have htext : elide (textLines []) = [] := by rw [show textLines [] = [] from rfl, elide]
      rw [output, if_pos (by rw [h.bytes, hfile]; rfl), hfile, htext]
      decide
    rw [hempty]
    exact .whole hfirst hdone
  · have hbytes : job.bytes ≠ 0 := by
      rw [h.bytes]
      exact (length_pos_of_ne_nil hfile).ne'
    rw [output, if_neg hbytes]
    cases hfirst : job.observedOnce with
    | false =>
      rw [if_pos Bool.false_ne_true]
      dsimp only
      split
      case isTrue hcomplete =>
        obtain ⟨hdone, htruncated⟩ := hcomplete
        rw [Bool.or_eq_true, not_or, decide_eq_true_iff, Bool.not_eq_true] at htruncated
        obtain ⟨htext, hshort, hfew⟩ :=
          readHead_whole h hfile hshow.counted htruncated.1 htruncated.2
        have hzero := hshow.whole hfirst (by simpa using hdone) hshort hfew
        rw [htext, shownText_eq, cstr_eq_self hzero]
        exact .whole hfirst (by simpa using hdone)
      case isFalse =>
        rw [shownText_eq, hlines, h.bytes]
        exact .head hfirst ((prefix_cstr _).trans (prefix_readHead job))
    | true =>
      rw [hlines, shownText_eq, h.bytes]
      have htail : readTailLines job (tailLinesOf job) = tailOf job.file (tailLinesOf job) := by
        rw [readTailLines, if_neg (not_or.mpr ⟨h.path, hbytes⟩)]
        exact cstr_eq_self (hshow.tail hfirst)
      rw [htail, cstr_eq_self (hshow.tail hfirst)]
      exact .tail hfirst (isTail_tailOf _ _)

/-- In every run of a job every observation under the condition is honest. -/
theorem bash_observation_honest (id pid : ℕ) (suffix : Bytes) {job : BashJob}
    (hrun : Run.Free bashStep (.start id pid suffix) job) (hshow : Showable job) (clock : Clock) :
    ∃ shown, bashObservation job clock = status job clock ++ shown ++ hint job ∧
      Honest job shown := by
  have hstep : ∀ job a job', Tallied job → bashStep job a job' → True → Tallied job' :=
    fun _ _ _ h hnext _ => bashStep_tallied h hnext
  have htallied : Tallied job := hrun.invariant hstep (start_tallied id pid suffix)
  exact ⟨output job, rfl, output_honest htallied hshow⟩

/-- A job that has written a text and ended. -/
def finished (s : Bytes) : BashJob :=
  { noteOutput (.start 1 1 []) s with running := false, exitStatus := 0 }

theorem finished_run {s : Bytes} (hs : s.length ≤ 4096) :
    Run.Free bashStep (.start 1 1 []) (finished s) := by
  have hread : Run.Free bashStep (.start 1 1 []) (noteOutput (.start 1 1 []) s) :=
    Run.Guarded.snoc (.refl _) (a := .read s) ⟨rfl, hs, rfl⟩ trivial
  exact hread.snoc (a := .ends 0 false) ⟨rfl, rfl⟩ trivial

/-- A job that is observed once, writes a line of noise and one more, and ends. -/
def observedTwice : BashJob :=
  let first := markObserved (noteOutput (.start 1 1 []) (str "a\n"))
  { noteOutput first (str "Binary files \nb\n") with running := false, exitStatus := 0 }

/-- What is observed again is the end of its output. -/
theorem bash_observation_honest_tail :
    Run.Free bashStep (.start 1 1 []) observedTwice ∧ Showable observedTwice ∧
      ∃ shown, bashObservation observedTwice ⟨str "0.1", str "60"⟩ =
        status observedTwice ⟨str "0.1", str "60"⟩ ++ shown ++ hint observedTwice ∧
          Honest observedTwice shown := by
  have hfirst : Run.Free bashStep (.start 1 1 []) (noteOutput (.start 1 1 []) (str "a\n")) :=
    Run.Guarded.snoc (.refl _) (a := .read (str "a\n")) ⟨rfl, by decide, rfl⟩ trivial
  have hsecond := (hfirst.snoc (a := .observe) rfl trivial).snoc
    (a := .read (str "Binary files \nb\n")) ⟨rfl, by decide, rfl⟩ trivial
  have hrun : Run.Free bashStep (.start 1 1 []) observedTwice :=
    hsecond.snoc (a := .ends 0 false) ⟨rfl, rfl⟩ trivial
  have hshow : Showable observedTwice :=
    { counted := by decide
      nonempty := fun h => absurd h (by decide)
      whole := fun h => absurd h (by decide)
      tail := fun _ => by decide }
  exact ⟨hrun, hshow, bash_observation_honest 1 1 [] hrun hshow ⟨str "0.1", str "60"⟩⟩

/-- Behind a zero byte the output of a finished job is hidden. -/
theorem zero_byte_hides : ¬ ∀ job, Run.Free bashStep (.start 1 1 []) job →
    Honest job (output job) := by
  intro h
  have hrun := h _ (finished_run (s := [0x61, 0x62, 0x63, 0, 0x64]) (by decide))
  have houtput : output (finished [0x61, 0x62, 0x63, 0, 0x64]) =
      whole [0x61, 0x62, 0x63, 0x0a] := by decide
  rw [houtput] at hrun
  generalize hshown : whole [0x61, 0x62, 0x63, 0x0a] = shown at hrun
  cases hrun with
  | whole =>
    have hlines : textLines (finished [0x61, 0x62, 0x63, 0, 0x64]).file =
        [[0x61, 0x62, 0x63, 0, 0x64]] := by decide
    rw [hlines, elide] at hshown
    exact absurd hshown (by decide)
  | head =>
    have hfirst : (whole [0x61, 0x62, 0x63, 0x0a]).head? = some 0x6f := by
      rw [hshown]
      rfl
    exact absurd hfirst (by decide)
  | tail hlater => exact absurd hlater (by decide)

end Ds4Studio.Agent

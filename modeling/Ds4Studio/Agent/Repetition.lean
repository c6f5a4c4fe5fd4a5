import Ds4Studio.Lib.Bytes
import Ds4Studio.Lib.Repetition
import Ds4Studio.Lib.Splits

/-!
The detector of repetition in generated prose. It keeps the hashes of the last lines and counts how
often the last few of them have been repeated.
-/

namespace Ds4Studio.Agent

open Bytes List
open Repetition (Repeats reach)
open Ds4Studio.Splits

def agentRepWindow : ℕ := 32
def agentRepMaxPeriod : ℕ := 4
def agentRepMinLineLen : ℕ := 4
def agentRepFnvOffset : UInt64 := 1469598103934665603
def agentRepFnvPrime : UInt64 := 1099511628211

/-- One step of the hash of a line. -/
def fnvByte (h : UInt64) (c : UInt8) : UInt64 := (h ^^^ c.toUInt64) * agentRepFnvPrime

/-- The counters stay below the number of bytes that one generation can have. -/
structure RepetitionDetector where
  h : Fin agentRepWindow → UInt64
  count : ℕ
  cur : UInt64
  curSig : ℕ

namespace RepetitionDetector

/-- `AGENT_REP_INIT` -/
def init : RepetitionDetector := ⟨fun _ => 0, 0, agentRepFnvOffset, 0⟩

def slot (i : ℕ) : Fin agentRepWindow := ⟨i % agentRepWindow, Nat.mod_lt _ (by decide)⟩

/-- `agent_rep_line_back` -/
def lineBack (d : RepetitionDetector) (back : ℕ) : UInt64 := d.h (slot (d.count - 1 - back))

def avail (d : RepetitionDetector) : ℕ := min d.count agentRepWindow

/-- How often a cycle of this length stands at the end. -/
def reps (d : RepetitionDetector) (period : ℕ) : ℕ :=
  reach (fun m => d.lineBack m = d.lineBack (m + period)) (d.avail - period) / period + 1

/-- `agent_repetition_cycles` -/
def cycles (d : RepetitionDetector) : ℕ :=
  (range' 1 agentRepMaxPeriod).foldl
    (fun best period => if d.avail < 2 * period then best else max best (d.reps period)) 1

def push (d : RepetitionDetector) : RepetitionDetector :=
  { d with h := Function.update d.h (slot d.count) d.cur, count := d.count + 1 }

def feedByte : RepetitionDetector × ℕ → UInt8 → RepetitionDetector × ℕ
  | (d, worst), c =>
      if c = 0x0a then
        let (d, worst) :=
          if agentRepMinLineLen ≤ d.curSig then (d.push, max worst d.push.cycles) else (d, worst)
        ({ d with cur := agentRepFnvOffset, curSig := 0 }, worst)
      else if isSpace c then (d, worst)
      else ({ d with cur := fnvByte d.cur c, curSig := d.curSig + 1 }, worst)

/-- `agent_repetition_feed` -/
def feed (text : Bytes) (d : RepetitionDetector) : RepetitionDetector × ℕ :=
  text.foldl feedByte (d, 0)

/-- The results of the calls for the pieces of a text, with the detector behind them. -/
def feedAll : List Bytes → RepetitionDetector → RepetitionDetector × List ℕ
  | [], d => (d, [])
  | piece :: rest, d =>
      let (d, worst) := d.feed piece
      let (d, results) := feedAll rest d
      (d, worst :: results)

end RepetitionDetector

/-! ### The lines of a text -/

def nonspace (line : Bytes) : Bytes := line.filter fun c => !isSpace c

/-- The completed lines without their white space, where enough is left of them. -/
def significantLines (text : Bytes) : List Bytes :=
  ((text.splitOn 0x0a).dropLast.map nonspace).filter fun line => agentRepMinLineLen ≤ line.length

def lineHash (line : Bytes) : UInt64 := line.foldl fnvByte agentRepFnvOffset

theorem lineHash_concat (line : Bytes) (c : UInt8) :
    lineHash (line ++ [c]) = fnvByte (lineHash line) c := by
  rw [lineHash, foldl_concat, ← lineHash]

/-- How often the last lines repeat: copies of a block of one to four lines, within the window. -/
def Copies (lines : List Bytes) : Set ℕ :=
  { r | ∃ period, 1 ≤ period ∧ period ≤ agentRepMaxPeriod ∧ r * period ≤ agentRepWindow ∧
    Repeats r period lines }

theorem significantLines_break (text : Bytes) : significantLines (text ++ [0x0a]) =
    significantLines text ++ (if agentRepMinLineLen ≤ (nonspace (lastPart 0x0a text)).length then
      [nonspace (lastPart 0x0a text)] else []) := by
  unfold significantLines
  rw [dropLast_splitOn_concat_self]
  simp [filter_cons]

theorem significantLines_concat {c : UInt8} (h : c ≠ 0x0a) (text : Bytes) :
    significantLines (text ++ [c]) = significantLines text := by
  unfold significantLines
  rw [dropLast_splitOn_concat_of_ne h]

namespace RepetitionDetector

/-! ### The ring -/

/-- The detector behind a text. -/
structure Tracks (d : RepetitionDetector) (text : Bytes) : Prop where
  count : d.count = (significantLines text).length
  ring : ∀ i line, (significantLines text)[i]? = some line → d.count ≤ i + agentRepWindow →
    d.h (slot i) = lineHash line
  cur : d.cur = lineHash (nonspace (lastPart 0x0a text))
  sig : d.curSig = (nonspace (lastPart 0x0a text)).length

theorem tracks_init : Tracks init [] := by
  refine ⟨rfl, ?_, rfl, rfl⟩
  intro i line hline
  simp [significantLines] at hline

theorem slot_ne {i j : ℕ} (hij : i < j) (hj : j < i + agentRepWindow) : slot i ≠ slot j := by
  intro heq
  have hmod : i % 32 = j % 32 := congrArg Fin.val heq
  unfold agentRepWindow at hj
  omega

variable {d : RepetitionDetector}

theorem feedByte_push (worst : ℕ) (hsig : agentRepMinLineLen ≤ d.curSig) :
    feedByte (d, worst) 0x0a =
      ({ d.push with cur := agentRepFnvOffset, curSig := 0 }, max worst d.push.cycles) := by
  simp [feedByte, hsig]

theorem feedByte_short (worst : ℕ) (hsig : ¬agentRepMinLineLen ≤ d.curSig) :
    feedByte (d, worst) 0x0a =
      ({ d with cur := agentRepFnvOffset, curSig := 0 }, worst) := by
  simp [feedByte, hsig]

theorem feedByte_space (d : RepetitionDetector) (worst : ℕ) {c : UInt8} (hbreak : c ≠ 0x0a)
    (hspace : isSpace c = true) : feedByte (d, worst) c = (d, worst) := by
  simp [feedByte, hbreak, hspace]

theorem feedByte_letter (d : RepetitionDetector) (worst : ℕ) {c : UInt8} (hbreak : c ≠ 0x0a)
    (hspace : isSpace c = false) : feedByte (d, worst) c =
      ({ d with cur := fnvByte d.cur c, curSig := d.curSig + 1 }, worst) := by
  simp [feedByte, hbreak, hspace]

variable {text : Bytes}

theorem Tracks.short (h : Tracks d text) (hsig : ¬agentRepMinLineLen ≤ d.curSig) :
    Tracks { d with cur := agentRepFnvOffset, curSig := 0 } (text ++ [0x0a]) := by
  have hlines : significantLines (text ++ [0x0a]) = significantLines text := by
    rw [significantLines_break, if_neg (h.sig ▸ hsig), append_nil]
  have hlast : lastPart 0x0a (text ++ [0x0a]) = [] := lastPart_concat_self _ _
  exact ⟨hlines ▸ h.count, hlines ▸ h.ring, by rw [hlast]; rfl, by rw [hlast]; rfl⟩

theorem Tracks.push (h : Tracks d text) (hsig : agentRepMinLineLen ≤ d.curSig) :
    Tracks { d.push with cur := agentRepFnvOffset, curSig := 0 } (text ++ [0x0a]) := by
  have hlines : significantLines (text ++ [0x0a]) =
      significantLines text ++ [nonspace (lastPart 0x0a text)] := by
    rw [significantLines_break, if_pos (h.sig ▸ hsig)]
  have hlast : lastPart 0x0a (text ++ [0x0a]) = [] := lastPart_concat_self _ _
  refine ⟨?_, ?_, by rw [hlast]; rfl, by rw [hlast]; rfl⟩
  · show d.count + 1 = _
    rw [hlines, length_append, h.count, length_singleton]
  · intro i line hline hwindow
    change d.count + 1 ≤ i + agentRepWindow at hwindow
    show Function.update d.h (slot d.count) d.cur (slot i) = lineHash line
    rw [hlines] at hline
    by_cases hi : i < d.count
    · rw [getElem?_append_left (h.count ▸ hi)] at hline
      rw [Function.update_of_ne (slot_ne hi (by omega))]
      exact h.ring i line hline (by omega)
    · have hbound := (List.getElem?_eq_some_iff.mp hline).1
      rw [length_append, length_singleton, ← h.count] at hbound
      obtain rfl : i = d.count := by omega
      rw [h.count, getElem?_concat_length, Option.some.injEq] at hline
      rw [Function.update_self, h.cur, hline]

theorem Tracks.letter (h : Tracks d text) {c : UInt8} (hbreak : c ≠ 0x0a)
    (hspace : isSpace c = false) {cur : UInt64} (hcur : cur = fnvByte d.cur c) :
    Tracks { d with cur := cur, curSig := d.curSig + 1 } (text ++ [c]) := by
  have hlines := significantLines_concat hbreak text
  have hlast : nonspace (lastPart 0x0a (text ++ [c])) = nonspace (lastPart 0x0a text) ++ [c] := by
    rw [lastPart_concat_of_ne hbreak]
    simp [nonspace, hspace]
  refine ⟨hlines ▸ h.count, hlines ▸ h.ring, ?_, ?_⟩
  · rw [hlast, lineHash_concat, ← h.cur]
    exact hcur
  · rw [hlast, length_append, ← h.sig]
    rfl

theorem Tracks.feedByte (h : Tracks d text) (worst : ℕ) (c : UInt8) :
    Tracks (feedByte (d, worst) c).1 (text ++ [c]) := by
  by_cases hbreak : c = 0x0a
  · subst hbreak
    by_cases hsig : agentRepMinLineLen ≤ d.curSig
    · rw [feedByte_push worst hsig]
      exact h.push hsig
    · rw [feedByte_short worst hsig]
      exact h.short hsig
  · have hlines := significantLines_concat hbreak text
    have hlast := lastPart_concat_of_ne hbreak text
    cases hspace : isSpace c with
    | true =>
      have hsame : nonspace (lastPart 0x0a text ++ [c]) = nonspace (lastPart 0x0a text) := by
        simp [nonspace, hspace]
      rw [feedByte_space d worst hbreak hspace]
      exact ⟨hlines ▸ h.count, hlines ▸ h.ring, by rw [hlast, hsame]; exact h.cur,
        by rw [hlast, hsame]; exact h.sig⟩
    | false =>
      have hletter := h.letter hbreak hspace rfl
      rw [feedByte_letter d worst hbreak hspace]
      exact hletter

theorem feedByte_eq (d : RepetitionDetector) (worst : ℕ) (c : UInt8) : feedByte (d, worst) c =
    ((feedByte (d, 0) c).1, max worst (feedByte (d, 0) c).2) := by
  unfold feedByte
  simp only
  repeat' split
  all_goals simp

theorem foldl_feedByte (text : Bytes) (d : RepetitionDetector) (worst : ℕ) :
    text.foldl feedByte (d, worst) = ((feed text d).1, max worst (feed text d).2) := by
  induction text generalizing d worst with
  | nil => simp [feed]
  | cons c text ih =>
    unfold feed
    rw [foldl_cons, feedByte_eq, foldl_cons, ih, ih, max_assoc]

theorem tracks_feed (text : Bytes) : Tracks (feed text init).1 text := by
  induction text using reverseRecOn with
  | nil => exact tracks_init
  | append_singleton text c ih =>
    unfold feed at ih ⊢
    rw [foldl_concat]
    exact ih.feedByte _ c

theorem feed_append (s t : Bytes) (d : RepetitionDetector) : feed (s ++ t) d =
    ((feed t (feed s d).1).1, max (feed s d).2 (feed t (feed s d).1).2) := by
  conv_lhs => rw [feed, foldl_append, ← feed, foldl_feedByte]

theorem feedAll_eq (pieces : List Bytes) (d : RepetitionDetector) :
    (feedAll pieces d).1 = (feed pieces.flatten d).1 ∧
      (feedAll pieces d).2.foldr max 0 = (feed pieces.flatten d).2 := by
  induction pieces generalizing d with
  | nil => exact ⟨rfl, rfl⟩
  | cons piece rest ih =>
    obtain ⟨hdetector, hresult⟩ := ih (feed piece d).1
    rw [flatten_cons, feed_append]
    exact ⟨hdetector, congrArg (max _) hresult⟩

/-! ### The count -/

theorem le_cycles_iff (d : RepetitionDetector) (r : ℕ) : r ≤ d.cycles ↔ r ≤ 1 ∨
    ∃ period, 1 ≤ period ∧ period ≤ agentRepMaxPeriod ∧ 2 * period ≤ d.avail ∧ r ≤ d.reps period := by
  have hfold : ∀ (periods : List ℕ) (best : ℕ), r ≤ periods.foldl
      (fun best period => if d.avail < 2 * period then best else max best (d.reps period)) best ↔
        r ≤ best ∨ ∃ period ∈ periods, 2 * period ≤ d.avail ∧ r ≤ d.reps period := by
    intro periods
    induction periods with
    | nil => simp
    | cons period periods ih =>
      intro best
      rw [foldl_cons, ih]
      by_cases hfew : d.avail < 2 * period
      · simp [hfew, Nat.not_le_of_lt hfew]
      · simp [hfew, Nat.le_of_not_lt hfew, or_assoc]
  unfold cycles
  rw [hfold]
  simp only [mem_range'_1, and_assoc]
  refine or_congr_right (exists_congr fun period => ?_)
  omega

theorem Tracks.lineBack (h : Tracks d text) {back : ℕ} (hback : back < d.avail) :
    ∃ line, (significantLines text).reverse[back]? = some line ∧
      d.lineBack back = lineHash line := by
  unfold avail at hback
  have hcount := h.count
  have hin : d.count - 1 - back < (significantLines text).length := by omega
  refine ⟨(significantLines text)[d.count - 1 - back], ?_, ?_⟩
  · rw [getElem?_reverse (by omega), ← hcount]
    exact getElem?_eq_getElem hin
  · exact h.ring _ _ (getElem?_eq_getElem hin) (by omega)

/-- Where the hashes of the lines do not collide, the cycles are the copies at the end. -/
theorem Tracks.cycles (h : Tracks d text)
    (hhash : ∀ a ∈ significantLines text, ∀ b ∈ significantLines text,
      lineHash a = lineHash b → a = b) (hlines : significantLines text ≠ []) :
    IsGreatest (Copies (significantLines text)) d.cycles := by
  have havail : d.avail = min (significantLines text).length agentRepWindow := by
    unfold avail
    rw [h.count]
  have hreps : ∀ {period r : ℕ}, 0 < period → 2 * period ≤ d.avail → 0 < r →
      (r ≤ d.reps period ↔ r * period ≤ d.avail ∧ Repeats r period (significantLines text)) := by
    intro period r hperiod hroom hr
    have hsplit : r * period = (r - 1) * period + period := by
      rw [← Nat.succ_mul, Nat.succ_eq_add_one, Nat.sub_add_cancel hr]
    unfold reps
    rw [Repetition.le_reach_div_iff hperiod hroom hr, Repetition.repeats_iff hr]
    refine and_congr_right fun hbound => ?_
    have hsame : ∀ i < (r - 1) * period, (decide (d.lineBack i = d.lineBack (i + period)) = true ↔
        (significantLines text).reverse[i]? = (significantLines text).reverse[i + period]?) := by
      intro i hi
      obtain ⟨a, ha, hhasha⟩ := h.lineBack (show i < d.avail by omega)
      obtain ⟨b, hb, hhashb⟩ := h.lineBack (show i + period < d.avail by omega)
      rw [decide_eq_true_iff, hhasha, hhashb, ha, hb, Option.some.injEq]
      have hmem : ∀ {l : Bytes} {k : ℕ}, (significantLines text).reverse[k]? = some l →
          l ∈ significantLines text := fun hl => mem_reverse.mp (mem_of_getElem? hl)
      exact ⟨hhash a (hmem ha) b (hmem hb), congrArg lineHash⟩
    constructor
    · exact fun hall => ⟨by omega, fun i hi => (hsame i hi).mp (hall i hi)⟩
    · exact fun hall i hi => (hsame i hi).mpr (hall.2 i hi)
  have hpos : 1 ≤ d.cycles := (le_cycles_iff d 1).mpr (.inl (le_refl 1))
  constructor
  · rcases (le_cycles_iff d d.cycles).mp (le_refl _) with hone | ⟨period, hleast, hmost, hroom, hle⟩
    · rw [Nat.le_antisymm hone hpos]
      exact ⟨1, le_refl 1, by decide, by decide, Repetition.repeats_one_one hlines⟩
    · obtain ⟨hbound, hrepeats⟩ := (hreps hleast hroom hpos).mp hle
      exact ⟨period, hleast, hmost, by omega, hrepeats⟩
  · rintro r ⟨period, hleast, hmost, hwindow, hrepeats⟩
    rw [le_cycles_iff]
    by_cases hone : r ≤ 1
    · exact .inl hone
    · have hlength := ((Repetition.repeats_iff (by omega)).mp hrepeats).1
      have htwo : 2 * period ≤ r * period := Nat.mul_le_mul_right period (by omega)
      exact .inr ⟨period, hleast, hmost, by omega,
        (hreps hleast (by omega) (by omega)).mpr ⟨by omega, hrepeats⟩⟩

theorem prefix_significantLines {s t : Bytes} (h : s <+: t) :
    significantLines s <+: significantLines t := by
  obtain ⟨u, rfl⟩ := h
  induction u using reverseRecOn with
  | nil => rw [append_nil]
  | append_singleton u c ih =>
    refine ih.trans ?_
    rw [← append_assoc]
    by_cases hbreak : c = 0x0a
    · rw [hbreak, significantLines_break]
      exact prefix_append _ _
    · rw [significantLines_concat hbreak]

/-- Behind every piece of a text the cycles are the copies at the end of the lines before it, and
what the calls for the pieces find does not depend on the pieces. -/
theorem repetition_exact (text : Bytes)
    (hhash : ∀ a ∈ significantLines text, ∀ b ∈ significantLines text,
      lineHash a = lineHash b → a = b) :
    (∀ pieces : List Bytes, pieces.flatten <+: text → significantLines pieces.flatten ≠ [] →
      IsGreatest (Copies (significantLines pieces.flatten)) (feedAll pieces init).1.cycles) ∧
    ∀ pieces pieces' : List Bytes, pieces.flatten = text → pieces'.flatten = text →
      (feedAll pieces init).2.foldr max 0 = (feedAll pieces' init).2.foldr max 0 := by
  constructor
  · intro pieces hprefix hlines
    have hsub := (prefix_significantLines hprefix).subset
    rw [(feedAll_eq pieces init).1]
    exact (tracks_feed _).cycles (fun a ha b hb => hhash a (hsub ha) b (hsub hb)) hlines
  · intro pieces pieces' htext htext'
    rw [(feedAll_eq pieces init).2, (feedAll_eq pieces' init).2, htext, htext']

theorem repetition_exact_twice :
    IsGreatest (Copies (significantLines (str "a b c d\nabcd\n")))
        (feedAll [str "a b", str " c d\na", str "bcd\n"] init).1.cycles ∧
      (feedAll [str "a b", str " c d\na", str "bcd\n"] init).2.foldr max 0 =
        (feedAll [str "a b c d\nabcd\n"] init).2.foldr max 0 := by
  have hlines : significantLines (str "a b c d\nabcd\n") = [str "abcd", str "abcd"] := by decide
  have hexact := repetition_exact (str "a b c d\nabcd\n") (by simp [hlines])
  have htext : [str "a b", str " c d\na", str "bcd\n"].flatten = str "a b c d\nabcd\n" := by decide
  have hcopies := hexact.1 [str "a b", str " c d\na", str "bcd\n"] (htext ▸ prefix_rfl)
    (by rw [htext, hlines]; simp)
  exact ⟨hcopies, hexact.2 _ _ htext (by simp)⟩

end RepetitionDetector

end Ds4Studio.Agent

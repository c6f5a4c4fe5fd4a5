import Ds4Studio.Agent.Messages
import Ds4Studio.Lib.Run
import Ds4Studio.Lib.Weave
import Mathlib.Data.List.Pairwise
import Mathlib.Data.String.Basic

/-!
Large tool results are remembered by their positions in the transcript, so that old
ones can be archived and replaced by stubs. The positions hold as long as every rebuild
of the transcript that is not an append drops them.
-/

namespace Ds4Studio.Agent

open Bytes Function List Option Tokenizer Weave

/-! ### Context blobs -/

def isLowerHex (c : UInt8) : Bool := isDigit c || (0x61 ≤ c && c ≤ 0x66)

/-- A digest in hexadecimal digits, such as SHA-256. -/
structure Digest where
  hex : Bytes → Bytes
  length : ∀ text, (hex text).length = 64
  digits : ∀ text, (hex text).all isLowerHex = true

abbrev Blobs := Bytes → Option Bytes

def blobId (hex : Bytes) : Bytes := str "sha256:" ++ hex

def contextBlobIdValid (id : Bytes) : Bool :=
  str "sha256:" <+: id && (id.drop 7).length = 64 && (id.drop 7).all isLowerHex

/-- `ds4_context_blob_put_text`: an existing blob is used as it is. -/
def contextBlobPutText (digest : Digest) (write : Bool) (text : Bytes) (blobs : Blobs) :
    Option Blobs :=
  if (blobs (digest.hex text)).isSome then some blobs
  else if write then some (update blobs (digest.hex text) (some text))
  else none

def contextBlobReadRange (blobs : Blobs) (id : Bytes) (offset length : ℕ) : Option Bytes :=
  if contextBlobIdValid id then
    (blobs (id.drop 7)).map fun text => (text.drop offset).take length
  else none

/-! ### The worker -/

structure Env where
  vocab : Vocab
  digest : Digest
  ctxSize : ℕ
  frontendPort : ℤ

structure Worker where
  transcript : List ℤ
  toolSpans : List (Span Bytes)
  blobs : Blobs

def agentEvictMinBytes : ℕ := 2048
def agentEvictPressurePercent : ℕ := 70
def agentEvictKeepRecent : ℕ := 4
def agentCompactTailDivisor : ℕ := 10
def agentCompactTailCapTokens : ℕ := 50000

def Worker.append (w : Worker) (tokens : List ℤ) : Worker :=
  { w with transcript := w.transcript ++ tokens }

def trackToolSpan (w : Worker) (start stop : ℤ) (text : Bytes) : Worker :=
  if stop ≤ start ∨ text.length < agentEvictMinBytes then w
  else { w with toolSpans := w.toolSpans ++ [⟨start, stop, text⟩] }

def clearToolSpans (w : Worker) : Worker := { w with toolSpans := [] }

/-- `agent_worker_append_tool_result` -/
def appendToolResult (env : Env) (w : Worker) (text : Bytes) : Worker :=
  let before := w.transcript.length
  let w := w.append (chatAppendMessage env.vocab .tool text)
  trackToolSpan w before w.transcript.length text

theorem appendToolResult_transcript (env : Env) (w : Worker) (text : Bytes) :
    (appendToolResult env w text).transcript =
      w.transcript ++ chatAppendMessage env.vocab .tool text := by
  simp only [appendToolResult, trackToolSpan]
  split <;> rfl

/-! ### Eviction -/

def shouldEvict (env : Env) (w : Worker) : Bool :=
  0 < env.ctxSize && 0 < env.frontendPort && agentEvictKeepRecent < w.toolSpans.length &&
    env.ctxSize * agentEvictPressurePercent / 100 ≤ w.transcript.length

def stubText (bytes : ℕ) (id : Bytes) : Bytes :=
  str "[Old tool result (" ++ str (toString bytes) ++
    str " bytes) archived to free context. If needed again: retrieve_context_blob id=" ++ id ++
    str "]"

def stub (digest : Digest) (text : Bytes) : Bytes := stubText text.length (blobId (digest.hex text))

structure EvictState where
  compacted : List ℤ
  pos : ℤ
  evicted : ℕ
  blobs : Blobs

/-- One span of the loop; its blob is written or not. -/
def evictSpan (env : Env) (transcript : List ℤ) (st : EvictState) (s : Span Bytes) (write : Bool) :
    EvictState :=
  let compacted := st.compacted ++ range transcript st.pos s.start
  match contextBlobPutText env.digest write s.text st.blobs with
  | none =>
      { st with compacted := compacted ++ range transcript s.start s.stop, pos := s.stop }
  | some blobs =>
      { compacted := compacted ++ chatAppendMessage env.vocab .tool (stub env.digest s.text)
        pos := s.stop
        evicted := st.evicted + 1
        blobs := blobs }

def evictLoop (env : Env) (transcript : List ℤ) (writes : ℕ → Bool) :
    ℕ → EvictState → List (Span Bytes) → EvictState
  | _, st, [] => st
  | i, st, s :: spans =>
      evictLoop env transcript writes (i + 1) (evictSpan env transcript st s (writes i)) spans

/-- `agent_worker_evict_tool_results`: what is kept moves with the end of the last span. -/
def evictToolResults (env : Env) (writes : ℕ → Bool) (synced : Bool) (reminder : Bytes)
    (w : Worker) : Worker :=
  let evictN := w.toolSpans.length - agentEvictKeepRecent
  let st := evictLoop env w.transcript writes 0 ⟨[], 0, 0, w.blobs⟩ (w.toolSpans.take evictN)
  let compacted := st.compacted ++ range w.transcript st.pos w.transcript.length
  let offset := (st.compacted.length : ℤ) - st.pos
  if st.evicted = 0 then { w with blobs := st.blobs }
  else if synced then
    { transcript := compacted ++ tokenizeRenderedChat env.vocab reminder
      toolSpans := (w.toolSpans.drop evictN).map fun s =>
        { s with start := s.start + offset, stop := s.stop + offset }
      blobs := st.blobs }
  else { w with blobs := st.blobs }

/-! ### Rebuilds -/

def compactTailStart (env : Env) (transcript : List ℤ) (sysLen : ℕ) : ℕ :=
  let budget := max 1 (min (env.ctxSize / agentCompactTailDivisor) agentCompactTailCapTokens)
  let target := max sysLen (transcript.length - budget)
  if env.vocab.userId < 0 then target
  else ((transcript.drop target).findIdx? (· = env.vocab.userId)).elim target (target + ·)

def summaryMessage (summary : Bytes) : Bytes :=
  let message :=
    str "\n\n[ds4-agent compacted earlier conversation. Durable task-state summary follows.]\n" ++
      summary
  message ++ (if message.getLast? = some 0x0a then [] else [0x0a]) ++
    str "[End compacted summary. Recent conversation continues verbatim below.]\n\n"

/-- `agent_worker_compact`: the summary, if one was made, whether the rebuilt transcript
could be synced, and the note about running jobs. -/
def compact (env : Env) (sys : List ℤ) (summary : Option Bytes) (synced : Bool)
    (bashUpdate : Option Bytes) (w : Worker) : Worker :=
  if w.transcript.length ≤ sys.length then w
  else
    match summary with
    | none | some [] => w
    | some summary =>
        if synced then
          let rebuilt := clearToolSpans { w with
            transcript := sys ++ chatAppendMessage env.vocab .system (summaryMessage summary) ++
              w.transcript.drop (compactTailStart env w.transcript sys.length) }
          match bashUpdate with
          | some text => appendToolResult env rebuilt text
          | none => rebuilt
        else w

/-- `agent_worker_reset_to_sysprompt`: a checkpoint of the system prompt replaces the
transcript alone. -/
def resetToSysprompt (sys : List ℤ) (loaded : Option (List ℤ)) (w : Worker) : Worker :=
  match loaded with
  | some tokens => { w with transcript := tokens }
  | none => { clearToolSpans w with transcript := sys }

/-- `agent_worker_switch_session`, with the session that was loaded. -/
def switchSession (loaded : Option (List ℤ)) (w : Worker) : Worker :=
  match loaded with
  | some tokens => { clearToolSpans w with transcript := tokens }
  | none => w

/-! ### Histories -/

inductive Action where
  | append (tokens : List ℤ)
  | toolResult (text : Bytes)
  | evict (writes : ℕ → Bool) (synced : Bool) (reminder : Bytes)
  | compact (sys : List ℤ) (summary : Option Bytes) (synced : Bool) (bashUpdate : Option Bytes)
  | reset (sys : List ℤ) (loaded : Option (List ℤ))
  | switch (loaded : Option (List ℤ))

def step (env : Env) (w : Worker) : Action → Worker
  | .append tokens => w.append tokens
  | .toolResult text => appendToolResult env w text
  | .evict writes synced reminder =>
      if shouldEvict env w then evictToolResults env writes synced reminder w else w
  | .compact sys summary synced bashUpdate => compact env sys summary synced bashUpdate w
  | .reset sys loaded => resetToSysprompt sys loaded w
  | .switch loaded => switchSession loaded w

def Worker.start (blobs : Blobs) : Worker := ⟨[], [], blobs⟩

/-! ### What is promised -/

def toolMessage (env : Env) (text : Bytes) : List ℤ := chatAppendMessage env.vocab .tool text

/-- Each entry delimits the message of its text, and the entries increase. -/
structure SpansDelimit (env : Env) (w : Worker) : Prop where
  delimit : ∀ s ∈ w.toolSpans, 0 ≤ s.start ∧ s.start < s.stop ∧ s.stop ≤ w.transcript.length ∧
    range w.transcript s.start s.stop = toolMessage env s.text
  increasing : w.toolSpans.Pairwise fun s s' => s.stop ≤ s'.start

/-- The message of an old result, or the stub it is archived under. -/
def evictedMessage (env : Env) (m : Bytes × Bool) : List ℤ :=
  if m.2 then toolMessage env (stub env.digest m.1) else toolMessage env m.1

/-- All but the most recent results are archived, those whose blob cannot be written stay,
and everything else stays where it is in the conversation. -/
structure Evicts (env : Env) (w w' : Worker) (parts : List (List ℤ × Bytes × Bool))
    (tail reminder : List ℤ) : Prop where
  texts : parts.map (fun p => p.2.1) =
    (w.toolSpans.take (w.toolSpans.length - agentEvictKeepRecent)).map Span.text
  before : w.transcript = weave (fun m : Bytes × Bool => toolMessage env m.1) parts ++ tail
  after : w'.transcript = weave (evictedMessage env) parts ++ tail ++ reminder
  retrieved : ∀ p ∈ parts, p.2.2 = true →
    contextBlobReadRange w'.blobs (blobId (env.digest.hex p.2.1)) 0 p.2.1.length = some p.2.1

/-- No text is archived under the digest of another one. -/
def NoCollision (digest : Digest) (blobs : Blobs) (texts : List Bytes) : Prop :=
  ∀ t ∈ texts, (∀ t', blobs (digest.hex t) = some t' → t' = t) ∧
    ∀ t' ∈ texts, digest.hex t' = digest.hex t → t' = t

/-- The condition on a step: a checkpoint of the system prompt is only loaded while no
tool result is remembered, and no two archived texts have the same digest. -/
def Tidy (env : Env) (w : Worker) : Action → Prop
  | .reset _ (some _) => w.toolSpans = []
  | .evict _ _ _ => NoCollision env.digest w.blobs (w.toolSpans.map Span.text)
  | _ => True

/-! ### Blobs -/

theorem contextBlobIdValid_blobId (digest : Digest) (text : Bytes) :
    contextBlobIdValid (blobId (digest.hex text)) = true ∧
      (blobId (digest.hex text)).drop 7 = digest.hex text := by
  have hlength : (str "sha256:").length = 7 := by decide
  have hdrop : (blobId (digest.hex text)).drop 7 = digest.hex text := by
    rw [blobId, ← hlength, drop_left]
  refine ⟨?_, hdrop⟩
  simp only [contextBlobIdValid, hdrop, digest.length, digest.digits, Bool.and_true,
    decide_true, decide_eq_true_eq]
  exact prefix_append _ _

variable {text : Bytes} {digest : Digest} {blobs : Blobs}

theorem contextBlobReadRange_of_get (h : blobs (digest.hex text) = some text) :
    contextBlobReadRange blobs (blobId (digest.hex text)) 0 text.length = some text := by
  obtain ⟨hvalid, hdrop⟩ := contextBlobIdValid_blobId digest text
  simp [contextBlobReadRange, hvalid, hdrop, h]

variable {blobs' : Blobs} {write : Bool}

section

variable (h : contextBlobPutText digest write text blobs = some blobs')

include h

theorem contextBlobPutText_keeps {hex other : Bytes} (hother : blobs hex = some other) :
    blobs' hex = some other := by
  unfold contextBlobPutText at h
  split at h
  · rw [← some.inj h]
    exact hother
  · rename_i hnone
    split at h
    · rw [← some.inj h]
      by_cases hhex : hex = digest.hex text
      · rw [hhex] at hother
        simp [hother] at hnone
      · rw [update_of_ne hhex]
        exact hother
    · cases h

theorem contextBlobPutText_get (hblobs : ∀ t', blobs (digest.hex text) = some t' → t' = text) :
    blobs' (digest.hex text) = some text := by
  unfold contextBlobPutText at h
  split at h
  · rename_i hsome
    obtain ⟨t', ht'⟩ := isSome_iff_exists.mp hsome
    rw [← some.inj h, ht', hblobs t' ht']
  · split at h
    · rw [← some.inj h, update_self]
    · cases h

end

variable {texts : List Bytes}

theorem NoCollision.put (h : NoCollision digest blobs (text :: texts))
    (hput : contextBlobPutText digest write text blobs = some blobs') :
    NoCollision digest blobs' texts := by
  intro t ht
  obtain ⟨hblobs, hsame⟩ := h t (mem_cons_of_mem _ ht)
  refine ⟨?_, fun t' ht' => hsame t' (mem_cons_of_mem _ ht')⟩
  intro t' hget
  unfold contextBlobPutText at hput
  split at hput
  · rw [← some.inj hput] at hget
    exact hblobs t' hget
  · split at hput
    · rw [← some.inj hput] at hget
      by_cases hhex : digest.hex t = digest.hex text
      · rw [hhex, update_self] at hget
        rw [← some.inj hget]
        exact hsame text mem_cons_self hhex.symm
      · rw [update_of_ne hhex] at hget
        exact hblobs t' hget
    · cases hput

theorem NoCollision.tail (h : NoCollision digest blobs (text :: texts)) :
    NoCollision digest blobs texts := by
  intro t ht
  obtain ⟨hblobs, hsame⟩ := h t (mem_cons_of_mem _ ht)
  exact ⟨hblobs, fun t' ht' => hsame t' (mem_cons_of_mem _ ht')⟩

/-! ### The loop -/

/-- What the loop has done with spans that delimit their messages. -/
structure Evicted (env : Env) (st st' : EvictState) (parts : List (List ℤ × Bytes × Bool)) :
    Prop where
  compacted : st'.compacted = st.compacted ++ weave (evictedMessage env) parts
  pos : st'.pos = st.pos + (weave (fun m : Bytes × Bool => toolMessage env m.1) parts).length
  evicted : st.evicted ≤ st'.evicted
  archived : ∀ p ∈ parts, p.2.2 = true → st'.blobs (env.digest.hex p.2.1) = some p.2.1
  kept : ∀ hex text, st.blobs hex = some text → st'.blobs hex = some text

variable {st : EvictState}

theorem evictSpan_evicted (env : Env) (l gap r : List ℤ) (text : Bytes) (write : Bool)
    (hpos : st.pos = l.length)
    (hblobs : ∀ t', st.blobs (env.digest.hex text) = some t' → t' = text) :
    ∃ archived, Evicted env st
      (evictSpan env (l ++ (gap ++ toolMessage env text) ++ r) st
        ⟨l.length + gap.length, l.length + gap.length + (toolMessage env text).length, text⟩ write)
      [(gap, text, archived)] := by
  have hgap : range (l ++ (gap ++ toolMessage env text) ++ r) l.length (l.length + gap.length) =
      gap := by
    have := range_middle l gap (toolMessage env text ++ r)
    simpa only [append_assoc] using this
  have hmessage : range (l ++ (gap ++ toolMessage env text) ++ r) (l.length + gap.length)
      (l.length + gap.length + (toolMessage env text).length) = toolMessage env text := by
    have := range_middle (l ++ gap) (toolMessage env text) r
    simpa only [append_assoc, length_append, Nat.cast_add] using this
  have hstop : (l.length : ℤ) + gap.length + (toolMessage env text).length =
      l.length + ((gap ++ toolMessage env text).length : ℕ) := by
    rw [length_append, Nat.cast_add, add_assoc]
  unfold evictSpan
  simp only [hpos, hgap, hmessage]
  cases hput : contextBlobPutText env.digest write text st.blobs with
  | none =>
    refine ⟨false, ?_, ?_, Nat.le_refl _, ?_, fun _ _ h => h⟩
    · simp [weave, evictedMessage, append_assoc]
    · simpa [weave, hpos] using hstop
    · simp
  | some blobs =>
    refine ⟨true, ?_, ?_, Nat.le_succ _, ?_, ?_⟩
    · simp [weave, evictedMessage, append_assoc, toolMessage]
    · simpa [weave, hpos] using hstop
    · intro p hp _
      rw [mem_singleton.mp hp]
      exact contextBlobPutText_get hput hblobs
    · exact fun _ _ h => contextBlobPutText_keeps hput h

variable {env : Env}

theorem Evicted.append {st₁ st₂ st₃ : EvictState} {left right : List (List ℤ × Bytes × Bool)}
    (h : Evicted env st₁ st₂ left) (h' : Evicted env st₂ st₃ right) :
    Evicted env st₁ st₃ (left ++ right) where
  compacted := by rw [h'.compacted, h.compacted, weave_append, append_assoc]
  pos := by rw [h'.pos, h.pos, weave_append, length_append, Nat.cast_add, add_assoc]
  evicted := h.evicted.trans h'.evicted
  archived := by
    intro p hp harchived
    rcases mem_append.mp hp with hleft | hright
    · exact h'.kept _ _ (h.archived p hleft harchived)
    · exact h'.archived p hright harchived
  kept := fun hex text hget => h'.kept hex text (h.kept hex text hget)

theorem NoCollision.mono {texts' : List Bytes} (h : NoCollision digest blobs texts)
    (hsub : texts' ⊆ texts) : NoCollision digest blobs texts' := by
  intro t ht
  obtain ⟨hblobs, hsame⟩ := h t (hsub ht)
  exact ⟨hblobs, fun t' ht' => hsame t' (hsub ht')⟩

theorem evictSpan_noCollision (env : Env) (transcript : List ℤ) {s : Span Bytes} (write : Bool)
    (h : NoCollision env.digest st.blobs (s.text :: texts)) :
    NoCollision env.digest (evictSpan env transcript st s write).blobs texts := by
  unfold evictSpan
  cases hput : contextBlobPutText env.digest write s.text st.blobs with
  | none => exact h.tail
  | some blobs => exact h.put hput

theorem evictLoop_evicted (env : Env) (writes : ℕ → Bool) (i : ℕ) (l : List ℤ)
    (parts : List (List ℤ × Bytes)) (r : List ℤ) (hpos : st.pos = l.length)
    (hblobs : NoCollision env.digest st.blobs (parts.map Prod.snd)) :
    ∃ archived : List (List ℤ × Bytes × Bool),
      archived.map (fun p => (p.1, p.2.1)) = parts ∧
        Evicted env st (evictLoop env (l ++ weave (toolMessage env) parts ++ r) writes i st
          (spansFrom (toolMessage env) l.length parts)) archived := by
  induction parts generalizing i l st with
  | nil =>
    refine ⟨[], rfl, ?_, ?_, Nat.le_refl _, by simp, fun _ _ h => h⟩
    · simp [weave, evictLoop, spansFrom]
    · simp [weave, evictLoop, spansFrom]
  | cons part parts ih =>
    obtain ⟨gap, text⟩ := part
    have hfirst : ∀ t', st.blobs (env.digest.hex text) = some t' → t' = text :=
      (hblobs text mem_cons_self).1
    have hassoc : l ++ weave (toolMessage env) ((gap, text) :: parts) ++ r =
        l ++ (gap ++ toolMessage env text) ++ (weave (toolMessage env) parts ++ r) := by
      simp only [weave, append_assoc]
    obtain ⟨flag, hone⟩ := evictSpan_evicted env l gap (weave (toolMessage env) parts ++ r) text
      (writes i) hpos hfirst
    have hpos' : (evictSpan env (l ++ (gap ++ toolMessage env text) ++
        (weave (toolMessage env) parts ++ r)) st
        ⟨l.length + gap.length, l.length + gap.length + (toolMessage env text).length, text⟩
        (writes i)).pos = ((l ++ (gap ++ toolMessage env text)).length : ℕ) := by
      rw [hone.pos, hpos]
      simp [weave]
    have hstart : (l.length : ℤ) + gap.length + (toolMessage env text).length =
        ((l ++ (gap ++ toolMessage env text)).length : ℕ) := by
      simp only [length_append, Nat.cast_add, add_assoc]
    obtain ⟨archived, hparts, hrest⟩ := ih (i + 1) (l ++ (gap ++ toolMessage env text)) hpos'
      (evictSpan_noCollision env _ (writes i) hblobs)
    refine ⟨(gap, text, flag) :: archived, by simp [hparts], ?_⟩
    rw [hassoc]
    simp only [spansFrom, evictLoop]
    simp only [hstart, append_assoc] at hone hrest ⊢
    exact hone.append hrest

/-! ### Every step keeps the entries -/

/-- The transcript is made of gaps and remembered messages in turn, and a tail. -/
def Woven (env : Env) (w : Worker) : Prop :=
  ∃ parts tail, w.transcript = weave (toolMessage env) parts ++ tail ∧
    w.toolSpans = spansFrom (toolMessage env) 0 parts

variable {w : Worker}

theorem Woven.delimit (h : Woven env w) : SpansDelimit env w := by
  obtain ⟨parts, tail, htranscript, hspans⟩ := h
  constructor
  · intro s hs
    rw [hspans] at hs
    obtain ⟨hstart, hstop, hin, hrange⟩ :=
      spansFrom_delimit ([] : List ℤ) parts tail (s := s) (by simpa using hs)
    have hpos : 0 < (toolMessage env s.text).length :=
      length_pos_of_ne_nil (chatAppendMessage_tool_ne_nil env.vocab s.text)
    rw [htranscript]
    simp only [nil_append, length_nil, Nat.cast_zero, zero_add] at hstart hin hrange
    refine ⟨hstart, by omega, ?_, hrange⟩
    rw [length_append]
    omega
  · rw [hspans]
    exact spansFrom_pairwise ([] : List ℤ) parts

theorem woven_of_nil (env : Env) (h : w.toolSpans = []) : Woven env w := ⟨[], w.transcript, rfl, h⟩

theorem Woven.append (h : Woven env w) (tokens : List ℤ) : Woven env (w.append tokens) := by
  obtain ⟨parts, tail, htranscript, hspans⟩ := h
  refine ⟨parts, tail ++ tokens, ?_, hspans⟩
  rw [Worker.append, htranscript, append_assoc]

theorem Woven.appendToolResult (h : Woven env w) (text : Bytes) :
    Woven env (appendToolResult env w text) := by
  have happend := h.append (toolMessage env text)
  obtain ⟨parts, tail, htranscript, hspans⟩ := h
  unfold Agent.appendToolResult trackToolSpan
  simp only
  split
  · exact happend
  · refine ⟨parts ++ [(tail, text)], [], ?_, ?_⟩
    · simp [Worker.append, htranscript, weave_append, weave, toolMessage]
    · simp only [Worker.append, hspans, spansFrom_append, htranscript, spansFrom,
        length_append, Nat.cast_add, zero_add]
      rfl

theorem Woven.compact (h : Woven env w) (sys : List ℤ) (summary : Option Bytes) (synced : Bool)
    (bashUpdate : Option Bytes) : Woven env (compact env sys summary synced bashUpdate w) := by
  unfold Agent.compact
  split
  · exact h
  · split
    · exact h
    · exact h
    · split
      · split
        · apply Woven.appendToolResult
          exact woven_of_nil env rfl
        · exact woven_of_nil env rfl
      · exact h

theorem drop_range (l : List ℤ) (r : List ℤ) :
    range (l ++ r) l.length ((l ++ r).length : ℕ) = r := by
  have := range_middle l r []
  simpa using this

/-- The old messages of a transcript, the recent ones, and the loop over the old ones. -/
theorem Woven.evict_cases (h : Woven env w) (writes : ℕ → Bool)
    (hblobs : NoCollision env.digest w.blobs (w.toolSpans.map Span.text)) :
    ∃ (archived : List (List ℤ × Bytes × Bool)) (rest : List (List ℤ × Bytes)) (tail : List ℤ)
      (st : EvictState),
      evictLoop env w.transcript writes 0 ⟨[], 0, 0, w.blobs⟩
        (w.toolSpans.take (w.toolSpans.length - agentEvictKeepRecent)) = st ∧
      archived.map (fun p => p.2.1) =
        (w.toolSpans.take (w.toolSpans.length - agentEvictKeepRecent)).map Span.text ∧
      w.transcript = weave (fun m : Bytes × Bool => toolMessage env m.1) archived ++
        (weave (toolMessage env) rest ++ tail) ∧
      w.toolSpans.drop (w.toolSpans.length - agentEvictKeepRecent) =
        spansFrom (toolMessage env)
          (weave (fun m : Bytes × Bool => toolMessage env m.1) archived).length rest ∧
      Evicted env ⟨[], 0, 0, w.blobs⟩ st archived := by
  obtain ⟨parts, tail, htranscript, hspans⟩ := h
  generalize hn : w.toolSpans.length - agentEvictKeepRecent = n
  have hold : w.toolSpans.take n =
      spansFrom (toolMessage env) ([] : List ℤ).length (parts.take n) := by
    rw [hspans, spansFrom_take]
    rfl
  have htexts : w.toolSpans.map Span.text = parts.map Prod.snd := by rw [hspans, spansFrom_text]
  have hnone : NoCollision env.digest w.blobs ((parts.take n).map Prod.snd) := by
    rw [htexts] at hblobs
    apply hblobs.mono
    exact fun t ht => map_subset _ (take_subset n parts) ht
  have hstart : (⟨[], 0, 0, w.blobs⟩ : EvictState).pos = ([] : List ℤ).length := rfl
  obtain ⟨archived, hparts, hloop⟩ := evictLoop_evicted env writes 0 [] (parts.take n)
    (weave (toolMessage env) (parts.drop n) ++ tail) hstart hnone
  have hweave : weave (fun m : Bytes × Bool => toolMessage env m.1) archived =
      weave (toolMessage env) (parts.take n) := by
    rw [← hparts, weave_map Prod.fst archived]
  have hwhole : w.transcript = [] ++ weave (toolMessage env) (parts.take n) ++
      (weave (toolMessage env) (parts.drop n) ++ tail) := by
    rw [htranscript, nil_append, ← append_assoc, ← weave_append, take_append_drop]
  refine ⟨archived, parts.drop n, tail, _, rfl, ?_, ?_, ?_, ?_⟩
  · rw [hold, spansFrom_text, ← hparts, List.map_map]
    rfl
  · rw [hweave]
    exact hwhole
  · rw [hspans, spansFrom_drop, hweave, zero_add]
  · rw [hold, hwhole]
    exact hloop

theorem Woven.evict (h : Woven env w) (writes : ℕ → Bool) (synced : Bool) (reminder : Bytes)
    (hblobs : NoCollision env.digest w.blobs (w.toolSpans.map Span.text)) :
    Woven env (evictToolResults env writes synced reminder w) ∧
      ((evictToolResults env writes synced reminder w).transcript = w.transcript ∨
        ∃ parts tail tokens,
          Evicts env w (evictToolResults env writes synced reminder w) parts tail tokens) := by
  obtain ⟨archived, rest, tail, st, hst, htexts, htranscript, hspans, hloop⟩ :=
    h.evict_cases writes hblobs
  have hpos : st.pos = (weave (fun m : Bytes × Bool => toolMessage env m.1) archived).length := by
    rw [hloop.pos, zero_add]
  have htail : range w.transcript st.pos w.transcript.length =
      weave (toolMessage env) rest ++ tail := by
    rw [hpos, htranscript]
    exact drop_range _ _
  have hcompacted : st.compacted = weave (evictedMessage env) archived := by
    rw [hloop.compacted, nil_append]
  unfold evictToolResults
  simp only [hst]
  split
  · exact ⟨h, Or.inl rfl⟩
  · split
    · constructor
      · have hmoved : ((w.toolSpans.drop (w.toolSpans.length - agentEvictKeepRecent)).map fun s =>
            { s with
              start := s.start + ((st.compacted.length : ℤ) - st.pos)
              stop := s.stop + ((st.compacted.length : ℤ) - st.pos) }) =
            spansFrom (toolMessage env) st.compacted.length rest := by
          rw [hspans, spansFrom_shift]
          congr 1
          omega
        obtain ⟨parts, tail', hparts, hfront⟩ := exists_front (α := ℤ) (τ := Bytes)
          st.compacted rest tail
        have hbase : Woven env ⟨st.compacted ++ (weave (toolMessage env) rest ++ tail),
            spansFrom (toolMessage env) st.compacted.length rest, st.blobs⟩ :=
          ⟨parts, tail', hparts, hfront⟩
        simp only [hmoved, htail]
        exact hbase.append (tokenizeRenderedChat env.vocab reminder)
      · refine Or.inr ⟨archived, weave (toolMessage env) rest ++ tail,
          tokenizeRenderedChat env.vocab reminder, htexts, htranscript, ?_, ?_⟩
        · simp only [hcompacted, htail]
        · intro p hp harchived
          exact contextBlobReadRange_of_get (hloop.archived p hp harchived)
    · exact ⟨h, Or.inl rfl⟩

/-! ### Runs -/

theorem Woven.step (h : Woven env w) (a : Action) (ha : Tidy env w a) :
    Woven env (step env w a) := by
  cases a with
  | append tokens => exact h.append tokens
  | toolResult text => exact h.appendToolResult text
  | evict writes synced reminder =>
    simp only [Agent.step]
    split
    · exact (h.evict writes synced reminder ha).1
    · exact h
  | compact sys summary synced bashUpdate => exact h.compact sys summary synced bashUpdate
  | reset sys loaded =>
    cases loaded with
    | some tokens => exact woven_of_nil env ha
    | none => exact woven_of_nil env rfl
  | switch loaded =>
    cases loaded with
    | some tokens => exact woven_of_nil env rfl
    | none => exact h

/-- Along tidy histories the entries delimit their messages, and an eviction replaces
these messages only. -/
theorem tool_spans_delimit {env : Env} {blobs : Blobs} {w : Worker}
    (hrun : Run.Guarded (fun w a w' => step env w a = w') (Tidy env) (.start blobs) w) :
    SpansDelimit env w ∧ ∀ writes synced reminder, Tidy env w (.evict writes synced reminder) →
      (step env w (.evict writes synced reminder)).transcript = w.transcript ∨
        ∃ parts tail tokens,
          Evicts env w (step env w (.evict writes synced reminder)) parts tail tokens := by
  have hstep : ∀ w a w', Woven env w → step env w a = w' → Tidy env w a → Woven env w' := by
    intro w a w' h hnext ha
    rw [← hnext]
    exact h.step a ha
  have h : Woven env w := hrun.invariant hstep (woven_of_nil env rfl)
  refine ⟨h.delimit, fun writes synced reminder ha => ?_⟩
  simp only [step]
  split
  · exact (h.evict writes synced reminder ha).2
  · exact Or.inl rfl

def sampleEnv : Env where
  vocab :=
    { token := []
      bosId := 0
      eosId := 1
      userId := 2
      assistantId := 3
      thinkStartId := 4
      thinkEndId := 5
      dsmlId := 6
      tokenToId := []
      mergeRank := [] }
  digest := ⟨fun _ => replicate 64 0x30, fun _ => length_replicate, fun _ => rfl⟩
  ctxSize := 4096
  frontendPort := 8080

/-- An environment whose context is under pressure from the first token on. -/
def crowdedEnv : Env := { sampleEnv with ctxSize := 1 }

def sampleResult : Bytes := replicate agentEvictMinBytes 0x61

/-- A worker that has remembered `n` results. -/
def remembered (env : Env) : ℕ → Worker
  | 0 => .start fun _ => none
  | n + 1 => appendToolResult env (remembered env n) sampleResult

theorem remembered_spec (env : Env) (n : ℕ) :
    (remembered env n).toolSpans.map Span.text = replicate n sampleResult ∧
      (remembered env n).blobs = fun _ => none := by
  induction n with
  | zero => exact ⟨rfl, rfl⟩
  | succ n ih =>
    have hpos : 0 < (toolMessage env sampleResult).length :=
      length_pos_of_ne_nil (chatAppendMessage_tool_ne_nil _ _)
    have hlarge : agentEvictMinBytes ≤ sampleResult.length := length_replicate.ge
    have hgrows : ¬ (((remembered env n).append (toolMessage env sampleResult)).transcript.length ≤
        ((remembered env n).transcript.length : ℤ) ∨ sampleResult.length < agentEvictMinBytes) := by
      simp only [Worker.append, length_append]
      omega
    have heq : remembered env (n + 1) = _ := if_neg hgrows
    rw [heq]
    refine ⟨?_, ih.2⟩
    rw [map_append, replicate_succ']
    exact congrArg (· ++ [sampleResult]) ih.1

theorem remembered_run (env : Env) (n : ℕ) :
    Run.Guarded (fun w a w' => step env w a = w') (Tidy env) (.start fun _ => none)
      (remembered env n) := by
  induction n with
  | zero => exact .refl _
  | succ n ih => exact ih.snoc (a := .toolResult sampleResult) rfl trivial

theorem remembered_tidy (env : Env) (n : ℕ) (writes : ℕ → Bool) (synced : Bool) (reminder : Bytes) :
    Tidy env (remembered env n) (.evict writes synced reminder) := by
  obtain ⟨htexts, hblobs⟩ := remembered_spec env n
  have hsame : ∀ t ∈ (remembered env n).toolSpans.map Span.text, t = sampleResult :=
    fun t ht => eq_of_mem_replicate (htexts ▸ ht)
  refine fun t ht => ⟨fun other hother => ?_, fun other hother _ => ?_⟩
  · rw [hblobs] at hother
    cases hother
  · rw [hsame t ht, hsame other hother]

theorem step_crowded {w : Worker} {s : Span Bytes} {rest : List (Span Bytes)}
    (hspans : w.toolSpans = s :: rest) (hlength : rest.length = agentEvictKeepRecent)
    (hblobs : w.blobs = fun _ => none) :
    let w' := step crowdedEnv w (.evict (fun _ => true) true [])
    w'.toolSpans.length = agentEvictKeepRecent ∧ w'.blobs (replicate 64 0x30) = some s.text := by
  have hevicts : shouldEvict crowdedEnv w = true := by
    simp [shouldEvict, hspans, hlength, crowdedEnv, sampleEnv, agentEvictPressurePercent]
  have hput : contextBlobPutText crowdedEnv.digest true s.text w.blobs =
      some (update (fun _ => none) (replicate 64 0x30) (some s.text)) := by
    rw [hblobs]
    rfl
  simp [step, hevicts, evictToolResults, hspans, hlength, evictLoop, evictSpan, hput]

/-- Of five results the first is archived. -/
theorem tool_spans_delimit_archived :
    let w' := step crowdedEnv (remembered crowdedEnv 5) (.evict (fun _ => true) true [])
    SpansDelimit crowdedEnv (remembered crowdedEnv 5) ∧
      w'.toolSpans.length = 4 ∧ w'.blobs (replicate 64 0x30) = some sampleResult ∧
      (w'.transcript = (remembered crowdedEnv 5).transcript ∨
        ∃ parts tail tokens, Evicts crowdedEnv (remembered crowdedEnv 5) w' parts tail tokens) := by
  obtain ⟨hspans, hevicts⟩ := tool_spans_delimit (remembered_run crowdedEnv 5)
  obtain ⟨htexts, hblobs⟩ := remembered_spec crowdedEnv 5
  obtain ⟨s, rest, hcons, htext, hrest⟩ := map_eq_cons_iff.mp htexts
  have hlength : rest.length = agentEvictKeepRecent := by
    rw [← length_map, hrest, length_replicate]
    rfl
  obtain ⟨hkept, harchived⟩ := step_crowded hcons hlength hblobs
  exact ⟨hspans, hkept, htext ▸ harchived, hevicts _ _ _ (remembered_tidy _ _ _ _ _)⟩

theorem reset_spans {w : Worker} {s : Span Bytes} (hs : s ∈ w.toolSpans) :
    ¬ SpansDelimit sampleEnv (resetToSysprompt [0] (some [0]) w) := by
  intro h
  obtain ⟨-, -, -, hrange⟩ := h.delimit s hs
  -- The new transcript has no user token, so no tool message either.
  have huser : (2 : ℤ) ∈ toolMessage sampleEnv s.text := mem_cons_self
  rw [← hrange] at huser
  have hin : (2 : ℤ) ∈ [0] := take_subset _ _ (mem_of_mem_drop huser)
  simp at hin

/-- A new session that starts from the saved system prompt keeps the entries of the old one. -/
theorem tool_spans_outlive_transcript :
    ¬ ∀ (env : Env) (blobs : Blobs) (w : Worker),
      Run.Free (fun w a w' => step env w a = w') (.start blobs) w → SpansDelimit env w := by
  intro hclaim
  have hnew := (remembered_run sampleEnv 1).free.snoc (a := .reset [0] (some [0])) rfl trivial
  obtain ⟨s, rest, hcons, -⟩ := map_eq_cons_iff.mp (remembered_spec sampleEnv 1).1
  exact reset_spans (hcons ▸ mem_cons_self) (hclaim _ _ _ hnew)

end Ds4Studio.Agent

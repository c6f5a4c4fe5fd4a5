import Ds4Studio.Stream.Anthropic

/-!
The blocks of the Messages stream. Between two events a stream has sent some closed
blocks and perhaps one open block. Thinking and text are closed when they end. A tool
block is closed by the end of its invocation, which may never come: then the stream
ends with the block open.
-/

namespace Ds4Studio.Stream

open Bytes Dsml Json List Option Search

/-! ### Well-bracketed streams -/

structure ContentBlock where
  kind : Block
  name : Bytes
  deltas : List (BlockDelta × Option (ℕ × ℕ))

/-- The events of a block that is not closed. -/
def ContentBlock.opened (b : ContentBlock) (index : ℕ) : List AnthropicEvent :=
  .contentBlockStart index b.kind b.name ::
    b.deltas.map fun d => .contentBlockDelta index d.1 d.2

/-- The events of closed blocks, numbered from the given index on. -/
def blocksEvents : ℕ → List ContentBlock → List AnthropicEvent
  | _, [] => []
  | i, b :: blocks => b.opened i ++ [.contentBlockStop i] ++ blocksEvents (i + 1) blocks

/-- Closed blocks with the indices 0, 1, 2, ... and then the end of the message. -/
def WellBracketed (sent : List AnthropicEvent) : Prop :=
  ∃ blocks finish, sent = blocksEvents 0 blocks ++ [.messageDelta finish, .messageStop]

theorem blocksEvents_append (i : ℕ) (left right : List ContentBlock) :
    blocksEvents i (left ++ right) =
      blocksEvents i left ++ blocksEvents (i + left.length) right := by
  induction left generalizing i with
  | nil => simp [blocksEvents]
  | cons b left ih =>
    simp only [cons_append, blocksEvents, ih, length_cons, append_assoc]
    rw [show i + 1 + left.length = i + (left.length + 1) by omega]

def AnthropicEvent.isStart : AnthropicEvent → Bool
  | .contentBlockStart _ _ _ => true
  | _ => false

def AnthropicEvent.isStop : AnthropicEvent → Bool
  | .contentBlockStop _ => true
  | _ => false

/-- Blocks that have been started and not stopped. -/
def pendingBlocks (sent : List AnthropicEvent) : ℤ :=
  sent.countP (·.isStart) - sent.countP (·.isStop)

theorem pendingBlocks_append (left right : List AnthropicEvent) :
    pendingBlocks (left ++ right) = pendingBlocks left + pendingBlocks right := by
  simp only [pendingBlocks, countP_append]
  omega

theorem pendingBlocks_opened (b : ContentBlock) (i : ℕ) : pendingBlocks (b.opened i) = 1 := by
  have hstart : (b.opened i).countP (·.isStart) = 1 := by
    simp only [ContentBlock.opened, countP_cons, countP_map, AnthropicEvent.isStart]
    simp [Function.comp_def]
  have hstop : (b.opened i).countP (·.isStop) = 0 := by
    simp only [ContentBlock.opened, countP_cons, countP_map, AnthropicEvent.isStop]
    simp [Function.comp_def]
  simp [pendingBlocks, hstart, hstop]

theorem pendingBlocks_blocksEvents (i : ℕ) (blocks : List ContentBlock) :
    pendingBlocks (blocksEvents i blocks) = 0 := by
  induction blocks generalizing i with
  | nil => rfl
  | cons b blocks ih =>
    rw [blocksEvents, pendingBlocks_append, pendingBlocks_append, ih, pendingBlocks_opened]
    rfl

theorem WellBracketed.pendingBlocks_eq {sent : List AnthropicEvent} (h : WellBracketed sent) :
    pendingBlocks sent = 0 := by
  obtain ⟨blocks, finish, rfl⟩ := h
  rw [pendingBlocks_append, pendingBlocks_blocksEvents]
  rfl

/-! ### Closed and open blocks of a stream -/

/-- What a stream has sent: closed blocks, and the open one. -/
def AnthropicStream.Bracketed (st : AnthropicStream) : Prop :=
  ∃ blocks : List ContentBlock, blocks.length = st.nextIndex ∧
    match st.openBlock with
    | none => st.sent = blocksEvents 0 blocks
    | some k => ∃ b : ContentBlock, b.kind = k ∧
        st.sent = blocksEvents 0 blocks ++ b.opened st.nextIndex

/-- What the functions that write events leave as it is. -/
structure SameControl (st st' : AnthropicStream) : Prop where
  active : st'.active = st.active
  cur : st'.cur = st.cur
  tool : st'.tool = st.tool

theorem SameControl.refl (st : AnthropicStream) : SameControl st st := ⟨rfl, rfl, rfl⟩

theorem SameControl.trans {st st' st'' : AnthropicStream} (h : SameControl st st')
    (h' : SameControl st' st'') : SameControl st st'' :=
  ⟨h'.active.trans h.active, h'.cur.trans h.cur, h'.tool.trans h.tool⟩

variable {st : AnthropicStream} {block : Block}

theorem openBlock_spec (h : st.Bracketed) (name : Bytes)
    (hopen : st.openBlock = none ∨ st.openBlock = some block) :
    (anthropicSseOpenBlock block name st).2 = true ∧
      (anthropicSseOpenBlock block name st).1.Bracketed ∧
      (anthropicSseOpenBlock block name st).1.openBlock = some block ∧
      SameControl st (anthropicSseOpenBlock block name st).1 := by
  rcases hopen with hnone | hsome
  · obtain ⟨blocks, hlength, hsent⟩ := h
    rw [hnone] at hsent
    have hresult : anthropicSseOpenBlock block name st =
        ({ st.emit (.contentBlockStart st.nextIndex block name) with openBlock := some block },
          true) := by
      simp [anthropicSseOpenBlock, hnone]
    rw [hresult]
    refine ⟨rfl, ⟨blocks, hlength, ⟨block, name, []⟩, rfl, ?_⟩, rfl, ⟨rfl, rfl, rfl⟩⟩
    simp [AnthropicStream.emit, hsent, ContentBlock.opened]
  · have hresult : anthropicSseOpenBlock block name st = (st, true) := by
      simp [anthropicSseOpenBlock, hsome]
    rw [hresult]
    exact ⟨rfl, h, hsome, SameControl.refl st⟩

theorem delta_bracketed (h : st.Bracketed) (hopen : st.openBlock = some block)
    (delta : BlockDelta) (place : Option (ℕ × ℕ)) :
    (st.emit (.contentBlockDelta st.nextIndex delta place)).Bracketed := by
  obtain ⟨blocks, hlength, hsent⟩ := h
  rw [hopen] at hsent
  obtain ⟨b, hkind, hsent⟩ := hsent
  refine ⟨blocks, hlength, ?_⟩
  simp only [AnthropicStream.emit, hopen]
  refine ⟨⟨b.kind, b.name, b.deltas ++ [(delta, place)]⟩, hkind, ?_⟩
  simp [hsent, ContentBlock.opened]

theorem closeBlock_spec (h : st.Bracketed) :
    (anthropicSseCloseBlockLive st).Bracketed ∧
      (anthropicSseCloseBlockLive st).openBlock = none ∧
      SameControl st (anthropicSseCloseBlockLive st) := by
  rcases hopen : st.openBlock with _ | block
  · simp only [anthropicSseCloseBlockLive, hopen]
    exact ⟨h, trivial, SameControl.refl st⟩
  · have hsigned : ∃ deltas : List (BlockDelta × Option (ℕ × ℕ)),
        (if block = .thinking then
          st.emit (.contentBlockDelta st.nextIndex .signature none) else st) =
        { st with sent := st.sent ++
            deltas.map fun d => AnthropicEvent.contentBlockDelta st.nextIndex d.1 d.2 } := by
      by_cases hthinking : block = .thinking
      · exact ⟨[(.signature, none)], by simp [hthinking, AnthropicStream.emit]⟩
      · exact ⟨[], by simp [hthinking]⟩
    obtain ⟨deltas, hdeltas⟩ := hsigned
    obtain ⟨blocks, hlength, hsent⟩ := h
    rw [hopen] at hsent
    obtain ⟨b, -, hsent⟩ := hsent
    simp only [anthropicSseCloseBlockLive, hopen, hdeltas]
    refine ⟨⟨blocks ++ [⟨b.kind, b.name, b.deltas ++ deltas⟩], ?_, ?_⟩, trivial, ⟨rfl, rfl, rfl⟩⟩
    · simp [hlength]
    · simp [AnthropicStream.emit, hsent, blocksEvents_append, blocksEvents, hlength,
        ContentBlock.opened]

/-! ### The tool projection -/

/-- Whether an invocation is open behind the events, if they open and close
invocations one at a time and belong to an open one. -/
def opensAfter : Bool → List ToolEvent → Option Bool
  | o, [] => some o
  | false, .start _ _ :: events => opensAfter true events
  | true, .args _ _ :: events => opensAfter true events
  | true, .stop _ :: events => opensAfter false events
  | _, _ :: _ => none

theorem opensAfter_append {o o' : Bool} {events : List ToolEvent}
    (h : opensAfter o events = some o') (more : List ToolEvent) :
    opensAfter o (events ++ more) = opensAfter o' more := by
  induction events generalizing o with
  | nil =>
    cases h
    rfl
  | cons e events ih =>
    cases o <;> cases e <;> simp_all [opensAfter]

theorem opensAfter_argsFragment (ts : ToolStream) (text : Bytes) :
    opensAfter true (argsFragment ts text) = some true := by
  unfold argsFragment
  split <;> rfl

theorem opensAfter_emitValue (ts : ToolStream) (text : Bytes) :
    opensAfter true (emitValue ts text) = some true := by
  unfold emitValue
  split
  · rfl
  · exact opensAfter_argsFragment ts _

/-- The machine while it reads: its state tells whether an invocation is open. -/
structure ToolStream.Tracks (ts : ToolStream) : Prop where
  syn : ts.syn ∈ [dsml, dsmlShort, plain]
  invokes : ts.state = .betweenInvokes → ts.argsOpen = false
  params : ts.state = .betweenParams → ts.argsOpen = true
  value : ts.state = .paramValue → ts.argsOpen = true
  live : ts.active = true → ts.state ≠ .done ∧ ts.state ≠ .error

/-- A turn keeps track, and its events are those of one invocation after another. -/
structure Turn.Follows (turn : Turn) (ts : ToolStream) : Prop where
  tracks : turn.ts.Tracks
  opens : opensAfter ts.argsOpen turn.events = some turn.ts.argsOpen

variable {ts : ToolStream}

section

variable (h : ts.Tracks)

include h

theorem toolStreamFail_follows (w : Bytes) :
    (toolStreamFail ts w).Follows ts where
  tracks := ⟨h.syn, nofun, nofun, nofun, nofun⟩
  opens := rfl

theorem waiting_follows (w : Bytes) :
    Turn.Follows ⟨ts, w, [], false⟩ ts where
  tracks := h
  opens := rfl

theorem betweenInvokesTurn_follows (hstate : ts.state = .betweenInvokes) (w : Bytes) :
    (betweenInvokesTurn ts w).Follows ts := by
  have hopen := h.invokes hstate
  simp only [betweenInvokesTurn]
  split_ifs
  · exact waiting_follows h _
  · exact ⟨⟨h.syn, nofun, nofun, nofun, nofun⟩, rfl⟩
  · exact waiting_follows h _
  · unfold toolStartInvoke
    split
    · exact waiting_follows h _
    · split
      · exact toolStreamFail_follows h _
      · refine ⟨⟨h.syn, nofun, fun _ => rfl, nofun, fun _ => ⟨nofun, nofun⟩⟩, ?_⟩
        rw [hopen]
        exact opensAfter_argsFragment ts _
  · exact toolStreamFail_follows h _

theorem betweenParamsTurn_follows (hstate : ts.state = .betweenParams) (w : Bytes) :
    (betweenParamsTurn ts w).Follows ts := by
  have hopen := h.params hstate
  simp only [betweenParamsTurn]
  split_ifs
  · exact waiting_follows h _
  · refine ⟨⟨h.syn, fun _ => rfl, nofun, nofun, fun _ => ⟨nofun, nofun⟩⟩, ?_⟩
    rw [hopen]
    exact opensAfter_append (opensAfter_argsFragment ts _) _
  · exact waiting_follows h _
  · unfold toolStartParam
    split
    · exact waiting_follows h _
    · split
      · refine ⟨⟨h.syn, nofun, nofun, fun _ => hopen, fun _ => ⟨nofun, nofun⟩⟩, ?_⟩
        rw [hopen]
        exact opensAfter_argsFragment ts _
      · exact toolStreamFail_follows h _
  · exact toolStreamFail_follows h _

theorem paramValueTurn_follows (hstate : ts.state = .paramValue) (w : Bytes) :
    (paramValueTurn ts w).Follows ts := by
  have hopen := h.value hstate
  unfold paramValueTurn
  split
  · rename_i value rest _
    have hargs : (toolFinishParam ts value rest).ts.argsOpen = true := hopen
    refine ⟨⟨h.syn, nofun, fun _ => hopen, nofun, fun _ => ⟨nofun, nofun⟩⟩, ?_⟩
    rw [hopen]
    refine (opensAfter_append (opensAfter_emitValue ts _) _).trans ?_
    rw [hargs]
    split
    · exact opensAfter_argsFragment ts _
    · rfl
  · refine ⟨h, ?_⟩
    rw [hopen]
    exact opensAfter_emitValue ts _

theorem toolTurn_follows (w : Bytes) : (toolTurn ts w).Follows ts := by
  unfold toolTurn
  cases hstate : ts.state with
  | betweenInvokes => exact betweenInvokesTurn_follows h hstate w
  | betweenParams => exact betweenParamsTurn_follows h hstate w
  | paramValue => exact paramValueTurn_follows h hstate w
  | done => exact waiting_follows h w
  | error => exact waiting_follows h w

end

theorem toolLoop_follows (fuel : ℕ) (h : ts.Tracks) (w : Bytes) :
    (toolLoop fuel ts w).1.Tracks ∧
      opensAfter ts.argsOpen (toolLoop fuel ts w).2.2 = some (toolLoop fuel ts w).1.argsOpen := by
  induction fuel generalizing ts w with
  | zero => exact ⟨h, rfl⟩
  | succ fuel ih =>
    have hturn := toolTurn_follows h w
    simp only [toolLoop]
    split_ifs
    · obtain ⟨htracks, hopens⟩ := ih hturn.tracks (toolTurn ts w).rest
      exact ⟨htracks, (opensAfter_append hturn.opens _).trans hopens⟩
    · exact ⟨hturn.tracks, hturn.opens⟩
    · exact ⟨h, rfl⟩

theorem toolStreamUpdate_follows (h : ts.Tracks) (raw : Bytes) (rawLen : ℕ) :
    (toolStreamUpdate ts raw rawLen).1.Tracks ∧
      opensAfter ts.argsOpen (toolStreamUpdate ts raw rawLen).2 =
        some (toolStreamUpdate ts raw rawLen).1.argsOpen := by
  unfold toolStreamUpdate
  split_ifs
  · obtain ⟨htracks, hopens⟩ := toolLoop_follows (slice raw ts.parsePos rawLen).length h
      (slice raw ts.parsePos rawLen)
    exact ⟨⟨htracks.syn, htracks.invokes, htracks.params, htracks.value, htracks.live⟩, hopens⟩
  · exact ⟨h, rfl⟩

/-- The events of the projection as blocks: an open invocation is an open block. -/
theorem anthropicToolEvents_spec {o o' : Bool} {events : List ToolEvent}
    (h : opensAfter o events = some o') (hst : st.Bracketed)
    (hopen : st.openBlock = if o then some .tool else none) :
    (anthropicToolEvents st events).2 = true ∧ (anthropicToolEvents st events).1.Bracketed ∧
      (anthropicToolEvents st events).1.openBlock = (if o' then some .tool else none) ∧
      SameControl st (anthropicToolEvents st events).1 := by
  induction events generalizing o st with
  | nil =>
    cases h
    exact ⟨rfl, hst, hopen, SameControl.refl st⟩
  | cons e events ih =>
    have hstep : ∃ o₁, opensAfter o₁ events = some o' ∧ (anthropicToolEvent st e).2 = true ∧
        (anthropicToolEvent st e).1.Bracketed ∧
        (anthropicToolEvent st e).1.openBlock = (if o₁ then some .tool else none) ∧
        SameControl st (anthropicToolEvent st e).1 := by
      cases e with
      | start index name =>
        cases o with
        | true => simp [opensAfter] at h
        | false =>
          obtain ⟨hok, hbr, hblock, hsame⟩ := openBlock_spec hst name (Or.inl hopen)
          exact ⟨true, h, hok, hbr, hblock, hsame⟩
      | args index text =>
        cases o with
        | true => exact ⟨true, h, rfl, delta_bracketed hst hopen _ _, hopen, ⟨rfl, rfl, rfl⟩⟩
        | false => simp [opensAfter] at h
      | stop index =>
        cases o with
        | true =>
          obtain ⟨hbr, hblock, hsame⟩ := closeBlock_spec hst
          exact ⟨false, h, rfl, hbr, hblock, hsame⟩
        | false => simp [opensAfter] at h
    obtain ⟨o₁, hrest, hok, hbr, hblock, hsame⟩ := hstep
    obtain ⟨hok', hbr', hblock', hsame'⟩ := ih hrest hbr hblock
    have hcons : anthropicToolEvents st (e :: events) =
        anthropicToolEvents (anthropicToolEvent st e).1 events := by
      simp [anthropicToolEvents, AnthropicResult.andThen, hok]
    rw [hcons]
    exact ⟨hok', hbr', hblock', hsame.trans hsame'⟩

/-! ### Updates -/

/-- What holds between two updates. -/
structure Sound (st : AnthropicStream) : Prop where
  active : st.active = true
  bracketed : st.Bracketed
  tracks : st.tool.Tracks
  running : st.cur.mode = .tool → st.tool.active = true
  thinking : st.cur.mode = .thinking →
    (st.openBlock = none ∨ st.openBlock = some .thinking) ∧ st.tool.argsOpen = false
  text : st.cur.mode = .text →
    (st.openBlock = none ∨ st.openBlock = some .text) ∧ st.tool.argsOpen = false
  tool : st.cur.mode = .tool ∨ st.cur.mode = .suppress →
    st.openBlock = if st.tool.argsOpen then some .tool else none

theorem sound_start (think : Bool) : Sound (anthropicStart think) where
  active := rfl
  bracketed := ⟨[], rfl, rfl⟩
  tracks := ⟨mem_cons_self, fun _ => rfl, nofun, nofun, nofun⟩
  running := by cases think <;> nofun
  thinking := fun _ => ⟨Or.inl rfl, rfl⟩
  text := fun _ => ⟨Or.inl rfl, rfl⟩
  tool := fun _ => rfl

/-- A result that succeeded with a sound stream. -/
def AnthropicResult.Good (x : AnthropicResult) : Prop := x.2 = true ∧ Sound x.1

theorem AnthropicResult.Good.andThen {x : AnthropicResult} (h : x.Good)
    {f : AnthropicStream → AnthropicResult} (hf : ∀ st, Sound st → (f st).Good) :
    (x.andThen f).Good := by
  unfold AnthropicResult.andThen
  rw [if_pos h.1]
  exact hf x.1 h.2

theorem sendReading_spec (h : st.Bracketed)
    (hopen : st.openBlock = none ∨ st.openBlock = some block) (rd : Reading) :
    ∃ st', sendReading block rd st = (st', true) ∧ st'.Bracketed ∧
      (st'.openBlock = none ∨ st'.openBlock = some block) ∧ SameControl st st' := by
  unfold sendReading
  split
  · obtain ⟨hok, hbr, hblock, hsame⟩ := openBlock_spec h [] hopen
    have hdelta : (anthropicSseDeltaLive block rd
        (anthropicSseOpenBlock block [] st).1).Bracketed := delta_bracketed hbr hblock _ _
    exact ⟨_, if_pos hok, hdelta, Or.inr hblock, hsame.trans ⟨rfl, rfl, rfl⟩⟩
  · exact ⟨st, rfl, h, hopen, SameControl.refl st⟩

theorem bracketed_of_eq {st st' : AnthropicStream} (h : st.Bracketed)
    (hsent : st'.sent = st.sent) (hopen : st'.openBlock = st.openBlock)
    (hnext : st'.nextIndex = st.nextIndex) : st'.Bracketed := by
  unfold AnthropicStream.Bracketed at h ⊢
  rwa [hsent, hopen, hnext]

theorem readThinking_mode (cur : Cursor) (raw : Bytes) (rawLen : ℕ) (final : Bool)
    (h : cur.mode = .thinking) :
    ((readThinking cur raw rawLen final).tag.isSome ∨ final = true) ∧
        ((readThinking cur raw rawLen final).cur.mode = .text ∨
          (readThinking cur raw rawLen final).cur.mode = .suppress) ∨
      ¬((readThinking cur raw rawLen final).tag.isSome ∨ final = true) ∧
        (readThinking cur raw rawLen final).cur.mode = .thinking := by
  unfold readThinking
  by_cases hwait : waitsForThinkPrefix cur raw rawLen final = true
  · right
    have hfinal : final = false := by
      simp only [waitsForThinkPrefix, Bool.and_eq_true, Bool.not_eq_true'] at hwait
      exact hwait.2
    rw [if_pos hwait, hfinal]
    simp [h]
  · simp only [hwait, Bool.false_eq_true, if_false]
    cases strstrFrom raw (skipThinkPrefix cur raw rawLen) Tokenizer.thinkEnd with
    | some i => simp
    | none => cases final <;> simp

theorem thinkingBranch_spec (h : Sound st) (hmode : st.cur.mode = .thinking) (raw : Bytes)
    (rawLen : ℕ) (final : Bool) :
    (anthropicThinkingBranch st raw rawLen final).Good ∧
      (anthropicThinkingBranch st raw rawLen final).1.tool = st.tool ∧
      (anthropicThinkingBranch st raw rawLen final).1.cur =
        (readThinking st.cur raw rawLen final).cur := by
  obtain ⟨hopen, hargs⟩ := h.thinking hmode
  obtain ⟨st', hsent, hbr, hopen', hsame⟩ := sendReading_spec h.bracketed hopen
    (readThinking st.cur raw rawLen final)
  have htool : st'.tool.argsOpen = false := by rw [hsame.tool]; exact hargs
  have htracks : st'.tool.Tracks := by rw [hsame.tool]; exact h.tracks
  simp only [anthropicThinkingBranch, hsent, AnthropicResult.andThen, if_true]
  rcases readThinking_mode st.cur raw rawLen final hmode with ⟨hends, hcur⟩ | ⟨hstays, hcur⟩
  · obtain ⟨hbr', hclosed, hsame'⟩ := closeBlock_spec hbr
    have htool' : (anthropicSseCloseBlockLive st').tool.argsOpen = false := by
      rw [hsame'.tool]
      exact htool
    rw [if_pos hends]
    refine ⟨⟨rfl, hsame'.active.trans (hsame.active.trans h.active),
      bracketed_of_eq hbr' rfl rfl rfl, ?_, ?_, ?_, ?_, ?_⟩, hsame'.tool.trans hsame.tool, rfl⟩
    · simpa [hsame'.tool] using htracks
    · intro hother
      rcases hcur with hcur | hcur <;> exact absurd (hcur.symm.trans hother) (by simp)
    · exact fun _ => ⟨Or.inl hclosed, htool'⟩
    · exact fun _ => ⟨Or.inl hclosed, htool'⟩
    · intro _
      simp [htool', hclosed]
  · rw [if_neg hstays]
    refine ⟨⟨rfl, hsame.active.trans h.active, bracketed_of_eq hbr rfl rfl rfl, htracks, ?_,
      fun _ => ⟨hopen', htool⟩, ?_, ?_⟩, hsame.tool, rfl⟩
    · intro hother
      exact absurd (hcur.symm.trans hother) (by simp)
    · intro hother
      exact absurd (hcur.symm.trans hother) (by simp)
    · rintro (hother | hother) <;> exact absurd (hcur.symm.trans hother) (by simp)

theorem toolStreamInit_spec {raw : Bytes} {rawLen pos : ℕ}
    (h : toolStreamInit raw rawLen pos = some ts) :
    ts.Tracks ∧ ts.argsOpen = false ∧ ts.active = true := by
  obtain ⟨x, hx, rfl⟩ := map_eq_some_iff.mp h
  exact ⟨⟨mem_of_find?_eq_some hx, fun _ => rfl, nofun, nofun, fun _ => ⟨nofun, nofun⟩⟩, rfl, rfl⟩

section

variable (h : Sound st)

include h

theorem textBranch_spec (hmode : st.cur.mode = .text) (hasTools : Bool) (raw : Bytes) (rawLen : ℕ)
    (final : Bool) :
    (anthropicTextBranch hasTools st raw rawLen final).Good ∧
      (final = true → (anthropicTextBranch hasTools st raw rawLen final).1.tool = st.tool ∧
        (anthropicTextBranch hasTools st raw rawLen final).1.cur.mode = .suppress) := by
  obtain ⟨hopen, hargs⟩ := h.text hmode
  obtain ⟨st', hsent, hbr, hopen', hsame⟩ := sendReading_spec h.bracketed hopen
    (readText st.cur raw rawLen hasTools final)
  have htool : st'.tool.argsOpen = false := by rw [hsame.tool]; exact hargs
  have htracks : st'.tool.Tracks := by rw [hsame.tool]; exact h.tracks
  obtain ⟨hbr', hclosed, hsame'⟩ := closeBlock_spec hbr
  have htool' : (anthropicSseCloseBlockLive st').tool.argsOpen = false := by
    rw [hsame'.tool]
    exact htool
  have hactive : (anthropicSseCloseBlockLive st').active = true :=
    hsame'.active.trans (hsame.active.trans h.active)
  have hkept : (anthropicSseCloseBlockLive st').tool = st.tool := hsame'.tool.trans hsame.tool
  simp only [anthropicTextBranch, hsent, AnthropicResult.andThen, if_true]
  cases htag : (readText st.cur raw rawLen hasTools final).tag with
  | some marker =>
    simp only
    cases hinit : (if final then none else toolStreamInit raw rawLen marker) with
    | some ts =>
      have hts : ts.Tracks ∧ ts.argsOpen = false ∧ ts.active = true := by
        cases final with
        | true => simp at hinit
        | false => exact toolStreamInit_spec hinit
      refine ⟨⟨rfl, hactive, bracketed_of_eq hbr' rfl rfl rfl, hts.1, fun _ => hts.2.2, ?_, ?_,
        ?_⟩, ?_⟩
      · intro hother
        cases hother
      · intro hother
        cases hother
      · intro _
        simp [hts.2.1, hclosed]
      · intro hfinal
        simp [hfinal] at hinit
    | none =>
      refine ⟨⟨rfl, hactive, bracketed_of_eq hbr' rfl rfl rfl, ?_, ?_, ?_, ?_, ?_⟩,
        fun _ => ⟨hkept, rfl⟩⟩
      · simpa [hsame'.tool] using htracks
      · intro hother
        cases hother
      · intro hother
        cases hother
      · intro hother
        cases hother
      · intro _
        simp [htool', hclosed]
  | none =>
    have hcur : (readText st.cur raw rawLen hasTools final).cur.mode =
        if final then .suppress else .text := by
      simp only [readText] at htag ⊢
      rw [htag]
    cases final with
    | true =>
      refine ⟨⟨rfl, hactive, bracketed_of_eq hbr' rfl rfl rfl, ?_, ?_, ?_, ?_, ?_⟩,
        fun _ => ⟨hkept, hcur⟩⟩
      · simpa [hsame'.tool] using htracks
      · intro hother
        exact absurd (hcur.symm.trans hother) (by simp)
      · intro hother
        exact absurd (hcur.symm.trans hother) (by simp)
      · intro hother
        exact absurd (hcur.symm.trans hother) (by simp)
      · intro _
        simp [htool', hclosed]
    | false =>
      refine ⟨⟨rfl, hsame.active.trans h.active, bracketed_of_eq hbr rfl rfl rfl, htracks, ?_, ?_,
        fun _ => ⟨hopen', htool⟩, ?_⟩, fun hfinal => absurd hfinal (by simp)⟩
      · intro hother
        exact absurd (hcur.symm.trans hother) (by simp)
      · intro hother
        exact absurd (hcur.symm.trans hother) (by simp)
      · rintro (hother | hother) <;> exact absurd (hcur.symm.trans hother) (by simp)

theorem toolBranch_spec (hmode : st.cur.mode = .tool) (raw : Bytes) (rawLen : ℕ) :
    (anthropicToolBranch st raw rawLen).Good ∧
      (anthropicToolBranch st raw rawLen).1.tool = (toolStreamUpdate st.tool raw rawLen).1 ∧
      ((anthropicToolBranch st raw rawLen).1.cur.mode = .tool ∨
        (anthropicToolBranch st raw rawLen).1.cur.mode = .suppress) := by
  obtain ⟨htracks, hopens⟩ := toolStreamUpdate_follows h.tracks raw rawLen
  have hbr : ({ st with tool := (toolStreamUpdate st.tool raw rawLen).1 } :
      AnthropicStream).Bracketed := bracketed_of_eq h.bracketed rfl rfl rfl
  obtain ⟨hok, hbr', hopen', hsame⟩ := anthropicToolEvents_spec hopens hbr (h.tool (Or.inl hmode))
  have hupdate : anthropicToolUpdate st raw rawLen =
      ((anthropicToolUpdate st raw rawLen).1, true) := Prod.ext rfl hok
  have htool : (anthropicToolUpdate st raw rawLen).1.tool = (toolStreamUpdate st.tool raw rawLen).1 :=
    hsame.tool
  have hcur : (anthropicToolUpdate st raw rawLen).1.cur = st.cur := hsame.cur
  have hactive : (anthropicToolUpdate st raw rawLen).1.active = true := hsame.active.trans h.active
  rw [anthropicToolBranch, hupdate]
  simp only [AnthropicResult.andThen, if_true]
  split
  · rename_i hrunning
    refine ⟨⟨rfl, hactive, hbr', htool ▸ htracks, fun _ => hrunning, ?_, ?_,
      fun _ => by rw [htool]; exact hopen'⟩, htool, Or.inl (hcur ▸ hmode)⟩
    · intro hother
      rw [hcur, hmode] at hother
      cases hother
    · intro hother
      rw [hcur, hmode] at hother
      cases hother
  · exact ⟨⟨rfl, hactive, bracketed_of_eq hbr' rfl rfl rfl, htool ▸ htracks, nofun, nofun, nofun,
      fun _ => by simp only [htool]; exact hopen'⟩, htool, Or.inr rfl⟩

theorem inMode_good {mode : Mode} {branch : AnthropicStream → AnthropicResult}
    (hbranch : ∀ st, Sound st → st.cur.mode = mode → (branch st).Good) :
    (inMode mode branch st).Good := by
  unfold inMode
  split
  · rename_i hmode
    exact hbranch st h hmode
  · exact ⟨rfl, h⟩

theorem streamUpdate_good (hasTools : Bool) (raw : Bytes) (rawLen : ℕ) (final : Bool) :
    (anthropicSseStreamUpdate hasTools st raw rawLen final).Good := by
  unfold anthropicSseStreamUpdate
  split
  · exact ⟨rfl, h⟩
  · have hthinking := inMode_good h fun st hst hmode => (thinkingBranch_spec hst hmode raw rawLen final).1
    have htext := hthinking.andThen fun st hst =>
      inMode_good hst fun st hst hmode => (textBranch_spec hst hmode hasTools raw rawLen final).1
    exact htext.andThen fun st hst =>
      inMode_good hst fun st hst hmode => (toolBranch_spec hst hmode raw rawLen).1

theorem updates_good (hasTools : Bool) (updates : List (Bytes × ℕ)) :
    (anthropicUpdates hasTools st updates).Good := by
  induction updates generalizing st with
  | nil => exact ⟨rfl, h⟩
  | cons u updates ih =>
    exact (streamUpdate_good h hasTools u.1 u.2 false).andThen fun st hst => ih hst

end

/-! ### The end of the stream -/

/-- Whether the rest of a block, read from a state of the projection on, ends inside
an invocation: its tag has been read and its closing tag does not come. -/
def leavesInvokeOpen (x : Spelling) : ℕ → ToolState → Bytes → Bool
  | fuel + 1, .betweenInvokes, w =>
      match openTag x.invokeStart (skipWs w) with
      | some (tag, rest) =>
          (dsmlAttr (cstr tag) (str "name")).isSome && leavesInvokeOpen x fuel .betweenParams rest
      | none => false
  | fuel + 1, .betweenParams, w =>
      if x.invokeEnd <+: skipWs w then
        leavesInvokeOpen x fuel .betweenInvokes ((skipWs w).drop x.invokeEnd.length)
      else
        match openTag x.paramStart (skipWs w) with
        | some (tag, rest) =>
            !((dsmlAttr (cstr tag) (str "name")).isSome &&
              (dsmlAttr (cstr tag) (str "string")).isSome) || leavesInvokeOpen x fuel .paramValue rest
        | none => true
  | fuel + 1, .paramValue, w =>
      match cut x.paramEnd w with
      | some (_, rest) => leavesInvokeOpen x fuel .betweenParams rest
      | none => true
  | 0, state, _ => state = .betweenParams || state = .paramValue
  | _, .done, _ => false
  | _, .error, _ => false

/-- The stream ends with an open tool block: the projection has failed inside an
invocation, or the text ends inside one. -/
def LeftOpen (st : AnthropicStream) (raw : Bytes) (rawLen : ℕ) : Prop :=
  (st.cur.mode = .suppress ∧ st.tool.argsOpen = true) ∨
    (st.cur.mode = .tool ∧
      leavesInvokeOpen st.tool.syn (slice raw st.tool.parsePos rawLen).length st.tool.state
        (slice raw st.tool.parsePos rawLen) = true)

/-- Two tags of which none begins like the other. -/
def TagsApart (a b : Bytes) : Prop := ¬ a <+: b ∧ ¬ b <+: a

theorem spelling_apart {x : Spelling} (hx : x ∈ [dsml, dsmlShort, plain]) :
    TagsApart x.invokeStart x.toolCallsEnd ∧ TagsApart x.paramStart x.invokeEnd := by
  have hall : ∀ y ∈ [dsml, dsmlShort, plain],
      (¬ y.invokeStart <+: y.toolCallsEnd ∧ ¬ y.toolCallsEnd <+: y.invokeStart) ∧
        (¬ y.paramStart <+: y.invokeEnd ∧ ¬ y.invokeEnd <+: y.paramStart) := by
    decide
  exact hall x hx

/-- Text that starts with one of two such tags neither starts with the other one nor
may become it. -/
theorem TagsApart.of_prefix {a b w : Bytes} (h : TagsApart a b) (ha : a <+: w) :
    ¬ b <+: w ∧ rawPartialLit w b = false ∧ rawPartialLit w a = false := by
  refine ⟨?_, ?_, ?_⟩
  · intro hb
    rcases prefix_or_prefix_of_prefix ha hb with hab | hba
    · exact h.1 hab
    · exact h.2 hba
  · by_contra hpartial
    simp only [Bool.not_eq_false, rawPartialLit, Bool.and_eq_true, decide_eq_true_eq,
      isPrefixOf_iff_prefix] at hpartial
    exact h.1 (ha.trans hpartial.2)
  · by_contra hpartial
    simp only [Bool.not_eq_false, rawPartialLit, Bool.and_eq_true, decide_eq_true_eq] at hpartial
    have := ha.length_le
    omega

theorem openTag_eq (start w : Bytes) : openTag start w = if start <+: w then tagAt w else none := rfl

/-- Between two invocations the machine goes on exactly behind a tag with a name. -/
theorem betweenInvokesTurn_cases (h : ts.Tracks) (hstate : ts.state = .betweenInvokes) (w : Bytes) :
    (∃ tag rest, openTag ts.syn.invokeStart (skipWs w) = some (tag, rest) ∧
        (dsmlAttr (cstr tag) (str "name")).isSome = true ∧ (betweenInvokesTurn ts w).again = true ∧
        (betweenInvokesTurn ts w).rest = rest ∧
        (betweenInvokesTurn ts w).ts = { ts with
          emittedAny := true, argsOpen := true, firstParam := true, state := .betweenParams }) ∨
      ((∀ tag rest, openTag ts.syn.invokeStart (skipWs w) = some (tag, rest) →
          (dsmlAttr (cstr tag) (str "name")).isSome = false) ∧
        (betweenInvokesTurn ts w).again = false ∧
        (betweenInvokesTurn ts w).ts.argsOpen = false) := by
  have hargs := h.invokes hstate
  have hapart := (spelling_apart h.syn).1
  by_cases hstart : ts.syn.invokeStart <+: skipWs w
  · obtain ⟨hend, hpartial, hself⟩ := hapart.of_prefix hstart
    have hne := hstart.ne_nil fun hnil => hapart.1 (hnil ▸ nil_prefix)
    have hturn : betweenInvokesTurn ts w = toolStartInvoke ts (skipWs w) := by
      simp only [betweenInvokesTurn, hne, hend, hpartial, hself, hstart, if_false, if_true,
        Bool.or_self, Bool.false_eq_true]
    rw [hturn, openTag_eq, if_pos hstart, toolStartInvoke]
    cases htag : tagAt (skipWs w) with
    | none => exact Or.inr ⟨nofun, rfl, hargs⟩
    | some r =>
      cases hname : dsmlAttr (cstr r.1) (str "name") with
      | none =>
        right
        simp only [hname]
        refine ⟨?_, rfl, hargs⟩
        intro tag rest hr
        rw [← (Prod.mk.inj (some.inj hr)).1, hname]
        rfl
      | some name =>
        left
        simp only [hname]
        refine ⟨r.1, r.2, rfl, ?_, ?_⟩
        · rw [hname]
          rfl
        · simp
  · right
    rw [openTag_eq]
    simp only [betweenInvokesTurn, hstart, if_false]
    split_ifs <;> simp [toolStreamFail, hargs]

/-- Between two parameters it goes on behind the end of the invocation and behind a
tag with its attributes. -/
theorem betweenParamsTurn_cases (h : ts.Tracks) (hstate : ts.state = .betweenParams) (w : Bytes) :
    (ts.syn.invokeEnd <+: skipWs w ∧ (betweenParamsTurn ts w).again = true ∧
        (betweenParamsTurn ts w).rest = (skipWs w).drop ts.syn.invokeEnd.length ∧
        (betweenParamsTurn ts w).ts = { ts with
          argsOpen := false, index := ts.index + 1, state := .betweenInvokes }) ∨
      ¬ ts.syn.invokeEnd <+: skipWs w ∧
        ((∃ tag rest, openTag ts.syn.paramStart (skipWs w) = some (tag, rest) ∧
            ((dsmlAttr (cstr tag) (str "name")).isSome &&
              (dsmlAttr (cstr tag) (str "string")).isSome) = true ∧
            (betweenParamsTurn ts w).again = true ∧ (betweenParamsTurn ts w).rest = rest ∧
            ∃ isString, (betweenParamsTurn ts w).ts = { ts with
              firstParam := false, paramIsString := isString, state := .paramValue }) ∨
          (∀ tag rest, openTag ts.syn.paramStart (skipWs w) = some (tag, rest) →
              ((dsmlAttr (cstr tag) (str "name")).isSome &&
                (dsmlAttr (cstr tag) (str "string")).isSome) = false) ∧
            (betweenParamsTurn ts w).again = false ∧
            (betweenParamsTurn ts w).ts.argsOpen = true) := by
  have hargs := h.params hstate
  have hapart := (spelling_apart h.syn).2
  by_cases hend : ts.syn.invokeEnd <+: skipWs w
  · left
    have hne := hend.ne_nil fun hnil => hapart.2 (hnil ▸ nil_prefix)
    simp only [betweenParamsTurn, hne, hend, if_false, if_true]
    exact ⟨trivial, trivial, trivial, trivial⟩
  · right
    refine ⟨hend, ?_⟩
    by_cases hstart : ts.syn.paramStart <+: skipWs w
    · obtain ⟨-, hpartial, hself⟩ := hapart.of_prefix hstart
      have hne := hstart.ne_nil fun hnil => hapart.1 (hnil ▸ nil_prefix)
      have hturn : betweenParamsTurn ts w = toolStartParam ts (skipWs w) := by
        simp only [betweenParamsTurn, hne, hend, hpartial, hself, hstart, if_false, if_true,
          Bool.or_self, Bool.false_eq_true]
      rw [hturn, openTag_eq, if_pos hstart, toolStartParam]
      cases htag : tagAt (skipWs w) with
      | none => exact Or.inr ⟨nofun, rfl, hargs⟩
      | some r =>
        cases hname : dsmlAttr (cstr r.1) (str "name") with
        | none =>
          right
          simp only [hname]
          refine ⟨?_, rfl, hargs⟩
          intro tag rest hr
          rw [← (Prod.mk.inj (some.inj hr)).1, hname]
          rfl
        | some name =>
          cases hstring : dsmlAttr (cstr r.1) (str "string") with
          | none =>
            right
            simp only [hname, hstring]
            refine ⟨?_, rfl, hargs⟩
            intro tag rest hr
            rw [← (Prod.mk.inj (some.inj hr)).1, hname, hstring]
            rfl
          | some isString =>
            left
            simp only [hname, hstring]
            refine ⟨r.1, r.2, rfl, ?_, ?_⟩
            · rw [hname, hstring]
              rfl
            · exact ⟨trivial, rfl, _, rfl⟩
    · right
      rw [openTag_eq]
      simp only [betweenParamsTurn, hend, hstart, if_false]
      split_ifs <;> simp [toolStreamFail, hargs]

theorem leavesInvokeOpen_nil (h : ts.Tracks) (hdone : ts.state ≠ .done)
    (herror : ts.state ≠ .error) (fuel : ℕ) :
    leavesInvokeOpen ts.syn fuel ts.state [] = ts.argsOpen := by
  have hcut : ∀ pat : Bytes, pat ≠ [] → cut pat ([] : Bytes) = none := by
    intro pat hpat
    have hfind : find pat ([] : Bytes) = none := by
      rw [find_eq_none_iff]
      intro hin
      exact hpat (infix_nil.mp hin)
    rw [cut, hfind, map_none]
  have hsyn : ∀ x ∈ [dsml, dsmlShort, plain], x.paramEnd ≠ [] ∧ x.invokeEnd ≠ [] := by decide
  obtain ⟨hparam, hinvoke⟩ := hsyn ts.syn h.syn
  have hopenTag : ∀ start : Bytes, openTag start [] = none := by
    intro start
    simp [openTag, hcut]
  cases fuel with
  | zero =>
    cases hstate : ts.state with
    | betweenInvokes => simp [leavesInvokeOpen, h.invokes hstate]
    | betweenParams => simp [leavesInvokeOpen, h.params hstate]
    | paramValue => simp [leavesInvokeOpen, h.value hstate]
    | done => exact absurd hstate hdone
    | error => exact absurd hstate herror
  | succ fuel =>
    cases hstate : ts.state with
    | betweenInvokes => simp [leavesInvokeOpen, hopenTag, h.invokes hstate]
    | betweenParams => simp [leavesInvokeOpen, hopenTag, hinvoke, h.params hstate]
    | paramValue => simp [leavesInvokeOpen, hcut _ hparam, h.value hstate]
    | done => exact absurd hstate hdone
    | error => exact absurd hstate herror

theorem toolLoop_argsOpen (fuel : ℕ) (h : ts.Tracks) (hactive : ts.active = true)
    (hdone : ts.state ≠ .done) (herror : ts.state ≠ .error) (w : Bytes) :
    (toolLoop fuel ts w).1.argsOpen = leavesInvokeOpen ts.syn fuel ts.state w := by
  induction fuel generalizing ts w with
  | zero =>
    cases hstate : ts.state with
    | betweenInvokes => simp [toolLoop, leavesInvokeOpen, h.invokes hstate]
    | betweenParams => simp [toolLoop, leavesInvokeOpen, h.params hstate]
    | paramValue => simp [toolLoop, leavesInvokeOpen, h.value hstate]
    | done => exact absurd hstate hdone
    | error => exact absurd hstate herror
  | succ fuel ih =>
    by_cases hw : w = []
    · subst hw
      rw [leavesInvokeOpen_nil h hdone herror]
      simp [toolLoop]
    · have hloop : (toolLoop (fuel + 1) ts w).1 =
          if (toolTurn ts w).again then (toolLoop fuel (toolTurn ts w).ts (toolTurn ts w).rest).1
          else (toolTurn ts w).ts := by
        cases hagain : (toolTurn ts w).again <;> simp [toolLoop, hactive, hw, hagain]
      rw [hloop]
      have htracks := (toolTurn_follows h w).tracks
      cases hstate : ts.state with
      | betweenInvokes =>
        have hturn : toolTurn ts w = betweenInvokesTurn ts w := by simp only [toolTurn, hstate]
        rw [hturn] at htracks ⊢
        rcases betweenInvokesTurn_cases h hstate w with
          ⟨tag, rest, htag, hname, hagain, hrest, hts⟩ | ⟨hnone, hagain, hopen⟩
        · rw [if_pos hagain, ih htracks (by rw [hts]; exact hactive) (by simp [hts]) (by simp [hts]),
            hrest, hts]
          simp [leavesInvokeOpen, htag, hname]
        · rw [if_neg (by simp [hagain]), hopen]
          cases htag : openTag ts.syn.invokeStart (skipWs w) with
          | none => simp [leavesInvokeOpen, htag]
          | some r => simp [leavesInvokeOpen, htag, hnone r.1 r.2 htag]
      | betweenParams =>
        have hturn : toolTurn ts w = betweenParamsTurn ts w := by simp only [toolTurn, hstate]
        rw [hturn] at htracks ⊢
        rcases betweenParamsTurn_cases h hstate w with
          ⟨hend, hagain, hrest, hts⟩ | ⟨hend, ⟨tag, rest, htag, hattrs, hagain, hrest, _, hts⟩ |
            ⟨hnone, hagain, hopen⟩⟩
        · rw [if_pos hagain, ih htracks (by rw [hts]; exact hactive) (by simp [hts]) (by simp [hts]),
            hrest, hts]
          simp [leavesInvokeOpen, hend]
        · rw [if_pos hagain, ih htracks (by rw [hts]; exact hactive) (by simp [hts]) (by simp [hts]),
            hrest, hts]
          simp only [leavesInvokeOpen, hend, htag, hattrs]
          simp
        · rw [if_neg (by simp [hagain]), hopen]
          cases htag : openTag ts.syn.paramStart (skipWs w) with
          | none => simp [leavesInvokeOpen, hend, htag]
          | some r =>
            simp only [leavesInvokeOpen, hend, htag, hnone r.1 r.2 htag]
            simp
      | paramValue =>
        have hturn : toolTurn ts w = paramValueTurn ts w := by simp only [toolTurn, hstate]
        rw [hturn] at htracks ⊢
        cases hcut : cut ts.syn.paramEnd w with
        | none => simp [paramValueTurn, leavesInvokeOpen, hcut, h.value hstate]
        | some r =>
          have hfinish : paramValueTurn ts w = toolFinishParam ts r.1 r.2 := by
            simp only [paramValueTurn, hcut]
          rw [hfinish] at htracks ⊢
          have hagain : (toolFinishParam ts r.1 r.2).again = true := rfl
          rw [if_pos hagain, ih htracks hactive nofun nofun]
          simp [toolFinishParam, leavesInvokeOpen, hcut]
      | done => exact absurd hstate hdone
      | error => exact absurd hstate herror

theorem toolStreamUpdate_argsOpen (h : ts.Tracks) (hactive : ts.active = true)
    (hdone : ts.state ≠ .done) (herror : ts.state ≠ .error) (raw : Bytes) (rawLen : ℕ) :
    (toolStreamUpdate ts raw rawLen).1.argsOpen =
      leavesInvokeOpen ts.syn (slice raw ts.parsePos rawLen).length ts.state
        (slice raw ts.parsePos rawLen) := by
  unfold toolStreamUpdate
  split_ifs with hpos
  · exact toolLoop_argsOpen _ h hactive hdone herror _
  · have hnil : slice raw ts.parsePos rawLen = [] := by
      simp [slice, Nat.sub_eq_zero_of_le (Nat.le_of_not_lt hpos)]
    rw [hnil, leavesInvokeOpen_nil h hdone herror]

/-- Where the final update ends, and whether a tool block is open there. -/
theorem final_spec (h : Sound st) (hasTools : Bool) (raw : Bytes) (rawLen : ℕ) :
    ((anthropicSseStreamUpdate hasTools st raw rawLen true).1.cur.mode = .tool ∨
        (anthropicSseStreamUpdate hasTools st raw rawLen true).1.cur.mode = .suppress) ∧
      ((anthropicSseStreamUpdate hasTools st raw rawLen true).1.tool.argsOpen = true ↔
        LeftOpen st raw rawLen) := by
  have htextCase : ∀ st', Sound st' → st'.tool.argsOpen = false →
      st'.cur.mode = .text ∨ st'.cur.mode = .suppress →
      ((((inMode .text (anthropicTextBranch hasTools · raw rawLen true)) st').andThen
          (inMode .tool (anthropicToolBranch · raw rawLen))).1.cur.mode = .suppress ∧
        (((inMode .text (anthropicTextBranch hasTools · raw rawLen true)) st').andThen
          (inMode .tool (anthropicToolBranch · raw rawLen))).1.tool.argsOpen = false) := by
    intro st' hst' hargs hmode
    rcases hmode with hmode | hmode
    · obtain ⟨hgood, hfinal⟩ := textBranch_spec hst' hmode hasTools raw rawLen true
      obtain ⟨htool, hsuppress⟩ := hfinal rfl
      simp [inMode, hmode, AnthropicResult.andThen, hgood.1, hsuppress, htool, hargs]
    · simp [inMode, hmode, AnthropicResult.andThen, hargs]
  unfold anthropicSseStreamUpdate LeftOpen
  simp only [h.active, Bool.not_true, Bool.false_eq_true, if_false]
  cases hmode : st.cur.mode with
  | thinking =>
    obtain ⟨hgood, htool, hcur⟩ := thinkingBranch_spec h hmode raw rawLen true
    have hnext : (anthropicThinkingBranch st raw rawLen true).1.cur.mode = .text ∨
        (anthropicThinkingBranch st raw rawLen true).1.cur.mode = .suppress := by
      rw [hcur]
      rcases readThinking_mode st.cur raw rawLen true hmode with ⟨-, hends⟩ | ⟨hstays, -⟩
      · exact hends
      · exact absurd (Or.inr rfl) hstays
    have hargs : (anthropicThinkingBranch st raw rawLen true).1.tool.argsOpen = false := by
      rw [htool]
      exact (h.thinking hmode).2
    obtain ⟨hsuppress, hclosed⟩ := htextCase _ hgood.2 hargs hnext
    have hfirst : (inMode .thinking (anthropicThinkingBranch · raw rawLen true) st).andThen
        (inMode .text (anthropicTextBranch hasTools · raw rawLen true)) =
        inMode .text (anthropicTextBranch hasTools · raw rawLen true)
          (anthropicThinkingBranch st raw rawLen true).1 := by
      simp [inMode, hmode, AnthropicResult.andThen, hgood.1]
    rw [hfirst]
    exact ⟨Or.inr hsuppress, by simp [hclosed]⟩
  | text =>
    obtain ⟨hsuppress, hclosed⟩ := htextCase st h (h.text hmode).2 (Or.inl hmode)
    have hfirst : (inMode .thinking (anthropicThinkingBranch · raw rawLen true) st).andThen
        (inMode .text (anthropicTextBranch hasTools · raw rawLen true)) =
        inMode .text (anthropicTextBranch hasTools · raw rawLen true) st := by
      simp [inMode, hmode, AnthropicResult.andThen]
    rw [hfirst]
    exact ⟨Or.inr hsuppress, by simp [hclosed]⟩
  | tool =>
    have hactive := h.running hmode
    obtain ⟨hdone, herror⟩ := h.tracks.live hactive
    have hupdate := toolStreamUpdate_argsOpen h.tracks hactive hdone herror raw rawLen
    obtain ⟨-, htool, hnext⟩ := toolBranch_spec h hmode raw rawLen
    have hrun : (((inMode .thinking (anthropicThinkingBranch · raw rawLen true) st).andThen
        (inMode .text (anthropicTextBranch hasTools · raw rawLen true))).andThen
        (inMode .tool (anthropicToolBranch · raw rawLen))) = anthropicToolBranch st raw rawLen := by
      simp [inMode, hmode, AnthropicResult.andThen]
    rw [hrun, htool, hupdate]
    exact ⟨hnext, by simp⟩
  | suppress =>
    simp [inMode, hmode, AnthropicResult.andThen]

theorem toolBlocks_bracketed (h : st.Bracketed) (hopen : st.openBlock = none)
    (calls : List ToolCall) :
    ∃ blocks, (anthropicSseToolBlocksLive st calls).sent = blocksEvents 0 blocks := by
  unfold anthropicSseToolBlocksLive
  generalize calls.drop (if st.tool.emittedAny then st.tool.index else 0) = tail
  obtain ⟨blocks, hlength, hsent⟩ := h
  rw [hopen] at hsent
  induction tail generalizing st blocks with
  | nil => exact ⟨blocks, hsent⟩
  | cons tc tail ih =>
    have hopen' : ({ st with
        sent := st.sent ++ toolBlockEvents st.nextIndex tc
        nextIndex := st.nextIndex + 1 } : AnthropicStream).openBlock = none := hopen
    apply ih hopen'
      (blocks ++ [⟨.tool, tc.name, [(.inputJson (appendJsonObjectOrEmpty tc.arguments), none)]⟩])
    · simp [hlength]
    · simp [hsent, toolBlockEvents, blocksEvents_append, blocksEvents, ContentBlock.opened, hlength]

/-- The final blocks are closed, so they do not change how many are open. -/
theorem toolBlocks_pending (st : AnthropicStream) (calls : List ToolCall) :
    pendingBlocks (anthropicSseToolBlocksLive st calls).sent = pendingBlocks st.sent := by
  unfold anthropicSseToolBlocksLive
  generalize calls.drop (if st.tool.emittedAny then st.tool.index else 0) = tail
  induction tail generalizing st with
  | nil => rfl
  | cons tc tail ih =>
    rw [foldl_cons, ih]
    simp [pendingBlocks, toolBlockEvents, AnthropicEvent.isStart, AnthropicEvent.isStop]

/-- What the end of the message is written behind: an empty text block if the answer
has nothing but thinking. -/
def anthropicLastText (calls : List ToolCall) (st : AnthropicStream) : AnthropicResult :=
  if st.sentThinking && !st.sentText && calls.isEmpty then
    (anthropicSseOpenBlock .text [] st).andThen fun st => (anthropicSseCloseBlockLive st, true)
  else (st, true)

theorem lastText_spec (h : st.Bracketed) (hopen : st.openBlock = none) (calls : List ToolCall) :
    (anthropicLastText calls st).2 = true ∧ (anthropicLastText calls st).1.Bracketed ∧
      (anthropicLastText calls st).1.openBlock = none := by
  unfold anthropicLastText
  split
  · obtain ⟨hok, hbr, -, -⟩ := openBlock_spec h [] (Or.inl hopen : _ ∨ _ = some Block.text)
    obtain ⟨hbr', hclosed, -⟩ := closeBlock_spec hbr
    have hresult : (anthropicSseOpenBlock .text [] st).andThen
        (fun st => (anthropicSseCloseBlockLive st, true)) =
        (anthropicSseCloseBlockLive (anthropicSseOpenBlock .text [] st).1, true) := if_pos hok
    rw [hresult]
    exact ⟨rfl, hbr', hclosed⟩
  · exact ⟨rfl, h, hopen⟩

theorem lastText_open (hopen : st.openBlock = some .tool) (calls : List ToolCall) :
    (anthropicLastText calls st).1 = st := by
  unfold anthropicLastText
  split
  · simp [anthropicSseOpenBlock, hopen, AnthropicResult.andThen]
  · rfl

theorem AnthropicStream.Bracketed.pendingBlocks_eq (h : st.Bracketed)
    (hopen : st.openBlock = some block) : pendingBlocks st.sent = 1 := by
  obtain ⟨blocks, -, hsent⟩ := h
  rw [hopen] at hsent
  obtain ⟨b, -, hsent⟩ := hsent
  rw [hsent, pendingBlocks_append, pendingBlocks_blocksEvents, pendingBlocks_opened]
  rfl

/-- At the end of every run the stream is well bracketed unless the tool projection has
failed inside an invocation or the text ends inside one. -/
theorem anthropicSseFinishLive_wellBracketed_iff (think hasTools : Bool)
    (updates : List (Bytes × ℕ)) (raw : Bytes) (rawLen : ℕ) (calls : List ToolCall)
    (finish : Finish) :
    WellBracketed (anthropicSseFinishLive hasTools
        (anthropicUpdates hasTools (anthropicStart think) updates).1 raw rawLen calls finish).1.sent ↔
      ¬ LeftOpen (anthropicUpdates hasTools (anthropicStart think) updates).1 raw rawLen := by
  have hrun := (updates_good (sound_start think) hasTools updates).2
  generalize (anthropicUpdates hasTools (anthropicStart think) updates).1 = st at hrun ⊢
  obtain ⟨hok, hfinal⟩ := streamUpdate_good hrun hasTools raw rawLen true
  obtain ⟨hmode, hargs⟩ := final_spec hrun hasTools raw rawLen
  have hblock := hfinal.tool hmode
  have hfinish : anthropicSseFinishLive hasTools st raw rawLen calls finish =
      (anthropicLastText calls (anthropicSseStreamUpdate hasTools st raw rawLen true).1).andThen
        fun st => (anthropicSseStopLive finish (anthropicSseToolBlocksLive st calls), true) := by
    unfold anthropicSseFinishLive anthropicLastText
    simp only [AnthropicResult.andThen, hok, if_true]
  rw [hfinish, ← hargs]
  generalize (anthropicSseStreamUpdate hasTools st raw rawLen true).1 = last at hfinal hblock ⊢
  cases hopen : last.tool.argsOpen with
  | false =>
    rw [hopen] at hblock
    obtain ⟨hsent, hbr, hclosed⟩ := lastText_spec hfinal.bracketed hblock calls
    obtain ⟨blocks, hblocks⟩ := toolBlocks_bracketed hbr hclosed calls
    refine ⟨fun _ => by simp, fun _ => ⟨blocks, finish, ?_⟩⟩
    simp [AnthropicResult.andThen, hsent, anthropicSseStopLive, AnthropicStream.emit, hblocks]
  | true =>
    rw [hopen] at hblock
    have hpending := hfinal.bracketed.pendingBlocks_eq hblock
    refine ⟨fun hwell => ?_, fun hnot => absurd rfl hnot⟩
    have hzero := hwell.pendingBlocks_eq
    rw [AnthropicResult.andThen, lastText_open hblock] at hzero
    split at hzero
    · rw [anthropicSseStopLive] at hzero
      have hstop : ∀ st : AnthropicStream,
          pendingBlocks ((st.emit (.messageDelta finish)).emit .messageStop).sent =
            pendingBlocks st.sent := by
        intro st
        simp [AnthropicStream.emit, pendingBlocks, AnthropicEvent.isStart, AnthropicEvent.isStop]
      rw [hstop, toolBlocks_pending, hpending] at hzero
      cases hzero
    · rw [lastText_open hblock, hpending] at hzero
      cases hzero

/-- A generation cut off behind the tag of an invocation. -/
theorem anthropicSseFinishLive_not_wellBracketed :
    ¬ WellBracketed (anthropicSseFinishLive true (anthropicUpdates true (anthropicStart false)
      [(str "<tool_calls><invoke name=\"f\">", 29)]).1
      (str "<tool_calls><invoke name=\"f\">") 29 [] .error).1.sent := by
  intro h
  exact absurd h.pendingBlocks_eq (by decide)

end Ds4Studio.Stream

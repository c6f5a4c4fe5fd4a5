import Ds4Studio.Stream.Responses

/-!
The lifecycle of the output items of the Responses API. The events about one item
are, in this order, the one that adds it, its deltas, those that repeat its whole
text and the one that ends it. The invariant keeps all events sent for a text item
so far: none, an opened item with its deltas, or a finished one.
-/

namespace Ds4Studio.Stream

open Bytes Function Json List

/-- The events about one item, in their order. -/
def select (item : Item) (bodies : List Body) : List Body :=
  bodies.filter fun b => b.item? = some item

def deltasOf (item : Item) (bodies : List Body) : Bytes := (select item bodies).flatMap Body.deltaText

/-- An item is added once, done once, and everything else about it comes between
the two, under one index. -/
def Lived (item : Item) (index : ℤ) (bodies : List Body) : Prop :=
  ∃ middle text completed,
    select item bodies = .itemAdded item index :: (middle ++ [.itemDone item index text completed]) ∧
      ∀ b ∈ middle, b.isMiddle = true ∧ b.index? = some index

/-- A tool search is sent whole; every other item is sent in deltas. -/
def Item.hasDeltas : Item → Bool
  | .toolSearchCall _ => false
  | _ => true

/-- The lifecycle of a finished stream; the first argument says which items carry
their deltas. -/
structure Lifecycle (carries : Item → Bool) (sent : List Event) : Prop where
  numbered : sent.map (·.sequence) = range sent.length
  lived : ∀ item, select item (sent.map (·.body)) ≠ [] →
    ∃ index, Lived item index (sent.map (·.body))
  apart : ∀ item item' index, Body.itemAdded item index ∈ sent.map (·.body) →
    Body.itemAdded item' index ∈ sent.map (·.body) → item = item'
  whole : ∀ b ∈ sent.map (·.body), ∀ item text, b.item? = some item → carries item = true →
    b.wholeText? = some text → text = deltasOf item (sent.map (·.body))
  last : ∃ init e finish output, sent = init ++ [e] ∧ e.body = .completed finish output ∧
    (∀ o ∈ output, carries o.item = true → o.text = deltasOf o.item (sent.map (·.body))) ∧
    ∀ item, select item (sent.map (·.body)) ≠ [] ↔ ∃ o ∈ output, o.item = item

/-! ### Emitting -/

def ResponsesStream.bodies (st : ResponsesStream) : List Body := st.sent.map (·.body)

def ResponsesStream.Numbered (st : ResponsesStream) : Prop :=
  st.sent.map (·.sequence) = range st.sequence

variable (st : ResponsesStream)

@[simp] theorem emit_bodies (b : Body) : (st.emit b).bodies = st.bodies ++ [b] := by
  simp [ResponsesStream.emit, ResponsesStream.bodies]

@[simp] theorem emit_item (b : Body) : (st.emit b).item = st.item := rfl

@[simp] theorem set_item (k : TextItem) (s : TextState) :
    (st.set k s).item = Function.update st.item k s := rfl

@[simp] theorem emit_next (b : Body) : (st.emit b).nextOutputIndex = st.nextOutputIndex := rfl

@[simp] theorem set_next (k : TextItem) (s : TextState) :
    (st.set k s).nextOutputIndex = st.nextOutputIndex := rfl

variable {st : ResponsesStream}

theorem emit_numbered (h : st.Numbered) (b : Body) : (st.emit b).Numbered := by
  unfold ResponsesStream.Numbered at h ⊢
  simp [ResponsesStream.emit, h, range_succ]

theorem set_numbered (h : st.Numbered) (k : TextItem) (s : TextState) :
    (st.set k s).Numbered := h

variable (item : Item)

theorem select_append (left right : List Body) :
    select item (left ++ right) = select item left ++ select item right :=
  filter_append left right

variable {item : Item} {bodies : List Body}

theorem select_eq_nil (h : ∀ b ∈ bodies, b.item? ≠ some item) : select item bodies = [] := by
  unfold select
  rw [filter_eq_nil_iff]
  intro b hb
  simpa using h b hb

theorem select_eq_self (h : ∀ b ∈ bodies, b.item? = some item) : select item bodies = bodies := by
  unfold select
  rw [filter_eq_self]
  intro b hb
  simpa using h b hb

/-! ### A text item while it is open -/

/-- The events of a text item that has been sent some text and is not done. -/
def openedEvents (item : Item) (index : ℤ) (texts : List Bytes) : List Body :=
  .itemAdded item index :: .partAdded item index :: texts.map (.delta item index)

structure TextState.Idle (s : TextState) (item : Item) (bodies : List Body) : Prop where
  opened : s.opened = false
  partStarted : s.partStarted = false
  closed : s.closed = false
  emittedAny : s.emittedAny = false
  text : s.text = []
  events : select item bodies = []

structure TextState.Flowing (s : TextState) (item : Item) (next : ℤ) (bodies : List Body) :
    Prop where
  opened : s.opened = true
  partStarted : s.partStarted = true
  emittedAny : s.emittedAny = true
  closed : s.closed = false
  events : ∃ texts, select item bodies = openedEvents item s.index texts ∧ texts.flatten = s.text
  low : 0 ≤ s.index
  high : s.index < next

/-- The events that end a text item. -/
def closingEvents (item : Item) (index : ℤ) (text : Bytes) (completed : Bool) : List Body :=
  [.textDone item index text, .partDone item index text, .itemDone item index text completed]

structure TextState.Done (s : TextState) (item : Item) (next : ℤ) (bodies : List Body) :
    Prop where
  emittedAny : s.emittedAny = true
  closed : s.closed = true
  events : ∃ texts completed, texts.flatten = s.text ∧
    select item bodies = openedEvents item s.index texts ++
      closingEvents item s.index s.text completed
  low : 0 ≤ s.index
  high : s.index < next

def TextState.Fits (s : TextState) (item : Item) (next : ℤ) (bodies : List Body) : Prop :=
  s.Idle item bodies ∨ s.Flowing item next bodies ∨ s.Done item next bodies

theorem TextState.Fits.mono {s : TextState} {next next' : ℤ} {bodies more : List Body}
    (h : s.Fits item next bodies) (hnext : next ≤ next') (hmore : ∀ b ∈ more, b.item? ≠ some item) :
    s.Fits item next' (bodies ++ more) := by
  have hsel : select item (bodies ++ more) = select item bodies := by
    rw [select_append, select_eq_nil hmore, append_nil]
  rcases h with hidle | hflow | hdone
  · exact Or.inl { hidle with events := hsel.trans hidle.events }
  · refine Or.inr (Or.inl { hflow with events := ?_, high := lt_of_lt_of_le hflow.high hnext })
    rw [hsel]
    exact hflow.events
  · refine Or.inr (Or.inr { hdone with events := ?_, high := lt_of_lt_of_le hdone.high hnext })
    rw [hsel]
    exact hdone.events

theorem TextState.Fits.high {s : TextState} {next : ℤ} (h : s.Fits item next bodies)
    (hopen : s.emittedAny = true) : 0 ≤ s.index ∧ s.index < next := by
  rcases h with hidle | hflow | hdone
  · simp [hidle.emittedAny] at hopen
  · exact ⟨hflow.low, hflow.high⟩
  · exact ⟨hdone.low, hdone.high⟩

/-- What holds between two updates. -/
structure Sending (st : ResponsesStream) : Prop where
  numbered : st.Numbered
  next : 0 ≤ st.nextOutputIndex
  fits : ∀ k, (st.item k).Fits (.text k) st.nextOutputIndex st.bodies
  apart : ∀ k k', k ≠ k' → (st.item k).emittedAny = true → (st.item k').emittedAny = true →
    (st.item k).index ≠ (st.item k').index
  about : ∀ b ∈ st.bodies, b = .created ∨ ∃ k, b.item? = some (.text k)
  text : ∀ k, (0 : UInt8) ∉ (st.item k).text

variable {text : Bytes}

theorem wireText_eq (h : (0 : UInt8) ∉ text) : wireText text = text := cstr_eq_self h

theorem sending_start (think : Bool) : Sending (responsesStart think) where
  numbered := by
    simp [ResponsesStream.Numbered, responsesStart, responsesStreamInit, ResponsesStream.emit]
  next := Int.le_refl 0
  fits := fun k => Or.inl ⟨rfl, rfl, rfl, rfl, rfl, rfl⟩
  apart := by simp [responsesStart, responsesStreamInit]
  about := by
    simp [responsesStart, responsesStreamInit, ResponsesStream.emit, ResponsesStream.bodies]
  text := by simp [responsesStart, responsesStreamInit]

/-- The events of a first text. -/
def firstText (item : Item) (index : ℤ) (text : Bytes) : List Body :=
  [.itemAdded item index, .partAdded item index, .delta item index text]

variable {k : TextItem}

/-- Sending a text to an idle item announces it; the item flows from then on. -/
theorem sendText_idle (text : Bytes) (h : (st.item k).Idle (.text k) st.bodies) :
    (sendText k st text).bodies =
        st.bodies ++ firstText (.text k) st.nextOutputIndex (wireText text) ∧
      (sendText k st text).item = Function.update st.item k
        ⟨true, true, (st.item k).closed, true, text, st.nextOutputIndex⟩ ∧
      (sendText k st text).nextOutputIndex = st.nextOutputIndex + 1 := by
  have ho := h.opened
  have hs := h.partStarted
  refine ⟨?_, ?_, ?_⟩
  · simp [sendText, openPart, openItem, ho, hs, ResponsesStream.emit, ResponsesStream.set,
      ResponsesStream.bodies, firstText]
  · simp [sendText, openPart, openItem, ho, hs, ResponsesStream.emit, ResponsesStream.set, h.text]
  · simp [sendText, openPart, openItem, ho, hs, ResponsesStream.emit, ResponsesStream.set]

theorem sendText_flowing (text : Bytes)
    (h : (st.item k).Flowing (.text k) st.nextOutputIndex st.bodies) :
    (sendText k st text).bodies =
        st.bodies ++ [.delta (.text k) (st.item k).index (wireText text)] ∧
      (sendText k st text).item = Function.update st.item k
        ⟨true, true, (st.item k).closed, true, (st.item k).text ++ text, (st.item k).index⟩ ∧
      (sendText k st text).nextOutputIndex = st.nextOutputIndex := by
  have ho := h.opened
  have hs := h.partStarted
  refine ⟨?_, ?_, ?_⟩
  · simp [sendText, openPart, openItem, ho, hs, ResponsesStream.emit, ResponsesStream.set,
      ResponsesStream.bodies]
  · simp [sendText, openPart, openItem, ho, hs, ResponsesStream.emit, ResponsesStream.set]
  · simp [sendText, openPart, openItem, ho, hs, ResponsesStream.emit, ResponsesStream.set]

theorem sendText_numbered (h : st.Numbered) (k : TextItem) (text : Bytes) :
    (sendText k st text).Numbered := by
  have hopen : (openItem k st).Numbered := by
    unfold openItem
    split
    · exact h
    · apply emit_numbered
      exact h
  have hpart : (openPart k (openItem k st)).Numbered := by
    unfold openPart
    split
    · exact hopen
    · exact emit_numbered (set_numbered hopen k _) _
  exact set_numbered (emit_numbered hpart _) k _

@[simp] theorem sendText_closed (k j : TextItem) (st : ResponsesStream) (text : Bytes) :
    ((sendText k st text).item j).closed = (st.item j).closed := by
  by_cases hj : j = k
  · subst hj
    simp only [sendText, set_item, update_self, openPart, openItem]
    split <;> split <;> simp [ResponsesStream.set, ResponsesStream.emit]
  · simp only [sendText, set_item, update_of_ne hj, emit_item, openPart, openItem]
    split <;> split <;> simp [ResponsesStream.set, ResponsesStream.emit, hj]

theorem Sending.sendText (h : Sending st) (hk : (st.item k).closed = false)
    (htext : (0 : UInt8) ∉ text) : Sending (sendText k st text) := by
  obtain ⟨more, s, hbodies, hitem, hnext, hmore, hfits, hstext, hfresh⟩ :
      ∃ (more : List Body) (s : TextState),
        (Stream.sendText k st text).bodies = st.bodies ++ more ∧
        (Stream.sendText k st text).item = Function.update st.item k s ∧
        st.nextOutputIndex ≤ (Stream.sendText k st text).nextOutputIndex ∧
        (∀ b ∈ more, b.item? = some (.text k)) ∧
        s.Fits (.text k) (Stream.sendText k st text).nextOutputIndex (st.bodies ++ more) ∧
        s.text = (st.item k).text ++ text ∧
        ∀ j, j ≠ k → (st.item j).emittedAny = true → s.index ≠ (st.item j).index := by
    rcases h.fits k with hidle | hflow | hdone
    · obtain ⟨hbodies, hitem, hnext⟩ := sendText_idle text hidle
      rw [wireText_eq htext] at hbodies
      refine ⟨_, _, hbodies, hitem, by omega, ?_, ?_, by simp [hidle.text], ?_⟩
      · simp [firstText, Body.item?]
      · rw [hnext]
        refine Or.inr (Or.inl ⟨rfl, rfl, rfl, hk, ⟨[text], ?_, by simp⟩, h.next, by simp⟩)
        rw [select_append, hidle.events, select_eq_self (by simp [firstText, Body.item?])]
        rfl
      · intro j hj hopen
        have := ((h.fits j).high hopen).2
        simp only [ne_eq]
        omega
    · obtain ⟨hbodies, hitem, hnext⟩ := sendText_flowing text hflow
      rw [wireText_eq htext] at hbodies
      refine ⟨_, _, hbodies, hitem, by omega, by simp [Body.item?], ?_, rfl, ?_⟩
      · rw [hnext]
        obtain ⟨texts, hevents, htexts⟩ := hflow.events
        refine Or.inr (Or.inl ⟨rfl, rfl, rfl, hk, ⟨texts ++ [text], ?_, by simp [htexts]⟩,
          hflow.low, hflow.high⟩)
        rw [select_append, hevents, select_eq_self (by simp [Body.item?])]
        simp [openedEvents]
      · exact fun j hj hopen => h.apart k j (Ne.symm hj) hflow.emittedAny hopen
    · simp [hdone.closed] at hk
  have hother : ∀ j, j ≠ k → (Stream.sendText k st text).item j = st.item j := by
    intro j hj
    rw [hitem, update_of_ne hj]
  have hself : (Stream.sendText k st text).item k = s := by rw [hitem, update_self]
  refine ⟨sendText_numbered h.numbered k text, le_trans h.next hnext, ?_, ?_, ?_, ?_⟩
  · intro j
    rw [hbodies]
    by_cases hj : j = k
    · subst hj
      rwa [hself]
    · rw [hother j hj]
      apply (h.fits j).mono hnext
      intro b hb
      simpa [hmore b hb] using Ne.symm hj
  · intro j j' hjj hopen hopen'
    by_cases hj : j = k
    · subst hj
      have hj' : j' ≠ j := Ne.symm hjj
      rw [hother j' hj'] at hopen' ⊢
      rw [hself]
      exact hfresh j' hj' hopen'
    · rw [hother j hj] at hopen ⊢
      by_cases hj' : j' = k
      · subst hj'
        rw [hself]
        exact (hfresh j hj hopen).symm
      · rw [hother j' hj'] at hopen' ⊢
        exact h.apart j j' hjj hopen hopen'
  · intro b hb
    rw [hbodies] at hb
    rcases mem_append.mp hb with hold | hnew
    · exact h.about b hold
    · exact Or.inr ⟨k, hmore b hnew⟩
  · intro j
    by_cases hj : j = k
    · subst hj
      rw [hself, hstext]
      simpa [mem_append, h.text j] using htext
    · rw [hother j hj]
      exact h.text j

variable {raw : Bytes}

theorem zero_not_mem_slice (h : (0 : UInt8) ∉ raw) (start limit : ℕ) :
    (0 : UInt8) ∉ slice raw start limit :=
  fun hmem => h (mem_of_mem_drop (mem_of_mem_take hmem))

theorem zero_not_mem_readThinking (h : (0 : UInt8) ∉ raw) (cur : Cursor) (rawLen : ℕ)
    (final : Bool) : (0 : UInt8) ∉ (readThinking cur raw rawLen final).delta := by
  unfold readThinking
  split
  · simp
  · exact zero_not_mem_slice h _ _

theorem Sending.of_fields {st st' : ResponsesStream} (h : Sending st)
    (hsequence : st'.sequence = st.sequence) (hsent : st'.sent = st.sent)
    (hitem : st'.item = st.item) (hnext : st'.nextOutputIndex = st.nextOutputIndex) :
    Sending st' := by
  have hbodies : st'.bodies = st.bodies := by simp [ResponsesStream.bodies, hsent]
  refine ⟨?_, hnext ▸ h.next, ?_, ?_, ?_, ?_⟩
  · rw [ResponsesStream.Numbered, hsent, hsequence]
    exact h.numbered
  · rw [hitem, hnext, hbodies]
    exact h.fits
  · rw [hitem]
    exact h.apart
  · rw [hbodies]
    exact h.about
  · rw [hitem]
    exact h.text

/-- No item is done. -/
def Unclosed (st : ResponsesStream) : Prop := ∀ k, (st.item k).closed = false

theorem Sending.thinkingBranch (h : Sending st) (hopen : Unclosed st) (r : ResponsesRequest)
    (hraw : (0 : UInt8) ∉ raw) (rawLen : ℕ) (final : Bool) :
    Sending (thinkingBranch r st raw rawLen final) ∧
      Unclosed (thinkingBranch r st raw rawLen final) := by
  unfold Stream.thinkingBranch
  simp only
  split
  · have hsent := h.sendText (hopen .reasoning) (zero_not_mem_readThinking hraw st.cur rawLen final)
    exact ⟨hsent.of_fields rfl rfl rfl rfl, fun k => (sendText_closed _ k st _).trans (hopen k)⟩
  · exact ⟨h.of_fields rfl rfl rfl rfl, hopen⟩

theorem Sending.textBranch (h : Sending st) (hopen : Unclosed st) (r : ResponsesRequest)
    (hraw : (0 : UInt8) ∉ raw) (rawLen : ℕ) (final : Bool) :
    Sending (textBranch r st raw rawLen final) ∧ Unclosed (textBranch r st raw rawLen final) := by
  unfold Stream.textBranch
  simp only
  split
  · have hsent := h.sendText (hopen .message) (zero_not_mem_slice hraw st.cur.emitPos
      (textStreamSafeLimit raw st.cur.emitPos rawLen r.hasTools final))
    exact ⟨hsent.of_fields rfl rfl rfl rfl, fun k => (sendText_closed _ k st _).trans (hopen k)⟩
  · exact ⟨h.of_fields rfl rfl rfl rfl, hopen⟩

theorem Sending.update (h : Sending st) (hopen : Unclosed st) (r : ResponsesRequest)
    (hraw : (0 : UInt8) ∉ raw) (rawLen : ℕ) (final : Bool) :
    Sending (responsesSseStreamUpdate r st raw rawLen final) ∧
      Unclosed (responsesSseStreamUpdate r st raw rawLen final) := by
  unfold responsesSseStreamUpdate
  by_cases hactive : st.active = true
  · have hthink : Sending (if st.cur.mode = .thinking then
        Stream.thinkingBranch r st raw rawLen final else st) ∧
        Unclosed (if st.cur.mode = .thinking then
          Stream.thinkingBranch r st raw rawLen final else st) := by
      split
      · exact h.thinkingBranch hopen r hraw rawLen final
      · exact ⟨h, hopen⟩
    simp only [hactive, Bool.not_true, Bool.false_eq_true, if_false]
    generalize (if st.cur.mode = .thinking then
        Stream.thinkingBranch r st raw rawLen final else st) = mid at hthink ⊢
    split
    · exact hthink.1.textBranch hthink.2 r hraw rawLen final
    · exact hthink
  · simp only [hactive, Bool.not_false, if_true]
    exact ⟨h, hopen⟩

theorem Sending.updates (h : Sending st) (hopen : Unclosed st) (r : ResponsesRequest)
    (updates : List (Bytes × ℕ)) (hraw : ∀ u ∈ updates, (0 : UInt8) ∉ u.1) :
    Sending (responsesUpdates r st updates) ∧ Unclosed (responsesUpdates r st updates) := by
  induction updates generalizing st with
  | nil => exact ⟨h, hopen⟩
  | cons u updates ih =>
    obtain ⟨hfirst, hfirst'⟩ := h.update hopen r (hraw u mem_cons_self) u.2 false
    exact ih hfirst hfirst' fun v hv => hraw v (mem_cons_of_mem u hv)

/-! ### The end of a text item -/

theorem Sending.close (h : Sending st)
    (hflow : (st.item k).Flowing (.text k) st.nextOutputIndex st.bodies) (completed : Bool)
    {st' : ResponsesStream} (hnumbered : st'.Numbered) (hbodies : st'.bodies = st.bodies ++
      closingEvents (.text k) (st.item k).index (st.item k).text completed)
    (hitem : st'.item = Function.update st.item k { st.item k with closed := true })
    (hnext : st'.nextOutputIndex = st.nextOutputIndex) : Sending st' := by
  have hclosing : ∀ b ∈ closingEvents (.text k) (st.item k).index (st.item k).text completed,
      b.item? = some (.text k) := by
    simp [closingEvents, Body.item?]
  have hother : ∀ j, j ≠ k → st'.item j = st.item j := by
    intro j hj
    rw [hitem, update_of_ne hj]
  have hself : st'.item k = { st.item k with closed := true } := by rw [hitem, update_self]
  have hindex : ∀ j, (st'.item j).emittedAny = (st.item j).emittedAny ∧
      (st'.item j).index = (st.item j).index ∧ (st'.item j).text = (st.item j).text := by
    intro j
    by_cases hj : j = k
    · subst hj
      simp [hself]
    · simp [hother j hj]
  refine ⟨hnumbered, hnext ▸ h.next, ?_, ?_, ?_, ?_⟩
  · intro j
    rw [hbodies, hnext]
    by_cases hj : j = k
    · subst hj
      obtain ⟨texts, hevents, htexts⟩ := hflow.events
      rw [hself]
      refine Or.inr (Or.inr ⟨hflow.emittedAny, rfl, ⟨texts, completed, htexts, ?_⟩,
        hflow.low, hflow.high⟩)
      rw [select_append, hevents, select_eq_self hclosing]
    · rw [hother j hj]
      apply (h.fits j).mono le_rfl
      intro b hb
      simpa [hclosing b hb] using Ne.symm hj
  · intro j j' hjj hopen hopen'
    rw [(hindex j).1] at hopen
    rw [(hindex j').1] at hopen'
    rw [(hindex j).2.1, (hindex j').2.1]
    exact h.apart j j' hjj hopen hopen'
  · intro b hb
    rw [hbodies] at hb
    rcases mem_append.mp hb with hold | hnew
    · exact h.about b hold
    · exact Or.inr ⟨k, hclosing b hnew⟩
  · intro j
    rw [(hindex j).2.2]
    exact h.text j

theorem Sending.flowing (h : Sending st) (hopen : (st.item k).opened = true)
    (hclosed : (st.item k).closed = false) :
    (st.item k).Flowing (.text k) st.nextOutputIndex st.bodies := by
  rcases h.fits k with hidle | hflow | hdone
  · simp [hidle.opened] at hopen
  · exact hflow
  · simp [hdone.closed] at hclosed

/-- What has sent text is done. -/
def TextState.Settled (s : TextState) : Prop := s.emittedAny = true → s.closed = true

theorem Sending.settled (h : Sending st)
    (hopen : ¬((st.item k).opened && !(st.item k).closed) = true) : (st.item k).Settled := by
  intro hany
  rcases h.fits k with hidle | hflow | hdone
  · simp [hidle.emittedAny] at hany
  · simp [hflow.opened, hflow.closed] at hopen
  · exact hdone.closed

theorem Sending.after_closeReasoning (h : Sending st) :
    Sending (closeReasoning st) ∧ ((closeReasoning st).item .reasoning).Settled ∧
      (closeReasoning st).item .message = st.item .message := by
  unfold closeReasoning
  split
  · rename_i hcond
    simp only [Bool.and_eq_true, Bool.not_eq_true'] at hcond
    have hflow := h.flowing hcond.1 hcond.2
    have hwire := wireText_eq (h.text .reasoning)
    refine ⟨h.close hflow st.reasoningClosedNaturally ?_ ?_ ?_ ?_, ?_, ?_⟩
    · unfold markClosed responsesSseReasoningDone
      simp only [hflow.partStarted, if_true]
      exact set_numbered (emit_numbered (emit_numbered (emit_numbered h.numbered _) _) _) _ _
    · simp [markClosed, responsesSseReasoningDone, hflow.partStarted, hwire, closingEvents,
        ResponsesStream.emit, ResponsesStream.set, ResponsesStream.bodies]
    · simp [markClosed, responsesSseReasoningDone, hflow.partStarted]
    · simp [markClosed, responsesSseReasoningDone, hflow.partStarted]
    · simp [markClosed, TextState.Settled]
    · simp [markClosed, responsesSseReasoningDone, hflow.partStarted]
  · rename_i hcond
    exact ⟨h, h.settled hcond, rfl⟩

theorem Sending.after_closeMessage (h : Sending st) (finish : Finish) :
    Sending (closeMessage st finish) ∧ ((closeMessage st finish).item .message).Settled ∧
      (closeMessage st finish).item .reasoning = st.item .reasoning := by
  unfold closeMessage
  split
  · rename_i hcond
    simp only [Bool.and_eq_true, Bool.not_eq_true'] at hcond
    have hflow := h.flowing hcond.1 hcond.2
    have hwire := wireText_eq (h.text .message)
    refine ⟨h.close hflow (responsesItemCompleted finish) ?_ ?_ ?_ ?_, ?_, ?_⟩
    · exact set_numbered (emit_numbered (emit_numbered (emit_numbered h.numbered _) _) _) _ _
    · simp [markClosed, responsesSseMessageDone, hwire, closingEvents,
        ResponsesStream.emit, ResponsesStream.set, ResponsesStream.bodies]
    · simp [markClosed, responsesSseMessageDone]
    · simp [markClosed, responsesSseMessageDone]
    · simp [markClosed, TextState.Settled]
    · simp [markClosed, responsesSseMessageDone]
  · rename_i hcond
    exact ⟨h, h.settled hcond, rfl⟩

theorem Sending.after_flushRecovered (h : Sending st) (hopen : (st.item .message).closed = false)
    (hraw : (0 : UInt8) ∉ raw) (rawLen : ℕ) (recovered : Bool) :
    Sending (flushRecovered st raw rawLen recovered) ∧
      (flushRecovered st raw rawLen recovered).item .reasoning = st.item .reasoning := by
  unfold flushRecovered
  split
  · have hsent := h.sendText hopen (zero_not_mem_slice hraw st.cur.emitPos rawLen)
    refine ⟨hsent.of_fields rfl rfl rfl rfl, ?_⟩
    simp only [Stream.sendText, set_item, emit_item, openPart, openItem]
    split <;> split <;> simp [ResponsesStream.set, ResponsesStream.emit]
  · exact ⟨h, rfl⟩

/-- The stream when only the calls are left to send. -/
def settledStream (st : ResponsesStream) (raw : Bytes) (rawLen : ℕ) (recovered : Bool)
    (finish : Finish) : ResponsesStream :=
  closeMessage (flushRecovered (closeReasoning st) raw rawLen recovered) finish

theorem Sending.after_settled (h : Sending st) (hopen : Unclosed st) (hraw : (0 : UInt8) ∉ raw)
    (rawLen : ℕ) (recovered : Bool) (finish : Finish) :
    Sending (settledStream st raw rawLen recovered finish) ∧
      ∀ k, ((settledStream st raw rawLen recovered finish).item k).Settled := by
  obtain ⟨hreasoning, hdone, hmessage⟩ := h.after_closeReasoning
  have hmessage' : ((closeReasoning st).item .message).closed = false := by
    rw [hmessage]
    exact hopen .message
  obtain ⟨hflush, hkept⟩ := hreasoning.after_flushRecovered hmessage' hraw rawLen recovered
  obtain ⟨hclose, hdone', hkept'⟩ := hflush.after_closeMessage finish
  refine ⟨hclose, ?_⟩
  intro k
  cases k with
  | reasoning =>
    unfold settledStream
    rw [hkept', hkept]
    exact hdone
  | message => exact hdone'

/-! ### The calls -/

/-- The events of one call. -/
def callEvents (item : Item) (index : ℤ) (text : Bytes) (completed : Bool) : List Body :=
  .itemAdded item index ::
    ((if item.hasDeltas then [.delta item index text, .textDone item index text] else []) ++
      [.itemDone item index text completed])

def callsEvents (r : ResponsesRequest) (finish : Finish) (start : ℤ) :
    ℕ → List Dsml.ToolCall → List Body
  | _, [] => []
  | i, tc :: calls =>
      callEvents (callItem r i tc) (start + i) (callText tc) (responsesItemCompleted finish) ++
        callsEvents r finish start (i + 1) calls

/-- The position of a call among the calls. -/
def Item.position? : Item → Option ℕ
  | .text _ => none
  | .functionCall i _ _ => some i
  | .toolSearchCall i => some i

variable (r : ResponsesRequest)

@[simp] theorem callItem_position (i : ℕ) (tc : Dsml.ToolCall) :
    (callItem r i tc).position? = some i := by
  unfold callItem
  simp only
  split <;> rfl

theorem text_ne_callItem (k : TextItem) (r : ResponsesRequest) (i : ℕ) (tc : Dsml.ToolCall) :
    Item.text k ≠ callItem r i tc := by
  intro h
  have hposition := callItem_position r i tc
  rw [← h] at hposition
  cases hposition

variable (finish : Finish) (start : ℤ)

theorem sendCall_bodies (st : ResponsesStream) (i : ℕ) (tc : Dsml.ToolCall) :
    (sendCall r finish start st i tc).bodies = st.bodies ++
      callEvents (callItem r i tc) (start + i) (callText tc) (responsesItemCompleted finish) := by
  rcases hitem : callItem r i tc with k | ⟨p, name, space⟩ | p
  · exact absurd hitem.symm (text_ne_callItem k r i tc)
  · simp [sendCall, callEvents, hitem, argumentsDone, Item.hasDeltas]
  · simp [sendCall, callEvents, hitem, argumentsDone, Item.hasDeltas]

theorem sendCalls_bodies (i : ℕ) (st : ResponsesStream) (calls : List Dsml.ToolCall) :
    (sendCalls r finish start i st calls).bodies = st.bodies ++ callsEvents r finish start i calls := by
  induction calls generalizing i st with
  | nil => simp [sendCalls, callsEvents]
  | cons tc calls ih =>
    rw [sendCalls, ih, sendCall_bodies, callsEvents, append_assoc]

theorem argumentsDone_numbered (h : st.Numbered) (item : Item) (index : ℤ) (text : Bytes) :
    (argumentsDone st item index text).Numbered := by
  unfold argumentsDone
  split
  · exact emit_numbered (emit_numbered h _) _
  · exact h

theorem sendCalls_numbered (i : ℕ) (h : st.Numbered) (calls : List Dsml.ToolCall) :
    (sendCalls r finish start i st calls).Numbered := by
  induction calls generalizing i st with
  | nil => exact h
  | cons tc calls ih =>
    apply ih
    exact emit_numbered (argumentsDone_numbered (emit_numbered h _) _ _ _) _

@[simp] theorem argumentsDone_item (index : ℤ) (text : Bytes) :
    (argumentsDone st item index text).item = st.item := by
  unfold argumentsDone
  split <;> rfl

@[simp] theorem argumentsDone_natural (index : ℤ) (text : Bytes) :
    (argumentsDone st item index text).reasoningClosedNaturally =
      st.reasoningClosedNaturally := by
  unfold argumentsDone
  split <;> rfl

theorem sendCalls_item (i : ℕ) (st : ResponsesStream) (calls : List Dsml.ToolCall) :
    (sendCalls r finish start i st calls).item = st.item := by
  induction calls generalizing i st with
  | nil => rfl
  | cons tc calls ih =>
    rw [sendCalls, ih]
    simp [sendCall]

theorem sendCalls_natural (i : ℕ) (st : ResponsesStream) (calls : List Dsml.ToolCall) :
    (sendCalls r finish start i st calls).reasoningClosedNaturally =
      st.reasoningClosedNaturally := by
  induction calls generalizing i st with
  | nil => rfl
  | cons tc calls ih =>
    rw [sendCalls, ih]
    simp [sendCall, ResponsesStream.emit]

variable {calls : List Dsml.ToolCall} {r : ResponsesRequest} {finish : Finish}

theorem mem_callsEvents {start : ℤ} {i : ℕ} {b : Body}
    (h : b ∈ callsEvents r finish start i calls) :
    ∃ j tc, calls[j]? = some tc ∧ b ∈ callEvents (callItem r (i + j) tc) (start + (i + j : ℕ))
      (callText tc) (responsesItemCompleted finish) := by
  induction calls generalizing i with
  | nil => simp [callsEvents] at h
  | cons tc calls ih =>
    rcases mem_append.mp h with hhead | htail
    · exact ⟨0, tc, rfl, hhead⟩
    · obtain ⟨j, tc', hget, hmem⟩ := ih htail
      refine ⟨j + 1, tc', hget, ?_⟩
      rwa [show i + (j + 1) = i + 1 + j by omega]

variable {index : ℤ} {completed : Bool}

theorem item_of_mem_callEvents {b : Body} (h : b ∈ callEvents item index text completed) :
    b.item? = some item := by
  unfold callEvents at h
  split at h
  · simp only [mem_cons, mem_append, not_mem_nil, or_false] at h
    rcases h with rfl | (rfl | rfl) | rfl <;> rfl
  · simp only [mem_cons, nil_append, not_mem_nil, or_false] at h
    rcases h with rfl | rfl <;> rfl

theorem select_callsEvents {start : ℤ} {i j : ℕ} {tc : Dsml.ToolCall} (hget : calls[j]? = some tc) :
    select (callItem r (i + j) tc) (callsEvents r finish start i calls) =
      callEvents (callItem r (i + j) tc) (start + (i + j : ℕ)) (callText tc)
        (responsesItemCompleted finish) := by
  induction calls generalizing i j with
  | nil => simp at hget
  | cons first calls ih =>
    rw [callsEvents, select_append]
    cases j with
    | zero =>
      obtain rfl : first = tc := by simpa using hget
      rw [Nat.add_zero, select_eq_self fun b hb => item_of_mem_callEvents hb, select_eq_nil,
        append_nil]
      intro b hb hitem
      obtain ⟨j, tc', -, hmem⟩ := mem_callsEvents hb
      rw [item_of_mem_callEvents hmem] at hitem
      have := congrArg (Option.bind · Item.position?) hitem
      simp at this
      omega
    | succ j =>
      have hrest := ih (i := i + 1) (j := j) (by simpa using hget)
      rw [show i + (j + 1) = i + 1 + j by omega, hrest, select_eq_nil, nil_append]
      intro b hb hitem
      rw [item_of_mem_callEvents hb] at hitem
      have := congrArg (Option.bind · Item.position?) hitem
      simp at this
      omega

/-! ### The finished stream -/

/-- All events about an item, where the text of the item is given. -/
structure Told (carries : Item → Bool) (item : Item) (index : ℤ) (text : Bytes)
    (bodies : List Body) : Prop where
  lived : Lived item index bodies
  whole : ∀ b ∈ select item bodies, ∀ t, b.wholeText? = some t → t = text
  deltas : carries item = true → deltasOf item bodies = text

theorem flatMap_delta (index : ℤ) (texts : List Bytes) :
    (texts.map (Body.delta item index)).flatMap Body.deltaText = texts.flatten := by
  induction texts with
  | nil => rfl
  | cons text texts ih => simp [Body.deltaText, ih]

variable {carries : Item → Bool}

theorem told_text {texts : List Bytes} (htexts : texts.flatten = text)
    (h : select item bodies = openedEvents item index texts ++
      closingEvents item index text completed) : Told carries item index text bodies where
  lived := by
    refine ⟨.partAdded item index :: (texts.map (.delta item index) ++
      [.textDone item index text, .partDone item index text]), text, completed, ?_, ?_⟩
    · simp [h, openedEvents, closingEvents]
    · intro b hb
      simp only [mem_cons, mem_append, mem_map, not_mem_nil, or_false] at hb
      rcases hb with rfl | ⟨t, -, rfl⟩ | rfl | rfl <;> exact ⟨rfl, rfl⟩
  whole := by
    intro b hb t ht
    rw [h] at hb
    simp only [openedEvents, closingEvents, mem_cons, mem_append, mem_map,
      not_mem_nil, or_false] at hb
    rcases hb with (rfl | rfl | ⟨t', -, rfl⟩) | rfl | rfl | rfl <;> simp_all [Body.wholeText?]
  deltas := by
    intro _
    rw [deltasOf, h, openedEvents, closingEvents]
    simp only [flatMap_cons, flatMap_append, flatMap_delta, flatMap_nil]
    simp [Body.deltaText, htexts]

theorem told_call (h : select item bodies = callEvents item index text completed) :
    Told Item.hasDeltas item index text bodies := by
  unfold callEvents at h
  by_cases hdeltas : item.hasDeltas = true
  · simp only [hdeltas, if_true] at h
    refine ⟨⟨[.delta item index text, .textDone item index text], text, completed, h, ?_⟩, ?_, ?_⟩
    · intro b hb
      simp only [mem_cons, not_mem_nil, or_false] at hb
      rcases hb with rfl | rfl <;> exact ⟨rfl, rfl⟩
    · intro b hb t ht
      rw [h] at hb
      simp only [mem_cons, mem_append, not_mem_nil, or_false] at hb
      rcases hb with rfl | (rfl | rfl) | rfl <;> simp_all [Body.wholeText?]
    · intro _
      simp [deltasOf, h, Body.deltaText]
  · simp only [hdeltas, Bool.false_eq_true, if_false, nil_append] at h
    refine ⟨⟨[], text, completed, h, by simp⟩, ?_, fun hcarries => absurd hcarries hdeltas⟩
    intro b hb t ht
    rw [h] at hb
    simp only [mem_cons, not_mem_nil, or_false] at hb
    rcases hb with rfl | rfl <;> simp_all [Body.wholeText?]

/-- Every item is told from its first to its last event or has none, and the items
of the output are those that are told. -/
structure Finished (carries : Item → Bool) (bodies : List Body) (output : List Output) : Prop where
  told : ∀ item, select item bodies ≠ [] → ∃ o ∈ output, o.item = item
  outputs : ∀ o ∈ output, ∃ index, Told carries o.item index o.text bodies
  apart : ∀ item item' index, Body.itemAdded item index ∈ bodies →
    Body.itemAdded item' index ∈ bodies → item = item'

theorem Told.select_ne_nil (h : Told carries item index text bodies) : select item bodies ≠ [] := by
  obtain ⟨middle, t, completed, hselect, -⟩ := h.lived
  rw [hselect]
  exact cons_ne_nil _ _

/-- A finished list of events and the event that repeats its items are a lifecycle. -/
theorem Finished.lifecycle {output : List Output} (h : Finished carries st.bodies output)
    (hnumbered : st.Numbered) (finish : Finish) :
    Lifecycle carries (st.emit (.completed finish output)).sent := by
  have hbodies : (st.emit (.completed finish output)).sent.map (·.body) =
      st.bodies ++ [.completed finish output] := emit_bodies st _
  have hselect : ∀ item, select item (st.bodies ++ [.completed finish output]) =
      select item st.bodies := by
    intro item
    have hnone : select item [.completed finish output] = [] := select_eq_nil (by simp [Body.item?])
    rw [select_append, hnone, append_nil]
  have hadded : ∀ item index, Body.itemAdded item index ∈ st.bodies ++ [.completed finish output] →
      Body.itemAdded item index ∈ st.bodies := by
    intro item index hmem
    simpa using hmem
  have hlived : ∀ item index, Lived item index st.bodies →
      Lived item index (st.bodies ++ [.completed finish output]) := by
    intro item index ⟨middle, text, completed, hsel, hmiddle⟩
    exact ⟨middle, text, completed, (hselect item).trans hsel, hmiddle⟩
  have hdeltas : ∀ item, deltasOf item (st.bodies ++ [.completed finish output]) =
      deltasOf item st.bodies := by
    intro item
    rw [deltasOf, hselect, deltasOf]
  refine ⟨?_, ?_, ?_, ?_, ?_⟩
  · have hsent := emit_numbered hnumbered (.completed finish output)
    have hlength := congrArg length hsent
    rw [length_map, length_range] at hlength
    rw [hlength]
    exact hsent
  · intro item hne
    rw [hbodies, hselect] at hne
    obtain ⟨o, ho, rfl⟩ := h.told item hne
    obtain ⟨index, htold⟩ := h.outputs o ho
    exact ⟨index, hbodies ▸ hlived _ _ htold.lived⟩
  · intro item item' index hmem hmem'
    rw [hbodies] at hmem hmem'
    exact h.apart item item' index (hadded _ _ hmem) (hadded _ _ hmem')
  · intro b hb item text hitem hcarries hwhole
    have hmem : b ∈ select item st.bodies := by
      rw [hbodies] at hb
      rw [← hselect]
      simpa [select, hitem] using hb
    obtain ⟨o, ho, rfl⟩ := h.told item (ne_nil_of_mem hmem)
    obtain ⟨index, htold⟩ := h.outputs o ho
    rw [hbodies, hdeltas, htold.deltas hcarries]
    exact htold.whole b hmem text hwhole
  · refine ⟨st.sent, ⟨st.sequence, .completed finish output⟩, finish, output, rfl, rfl, ?_, ?_⟩
    · intro o ho hcarries
      obtain ⟨index, htold⟩ := h.outputs o ho
      rw [hbodies, hdeltas, htold.deltas hcarries]
    · intro item
      rw [hbodies, hselect]
      refine ⟨h.told item, ?_⟩
      rintro ⟨o, ho, rfl⟩
      obtain ⟨index, htold⟩ := h.outputs o ho
      exact htold.select_ne_nil

theorem mem_callOutputs {i : ℕ} {o : Output} :
    o ∈ callOutputs r finish i calls ↔ ∃ j tc, calls[j]? = some tc ∧
      o = ⟨callItem r (i + j) tc, callText tc, responsesItemCompleted finish⟩ := by
  induction calls generalizing i with
  | nil => simp [callOutputs]
  | cons tc calls ih =>
    rw [callOutputs, mem_cons, ih]
    constructor
    · rintro (rfl | ⟨j, tc', hget, rfl⟩)
      · exact ⟨0, tc, rfl, rfl⟩
      · exact ⟨j + 1, tc', hget, by rw [show i + (j + 1) = i + 1 + j by omega]⟩
    · rintro ⟨j, tc', hget, rfl⟩
      cases j with
      | zero =>
        obtain rfl : tc = tc' := by simpa using hget
        exact Or.inl rfl
      | succ j =>
        exact Or.inr ⟨j, tc', by simpa using hget, by rw [show i + (j + 1) = i + 1 + j by omega]⟩

/-- The entries of the output for the two text items. -/
def textOutputs (st : ResponsesStream) (finish : Finish) : List Output :=
  (if (st.item .reasoning).emittedAny then
      [⟨.text .reasoning, wireText (st.item .reasoning).text, st.reasoningClosedNaturally⟩]
    else []) ++
    (if (st.item .message).emittedAny then
      [⟨.text .message, wireText (st.item .message).text, responsesItemCompleted finish⟩]
    else [])

theorem exists_mem_textOutputs (h : (st.item k).emittedAny = true) :
    ∃ o ∈ textOutputs st finish, o.item = .text k := by
  cases k with
  | reasoning => simp [textOutputs, h]
  | message => simp [textOutputs, h]

theorem of_mem_textOutputs {o : Output} (h : o ∈ textOutputs st finish) :
    ∃ k, (st.item k).emittedAny = true ∧ o.item = .text k ∧ o.text = wireText (st.item k).text := by
  rcases mem_append.mp h with hreasoning | hmessage
  · split at hreasoning
    · rename_i hany
      obtain rfl := mem_singleton.mp hreasoning
      exact ⟨.reasoning, hany, rfl, rfl⟩
    · simp at hreasoning
  · split at hmessage
    · rename_i hany
      obtain rfl := mem_singleton.mp hmessage
      exact ⟨.message, hany, rfl, rfl⟩
    · simp at hmessage

theorem itemAdded_mem_callEvents {item item' : Item} {index' : ℤ}
    (h : Body.itemAdded item' index' ∈ callEvents item index text completed) :
    item' = item ∧ index' = index := by
  unfold callEvents at h
  split at h <;> simpa using h

/-- An item that is announced under an index is a text item of that index. -/
theorem Sending.index_of_added (h : Sending st) (hmem : Body.itemAdded item index ∈ st.bodies) :
    ∃ k, item = .text k ∧ (st.item k).emittedAny = true ∧ (st.item k).index = index := by
  rcases h.about _ hmem with hcreated | ⟨k, hk⟩
  · simp at hcreated
  · obtain rfl : item = .text k := by simpa [Body.item?] using hk
    have hsel : Body.itemAdded (.text k) index ∈ select (.text k) st.bodies := by
      simpa [select, Body.item?] using hmem
    refine ⟨k, rfl, ?_⟩
    rcases h.fits k with hidle | hflow | hdone
    · simp [hidle.events] at hsel
    · obtain ⟨texts, hevents, -⟩ := hflow.events
      simp [hevents, openedEvents] at hsel
      exact ⟨hflow.emittedAny, hsel.symm⟩
    · obtain ⟨texts, completed, -, hevents⟩ := hdone.events
      simp [hevents, openedEvents, closingEvents] at hsel
      exact ⟨hdone.emittedAny, hsel.symm⟩

theorem Sending.finished (h : Sending st) (hsettled : ∀ k, (st.item k).Settled)
    (r : ResponsesRequest) (finish : Finish) (calls : List Dsml.ToolCall) :
    Finished Item.hasDeltas (st.bodies ++ callsEvents r finish st.nextOutputIndex 0 calls)
      (textOutputs st finish ++ callOutputs r finish 0 calls) := by
  have htext : ∀ k, select (.text k) (callsEvents r finish st.nextOutputIndex 0 calls) = [] := by
    intro k
    apply select_eq_nil
    intro b hb hitem
    obtain ⟨j, tc, -, hmem⟩ := mem_callsEvents hb
    rw [item_of_mem_callEvents hmem] at hitem
    exact text_ne_callItem k r (0 + j) tc (Option.some.inj hitem).symm
  have hcall : ∀ j tc, calls[j]? = some tc → select (callItem r (0 + j) tc) st.bodies = [] := by
    intro j tc _
    apply select_eq_nil
    intro b hb hitem
    rcases h.about b hb with rfl | ⟨k, hk⟩
    · simp [Body.item?] at hitem
    · rw [hk] at hitem
      exact text_ne_callItem k r (0 + j) tc (Option.some.inj hitem)
  refine ⟨?_, ?_, ?_⟩
  · intro item hne
    obtain ⟨b, hb⟩ := exists_mem_of_ne_nil _ hne
    have hitem : b.item? = some item := by simpa [select] using (mem_filter.mp hb).2
    rcases mem_append.mp (mem_filter.mp hb).1 with hold | hnew
    · rcases h.about b hold with rfl | ⟨k, hk⟩
      · simp [Body.item?] at hitem
      · obtain rfl : Item.text k = item := by simpa [hk] using hitem
        have hany : (st.item k).emittedAny = true := by
          rcases h.fits k with hidle | hflow | hdone
          · rw [select_append, hidle.events, htext k] at hne
            simp at hne
          · exact hflow.emittedAny
          · exact hdone.emittedAny
        obtain ⟨o, ho, hoitem⟩ := exists_mem_textOutputs hany
        exact ⟨o, mem_append_left _ ho, hoitem⟩
    · obtain ⟨j, tc, hget, hmem⟩ := mem_callsEvents hnew
      rw [item_of_mem_callEvents hmem] at hitem
      refine ⟨_, mem_append_right _ (mem_callOutputs.mpr ⟨j, tc, hget, rfl⟩), ?_⟩
      simpa using hitem
  · intro o ho
    rcases mem_append.mp ho with htextOut | hcallOut
    · obtain ⟨k, hany, hitem, hwire⟩ := of_mem_textOutputs htextOut
      rw [wireText_eq (h.text k)] at hwire
      rcases h.fits k with hidle | hflow | hdone
      · simp [hidle.emittedAny] at hany
      · have := hsettled k hany
        simp [hflow.closed] at this
      · obtain ⟨texts, completed, htexts, hevents⟩ := hdone.events
        refine ⟨(st.item k).index, ?_⟩
        rw [hitem, hwire]
        apply told_text htexts
        rw [select_append, hevents, htext k, append_nil]
    · obtain ⟨j, tc, hget, rfl⟩ := mem_callOutputs.mp hcallOut
      have hselect : select (callItem r (0 + j) tc)
          (st.bodies ++ callsEvents r finish st.nextOutputIndex 0 calls) =
          callEvents (callItem r (0 + j) tc) (st.nextOutputIndex + (0 + j : ℕ)) (callText tc)
            (responsesItemCompleted finish) := by
        rw [select_append, hcall j tc hget, select_callsEvents hget, nil_append]
      exact ⟨_, told_call hselect⟩
  · intro item item' index hmem hmem'
    have hcases : ∀ item, Body.itemAdded item index ∈
        st.bodies ++ callsEvents r finish st.nextOutputIndex 0 calls →
        (∃ k, item = .text k ∧ (st.item k).emittedAny = true ∧ (st.item k).index = index ∧
          index < st.nextOutputIndex) ∨
        ∃ j tc, calls[j]? = some tc ∧ item = callItem r (0 + j) tc ∧
          index = st.nextOutputIndex + (0 + j : ℕ) := by
      intro item hmem
      rcases mem_append.mp hmem with hold | hnew
      · obtain ⟨k, hitem, hany, hindex⟩ := h.index_of_added hold
        have := ((h.fits k).high hany).2
        exact Or.inl ⟨k, hitem, hany, hindex, by omega⟩
      · obtain ⟨j, tc, hget, hcallMem⟩ := mem_callsEvents hnew
        obtain ⟨hitem, hindex⟩ := itemAdded_mem_callEvents hcallMem
        exact Or.inr ⟨j, tc, hget, hitem, hindex⟩
    rcases hcases item hmem with ⟨k, rfl, hany, hindex, hlow⟩ | ⟨j, tc, hget, rfl, hindex⟩ <;>
      rcases hcases item' hmem' with ⟨k', rfl, hany', hindex', hlow'⟩ | ⟨j', tc', hget', rfl, hindex'⟩
    · by_cases hk : k = k'
      · rw [hk]
      · exact absurd (hindex.trans hindex'.symm) (h.apart k k' hk hany hany')
    · omega
    · omega
    · obtain rfl : j = j' := by omega
      obtain rfl : tc = tc' := by simpa [hget] using hget'
      rfl

/-- Sending the calls of a settled stream and the last event completes a lifecycle. -/
theorem Sending.lifecycle (h : Sending st) (hsettled : ∀ k, (st.item k).Settled)
    (r : ResponsesRequest) (finish : Finish) (calls : List Dsml.ToolCall) (next : ℤ) :
    Lifecycle Item.hasDeltas (responsesSseCompleted r
      (sendCalls r finish st.nextOutputIndex 0 { st with nextOutputIndex := next } calls)
      calls finish).sent := by
  have hnumbered : (sendCalls r finish st.nextOutputIndex 0
      { st with nextOutputIndex := next } calls).Numbered := by
    apply sendCalls_numbered
    exact h.numbered
  have hfinished := h.finished hsettled r finish calls
  have hbodies := sendCalls_bodies r finish st.nextOutputIndex 0
    { st with nextOutputIndex := next } calls
  have houtputs : textOutputs (sendCalls r finish st.nextOutputIndex 0
      { st with nextOutputIndex := next } calls) finish = textOutputs st finish := by
    rw [textOutputs, sendCalls_item, sendCalls_natural]
    rfl
  generalize sendCalls r finish st.nextOutputIndex 0
    { st with nextOutputIndex := next } calls = last at hnumbered hbodies houtputs ⊢
  have hcompleted : responsesSseCompleted r last calls finish =
      last.emit (.completed finish (textOutputs last finish ++ callOutputs r finish 0 calls)) := by
    rw [responsesSseCompleted, textOutputs]
  rw [hcompleted, houtputs]
  apply Finished.lifecycle _ hnumbered
  rw [hbodies]
  exact hfinished

/-- The events of a stream from its first to its last: whatever the generated text,
the updates and the end of the turn are. -/
theorem responsesSseFinishLive_lifecycle (think : Bool) (r : ResponsesRequest)
    (updates : List (Bytes × ℕ)) (raw : Bytes) (rawLen : ℕ) (recovered : Bool)
    (calls : List Dsml.ToolCall) (finish : Finish)
    (hupdates : ∀ u ∈ updates, (0 : UInt8) ∉ u.1) (hraw : (0 : UInt8) ∉ raw) :
    Lifecycle Item.hasDeltas (responsesSseFinishLive r
      (responsesUpdates r (responsesStart think) updates) raw rawLen recovered calls finish).sent := by
  have hstart : Unclosed (responsesStart think) := fun k => rfl
  obtain ⟨hrun, hopen⟩ := (sending_start think).updates hstart r updates hupdates
  obtain ⟨hfinal, hopen'⟩ := hrun.update hopen r hraw rawLen true
  obtain ⟨hdone, hsettled⟩ := hfinal.after_settled hopen' hraw rawLen recovered finish
  exact hdone.lifecycle hsettled r finish calls _

/-- A request with tools whose tool search is announced as one. -/
def toolSearchRequest : ResponsesRequest := ⟨true, true, [⟨str "tool_search", none, none, true⟩]⟩

/-- A call of a tool search carries arguments that no delta has carried; a text with a
zero byte is cut at it, in every delta and in the whole. -/
theorem lifecycle_not_all_items :
    ¬ Lifecycle (fun _ => true) (responsesSseFinishLive toolSearchRequest
      (responsesUpdates toolSearchRequest (responsesStart false) [(str "a", 1)]) (str "a") 1 false
      [⟨str "tool_search", str "\x7b\x7d"⟩] .toolCalls).sent ∧
    ¬ Lifecycle Item.hasDeltas (responsesSseFinishLive toolSearchRequest
      (responsesUpdates toolSearchRequest (responsesStart false)
        [(str "a" ++ [0], 2), (str "a" ++ [0] ++ str "c", 3)]) (str "a" ++ [0] ++ str "c") 3 false
      [] .stop).sent := by
  constructor
  · intro h
    have hwhole := h.whole (.itemDone (.toolSearchCall 0) 1 (str "\x7b\x7d") true)
      (by decide) (.toolSearchCall 0) (str "\x7b\x7d") rfl rfl rfl
    exact absurd hwhole (by decide)
  · intro h
    have hwhole := h.whole (.textDone (.text .message) 0 (str "a")) (by decide)
      (.text .message) (str "a") rfl rfl rfl
    exact absurd hwhole (by decide)

theorem responsesSseFinishLive_lifecycle_sample :
    Lifecycle Item.hasDeltas (responsesSseFinishLive toolSearchRequest
      (responsesUpdates toolSearchRequest (responsesStart true) [(str "r</think>", 9)])
      (str "r</think>a") 10 false [⟨str "tool_search", str "\x7b\x7d"⟩] .toolCalls).sent :=
  responsesSseFinishLive_lifecycle true toolSearchRequest [(str "r</think>", 9)]
    (str "r</think>a") 10 false [⟨str "tool_search", str "\x7b\x7d"⟩] .toolCalls
    (by decide) (by decide)

end Ds4Studio.Stream

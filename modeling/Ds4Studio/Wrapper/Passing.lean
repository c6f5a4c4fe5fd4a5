import Ds4Studio.Lib.EventStream
import Ds4Studio.Wrapper.Requests

/-!
What a client of the wrapper receives of the texts that the agent publishes. Escape sequences
are taken out of a text, the rest is escaped into the content of a payload, and the payload
is sent as an event of a stream.
-/

namespace Ds4Studio.Wrapper

open Bytes EventStream Json List

/-! ### Escape sequences -/

/-- A text and what is left of it without its escape sequences, each up to a letter. -/
inductive Stripped : Bytes → Bytes → Prop
  | nil : Stripped [] []
  | sequence {params : Bytes} {c : UInt8} {s t : Bytes} : (∀ b ∈ params, isLetter b = false) →
      isLetter c = true → Stripped s t → Stripped (0x1b :: 0x5b :: (params ++ c :: s)) t
  | unended {params : Bytes} : (∀ b ∈ params, isLetter b = false) →
      Stripped (0x1b :: 0x5b :: params) []
  | keep {c : UInt8} {s t : Bytes} : ¬ (c = 0x1b ∧ s.head? = some 0x5b) → Stripped s t →
      Stripped (c :: s) (c :: t)

theorem stripAnsi_true (s : Bytes) :
    (∃ params c rest, s = params ++ c :: rest ∧ (∀ b ∈ params, isLetter b = false) ∧
        isLetter c = true ∧ stripAnsi true s = stripAnsi false rest) ∨
      (∀ b ∈ s, isLetter b = false) ∧ stripAnsi true s = [] := by
  induction s with
  | nil => exact .inr ⟨by simp, rfl⟩
  | cons c s ih =>
    cases hletter : isLetter c with
    | true => exact .inl ⟨[], c, s, rfl, by simp, hletter, by simp [stripAnsi, hletter]⟩
    | false =>
      have hstep : stripAnsi true (c :: s) = stripAnsi true s := by simp [stripAnsi, hletter]
      rcases ih with ⟨params, d, rest, rfl, hparams, hd, heq⟩ | ⟨hall, heq⟩
      · refine .inl ⟨c :: params, d, rest, rfl, ?_, hd, hstep.trans heq⟩
        exact forall_mem_cons.mpr ⟨hletter, hparams⟩
      · exact .inr ⟨forall_mem_cons.mpr ⟨hletter, hall⟩, hstep.trans heq⟩

variable {s : Bytes}

theorem stripAnsi_keep {c : UInt8} (h : ¬ (c = 0x1b ∧ s.head? = some 0x5b)) :
    stripAnsi false (c :: s) = c :: stripAnsi false s := by
  rw [stripAnsi]
  rintro rest rfl rfl
  exact h ⟨rfl, rfl⟩

theorem stripped_stripAnsi (s : Bytes) : Stripped s (stripAnsi false s) := by
  induction hlen : s.length using Nat.strong_induction_on generalizing s with
  | h n ih =>
    cases s with
    | nil => exact .nil
    | cons c s =>
      simp only [length_cons] at hlen
      by_cases hstart : c = 0x1b ∧ s.head? = some 0x5b
      · obtain ⟨rfl, hhead⟩ := hstart
        obtain ⟨s, rfl⟩ := head?_eq_some_iff.mp hhead
        have hstep : stripAnsi false (0x1b :: 0x5b :: s) = stripAnsi true s := rfl
        rw [hstep]
        rcases stripAnsi_true s with ⟨params, d, rest, rfl, hparams, hd, heq⟩ | ⟨hall, heq⟩
        · rw [heq]
          simp only [length_cons, length_append] at hlen
          exact .sequence hparams hd (ih rest.length (by omega) rest rfl)
        · rw [heq]
          exact .unended hall
      · rw [stripAnsi_keep hstart]
        exact .keep hstart (ih s.length (by omega) s rfl)

theorem stripAnsi_sublist (flag : Bool) (s : Bytes) : (stripAnsi flag s).Sublist s := by
  fun_induction stripAnsi flag s with
  | case1 => exact List.Sublist.refl _
  | case2 c rest ih => exact ih.cons c
  | case3 rest ih => exact (ih.cons _).cons _
  | case4 c rest _ ih => exact ih.cons_cons c

/-- The bytes of a character that is not ASCII neither start nor end a sequence. -/
theorem stripAnsi_high {u : Bytes} (h : ∀ b ∈ u, 0x80 ≤ b) (flag : Bool) (s : Bytes) :
    stripAnsi flag (u ++ s) = (if flag then [] else u) ++ stripAnsi flag s := by
  induction u with
  | nil => cases flag <;> rfl
  | cons b u ih =>
    obtain ⟨hb, hu⟩ := forall_mem_cons.mp h
    simp only [UInt8.le_iff_toNat_le, UInt8.reduceToNat] at hb
    cases flag with
    | true =>
      have hletter : isLetter b = false := by
        simp only [isLetter, Bool.or_eq_false_iff, Bool.and_eq_false_iff, decide_eq_false_iff_not,
          UInt8.le_iff_toNat_le, UInt8.reduceToNat]
        omega
      rw [cons_append, stripAnsi, hletter]
      exact ih hu
    | false =>
      have hstart : ¬ (b = 0x1b ∧ (u ++ s).head? = some 0x5b) := by
        rintro ⟨rfl, -⟩
        exact absurd hb (by decide)
      rw [cons_append, stripAnsi_keep hstart, ih hu]
      rfl

theorem utf8_stripAnsi (h : Utf8 s) (flag : Bool) : Utf8 (stripAnsi flag s) := by
  induction hlen : s.length using Nat.strong_induction_on generalizing s flag with
  | h n ih =>
    cases h with
    | nil => cases flag <;> exact .nil
    | char cp s hcp hs =>
      rcases utf8Put_cases hcp with ⟨hascii, hput⟩ | ⟨-, hne, hbytes⟩
      · rw [hput] at hlen ⊢
        simp only [singleton_append, length_cons] at hlen ⊢
        have hc : cp.toUInt8 < 0x80 := by
          have := toNat_of_ascii hascii
          simp only [UInt8.lt_iff_toNat_lt, UInt8.reduceToNat]
          omega
        cases flag with
        | true => exact ih s.length (by omega) hs _ rfl
        | false =>
          by_cases hstart : cp.toUInt8 = 0x1b ∧ s.head? = some 0x5b
          · obtain ⟨rest, rfl⟩ := head?_eq_some_iff.mp hstart.2
            rw [hstart.1]
            simp only [length_cons] at hlen
            exact ih rest.length (by omega) (hs.tail (by decide)) true rfl
          · rw [stripAnsi_keep hstart]
            exact .cons hc (ih s.length (by omega) hs false rfl)
      · rw [stripAnsi_high hbytes]
        have hpos := length_pos_of_ne_nil hne
        rw [length_append] at hlen
        have hrest := ih s.length (by omega) hs flag rfl
        cases flag with
        | true => exact hrest
        | false => exact .char cp _ hcp hrest

/-! ### Payloads -/

theorem escapeByte_eq (c : UInt8) : escapeByte c = jsonEscapeByte c := by
  unfold escapeByte jsonEscapeByte
  by_cases hquote : c = 0x22
  · simp [hquote]
  · by_cases hback : c = 0x5c
    · simp [hback]
    · simp [hquote, hback]

theorem length_jsonEscapeByte_le (c : UInt8) : (jsonEscapeByte c).length ≤ 6 := by
  unfold jsonEscapeByte
  split_ifs <;> simp

theorem jsonEscapeInto_eq {cap w : ℕ} (h : w + s.length * 6 < cap) :
    jsonEscapeInto cap w s = jsonEscapeFragment s := by
  induction s generalizing w with
  | nil => rfl
  | cons c s ih =>
    simp only [length_cons] at h
    have hlen := length_jsonEscapeByte_le c
    rw [jsonEscapeInto, if_pos (by omega), escapeByte_eq, ih (by omega)]
    rfl

/-- The object whose only member is the content. -/
def contentObject (raw : Bytes) : Bytes := str "\x7b\"content\":\"" ++ (raw ++ str "\"\x7d")

/-- The data is an object with the text as its content. -/
def Content (data text : Bytes) : Prop := ∃ raw, data = contentObject raw ∧ Denotes raw text

variable (clean : Bytes)

theorem contentPayload_eq : contentPayload clean = contentObject (jsonEscapeFragment clean) := by
  have hlen : (str "\x7b\"content\":\"").length = 12 := by decide
  rw [contentPayload, jsonEscapeInto_eq (by omega), contentObject, append_assoc]

theorem isObject_contentPayload_iff : IsObject (contentPayload clean) ↔ Utf8 clean := by
  have htext : contentPayload clean = objectText [] [(str "content", jsonEscape clean)] := by
    have hkey : 0x7b :: (jsonEscape (str "content") ++ [0x3a, 0x22]) = str "\x7b\"content\":\"" := by
      decide
    have hend : str "\"\x7d" = [0x22, 0x7d] := by decide
    rw [contentPayload_eq, contentObject, ← hkey, hend]
    simp [objectText, memberText, membersTail, jsonEscape]
  have hnil : Ws [] := by
    intro c hc
    cases hc
  have hkey : Utf8 (str "content") := .ascii (forall_of_all (by decide))
  rw [htext, isObject_objectText_iff hnil (by simpa using compact_jsonEscape clean)]
  simp only [mem_singleton, forall_eq]
  refine ⟨fun h => (isString_jsonEscape_iff clean).mp ⟨h.2, rfl⟩, fun h => ⟨hkey, ?_⟩⟩
  exact ((isString_jsonEscape_iff clean).mpr h).1

theorem oneLine_contentPayload : OneLine (contentPayload clean) := by
  intro c hc
  have hlow : 0x20 ≤ c := by
    rw [contentPayload_eq, contentObject, mem_append, mem_append] at hc
    rcases hc with hc | hc | hc
    · exact forall_of_all (P := fun c => 0x20 ≤ c) (by decide) c hc
    · obtain ⟨b, -, hb⟩ := mem_flatMap.mp hc
      exact jsonEscapeByte_printed b c hb
    · exact forall_of_all (P := fun c => 0x20 ≤ c) (by decide) c hc
  constructor <;> rintro rfl <;> exact absurd hlow (by decide)

/-! ### Events -/

/-- What a client is to receive for a text that is published as of a kind: nothing if only
escape sequences are in it, else one event. The texts about Sage runs are payloads. -/
def Delivered (published : ℕ × Bytes) (received : List Event) : Prop :=
  ∃ clean, Stripped published.2 clean ∧
    (clean = [] → received = []) ∧
    (clean ≠ [] → ∃ data, received = [⟨agentEventName (eventType published.1), data⟩] ∧
      if published.1 = 5 ∨ published.1 = 6 then data = clean
      else IsObject data ∧ Content data clean)

/-- The texts that reach a client whole: the event fits into its buffer, and a text about a
Sage run stands in one line. -/
structure Admitted (published : ℕ × Bytes) : Prop where
  utf8 : Utf8 published.2
  noZero : (0 : UInt8) ∉ published.2
  fits : ∀ ev, runtimePublish published.1 published.2 = some ev → (formatted ev).length < sseSize
  payload : published.1 = 5 ∨ published.1 = 6 → OneLine published.2

theorem oneLine_agentEventName (type : EventType) : OneLine (agentEventName type) := by
  cases type <;> exact forall_of_all (P := fun c => c ≠ 0x0a ∧ c ≠ 0x0d) (by decide)

theorem agentEventName_ne_nil (type : EventType) : agentEventName type ≠ [] := by
  cases type <;> decide

theorem events_chatEventCb {ev : AgentEvent} (hfits : (formatted ev).length < sseSize)
    (hline : OneLine ev.jsonPayload) (behind : ℕ → UInt8) (rest : Bytes) :
    events (chatEventCb behind ev ++ rest) =
      ⟨agentEventName ev.type, ev.jsonPayload⟩ :: events rest := by
  rw [chatEventCb, if_pos hfits]
  exact events_written (oneLine_agentEventName ev.type) (agentEventName_ne_nil ev.type) hline rest

theorem runtimePublish_eq (current : ℕ) (h : (0 : UInt8) ∉ s) :
    runtimePublish current s =
      if stripAnsi false s = [] then none
      else some ⟨eventType current, if current = 5 ∨ current = 6 then stripAnsi false s
        else contentPayload (stripAnsi false s)⟩ := by
  have hclean : cstr (stripAnsi false s) = stripAnsi false s :=
    cstr_eq_self fun hzero => h ((stripAnsi_sublist false s).subset hzero)
  unfold runtimePublish
  by_cases hnil : s = []
  · simp [hnil, stripAnsi]
  · simp only [hclean, if_neg hnil]
    split_ifs <;> rfl

theorem delivered_runtimePublish {published : ℕ × Bytes} (h : Admitted published)
    (behind : ℕ → UInt8) (rest : Bytes) :
    ∃ received, Delivered published received ∧
      events ((match runtimePublish published.1 published.2 with
        | none => []
        | some ev => chatEventCb behind ev) ++ rest) = received ++ events rest := by
  have hfits := h.fits
  have hstripped := stripped_stripAnsi published.2
  rw [runtimePublish_eq _ h.noZero] at hfits ⊢
  by_cases hempty : stripAnsi false published.2 = []
  · exact ⟨[], ⟨_, hstripped, fun _ => rfl, fun hne => absurd hempty hne⟩, by simp [hempty]⟩
  simp only [if_neg hempty] at hfits ⊢
  by_cases hsage : published.1 = 5 ∨ published.1 = 6
  · simp only [if_pos hsage] at hfits ⊢
    have hline : OneLine (stripAnsi false published.2) := fun c hc =>
      h.payload hsage c ((stripAnsi_sublist false published.2).subset hc)
    refine ⟨_, ⟨_, hstripped, fun heq => absurd heq hempty, fun _ => ⟨_, rfl, ?_⟩⟩,
      events_chatEventCb (hfits _ rfl) hline behind rest⟩
    rw [if_pos hsage]
  · simp only [if_neg hsage] at hfits ⊢
    have hutf8 : Utf8 (stripAnsi false published.2) := utf8_stripAnsi h.utf8 false
    refine ⟨_, ⟨_, hstripped, fun heq => absurd heq hempty, fun _ => ⟨_, rfl, ?_⟩⟩,
      events_chatEventCb (hfits _ rfl) (oneLine_contentPayload _) behind rest⟩
    rw [if_neg hsage]
    exact ⟨(isObject_contentPayload_iff _).mpr hutf8, _, contentPayload_eq _, hutf8.denotes⟩

theorem delivered_chatStream (behind : ℕ → UInt8) {published : List (ℕ × Bytes)}
    (h : ∀ p ∈ published, Admitted p) :
    ∃ received, List.Forall₂ Delivered published received ∧
      events (chatStream behind published) = received.flatten := by
  induction published with
  | nil => exact ⟨[], .nil, rfl⟩
  | cons p published ih =>
    obtain ⟨hp, hrest⟩ := forall_mem_cons.mp h
    obtain ⟨later, hlater, hevents⟩ := ih hrest
    obtain ⟨received, hreceived, hstream⟩ :=
      delivered_runtimePublish hp behind (chatStream behind published)
    refine ⟨received :: later, .cons hreceived hlater, ?_⟩
    rw [flatten_cons, ← hevents]
    exact hstream

/-- Messages and events are passed on: a message that is found and printed with known
escapes only, and texts whose events fit. -/
theorem passed_on :
    (∀ before message after, OwnColon before → Spelled message →
      (chatBody before message after).length ≤ maxBody →
      chatMessage (chatBody before message after) = some (utf8 message)) ∧
    ∀ (behind : ℕ → UInt8) (published : List (ℕ × Bytes)), (∀ p ∈ published, Admitted p) →
      ∃ received, List.Forall₂ Delivered published received ∧
        events (chatStream behind published) = received.flatten :=
  ⟨fun _ _ _ hown hspelled hsize => (chatMessage_utf8_iff hown hsize).mpr hspelled,
    fun behind _ h => delivered_chatStream behind h⟩

theorem passed_on_coloured :
    chatMessage (chatBody [(js "mode", .str (js "agent"))] (js "a \"b\"\n") []) =
        some (utf8 (js "a \"b\"\n")) ∧
      ∃ received, List.Forall₂ Delivered [(0, 0x1b :: str "[1mhi"), (5, str "\x7b\x7d")] received ∧
        events (chatStream (fun _ => 0) [(0, 0x1b :: str "[1mhi"), (5, str "\x7b\x7d")]) =
          received.flatten := by
  refine ⟨passed_on.1 [(js "mode", .str (js "agent"))] (js "a \"b\"\n") [] ?_
      (all_eq_true.mp (by decide)) (Nat.le_trans (m := 100) (by decide) (by decide)),
    passed_on.2 (fun _ => 0) [(0, 0x1b :: str "[1mhi"), (5, str "\x7b\x7d")] ?_⟩
  · intro i hi
    cases hi
  · intro p hp
    simp only [mem_cons, not_mem_nil, or_false] at hp
    rcases hp with rfl | rfl
    · refine ⟨.ascii (forall_of_all (by decide)), by decide, fun ev hev => ?_, fun h => ?_⟩
      swap
      · simp at h
      obtain rfl := Option.some.inj hev
      decide
    · refine ⟨.ascii (forall_of_all (by decide)), by decide, fun ev hev => ?_, fun _ => ?_⟩
      · obtain rfl := Option.some.inj hev
        decide
      · exact forall_of_all (P := fun c => c ≠ 0x0a ∧ c ≠ 0x0d) (by decide)

/-- A text about a Sage run has no content member, and a colour alone makes no event. -/
theorem sage_status_unwrapped :
    (Utf8 (str "\x7b\"status\":\"completed\"\x7d") ∧
        (0 : UInt8) ∉ str "\x7b\"status\":\"completed\"\x7d" ∧
        ¬ ∃ data clean, Stripped (str "\x7b\"status\":\"completed\"\x7d") clean ∧
          events (chatStream (fun _ => 0) [(5, str "\x7b\"status\":\"completed\"\x7d")]) =
            [⟨agentEventName .sageStatus, data⟩] ∧ Content data clean) ∧
      events (chatStream (fun _ => 0) [(0, 0x1b :: str "[0m")]) = [] := by
  refine ⟨⟨.ascii (forall_of_all (by decide)), by decide, ?_⟩, by decide⟩
  rintro ⟨data, clean, -, hevents, raw, hraw, -⟩
  have hsent : events (chatStream (fun _ => 0) [(5, str "\x7b\"status\":\"completed\"\x7d")]) =
      [⟨agentEventName .sageStatus, str "\x7b\"status\":\"completed\"\x7d"⟩] := by decide
  rw [hsent] at hevents
  have hdata : str "\x7b\"status\":\"completed\"\x7d" = data := by simpa using hevents
  rw [← hdata] at hraw
  have htake := congrArg (take 12) hraw
  rw [contentObject, take_append_of_le_length (by decide)] at htake
  exact absurd htake (by decide)

end Ds4Studio.Wrapper

import Ds4Studio.Chat.Prompt

/-!
The key under which a thinking answer without tools is remembered: the prompt
with its last thinking tag closed, the visible answer and the end of sentence. It
is a prefix of the next prompt when the tag it closes is the one the renderer
asked for the answer with. A prompt without any turn has no such tag, but its
system text may end with the same bytes.
-/

namespace Ds4Studio.Chat

open Bytes List

def systemMsg (content : Bytes) : ChatMsg := ⟨.system, content, [], ⟨[], none⟩⟩

/-- The messages a request is rendered from: the skills of the server in front,
the system text of an Anthropic request behind. -/
def requestMessages (skills : List Bytes) (system : Bytes) (msgs : List ChatMsg) : List ChatMsg :=
  skills.map systemMsg ++ msgs ++ (if system = [] then [] else [systemMsg system])

def buildToollessThinkingVisibleText (promptText : Bytes) (mode : ThinkMode) (content : Bytes) :
    Option Bytes :=
  if mode.enabled = false then none
  else if Tokenizer.thinkStart <:+ promptText then
    some (promptText.take (promptText.length - Tokenizer.thinkStart.length) ++
      Tokenizer.thinkEnd ++ content ++ Tokenizer.eos)
  else none

/-- A message that the renderer writes as a turn. -/
def Role.IsTurn (r : Role) : Prop := r.isUserLike = true ∨ r = .assistant

variable {p : Pending} {think : Bool} {i : ℕ} {m : ChatMsg}

theorem renderMessage_of_not_turn {toolContext : Bool} {lastUser : ℤ}
    (h : ¬ m.role.IsTurn) : renderMessage think toolContext lastUser i p m = ([], p) := by
  unfold renderMessage
  cases hrole : m.role <;> simp [hrole, Role.IsTurn, Role.isUserLike] at h ⊢

variable {msgs : List ChatMsg}

theorem renderMessages_of_not_turn {toolContext : Bool} {lastUser : ℤ}
    (h : ∀ m ∈ msgs, ¬ m.role.IsTurn) :
    renderMessages think toolContext lastUser i p msgs = ([], p) := by
  induction msgs generalizing i with
  | nil => rfl
  | cons m msgs ih =>
    have hm : renderMessage think toolContext lastUser i p m = ([], p) :=
      renderMessage_of_not_turn (h m mem_cons_self)
    have hmsgs : renderMessages think toolContext lastUser (i + 1) p msgs = ([], p) :=
      ih fun m' hm' => h m' (mem_cons_of_mem m hm')
    simp only [renderMessages, hm, hmsgs, append_nil]

theorem exists_last_turn (msgs : List ChatMsg) :
    (∀ m ∈ msgs, ¬ m.role.IsTurn) ∨
      ∃ left m right, msgs = left ++ m :: right ∧ m.role.IsTurn ∧
        ∀ m' ∈ right, ¬ m'.role.IsTurn := by
  classical
  induction msgs with
  | nil => exact Or.inl (by simp)
  | cons m msgs ih =>
    rcases ih with hnone | ⟨left, m', right, rfl, hturn, hright⟩
    · by_cases hm : m.role.IsTurn
      · exact Or.inr ⟨[], m, msgs, rfl, hm, hnone⟩
      · refine Or.inl fun m' hm' => ?_
        rcases mem_cons.mp hm' with rfl | htail
        · exact hm
        · exact hnone m' htail
    · exact Or.inr ⟨m :: left, m', right, rfl, hturn, hright⟩

theorem le_lastUserIdx {last : ℤ} (hlast : last ≤ i) :
    last ≤ lastUserIdx i last msgs ∧ ∀ left m right, msgs = left ++ m :: right →
      m.role.isUserLike = true → (i + left.length : ℤ) ≤ lastUserIdx i last msgs := by
  induction msgs generalizing i last with
  | nil =>
    refine ⟨Int.le_refl _, fun left m right h => ?_⟩
    simp at h
  | cons m msgs ih =>
    have hnext : (if m.role.isUserLike then (i : ℤ) else last) ≤ ((i + 1 : ℕ) : ℤ) := by
      split <;> omega
    obtain ⟨hle, hat⟩ := ih hnext
    have hge : last ≤ if m.role.isUserLike then (i : ℤ) else last := by split <;> omega
    refine ⟨hge.trans hle, fun left m' right h huser => ?_⟩
    cases left with
    | nil =>
      obtain ⟨rfl, -⟩ := cons.inj h
      simpa [lastUserIdx, huser] using hle
    | cons d left =>
      have htail : msgs = left ++ m' :: right := (cons.inj h).2
      have := hat left m' right htail huser
      rw [lastUserIdx]
      simp only [length_cons]
      omega

/-- A user message behind a list of messages: none of the assistant turns in the
list comes later. -/
theorem le_lastUserIdx_of_user (left : List ChatMsg) (right : List ChatMsg)
    (hm : m.role.isUserLike = true) : (left.length : ℤ) ≤ lastUserIdx 0 (-1) (left ++ m :: right) := by
  have hle : (-1 : ℤ) ≤ (0 : ℕ) := by omega
  have h := (le_lastUserIdx hle).2 left m right rfl hm
  omega

/-- Without tools a list of messages in front of the last user message is rendered
the same, whatever comes behind. -/
theorem renderMessages_before_user {last last' : ℤ} (h : (i + msgs.length : ℤ) ≤ last)
    (h' : (i + msgs.length : ℤ) ≤ last') :
    renderMessages think false last i p msgs = renderMessages think false last' i p msgs := by
  apply renderMessages_congr
  intro j m hj _
  have hlt : j < msgs.length := (List.getElem?_eq_some_iff.mp hj).1
  have h₁ : ¬ last < ↑(i + j) := by omega
  have h₂ : ¬ last' < ↑(i + j) := by omega
  simp only [h₁, h₂]

/-! ### The bytes at the end of a prompt -/

theorem not_thinkStart_suffix_eos (out : Bytes) : ¬ Tokenizer.thinkStart <:+ out ++ Tokenizer.eos := by
  intro h
  have hlen : Tokenizer.thinkStart.length ≤ Tokenizer.eos.length := by decide
  have hshort := suffix_of_suffix_length_le h (suffix_append out Tokenizer.eos) hlen
  revert hshort
  decide

/-- Only the system text can end a prompt without turns with a thinking tag. -/
theorem thinkStart_suffix_promptHead {mode : ThinkMode} :
    Tokenizer.thinkStart <:+ promptHead msgs [] mode ↔ Tokenizer.thinkStart <:+ systemText msgs [] := by
  constructor
  · intro h
    rcases Nat.le_total Tokenizer.thinkStart.length (systemText msgs []).length with hlen | hlen
    · exact suffix_of_suffix_length_le h (suffix_append _ _) hlen
    · have hin := suffix_of_suffix_length_le (suffix_append _ _) h hlen
      obtain ⟨front, hfront⟩ := hin
      by_cases hnil : front = []
      · exact ⟨[], by simpa [hnil] using hfront.symm⟩
      · -- A short system text would leave the front of the tag to the fixed text.
        have hpre : front ∈ Tokenizer.thinkStart.inits := by
          rw [mem_inits]
          exact ⟨_, hfront⟩
        have hsuf : front <:+ Tokenizer.bos ++ (if mode = .max then thinkMaxPrefix else []) := by
          rw [← hfront] at h
          exact (suffix_append_inj_of_length_eq rfl).mp h |>.1
        have hno : ∀ t ∈ Tokenizer.thinkStart.inits, t ≠ [] →
            ¬ t <:+ Tokenizer.bos ++ (if mode = .max then thinkMaxPrefix else []) := by
          cases mode <;> decide +kernel
        exact absurd hsuf (hno front hpre hnil)
  · intro h
    exact h.trans (suffix_append _ _)

theorem buildToollessThinkingVisibleText_closed {mode : ThinkMode} (hmode : mode.enabled = true)
    (out content : Bytes) :
    buildToollessThinkingVisibleText (out ++ Tokenizer.thinkStart) mode content =
      some (out ++ Tokenizer.thinkEnd ++ content ++ Tokenizer.eos) := by
  have hsuf : Tokenizer.thinkStart <:+ out ++ Tokenizer.thinkStart := suffix_append _ _
  simp [buildToollessThinkingVisibleText, hmode, hsuf]

theorem buildToollessThinkingVisibleText_open {promptText : Bytes} (mode : ThinkMode)
    (content : Bytes) (h : ¬ Tokenizer.thinkStart <:+ promptText) :
    buildToollessThinkingVisibleText promptText mode content = none := by
  simp [buildToollessThinkingVisibleText, h]

/-! ### The next request -/

/-- An answer as the client sends it back, whatever it keeps of the reasoning. -/
structure Answers (answer : ChatMsg) (content : Bytes) : Prop where
  role : answer.role = .assistant
  content : answer.content = content
  calls : answer.calls.v = []

theorem renderMessages_prefix (think toolContext : Bool) (last : ℤ) (i : ℕ) (p : Pending)
    (l : List ChatMsg) (m : ChatMsg) (r : List ChatMsg) :
    (renderMessages think toolContext last i p l).1 ++
        (renderMessage think toolContext last (i + l.length)
          (renderMessages think toolContext last i p l).2 m).1 <+:
      (renderMessages think toolContext last i p (l ++ m :: r)).1 := by
  rw [renderMessages_append]
  simp only [renderMessages]
  rw [← append_assoc]
  exact prefix_append _ _

/-- The answer is followed by a user message, so only its closed thinking tag is
shown, and only where a turn was due. -/
theorem renderMessage_answer {last : ℤ} {answer : ChatMsg} {content : Bytes}
    (hanswer : Answers answer content) (hlast : (i : ℤ) ≤ last) :
    (renderMessage think false last i p answer).1 =
      (if p.assistant then Tokenizer.assistant ++ Tokenizer.thinkEnd else []) ++
        (content ++ Tokenizer.eos) := by
  have hnot : ¬ last < (i : ℤ) := by omega
  simp [renderMessage, hanswer.role, assistantHead, assistantBody, hanswer.content,
    Dsml.appendDsmlToolCallsText, hanswer.calls, hnot]

/-- A conversation in two requests: the messages of the first, the answer, and the
user messages of the second, in a history without tools. -/
structure FollowUp (skills : List Bytes) (system : Bytes) (msgs : List ChatMsg)
    (answer : ChatMsg) (content : Bytes) (users : List ChatMsg) : Prop where
  toolless : chatHistoryUsesToolContext (requestMessages skills system msgs) [] = false
  answers : Answers answer content
  nonempty : users ≠ []
  user : ∀ u ∈ users, u.role = .user

theorem closed_not_prefix_open (s t : Bytes) :
    ¬ Tokenizer.thinkEnd ++ s <+: Tokenizer.thinkStart ++ t := by
  rintro ⟨more, h⟩
  have hclosed : Tokenizer.thinkEnd = 0x3c :: 0x2f :: str "think>" := by decide
  have hopen : Tokenizer.thinkStart = 0x3c :: 0x74 :: str "hink>" := by decide
  rw [hclosed, hopen] at h
  simp at h

theorem open_not_prefix_closed (s t : Bytes) :
    ¬ Tokenizer.thinkStart ++ s <+: Tokenizer.thinkEnd ++ t := by
  rintro ⟨more, h⟩
  exact closed_not_prefix_open t (s ++ more) ⟨[], by simpa using h.symm⟩

section FollowUp

variable {skills : List Bytes} {system : Bytes} {msgs : List ChatMsg} {answer : ChatMsg}
  {content : Bytes} {users : List ChatMsg}

section

variable (h : FollowUp skills system msgs answer content users)

include h

theorem FollowUp.toolless_next :
    chatHistoryUsesToolContext (requestMessages skills system (msgs ++ answer :: users)) [] =
      false := by
  have hfirst := h.toolless
  simp only [chatHistoryUsesToolContext, requestMessages, any_append, any_cons,
    Bool.or_eq_false_iff] at hfirst ⊢
  obtain ⟨hschemas, ⟨hskills, hmsgs⟩, hsystem⟩ := hfirst
  refine ⟨hschemas, ⟨hskills, hmsgs, ?_, ?_⟩, hsystem⟩
  · simp [h.answers.role, h.answers.calls, Role.isToolResult]
  · rw [any_eq_false]
    intro u hu
    simp [h.user u hu, Role.isToolResult]

theorem FollowUp.promptHead_next (mode : ThinkMode) :
    promptHead (requestMessages skills system (msgs ++ answer :: users)) [] mode =
      promptHead (requestMessages skills system msgs) [] mode := by
  have hmore : ∀ m ∈ answer :: users, m.role.isSystem = false := by
    intro m hm
    rcases mem_cons.mp hm with rfl | hu
    · rw [h.answers.role]
      rfl
    · rw [h.user m hu]
      rfl
  have hinsert := promptHead_insert (skills.map systemMsg ++ msgs)
    (if system = [] then [] else [systemMsg system]) [] mode hmore
  simpa only [requestMessages, append_assoc] using hinsert

theorem FollowUp.user_of_userLike (hm : m ∈ msgs) (huser : m.role.isUserLike = true) :
    m.role = .user := by
  have htool : m.role.isToolResult = false := by
    have hfirst := h.toolless
    simp only [chatHistoryUsesToolContext, Bool.or_eq_false_iff, any_eq_false] at hfirst
    have := hfirst.2 m (by simp [requestMessages, hm])
    simp only [Bool.or_eq_true, not_or] at this
    simpa using this.2
  cases hrole : m.role <;> simp_all [Role.isUserLike, Role.isToolResult]

end

theorem systemMsg_not_turn (s : Bytes) : ¬ (systemMsg s).role.IsTurn := by
  simp [systemMsg, Role.IsTurn, Role.isUserLike]

theorem skills_not_turn (skills : List Bytes) : ∀ m ∈ skills.map systemMsg, ¬ m.role.IsTurn := by
  intro m hm
  obtain ⟨s, -, rfl⟩ := mem_map.mp hm
  exact systemMsg_not_turn s

theorem system_not_turn (system : Bytes) :
    ∀ m ∈ (if system = [] then [] else [systemMsg system]), ¬ m.role.IsTurn := by
  intro m hm
  split at hm
  · simp at hm
  · rw [mem_singleton.mp hm]
    exact systemMsg_not_turn system

/-- The flags and the text of a request are those of the skills and its messages. -/
theorem renderMessages_requestMessages (think toolContext : Bool) (last : ℤ) (skills : List Bytes)
    (system : Bytes) (msgs : List ChatMsg) :
    renderMessages think toolContext last 0 .start (requestMessages skills system msgs) =
      renderMessages think toolContext last skills.length .start msgs := by
  have hskills : renderMessages think toolContext last 0 .start (skills.map systemMsg) =
      ([], .start) := renderMessages_of_not_turn (skills_not_turn skills)
  have hsystem : ∀ i p, renderMessages think toolContext last i p
      (if system = [] then [] else [systemMsg system]) = ([], p) :=
    fun i p => renderMessages_of_not_turn (system_not_turn system)
  rw [requestMessages, renderMessages_append, renderMessages_append]
  simp only [hskills, hsystem, append_nil, nil_append, length_map, Nat.zero_add]

section

variable (h : FollowUp skills system msgs answer content users)

include h

theorem FollowUp.lastUser_next :
    ((skills.length + msgs.length : ℕ) : ℤ) ≤
      lastUserIdx 0 (-1) (requestMessages skills system (msgs ++ answer :: users)) := by
  obtain ⟨u, rest, hu⟩ := exists_cons_of_ne_nil h.nonempty
  have huser : u.role.isUserLike = true := by
    rw [h.user u (by simp [hu])]
    rfl
  have hlast := le_lastUserIdx_of_user (skills.map systemMsg ++ msgs ++ [answer])
    (rest ++ if system = [] then [] else [systemMsg system]) huser
  have hshape : skills.map systemMsg ++ msgs ++ [answer] ++ u ::
      (rest ++ if system = [] then [] else [systemMsg system]) =
      requestMessages skills system (msgs ++ answer :: users) := by
    simp [requestMessages, hu]
  rw [hshape] at hlast
  simp only [length_append, length_map, length_singleton] at hlast
  omega

/-- The next prompt starts with the head of the first one, its messages and the
answer, with the tags of a turn that was due. -/
theorem FollowUp.prefix_next (mode : ThinkMode) (p : Pending) (out : Bytes)
    (hmsgs : renderMessages mode.enabled false
      (lastUserIdx 0 (-1) (requestMessages skills system (msgs ++ answer :: users)))
      skills.length .start msgs = (out, p)) :
    promptHead (requestMessages skills system msgs) [] mode ++ out ++
        ((if p.assistant then Tokenizer.assistant ++ Tokenizer.thinkEnd else []) ++
          (content ++ Tokenizer.eos)) <+:
      renderChatPromptText (requestMessages skills system (msgs ++ answer :: users)) [] mode := by
  have hpre := renderMessages_prefix mode.enabled false
    (lastUserIdx 0 (-1) (requestMessages skills system (msgs ++ answer :: users)))
    skills.length .start msgs answer users
  rw [hmsgs, renderMessage_answer h.answers h.lastUser_next] at hpre
  simp only [renderChatPromptText, renderHistory, h.toolless_next, h.promptHead_next,
    renderMessages_requestMessages]
  rw [append_assoc, append_assoc, prefix_append_right_inj]
  exact hpre.trans (prefix_append _ _)

/-- Without a turn the prompt is its head, and the answer is shown without tags. -/
theorem FollowUp.key_iff_of_no_turn (mode : ThinkMode) (hmode : mode.enabled = true)
    (hturn : ∀ m ∈ msgs, ¬ m.role.IsTurn) :
    (∀ key, buildToollessThinkingVisibleText
        (renderChatPromptText (requestMessages skills system msgs) [] mode) mode content = some key →
      key <+: renderChatPromptText (requestMessages skills system (msgs ++ answer :: users)) [] mode) ↔
      ¬ Tokenizer.thinkStart <:+ systemText (requestMessages skills system msgs) [] := by
  have hmsgs : ∀ last, renderMessages mode.enabled false last skills.length .start msgs =
      ([], .start) := fun last => renderMessages_of_not_turn hturn
  have hfirst : renderChatPromptText (requestMessages skills system msgs) [] mode =
      promptHead (requestMessages skills system msgs) [] mode := by
    simp only [renderChatPromptText, renderHistory, renderMessages_requestMessages, h.toolless,
      hmsgs, assistantPrompt]
    simp [Pending.start]
  have hnext := h.prefix_next mode .start [] (hmsgs _)
  rw [hfirst, ← (thinkStart_suffix_promptHead :
    Tokenizer.thinkStart <:+ promptHead (requestMessages skills system msgs) [] mode ↔ _)]
  constructor
  · rintro hkey ⟨out, hout⟩
    rw [← hout, buildToollessThinkingVisibleText_closed hmode] at hkey
    have hle := hkey _ rfl
    -- Both the key and the prompt continue the same text, one with a closed tag,
    -- the other with the open one of the system text.
    simp only [← hout, Pending.start, Bool.false_eq_true, if_false, append_nil, nil_append] at hnext
    rw [append_assoc, append_assoc] at hle
    rw [append_assoc] at hnext
    rcases prefix_or_prefix_of_prefix hle hnext with hin | hin
    · rw [prefix_append_right_inj] at hin
      exact closed_not_prefix_open _ _ hin
    · rw [prefix_append_right_inj] at hin
      exact open_not_prefix_closed _ _ hin
  · intro hopen key hkey
    rw [buildToollessThinkingVisibleText_open mode content hopen] at hkey
    exact absurd hkey (by simp)

/-- Behind an assistant turn no key is built; behind a user turn the key ends with
the tags the next prompt shows. -/
theorem FollowUp.key_of_turn
    (mode : ThinkMode) (hmode : mode.enabled = true) {left right : List ChatMsg}
    (hmsgs : msgs = left ++ m :: right) (hm : m.role.IsTurn)
    (hright : ∀ m' ∈ right, ¬ m'.role.IsTurn) (key : Bytes) (hkey : buildToollessThinkingVisibleText
      (renderChatPromptText (requestMessages skills system msgs) [] mode) mode content = some key) :
    key <+: renderChatPromptText (requestMessages skills system (msgs ++ answer :: users)) [] mode := by
  have hbody : ∀ last, renderMessages mode.enabled false last skills.length .start msgs =
      renderMessages mode.enabled false last skills.length .start (left ++ [m]) := by
    intro last
    have happ := renderMessages_append mode.enabled false last skills.length .start (left ++ [m]) right
    rw [renderMessages_of_not_turn hright] at happ
    rw [hmsgs, show left ++ m :: right = left ++ [m] ++ right by simp, happ, append_nil]
  rcases hm with huser | hassistant
  · have hrole : m.role = .user := h.user_of_userLike (by simp [hmsgs]) huser
    have hprompt := (le_lastUserIdx_of_user (skills.map systemMsg ++ left)
      (right ++ if system = [] then [] else [systemMsg system]) huser)
    have hshape : skills.map systemMsg ++ left ++ m ::
        (right ++ if system = [] then [] else [systemMsg system]) =
        requestMessages skills system msgs := by
      simp [requestMessages, hmsgs]
    rw [hshape] at hprompt
    have hnextlast := h.lastUser_next
    have hlen : left.length < msgs.length := by
      simp only [hmsgs, length_append, length_cons]
      omega
    have hsame : renderMessages mode.enabled false
          (lastUserIdx 0 (-1) (requestMessages skills system (msgs ++ answer :: users)))
          skills.length .start left =
        renderMessages mode.enabled false
          (lastUserIdx 0 (-1) (requestMessages skills system msgs)) skills.length .start left := by
      apply renderMessages_before_user
      · omega
      · simp only [length_append, length_map] at hprompt
        omega
    have hdue : ∀ last, renderMessages mode.enabled false last skills.length .start (left ++ [m]) =
        ((renderMessages mode.enabled false last skills.length .start left).1 ++
          userTurn m.content, ⟨true, false⟩) := by
      intro last
      rw [renderMessages_append]
      simp [renderMessages, renderMessage, hrole]
    have hnext := h.prefix_next mode ⟨true, false⟩ _
      ((hbody _).trans ((hdue _).trans (by rw [hsame])))
    have hfirst : renderChatPromptText (requestMessages skills system msgs) [] mode =
        promptHead (requestMessages skills system msgs) [] mode ++
          ((renderMessages mode.enabled false
            (lastUserIdx 0 (-1) (requestMessages skills system msgs)) skills.length .start left).1 ++
            userTurn m.content) ++ Tokenizer.assistant ++ Tokenizer.thinkStart := by
      simp only [renderChatPromptText, renderHistory, renderMessages_requestMessages, h.toolless,
        hbody, hdue, assistantPrompt]
      simp only [hmode, if_true, append_assoc]
    rw [hfirst, buildToollessThinkingVisibleText_closed hmode, Option.some.injEq] at hkey
    rw [← hkey]
    simpa only [if_true, append_assoc] using hnext
  · obtain ⟨out, hout⟩ := renderMessages_concat_assistant mode.enabled false
      (lastUserIdx 0 (-1) (requestMessages skills system msgs)) skills.length .start left hassistant
    have hfirst : renderChatPromptText (requestMessages skills system msgs) [] mode =
        promptHead (requestMessages skills system msgs) [] mode ++ out ++ Tokenizer.eos := by
      simp [renderChatPromptText, renderHistory, renderMessages_requestMessages, h.toolless,
        hbody, hout, assistantPrompt]
    rw [hfirst, buildToollessThinkingVisibleText_open mode content
      (not_thinkStart_suffix_eos _)] at hkey
    exact absurd hkey (by simp)

end

/-- The key of a thinking answer is a prefix of the next prompt unless the history
has no turn at all and its system text ends with a thinking tag. -/
theorem toollessKey_prefix_iff (h : FollowUp skills system msgs answer content users)
    (mode : ThinkMode) :
    (∀ key, buildToollessThinkingVisibleText
        (renderChatPromptText (requestMessages skills system msgs) [] mode) mode content = some key →
      key <+: renderChatPromptText (requestMessages skills system (msgs ++ answer :: users)) [] mode) ↔
      (mode.enabled = true →
        Tokenizer.thinkStart <:+ systemText (requestMessages skills system msgs) [] →
          ∃ m ∈ msgs, m.role.IsTurn) := by
  by_cases hmode : mode.enabled = true
  · rcases exists_last_turn msgs with hnone | ⟨left, m, right, hmsgs, hm, hright⟩
    · rw [h.key_iff_of_no_turn mode hmode hnone]
      constructor
      · exact fun hopen _ htag => absurd htag hopen
      · intro hcond htag
        obtain ⟨m, hm, hturn⟩ := hcond hmode htag
        exact hnone m hm hturn
    · constructor
      · exact fun _ _ _ => ⟨m, by simp [hmsgs], hm⟩
      · exact fun _ key hkey => h.key_of_turn mode hmode hmsgs hm hright key hkey
  · have hoff : mode.enabled = false := by simpa using hmode
    constructor
    · exact fun _ hon => absurd hon hmode
    · intro _ key hkey
      simp [buildToollessThinkingVisibleText, hoff] at hkey

end FollowUp

theorem toollessKey_prefix_sample :
    (∀ key, buildToollessThinkingVisibleText
        (renderChatPromptText (requestMessages [] (str "Be brief.") [userMsg (str "Hi")]) [] .high)
        .high (str "Hello.") = some key →
      key <+: renderChatPromptText (requestMessages [] (str "Be brief.")
        ([userMsg (str "Hi")] ++ ⟨.assistant, str "Hello.", str "Greet.", ⟨[], none⟩⟩ ::
          [userMsg (str "Bye")])) [] .high) ↔
      (ThinkMode.high.enabled = true →
        Tokenizer.thinkStart <:+
          systemText (requestMessages [] (str "Be brief.") [userMsg (str "Hi")]) [] →
          ∃ m ∈ [userMsg (str "Hi")], m.role.IsTurn) := by
  have hfollow : FollowUp [] (str "Be brief.") [userMsg (str "Hi")]
      ⟨.assistant, str "Hello.", str "Greet.", ⟨[], none⟩⟩ (str "Hello.") [userMsg (str "Bye")] :=
    ⟨by decide, ⟨rfl, rfl, rfl⟩, by simp, by simp [userMsg]⟩
  exact toollessKey_prefix_iff hfollow .high

/-- A chat whose only message is a system text that ends with a thinking tag. -/
theorem toollessKey_not_prefix :
    ¬ ∀ (skills : List Bytes) (system : Bytes) (msgs : List ChatMsg) (answer : ChatMsg)
      (content : Bytes) (users : List ChatMsg) (mode : ThinkMode),
      FollowUp skills system msgs answer content users →
      ∀ key, buildToollessThinkingVisibleText
          (renderChatPromptText (requestMessages skills system msgs) [] mode) mode content =
            some key →
        key <+: renderChatPromptText (requestMessages skills system (msgs ++ answer :: users)) []
          mode := by
  intro hclaim
  have hkey := hclaim [] [] [systemMsg (str "Think in <think>")]
    ⟨.assistant, str "Hello.", [], ⟨[], none⟩⟩ (str "Hello.") [userMsg (str "Bye")] .high
    ⟨by decide, ⟨rfl, rfl, rfl⟩, by simp, by simp [userMsg]⟩
    (Tokenizer.bos ++ str "Think in " ++ Tokenizer.thinkEnd ++ str "Hello." ++ Tokenizer.eos)
    (by decide)
  revert hkey
  decide

end Ds4Studio.Chat

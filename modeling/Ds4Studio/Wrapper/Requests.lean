import Ds4Studio.Wrapper.Http

/-!
The body of a chat request as a client prints it, and the message that the wrapper takes out
of it. The wrapper looks for the first place where the quoted key stands, which need not be
the member, and undoes only some of the escapes.
-/

namespace Ds4Studio.Wrapper

open Bytes Json List Search

/-! ### The printed body -/

/-- The members that are printed in front of another one. -/
def membersFront : List (JsString × Value) → Bytes
  | [] => []
  | (_, .undefined) :: rest => membersFront rest
  | (key, value) :: rest => quote key ++ 0x3a :: (stringify value ++ 0x2c :: membersFront rest)

/-- The body of a chat request with a message between other members. -/
def chatBody (before : List (JsString × Value)) (message : JsString)
    (after : List (JsString × Value)) : Bytes :=
  stringify (.obj (before ++ (js "message", .str message) :: after))

/-- What is printed in front of the message. -/
def bodyFront (before : List (JsString × Value)) : Bytes := 0x7b :: membersFront before

theorem stringifyMembers_front (b : Bool) (before : List (JsString × Value)) (key message : JsString)
    (after : List (JsString × Value)) :
    stringifyMembers b (before ++ (key, .str message) :: after) =
      (if b then [0x2c] else []) ++ (membersFront before ++
        (quote key ++ 0x3a :: (quote message ++ stringifyMembers true after))) := by
  induction before generalizing b with
  | nil => simp [stringifyMembers, membersFront, stringify]
  | cons member before ih =>
    obtain ⟨k, value⟩ := member
    cases value with
    | undefined => simpa [stringifyMembers, membersFront] using ih b
    | _ => simp [stringifyMembers, membersFront, ih true]

variable (before : List (JsString × Value)) (message : JsString)

theorem chatBody_eq (after : List (JsString × Value)) :
    chatBody before message after = bodyFront before ++ (str "\"message\"" ++
      0x3a :: 0x22 :: (quoteChars message ++ 0x22 :: (stringifyMembers true after ++ [0x7d]))) := by
  have hkey : quote (js "message") = str "\"message\"" := by decide
  rw [chatBody, stringify, stringifyMembers_front, hkey, bodyFront]
  simp [quote]

theorem bodyFront_concat : ∃ left d, bodyFront before = left ++ [d] ∧ (d = 0x7b ∨ d = 0x2c) := by
  have hfront : membersFront before = [] ∨ ∃ left, membersFront before = left ++ [0x2c] := by
    induction before with
    | nil => exact .inl rfl
    | cons member before ih =>
      obtain ⟨k, value⟩ := member
      cases value with
      | undefined => exact ih
      | _ =>
        refine .inr ?_
        simp only [membersFront]
        rcases ih with hnil | ⟨left, hleft⟩
        · rw [hnil]
          exact ⟨quote k ++ 0x3a :: stringify _, by simp; rfl⟩
        · rw [hleft]
          exact ⟨quote k ++ 0x3a :: (stringify _ ++ 0x2c :: left), by simp; rfl⟩
  rcases hfront with hnil | ⟨left, hleft⟩
  · exact ⟨[], 0x7b, by rw [bodyFront, hnil]; rfl, .inl rfl⟩
  · exact ⟨0x7b :: left, 0x2c, by rw [bodyFront, hleft]; rfl, .inr rfl⟩

/-! ### The string that is copied -/

/-- The characters whose printed form the wrapper reads back. -/
def spelled (cp : ℕ) : Bool := !isSurrogate cp && (0x20 ≤ cp || cp = 0x0a || cp = 0x0d || cp = 0x09)

/-- What the wrapper makes of a printed character: the backslash of an escape that it does
not know stays. -/
def passedChar (cp : ℕ) : Bytes := if spelled cp then utf8Put cp else quoteChar cp

def passed (m : JsString) : Bytes := m.flatMap fun cp => passedChar cp.val

variable {cap : ℕ}

theorem grow_room (len : ℕ) (hcap : 0 < cap) (hlen : len + 2 ≤ wrapJsonStringMax) :
    ∃ cap', grow cap len = some cap' ∧ 0 < cap' := by
  unfold grow
  by_cases hroom : len + 2 < cap
  · exact ⟨cap, by rw [if_pos hroom], hcap⟩
  · have hbelow : ¬ cap ≥ wrapJsonStringMax + 1 := by omega
    have hsmall : ¬ cap > sizeMax / 2 := by
      simp only [wrapJsonStringMax, maxBody, sizeMax] at hbelow ⊢
      omega
    have hlarger : ¬ min (cap * 2) (wrapJsonStringMax + 1) ≤ cap := by omega
    simp only [if_neg hroom, if_neg hbelow, if_neg hsmall, if_neg hlarger]
    exact ⟨_, rfl, by omega⟩

theorem copyString_cons {c : UInt8} (hquote : c ≠ 0x22) (hback : c ≠ 0x5c) (cap : ℕ)
    (val rest : Bytes) :
    copyString cap val (c :: rest) =
      match grow cap val.length with
      | none => none
      | some cap => copyString cap (val ++ [c]) rest :=
  copyString.eq_5 cap val c rest hquote (fun _ _ h _ => hback h) fun h _ => hback h

theorem copyString_plain {text : Bytes} (htext : ∀ c ∈ text, c ≠ 0x22 ∧ c ≠ 0x5c) (hcap : 0 < cap)
    (val : Bytes) (hroom : val.length + text.length + 2 ≤ wrapJsonStringMax) (rest : Bytes) :
    ∃ cap', 0 < cap' ∧ copyString cap val (text ++ rest) = copyString cap' (val ++ text) rest := by
  induction text generalizing cap val with
  | nil => exact ⟨cap, hcap, by simp⟩
  | cons c text ih =>
    obtain ⟨hquote, hback⟩ := htext c mem_cons_self
    simp only [length_cons] at hroom
    obtain ⟨cap₁, hgrow, hcap₁⟩ := grow_room val.length hcap (by omega)
    obtain ⟨cap₂, hcap₂, hrest⟩ := ih (fun d hd => htext d (mem_cons_of_mem c hd)) hcap₁
      (val ++ [c]) (by simp; omega)
    refine ⟨cap₂, hcap₂, ?_⟩
    rw [cons_append, copyString_cons hquote hback, hgrow]
    simpa using hrest

theorem copyString_escape (e : UInt8) (hcap : 0 < cap) (val : Bytes)
    (hroom : val.length + 2 ≤ wrapJsonStringMax) (rest : Bytes) :
    ∃ cap', 0 < cap' ∧
      copyString cap val (0x5c :: e :: rest) = copyString cap' (val ++ unescape e) rest := by
  obtain ⟨cap', hgrow, hcap'⟩ := grow_room val.length hcap hroom
  exact ⟨cap', hcap', by rw [copyString, hgrow]⟩

theorem utf8Put_plain {cp : ℕ} (h : cp < 0x110000) (hquote : cp ≠ 0x22) (hback : cp ≠ 0x5c) :
    ∀ c ∈ utf8Put cp, c ≠ 0x22 ∧ c ≠ 0x5c := by
  by_cases hascii : cp ≤ 0x7f
  · rw [utf8Put_ascii hascii]
    intro c hc
    obtain rfl := mem_singleton.mp hc
    exact ⟨fun heq => hquote (toUInt8_inj (by omega) (by omega) heq),
      fun heq => hback (toUInt8_inj (by omega) (by omega) heq)⟩
  · intro c hc
    have hhigh := (utf8Put_high (by omega) (by omega : cp ≤ 0x10ffff)).2 c hc
    constructor <;> rintro rfl <;> exact absurd hhigh (by decide)

theorem hexDigit_plain {c : UInt8} (h : isXDigit c = true) : c ≠ 0x22 ∧ c ≠ 0x5c := by
  constructor <;> rintro rfl <;> exact absurd h (by decide)

theorem quoteChar_passed {cp : ℕ} (h : cp < 0x110000) :
    (∃ e, quoteChar cp = [0x5c, e] ∧ passedChar cp = unescape e) ∨
      (spelled cp = false ∧ cp < 0x10000 ∧ quoteChar cp = 0x5c :: 0x75 :: hexUnit cp) ∨
      (spelled cp = true ∧ quoteChar cp = utf8Put cp ∧ ∀ c ∈ utf8Put cp, c ≠ 0x22 ∧ c ≠ 0x5c) := by
  rw [quoteChar]
  split_ifs with h1 h2 h3 h4 h5 h6 h7 h8
  iterate 7
    · subst cp
      exact .inl ⟨_, rfl, by decide⟩
  · refine .inr (.inl ⟨?_, h8.elim (fun hlow => by omega) isSurrogate_lt, rfl⟩)
    rcases h8 with hlow | hsurrogate
    · simp [spelled, h5, h6, h7, hlow]
    · simp [spelled, hsurrogate]
  · push Not at h8
    refine .inr (.inr ⟨?_, rfl, utf8Put_plain h h1 h2⟩)
    simp [spelled, h8.1, h8.2]

theorem copyString_char {cp : ℕ} (h : cp < 0x110000) (hcap : 0 < cap) (val : Bytes)
    (hroom : val.length + (quoteChar cp).length + 2 ≤ wrapJsonStringMax) (rest : Bytes) :
    ∃ cap', 0 < cap' ∧
      copyString cap val (quoteChar cp ++ rest) = copyString cap' (val ++ passedChar cp) rest := by
  rcases quoteChar_passed h with ⟨e, hquoted, hpassed⟩ | ⟨hno, hlt, hquoted⟩ | ⟨hyes, hquoted, hplain⟩
  · rw [hquoted, hpassed]
    exact copyString_escape e hcap val (by omega) rest
  · -- the digits behind the escape are copied as they are
    obtain ⟨cap₁, hcap₁, hescape⟩ := copyString_escape 0x75 hcap val (by omega) (hexUnit cp ++ rest)
    have hu : unescape 0x75 = [0x5c, 0x75] := by decide
    rw [hquoted] at hroom
    simp only [length_cons] at hroom
    obtain ⟨cap₂, hcap₂, hdigits⟩ := copyString_plain
      (fun c hc => hexDigit_plain (hexUnit_digits hlt c hc)) hcap₁
      (val ++ [0x5c, 0x75]) (by simp; omega) rest
    refine ⟨cap₂, hcap₂, ?_⟩
    rw [passedChar, hno, hquoted, cons_append, cons_append, hescape, hu, hdigits]
    simp
  · rw [hquoted] at hroom ⊢
    rw [passedChar, if_pos hyes]
    exact copyString_plain hplain hcap val hroom rest

theorem length_passedChar_le {cp : ℕ} (h : cp < 0x110000) :
    (passedChar cp).length ≤ (quoteChar cp).length := by
  rcases quoteChar_passed h with ⟨e, hquoted, hpassed⟩ | ⟨hno, -, -⟩ | ⟨hyes, hquoted, -⟩
  · rw [hquoted, hpassed, unescape]
    split_ifs <;> simp
  · simp [passedChar, hno]
  · simp [passedChar, hyes, hquoted]

theorem quoteChars_cons (cp : Fin 0x110000) (m : JsString) :
    quoteChars (cp :: m) = quoteChar cp.val ++ quoteChars m := flatMap_cons

theorem passed_cons (cp : Fin 0x110000) (m : JsString) :
    passed (cp :: m) = passedChar cp.val ++ passed m := flatMap_cons

theorem copyString_quoteChars (m : JsString) (hcap : 0 < cap) {val : Bytes}
    (hroom : val.length + (quoteChars m).length + 2 ≤ wrapJsonStringMax) (rest : Bytes) :
    copyString cap val (quoteChars m ++ 0x22 :: rest) = some (val ++ passed m) := by
  induction m generalizing cap val with
  | nil => simp [quoteChars, passed, copyString]
  | cons cp m ih =>
    rw [quoteChars_cons, length_append] at hroom
    have hlen := length_passedChar_le cp.isLt
    obtain ⟨cap', hcap', hchar⟩ := copyString_char cp.isLt hcap val (by omega)
      (quoteChars m ++ 0x22 :: rest)
    rw [quoteChars_cons, append_assoc, hchar, ih hcap' (by simp; omega), passed_cons]
    simp

/-! ### The member that is read -/

/-- No colon stands between a place in front of the member that looks like its key and the
member. -/
def OwnColon (before : List (JsString × Value)) : Prop :=
  ∀ i, find (str "\"message\"") (bodyFront before) = some i →
    (0x3a : UInt8) ∉ (bodyFront before).drop (i + 9)

theorem find_chatBody (tail : Bytes) :
    find (str "\"message\"") (bodyFront before ++ (str "\"message\"" ++ tail)) =
      (find (str "\"message\"") (bodyFront before)).or (some (bodyFront before).length) := by
  obtain ⟨left, d, hfront, hd⟩ := bodyFront_concat before
  have hnot : d ∉ str "\"message\"" := by rcases hd with rfl | rfl <;> decide
  have hne : str "\"message\"" ≠ [] := by decide
  have hown : find (str "\"message\"") (str "\"message\"" ++ tail) = some 0 :=
    (find_eq_some_iff _ _ _).mpr ⟨Nat.zero_le _, prefix_append _ _, by simp⟩
  have hnil : find (str "\"message\"") [] = none := by decide
  have hleft : find (str "\"message\"") (left ++ [d]) = find (str "\"message\"") left := by
    rw [find_append_cons hnot hne, hnil]
    simp
  rw [hfront, hleft, append_assoc, singleton_append, find_append_cons hnot hne, hown]
  simp

theorem cstr_chatBody (after : List (JsString × Value)) :
    cstr (chatBody before message after) = chatBody before message after := by
  apply cstr_eq_self
  intro hzero
  exact absurd (stringify_printed _ 0 hzero) (by decide)

variable {before : List (JsString × Value)}

/-- What lies between the key that is found and the colon of the member. -/
theorem drop_chatBody (h : OwnColon before) (tail : Bytes) :
    ∃ i y, find (str "\"message\"") (bodyFront before ++ (str "\"message\"" ++ 0x3a :: tail)) =
        some i ∧
      (bodyFront before ++ (str "\"message\"" ++ 0x3a :: tail)).drop (i + 9) = y ++ 0x3a :: tail ∧
      (0x3a : UInt8) ∉ y := by
  have hfind := find_chatBody before (0x3a :: tail)
  have hlen : (str "\"message\"").length = 9 := by decide
  cases hearlier : find (str "\"message\"") (bodyFront before) with
  | none =>
    rw [hearlier] at hfind
    refine ⟨_, [], hfind, ?_, by simp⟩
    rw [drop_append, drop_eq_nil_of_le (by omega), Nat.add_sub_cancel_left, ← hlen,
      drop_left]
  | some i =>
    rw [hearlier] at hfind
    have hbound := find_bound hearlier
    refine ⟨i, (bodyFront before).drop (i + 9) ++ str "\"message\"", hfind, ?_, ?_⟩
    · rw [drop_append_of_le_length (by omega)]
      simp
    · intro hmem
      rcases mem_append.mp hmem with hmem | hmem
      · exact h i hearlier hmem
      · exact absurd hmem (by decide)

theorem chatMessage_chatBody (h : OwnColon before) {message : JsString}
    {after : List (JsString × Value)} (hsize : (chatBody before message after).length ≤ maxBody) :
    chatMessage (chatBody before message after) = some (passed message) := by
  have hpattern : (0x22 : UInt8) :: (str "message" ++ [0x22]) = str "\"message\"" := by decide
  have hlen : (str "\"message\"").length = 9 := by decide
  have hcopy : copyString 256 [] (quoteChars message ++
      0x22 :: (stringifyMembers true after ++ [0x7d])) = some (passed message) := by
    refine copyString_quoteChars message (by decide) ?_ _
    rw [chatBody_eq] at hsize
    simp only [length_append, length_cons, hlen] at hsize
    simp only [wrapJsonStringMax, length_nil]
    omega
  obtain ⟨i, y, hfind, hdrop, hy⟩ := drop_chatBody h
    (0x22 :: (quoteChars message ++ 0x22 :: (stringifyMembers true after ++ [0x7d])))
  have hcolon : (y ++ 0x3a :: 0x22 :: (quoteChars message ++
      0x22 :: (stringifyMembers true after ++ [0x7d]))).dropWhile (· ≠ 0x3a) =
      0x3a :: 0x22 :: (quoteChars message ++ 0x22 :: (stringifyMembers true after ++ [0x7d])) := by
    rw [dropWhile_append_of_pos]
    · simp
    · intro c hc
      simp only [decide_eq_true_eq]
      rintro rfl
      exact hy hc
  rw [chatMessage, cstr_chatBody, chatBody_eq, parseJsonString, hpattern]
  simp only [hfind, hlen, hdrop, hcolon]
  exact hcopy

/-! ### What is passed on -/

/-- Every character of the message is read back from what is printed for it. -/
def Spelled (message : JsString) : Prop := ∀ cp ∈ message, spelled cp.val = true

instance (message : JsString) : Decidable (Spelled message) :=
  inferInstanceAs (Decidable (∀ cp ∈ message, spelled cp.val = true))

theorem length_utf8Put (cp : ℕ) : (utf8Put cp).length =
    if cp ≤ 0x7f then 1 else if cp ≤ 0x7ff then 2 else if cp ≤ 0xffff then 3 else 4 := by
  unfold utf8Put
  split_ifs <;> rfl

/-- A character that is not read back leaves more bytes than its encoding has. -/
theorem passedChar_utf8 (cp : ℕ) :
    (spelled cp = true ∧ passedChar cp = utf8Put (if isSurrogate cp then 0xfffd else cp)) ∨
      (spelled cp = false ∧
        (utf8Put (if isSurrogate cp then 0xfffd else cp)).length < (passedChar cp).length) := by
  cases hspelled : spelled cp with
  | true =>
    have hno : isSurrogate cp = false := by
      simp only [spelled, Bool.and_eq_true, Bool.not_eq_true'] at hspelled
      exact hspelled.1
    simp [passedChar, hspelled, hno]
  | false =>
    rw [passedChar, hspelled, length_utf8Put]
    cases hsurrogate : isSurrogate cp with
    | true =>
      have hhigh : 0xd800 ≤ cp := by
        simp only [isSurrogate, Bool.and_eq_true, decide_eq_true_eq] at hsurrogate
        exact hsurrogate.1
      have hquoted : quoteChar cp = 0x5c :: 0x75 :: hexUnit cp := by
        rw [quoteChar]
        split_ifs with h1 h2 h3 h4 h5 h6 h7 h8
        iterate 7 omega
        · rfl
        · exact absurd (Or.inr hsurrogate) h8
      simp [hquoted, hexUnit]
    | false =>
      have hall : ∀ i : Fin 0x20, spelled i.val = false → 1 < (quoteChar i.val).length := by decide
      have hlow : cp < 0x20 := by
        simp only [spelled, hsurrogate, Bool.not_false, Bool.true_and, Bool.or_eq_false_iff,
          decide_eq_false_iff_not, not_le] at hspelled
        exact hspelled.1.1.1
      simpa [(by omega : cp ≤ 0x7f)] using hall ⟨cp, hlow⟩ hspelled

theorem passed_eq_utf8_iff : passed message = utf8 message ↔ Spelled message := by
  have hutf8 : ∀ (cp : Fin 0x110000) (m : JsString), utf8 (cp :: m) =
      utf8Put (if isSurrogate cp.val then 0xfffd else cp.val) ++ utf8 m := fun _ _ =>
    flatMap_cons
  have hle : ∀ m : JsString, (utf8 m).length ≤ (passed m).length := by
    intro m
    induction m with
    | nil => exact Nat.le_refl _
    | cons cp m ih =>
      rw [hutf8, passed_cons, length_append, length_append]
      rcases passedChar_utf8 cp.val with ⟨-, heq⟩ | ⟨-, hlt⟩
      · rw [heq]
        omega
      · omega
  induction message with
  | nil => simp [passed, utf8, Spelled]
  | cons cp m ih =>
    have hiff : Spelled (cp :: m) ↔ spelled cp.val = true ∧ Spelled m := forall_mem_cons
    rw [hutf8, passed_cons, hiff]
    rcases passedChar_utf8 cp.val with ⟨hyes, heq⟩ | ⟨hno, hlt⟩
    · rw [heq]
      simpa [hyes] using ih
    · have hm := hle m
      refine iff_of_false (fun h => ?_) (by simp [hno])
      have hlen := congrArg List.length h
      simp only [length_append] at hlen
      omega

/-- Where the member is found, the message is handed on exactly if all of it is read back. -/
theorem chatMessage_utf8_iff (h : OwnColon before) {message : JsString}
    {after : List (JsString × Value)} (hsize : (chatBody before message after).length ≤ maxBody) :
    chatMessage (chatBody before message after) = some (utf8 message) ↔ Spelled message := by
  rw [chatMessage_chatBody h hsize, Option.some.injEq, passed_eq_utf8_iff]

end Ds4Studio.Wrapper

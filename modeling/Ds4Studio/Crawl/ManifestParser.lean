import Ds4Studio.Json.Documents

/-!
The reader of manifests. It decodes strings as it goes, and hands what it finds in arrays and
objects to whoever reads them. Memory is taken to be there.
-/

namespace Ds4Studio.Crawl.Grounding

open Bytes Json List Option

/-! ### The reader -/

def jsonMaxDepth : ℕ := 128

/-- What is wrong, and how many bytes stand behind the cursor. -/
structure ParseError where
  left : ℕ
  text : String

/-- What reads on from a state. -/
abbrev Reader (σ : Type) := σ → Bytes → Except ParseError (σ × Bytes)

/-- `ds4_set_error` with the cursor in front of these bytes. -/
def fail {α : Type} (s : Bytes) (text : String) : Except ParseError α := .error ⟨s.length, text⟩

/-- `ds4_skip_space` -/
def skipSpace (s : Bytes) : Bytes := s.dropWhile isWs

/-- `ds4_string`: zero characters are noted, not kept. -/
structure DecodedString where
  data : Bytes
  containsNul : Bool

namespace DecodedString

def append (string : DecodedString) (bytes : Bytes) : DecodedString :=
  { string with data := string.data ++ bytes }

/-- `ds4_append_codepoint` -/
def appendCodepoint (string : DecodedString) (codepoint : ℕ) : DecodedString :=
  if codepoint = 0 then { string with containsNul := true } else string.append (utf8Put codepoint)

/-- `ds4_string_equals` -/
def equals (string : DecodedString) (literal : String) : Bool :=
  !string.containsNul && string.data == str literal

end DecodedString

def parseHex4 (s : Bytes) : Except ParseError (ℕ × Bytes) :=
  match s with
  | a :: b :: c :: d :: rest =>
      match hex4 a b c d with
      | some value => .ok (value, rest)
      | none => fail s "invalid Unicode escape"
  | _ => fail s "incomplete Unicode escape"

def isContinuation (byte : UInt8) : Bool := byte &&& 0xc0 = 0x80

def rawUtf8Length (s : Bytes) : ℕ :=
  let s₀ := s.getD 0 0
  let s₁ := s.getD 1 0
  if s.length = 0 then 0
  else if s₀ < 0x80 then 1
  else if 0xc2 ≤ s₀ ∧ s₀ ≤ 0xdf then if 2 ≤ s.length ∧ isContinuation s₁ then 2 else 0
  else if 0xe0 ≤ s₀ ∧ s₀ ≤ 0xef then
    if s.length < 3 ∨ ¬isContinuation (s.getD 2 0) then 0
    else if s₀ = 0xe0 ∧ (s₁ < 0xa0 ∨ 0xbf < s₁) then 0
    else if s₀ = 0xed ∧ (s₁ < 0x80 ∨ 0x9f < s₁) then 0
    else if s₀ ≠ 0xe0 ∧ s₀ ≠ 0xed ∧ ¬isContinuation s₁ then 0
    else 3
  else if 0xf0 ≤ s₀ ∧ s₀ ≤ 0xf4 then
    if s.length < 4 ∨ ¬isContinuation (s.getD 2 0) ∨ ¬isContinuation (s.getD 3 0) then 0
    else if s₀ = 0xf0 ∧ (s₁ < 0x90 ∨ 0xbf < s₁) then 0
    else if s₀ = 0xf4 ∧ (s₁ < 0x80 ∨ 0x8f < s₁) then 0
    else if s₀ ≠ 0xf0 ∧ s₀ ≠ 0xf4 ∧ ¬isContinuation s₁ then 0
    else 4
  else 0

/-- The other half of a pair of surrogates. -/
def parseLowSurrogate (decoded : DecodedString) (high : ℕ) (s : Bytes) :
    Except ParseError (DecodedString × Bytes) :=
  if s.length < 6 ∨ s.getD 0 0 ≠ 0x5c ∨ s.getD 1 0 ≠ 0x75 then
    fail s "high surrogate lacks low surrogate"
  else do
    let (low, s) ← parseHex4 (s.drop 2)
    if low < 0xdc00 ∨ 0xdfff < low then fail s "invalid low surrogate"
    else .ok (decoded.appendCodepoint (surrogatePair high low), s)

/-- What stands behind a backslash. -/
def parseEscape (decoded : DecodedString) : Bytes → Except ParseError (DecodedString × Bytes)
  | [] => fail [] "incomplete string escape"
  | escaped :: s =>
      if escaped = 0x75 then do
        let (codepoint, s) ← parseHex4 s
        if 0xd800 ≤ codepoint ∧ codepoint ≤ 0xdbff then parseLowSurrogate decoded codepoint s
        else if 0xdc00 ≤ codepoint ∧ codepoint ≤ 0xdfff then fail s "unexpected low surrogate"
        else .ok (decoded.appendCodepoint codepoint, s)
      else
        match jsonShortEscape escaped with
        | some c => .ok (decoded.append [c], s)
        | none => fail s "unknown string escape"

/-- A turn of the loop at a byte that does not end the string. -/
def parseChar (decoded : DecodedString) (byte : UInt8) (s : Bytes) :
    Except ParseError (DecodedString × Bytes) :=
  if byte < 0x20 then fail s "unescaped control character in string"
  else if byte = 0x5c then parseEscape decoded s
  else if 0x80 ≤ byte then
    let length := rawUtf8Length (byte :: s)
    if length = 0 then fail s "invalid UTF-8 in string"
    else .ok (decoded.append ((byte :: s).take length), (byte :: s).drop length)
  else .ok (decoded.append [byte], s)

def parseStringLoop : ℕ → DecodedString → Bytes → Except ParseError (DecodedString × Bytes)
  | 0, _, s => fail s "unterminated string"
  | _ + 1, _, [] => fail [] "unterminated string"
  | fuel + 1, decoded, byte :: s =>
      if byte = 0x22 then .ok (decoded, s)
      else do
        let (decoded, s) ← parseChar decoded byte s
        parseStringLoop fuel decoded s

/-- What is decoded is dropped where the caller has no use for it. -/
def parseString (s : Bytes) : Except ParseError (DecodedString × Bytes) :=
  match s with
  | 0x22 :: t => parseStringLoop (t.length + 1) ⟨[], false⟩ t
  | _ => fail s "expected string"

/-- The loop of an array or an object, behind the opening bracket. -/
def parseItems {σ : Type} (what : String) (close : UInt8) (item : Reader σ) : ℕ → Reader σ
  | 0, _, s => fail s ("unterminated " ++ what)
  | fuel + 1, st, s => do
      let (st, s) ← item st s
      match skipSpace s with
      | [] => fail [] ("unterminated " ++ what)
      | c :: s =>
          if c = close then .ok (st, s)
          else if c = 0x2c then parseItems what close item fuel st (skipSpace s)
          else
            fail s ("expected ',' or '" ++ String.singleton (Char.ofNat close.toNat) ++ "' in " ++ what)

/-- A container from behind its opening bracket on. -/
def parseContainer {σ : Type} (what : String) (close : UInt8) (item : Reader σ) : Reader σ :=
  fun st s =>
    let s := skipSpace s
    if s.head? = some close then .ok (st, s.tail)
    else parseItems what close item (s.length + 1) st s

/-- A key, the colon and what the caller reads behind it. -/
def parseMember {σ : Type} (whose : String) (value : DecodedString → Reader σ) : Reader σ :=
  fun st s => do
    let (key, s) ← parseString s
    match skipSpace s with
    | [] => fail [] ("expected ':' after " ++ whose ++ " key")
    | c :: s =>
        if c = 0x3a then value key st (skipSpace s)
        else fail s ("expected ':' after " ++ whose ++ " key")

/-- A value that is only passed over. -/
def passOver {σ : Type} (value : Bytes → Except ParseError Bytes) : Reader σ :=
  fun st s => (value s).map (Prod.mk st)

def parseArray (value : Bytes → Except ParseError Bytes) (s : Bytes) : Except ParseError Bytes :=
  (parseContainer "array" 0x5d (passOver value) () s).map Prod.snd

def parseObject (value : Bytes → Except ParseError Bytes) (s : Bytes) : Except ParseError Bytes :=
  (parseContainer "object" 0x7d (parseMember "object" fun _ => passOver value) () s).map Prod.snd

/-- Passes over one of these bytes. -/
def skipOne (signs : List UInt8) (s : Bytes) : Bytes :=
  match s with
  | c :: t => if c ∈ signs then t else s
  | [] => []

def parseExponent (s : Bytes) : Except ParseError Bytes :=
  match s with
  | e :: t =>
      if e = 0x65 ∨ e = 0x45 then
        let t := skipOne [0x2b, 0x2d] t
        if t.head?.any isDigit then .ok (t.dropWhile isDigit) else fail t "invalid number exponent"
      else .ok s
  | [] => .ok s

def parseFraction (s : Bytes) : Except ParseError Bytes :=
  match s with
  | dot :: t =>
      if dot = 0x2e then
        if t.head?.any isDigit then parseExponent (t.dropWhile isDigit)
        else fail t "invalid number fraction"
      else parseExponent s
  | [] => parseExponent s

def parseNumber (s : Bytes) : Except ParseError Bytes :=
  let s := skipOne [0x2d] s
  match s with
  | [] => fail [] "incomplete number"
  | c :: t =>
      if c = 0x30 then parseFraction t
      else if 0x31 ≤ c ∧ c ≤ 0x39 then parseFraction (t.dropWhile isDigit)
      else fail s "invalid number"

def parseLiteral (literal : String) (s : Bytes) : Except ParseError Bytes :=
  if str literal <+: s then .ok (s.drop (str literal).length) else fail s "invalid literal"

/-- The cases of `ds4_parse_value` without a container. -/
def parseLeaf (c : UInt8) (s : Bytes) : Except ParseError Bytes :=
  if c = 0x22 then (parseString s).map Prod.snd
  else if c = 0x74 then parseLiteral "true" s
  else if c = 0x66 then parseLiteral "false" s
  else if c = 0x6e then parseLiteral "null" s
  else if c = 0x2d ∨ isDigit c then parseNumber s
  else fail s "unexpected value"

/-- `ds4_parse_value`, given how the values inside are read; there are none where a container
would be nested too deeply. -/
def parseValueWith (inside : Option (Bytes → Except ParseError Bytes)) (s : Bytes) :
    Except ParseError Bytes :=
  let s := skipSpace s
  match s with
  | [] => fail [] "expected value"
  | c :: t =>
      if c = 0x7b then
        match inside with
        | some value => parseObject value t
        | none => fail s "nesting is too deep"
      else if c = 0x5b then
        match inside with
        | some value => parseArray value t
        | none => fail s "nesting is too deep"
      else parseLeaf c s

/-- `ds4_parse_value` with this many levels left: the level of a depth is `129 - depth`. -/
def parseValue : ℕ → Bytes → Except ParseError Bytes
  | 0 => parseValueWith none
  | levels + 1 => parseValueWith (some (parseValue levels))

def levelsAt (depth : ℕ) : ℕ := jsonMaxDepth + 1 - depth

/-! ### Characters -/

set_option maxRecDepth 4000 in
theorem isContinuation_iff (c : UInt8) :
    isContinuation c = true ↔ 0x80 ≤ c.toNat ∧ c.toNat < 0xc0 := by
  have hall : ∀ i : Fin 256, isContinuation i.val.toUInt8 = true ↔ 0x80 ≤ i.val ∧ i.val < 0xc0 := by
    decide
  have hc := hall ⟨c.toNat, c.toNat_lt⟩
  rwa [show (⟨c.toNat, c.toNat_lt⟩ : Fin 256).val.toUInt8 = c from UInt8.ofNat_toNat] at hc

/-- The bytes behind the first one that make a character with it. -/
def Completes (lead : ℕ) : Bytes → Prop
  | [b] => 0xc2 ≤ lead ∧ lead ≤ 0xdf ∧ 0x80 ≤ b.toNat ∧ b.toNat < 0xc0
  | [b, c] => 0xe0 ≤ lead ∧ lead ≤ 0xef ∧ 0x80 ≤ b.toNat ∧ b.toNat < 0xc0 ∧
      (lead = 0xe0 → 0xa0 ≤ b.toNat) ∧ (lead = 0xed → b.toNat < 0xa0) ∧
      0x80 ≤ c.toNat ∧ c.toNat < 0xc0
  | [b, c, d] => 0xf0 ≤ lead ∧ lead ≤ 0xf4 ∧ 0x80 ≤ b.toNat ∧ b.toNat < 0xc0 ∧
      (lead = 0xf0 → 0x90 ≤ b.toNat) ∧ (lead = 0xf4 → b.toNat < 0x90) ∧
      0x80 ≤ c.toNat ∧ c.toNat < 0xc0 ∧ 0x80 ≤ d.toNat ∧ d.toNat < 0xc0
  | _ => False

variable {a : UInt8}

theorem utf8Put_of_completes {u : Bytes} (h : Completes a.toNat u) :
    ∃ cp, Scalar cp ∧ 0x80 ≤ cp ∧ utf8Put cp = a :: u := by
  have hbytes : ∀ n (c : UInt8), n = c.toNat → n.toUInt8 = c := by
    rintro _ c rfl
    exact UInt8.ofNat_toNat
  unfold Completes at h
  split at h
  · rename_i b
    refine ⟨(a.toNat - 0xc0) * 64 + (b.toNat - 0x80), .inl (by omega), by omega, ?_⟩
    rw [utf8Put_eq _ (by omega), if_neg (by omega), if_pos (by omega),
      hbytes _ a (by omega), hbytes _ b (by omega)]
  · rename_i b c
    refine ⟨(a.toNat - 0xe0) * 4096 + (b.toNat - 0x80) * 64 + (c.toNat - 0x80), ?_, by omega, ?_⟩
    · unfold Scalar
      omega
    · rw [utf8Put_eq _ (by omega), if_neg (by omega), if_neg (by omega), if_pos (by omega),
        hbytes _ a (by omega), hbytes _ b (by omega), hbytes _ c (by omega)]
  · rename_i b c d
    refine ⟨(a.toNat - 0xf0) * 262144 + (b.toNat - 0x80) * 4096 + (c.toNat - 0x80) * 64 +
      (d.toNat - 0x80), .inr (by omega), by omega, ?_⟩
    rw [utf8Put_eq _ (by omega), if_neg (by omega), if_neg (by omega), if_neg (by omega),
      hbytes _ a (by omega), hbytes _ b (by omega), hbytes _ c (by omega), hbytes _ d (by omega)]
  · exact h.elim

variable {cp : ℕ}

theorem completes_of_utf8Put (h : Scalar cp) (hhigh : 0x80 ≤ cp) :
    ∃ (a : UInt8) (u : Bytes), utf8Put cp = a :: u ∧ Completes a.toNat u := by
  have hnat : ∀ n, n < 256 → n.toUInt8.toNat = n := by
    intro n hn
    simp only [Nat.toUInt8, UInt8.toNat_ofNat']
    omega
  unfold Scalar at h
  rw [utf8Put_eq cp (by omega)]
  split_ifs with h1 h2 h3
  · omega
  · refine ⟨_, _, rfl, ?_⟩
    simp only [Completes]
    rw [hnat _ (by omega), hnat _ (by omega)]
    omega
  · refine ⟨_, _, rfl, ?_⟩
    simp only [Completes]
    rw [hnat _ (by omega), hnat _ (by omega), hnat _ (by omega)]
    omega
  · refine ⟨_, _, rfl, ?_⟩
    simp only [Completes]
    rw [hnat _ (by omega), hnat _ (by omega), hnat _ (by omega), hnat _ (by omega)]
    omega

theorem rawUtf8Length_of_completes {u : Bytes} (h : Completes a.toNat u) (s : Bytes) :
    rawUtf8Length (a :: (u ++ s)) = (a :: u).length := by
  unfold Completes at h
  simp only [rawUtf8Length, isContinuation_iff, UInt8.lt_iff_toNat_lt, UInt8.le_iff_toNat_le,
    ← UInt8.toNat_inj, UInt8.reduceToNat, ne_eq, getD_cons_zero, length_cons]
  split at h
  · simp only [singleton_append, getD_cons_succ, getD_cons_zero, length_cons, length_nil]
    rw [if_neg (by omega), if_neg (by omega), if_pos (by omega), if_pos (by omega)]
  · simp only [cons_append, nil_append, getD_cons_succ, getD_cons_zero, length_cons, length_nil]
    rw [if_neg (by omega), if_neg (by omega), if_neg (by omega), if_pos (by omega),
      if_neg (by omega), if_neg (by omega), if_neg (by omega), if_neg (by omega)]
  · simp only [cons_append, nil_append, getD_cons_succ, getD_cons_zero, length_cons, length_nil]
    rw [if_neg (by omega), if_neg (by omega), if_neg (by omega), if_neg (by omega),
      if_pos (by omega), if_neg (by omega), if_neg (by omega), if_neg (by omega), if_neg (by omega)]
  · exact h.elim

variable {s : Bytes}

theorem completes_of_rawUtf8Length (ha : 0x80 ≤ a) (hn : rawUtf8Length (a :: s) ≠ 0) :
    ∃ u t, s = u ++ t ∧ Completes a.toNat u := by
  have ha : 0x80 ≤ a.toNat := UInt8.le_iff_toNat_le.mp ha
  simp only [rawUtf8Length, isContinuation_iff, UInt8.lt_iff_toNat_lt, UInt8.le_iff_toNat_le,
    ← UInt8.toNat_inj, UInt8.reduceToNat, ne_eq, getD_cons_zero, length_cons, getD_cons_succ] at hn
  rw [if_neg (by omega), if_neg (by omega)] at hn
  by_cases h2 : 0xc2 ≤ a.toNat ∧ a.toNat ≤ 0xdf
  · rw [if_pos h2, ite_eq_right_iff, Classical.not_imp] at hn
    obtain ⟨⟨hlength, hb⟩, -⟩ := hn
    cases s with
    | nil => simp at hlength
    | cons b t => exact ⟨[b], t, rfl, h2.1, h2.2, hb⟩
  · rw [if_neg h2] at hn
    by_cases h3 : 0xe0 ≤ a.toNat ∧ a.toNat ≤ 0xef
    · rw [if_pos h3] at hn
      rcases s with _ | ⟨b, _ | ⟨c, t⟩⟩
      · simp at hn
      · simp at hn
      · simp only [getD_cons_zero, getD_cons_succ, length_cons] at hn
        refine ⟨[b, c], t, rfl, ?_⟩
        unfold Completes
        split_ifs at hn <;> omega
    · rw [if_neg h3] at hn
      by_cases h4 : 0xf0 ≤ a.toNat ∧ a.toNat ≤ 0xf4
      · rw [if_pos h4] at hn
        rcases s with _ | ⟨b, _ | ⟨c, _ | ⟨d, t⟩⟩⟩
        · simp at hn
        · simp at hn
        · simp at hn
        · simp only [getD_cons_zero, getD_cons_succ, length_cons] at hn
          refine ⟨[b, c, d], t, rfl, ?_⟩
          unfold Completes
          split_ifs at hn <;> omega
      · rw [if_neg h4] at hn
        exact absurd rfl hn

theorem rawUtf8Length_put (h : Scalar cp) (hhigh : 0x80 ≤ cp) (s : Bytes) :
    rawUtf8Length (utf8Put cp ++ s) = (utf8Put cp).length := by
  obtain ⟨a, u, hput, hu⟩ := completes_of_utf8Put h hhigh
  rw [hput]
  exact rawUtf8Length_of_completes hu s

theorem utf8Put_of_rawUtf8Length (ha : 0x80 ≤ a) (hn : rawUtf8Length (a :: s) ≠ 0) :
    ∃ cp t, Scalar cp ∧ 0x80 ≤ cp ∧ a :: s = utf8Put cp ++ t := by
  obtain ⟨u, t, rfl, hu⟩ := completes_of_rawUtf8Length ha hn
  obtain ⟨cp, hcp, hhigh, hput⟩ := utf8Put_of_completes hu
  exact ⟨cp, t, hcp, hhigh, by rw [hput]; rfl⟩

/-! ### Strings -/

theorem utf8Put_ne_zero (h : Scalar cp) (hpos : cp ≠ 0) : ∀ c ∈ utf8Put cp, c ≠ 0 := by
  rcases utf8Put_cases h with ⟨hascii, hput⟩ | ⟨-, -, hbytes⟩
  · intro c hc hzero
    rw [hput, mem_singleton] at hc
    have hnat := toNat_of_ascii hascii
    rw [← hc, hzero] at hnat
    exact hpos hnat.symm
  · rintro c hc rfl
    exact absurd (hbytes 0 hc) (by decide)

namespace DecodedString

/-- The string with a decoded text behind it. -/
def put (string : DecodedString) (text : Bytes) : DecodedString :=
  ⟨string.data ++ text.filter (· ≠ 0), string.containsNul || text.contains 0⟩

variable (string : DecodedString)

@[simp]
theorem put_nil : string.put [] = string := by simp [put]

@[simp]
theorem put_put (s t : Bytes) : (string.put s).put t = string.put (s ++ t) := by
  simp [put, Bool.or_assoc]

theorem append_eq_put {text : Bytes} (h : ∀ c ∈ text, c ≠ 0) :
    string.append text = string.put text := by
  have hfilter : text.filter (· ≠ 0) = text := filter_eq_self.mpr (by simpa using h)
  have hzero : text.contains 0 = false := by simpa using fun hmem => h 0 hmem rfl
  rw [append, put, hfilter, hzero, Bool.or_false]

theorem appendCodepoint_eq_put {cp : ℕ} (h : Scalar cp) :
    string.appendCodepoint cp = string.put (utf8Put cp) := by
  unfold appendCodepoint
  split_ifs with hzero
  · subst hzero
    have hput : utf8Put 0 = [0] := by decide
    rw [hput, put]
    simp
  · exact string.append_eq_put (utf8Put_ne_zero h hzero)

end DecodedString

theorem parseHex4_eq_ok {rest : Bytes} {n : ℕ} : parseHex4 s = .ok (n, rest) ↔
    ∃ a b c d, s = a :: b :: c :: d :: rest ∧ hex4 a b c d = some n := by
  unfold parseHex4
  constructor
  · intro h
    split at h
    · rename_i a b c d rest'
      split at h
      · rename_i value hvalue
        cases h
        exact ⟨a, b, c, d, rfl, hvalue⟩
      · cases h
    · cases h
  · rintro ⟨a, b, c, d, rfl, hn⟩
    simp only [hn]

/-- What has been read of a string stands for a text in front of any other. -/
def Decoded (u t : Bytes) : Prop := ∀ s x, Decodes s x → Decodes (u ++ s) (t ++ x)

theorem jsonShortEscape_ne_zero {e c : UInt8} (h : jsonShortEscape e = some c) : c ≠ 0 := by
  unfold jsonShortEscape at h
  split_ifs at h <;> cases h <;> decide

theorem bind_eq_ok {α β : Type} {x : Except ParseError α} {f : α → Except ParseError β} {b : β} :
    x >>= f = .ok b ↔ ∃ a, x = .ok a ∧ f a = .ok b := by
  cases x with
  | error e => exact ⟨fun h => (nomatch h), fun ⟨a, ha, _⟩ => (nomatch ha)⟩
  | ok a => exact ⟨fun h => ⟨a, rfl, h⟩, fun ⟨a', ha, hb⟩ => by cases ha; exact hb⟩

variable {s s' : Bytes} {decoded decoded' : DecodedString}

theorem parseLowSurrogate_eq_ok {high : ℕ} :
    parseLowSurrogate decoded high s = .ok (decoded', s') ↔ ∃ a b c d low,
      s = 0x5c :: 0x75 :: a :: b :: c :: d :: s' ∧ hex4 a b c d = some low ∧ 0xdc00 ≤ low ∧
        low ≤ 0xdfff ∧ decoded' = decoded.appendCodepoint (surrogatePair high low) := by
  unfold parseLowSurrogate
  constructor
  · intro h
    split_ifs at h with hroom
    · cases h
    · obtain ⟨⟨low, s₁⟩, hhex, h⟩ := bind_eq_ok.mp h
      obtain ⟨a, b, c, d, hs, hlow⟩ := parseHex4_eq_ok.mp hhex
      simp only at h
      split_ifs at h with hrange
      · cases h
      · rw [not_or, Nat.not_lt, Nat.not_lt] at hrange
        rw [Except.ok.injEq, Prod.mk.injEq] at h
        obtain ⟨hdecoded, rfl⟩ := h
        match s with
        | [] | [_] => simp at hs
        | x :: y :: s =>
          simp only [getD_cons_zero, getD_cons_succ, not_or, not_not] at hroom
          obtain ⟨-, rfl, rfl⟩ := hroom
          rw [drop_succ_cons, drop_succ_cons, drop_zero] at hs
          exact ⟨a, b, c, d, low, by rw [hs], hlow, hrange.1, hrange.2, hdecoded.symm⟩
  · rintro ⟨a, b, c, d, low, rfl, hlow, hleast, hmost, hdecoded⟩
    have hhex : parseHex4 (a :: b :: c :: d :: s') = .ok (low, s') :=
      parseHex4_eq_ok.mpr ⟨a, b, c, d, rfl, hlow⟩
    refine bind_eq_ok.mpr ⟨(low, s'), hhex, ?_⟩
    simp only
    rw [if_neg (by omega), hdecoded]

theorem parseEscape_sound (h : parseEscape decoded s = .ok (decoded', s')) :
    ∃ u t, 0x5c :: s = u ++ s' ∧ decoded' = decoded.put t ∧ Decoded u t := by
  cases s with
  | nil => cases h
  | cons escaped s =>
    simp only [parseEscape] at h
    split_ifs at h with hu
    · subst hu
      obtain ⟨⟨codepoint, s₁⟩, hhex, hbehind⟩ := bind_eq_ok.mp h
      obtain ⟨a, b, c, d, rfl, hcode⟩ := parseHex4_eq_ok.mp hhex
      split_ifs at hbehind with hhigh hlow
      · obtain ⟨a', b', c', d', low, rfl, hhex', hleast, hmost, hdecoded⟩ :=
          parseLowSurrogate_eq_ok.mp hbehind
        exact ⟨[0x5c, 0x75, a, b, c, d, 0x5c, 0x75, a', b', c', d'], _, rfl,
          hdecoded.trans (decoded.appendCodepoint_eq_put (.surrogatePair hhigh.1 hhigh.2 hleast hmost)),
          fun _ _ hs => .pair hcode hhigh.1 hhigh.2 hhex' hleast hmost hs⟩
      · cases hbehind
      · rw [Except.ok.injEq] at hbehind
        obtain ⟨rfl, rfl⟩ := hbehind
        have hsurrogate : Json.isSurrogate codepoint = false := by
          simp only [Json.isSurrogate, Bool.and_eq_false_iff, decide_eq_false_iff_not]
          omega
        exact ⟨[0x5c, 0x75, a, b, c, d], _, rfl,
          decoded.appendCodepoint_eq_put (.of_not_surrogate hsurrogate (hex4_eq_some hcode).1),
          fun _ _ hs => .unicode hcode hsurrogate hs⟩
    · split at h
      · rename_i c hc
        cases h
        refine ⟨[0x5c, escaped], [c], rfl, ?_, fun _ _ hs => .short hc hs⟩
        exact decoded.append_eq_put (by simpa using jsonShortEscape_ne_zero hc)
      · cases h

theorem parseChar_sound {byte : UInt8} (hquote : byte ≠ 0x22)
    (h : parseChar decoded byte s = .ok (decoded', s')) :
    ∃ u t, byte :: s = u ++ s' ∧ decoded' = decoded.put t ∧ Decoded u t := by
  unfold parseChar at h
  split_ifs at h with hcontrol hback hhigh
  · cases h
  · subst hback
    exact parseEscape_sound h
  · simp only at h
    split_ifs at h with hlength
    · cases h
    · obtain ⟨cp, t, hcp, hleast, hs⟩ := utf8Put_of_rawUtf8Length hhigh hlength
      cases h
      rw [hs, rawUtf8Length_put hcp hleast, take_left, drop_left]
      exact ⟨utf8Put cp, utf8Put cp, rfl,
        decoded.append_eq_put (utf8Put_ne_zero hcp (by omega)),
        fun _ _ hrest => .unescaped hcp (by omega) (by omega) (by omega) hrest⟩
  · cases h
    have hnat : 0x20 ≤ byte.toNat ∧ byte.toNat < 0x80 := by
      simp only [UInt8.lt_iff_toNat_lt, UInt8.le_iff_toNat_le, UInt8.reduceToNat] at hcontrol hhigh
      omega
    have hput : utf8Put byte.toNat = [byte] := by
      rw [utf8Put_ascii (by omega)]
      simp
    refine ⟨[byte], [byte], rfl, decoded.append_eq_put ?_, fun s t hrest => ?_⟩
    · rintro c hc rfl
      rw [mem_singleton] at hc
      rw [← hc] at hnat
      exact absurd hnat.1 (by decide)
    · rw [← hput]
      exact .unescaped (.inl (by omega)) hnat.1 (fun h => hquote (UInt8.toNat_inj.mp h))
        (fun h => hback (UInt8.toNat_inj.mp h)) hrest

variable {fuel : ℕ}

theorem parseStringLoop_sound (h : parseStringLoop fuel decoded s = .ok (decoded', s')) :
    ∃ b t, s = b ++ 0x22 :: s' ∧ Decodes b t ∧ decoded' = decoded.put t := by
  induction fuel generalizing decoded s with
  | zero => cases h
  | succ fuel ih =>
    cases s with
    | nil => cases h
    | cons byte s =>
      simp only [parseStringLoop] at h
      split_ifs at h with hquote
      · cases h
        exact ⟨[], [], by rw [hquote]; rfl, .nil, (DecodedString.put_nil _).symm⟩
      · obtain ⟨⟨decoded₁, s₁⟩, hchar, h⟩ := bind_eq_ok.mp h
        obtain ⟨u, x, hs, rfl, hu⟩ := parseChar_sound hquote hchar
        obtain ⟨b, t, rfl, hb, rfl⟩ := ih h
        exact ⟨u ++ b, x ++ t, by rw [hs, append_assoc], hu b t hb, DecodedString.put_put _ x t⟩

theorem parseChar_short {e c : UInt8} (h : jsonShortEscape e = some c) (decoded : DecodedString)
    (s : Bytes) : parseChar decoded 0x5c (e :: s) = .ok (decoded.put [c], s) := by
  have hu : e ≠ 0x75 := by
    rintro rfl
    cases h
  rw [← decoded.append_eq_put (by simpa using jsonShortEscape_ne_zero h)]
  simp [parseChar, parseEscape, hu, h]

theorem parseChar_unicode {b c d : UInt8} (h : hex4 a b c d = some cp)
    (hs : Json.isSurrogate cp = false) (decoded : DecodedString) (s : Bytes) :
    parseChar decoded 0x5c (0x75 :: a :: b :: c :: d :: s) = .ok (decoded.put (utf8Put cp), s) := by
  have hhex : parseHex4 (a :: b :: c :: d :: s) = .ok (cp, s) :=
    parseHex4_eq_ok.mpr ⟨a, b, c, d, rfl, h⟩
  have hscalar : Scalar cp := .of_not_surrogate hs (hex4_eq_some h).1
  simp only [Json.isSurrogate, Bool.and_eq_false_iff, decide_eq_false_iff_not] at hs
  rw [← decoded.appendCodepoint_eq_put hscalar]
  refine bind_eq_ok.mpr ⟨(cp, s), hhex, ?_⟩
  simp only
  rw [if_neg (by omega), if_neg (by omega)]

theorem parseChar_pair {b c d a' b' c' d' : UInt8} {high low : ℕ} (h : hex4 a b c d = some high)
    (hleast : 0xd800 ≤ high) (hmost : high ≤ 0xdbff) (h' : hex4 a' b' c' d' = some low)
    (hleast' : 0xdc00 ≤ low) (hmost' : low ≤ 0xdfff) (decoded : DecodedString) (s : Bytes) :
    parseChar decoded 0x5c
        (0x75 :: a :: b :: c :: d :: 0x5c :: 0x75 :: a' :: b' :: c' :: d' :: s) =
      .ok (decoded.put (utf8Put (surrogatePair high low)), s) := by
  have hhex : parseHex4 (a :: b :: c :: d :: 0x5c :: 0x75 :: a' :: b' :: c' :: d' :: s) =
      .ok (high, 0x5c :: 0x75 :: a' :: b' :: c' :: d' :: s) :=
    parseHex4_eq_ok.mpr ⟨a, b, c, d, rfl, h⟩
  have hpair := decoded.appendCodepoint_eq_put (.surrogatePair hleast hmost hleast' hmost')
  refine bind_eq_ok.mpr ⟨_, hhex, ?_⟩
  simp only
  rw [if_pos ⟨hleast, hmost⟩]
  exact parseLowSurrogate_eq_ok.mpr ⟨a', b', c', d', low, rfl, h', hleast', hmost', hpair.symm⟩

theorem parseChar_unescaped (h : Scalar cp) (hleast : 0x20 ≤ cp) (hquote : cp ≠ 0x22)
    (hback : cp ≠ 0x5c) (s : Bytes) : ∃ (byte : UInt8) (u : Bytes), utf8Put cp = byte :: u ∧
      byte ≠ 0x22 ∧ ∀ decoded, parseChar decoded byte (u ++ s) = .ok (decoded.put (utf8Put cp), s) := by
  have hzero := utf8Put_ne_zero h (by omega)
  rcases utf8Put_cases h with ⟨hascii, hput⟩ | ⟨hhigh, hne, hbytes⟩
  · have hnat := toNat_of_ascii hascii
    have hne : ∀ c : UInt8, cp ≠ c.toNat → cp.toUInt8 ≠ c := by
      rintro c hc hcp
      exact hc (by rw [← hcp, hnat])
    refine ⟨cp.toUInt8, [], hput, hne 0x22 hquote, fun decoded => ?_⟩
    unfold parseChar
    rw [if_neg, if_neg (hne 0x5c hback), if_neg, ← decoded.append_eq_put hzero, hput]
    · rfl
    · rw [UInt8.le_iff_toNat_le, hnat]
      exact Nat.not_le.mpr (Nat.lt_succ_of_le hascii)
    · rw [UInt8.lt_iff_toNat_lt, hnat]
      exact Nat.not_lt.mpr hleast
  · obtain ⟨byte, u, hput⟩ := exists_cons_of_ne_nil hne
    have hbyte : 0x80 ≤ byte := hbytes byte (by rw [hput]; exact mem_cons_self)
    have hlength := rawUtf8Length_put h (by omega) s
    have hne : ∀ c : UInt8, c < 0x80 → byte ≠ c := by
      rintro c hc rfl
      exact absurd hbyte (UInt8.not_le.mpr hc)
    refine ⟨byte, u, hput, hne 0x22 (by decide), fun decoded => ?_⟩
    rw [hput, cons_append] at hlength
    unfold parseChar
    rw [if_neg, if_neg (hne 0x5c (by decide)), if_pos hbyte]
    · simp only [hlength]
      rw [if_neg (by simp), ← decoded.append_eq_put hzero, hput, ← cons_append,
        take_left, drop_left]
    · exact fun hlow => absurd hbyte (UInt8.not_le.mpr (UInt8.lt_trans hlow (by decide)))

theorem parseStringLoop_turn {decoded : DecodedString} {byte : UInt8} {s' x : Bytes}
    (hquote : byte ≠ 0x22) (h : parseChar decoded byte s = .ok (decoded.put x, s')) :
    parseStringLoop (fuel + 1) decoded (byte :: s) = parseStringLoop fuel (decoded.put x) s' := by
  simp only [parseStringLoop, if_neg hquote, h]
  rfl

theorem parseStringLoop_complete {b t : Bytes} (h : Decodes b t) (decoded : DecodedString)
    (hfuel : b.length < fuel) (rest : Bytes) :
    parseStringLoop fuel decoded (b ++ 0x22 :: rest) = .ok (decoded.put t, rest) := by
  induction h generalizing decoded fuel with
  | nil =>
    obtain ⟨fuel, rfl⟩ : ∃ f, fuel = f + 1 := ⟨fuel - 1, by omega⟩
    simp [parseStringLoop]
  | @unescaped cp s t hcp hleast hquote hback _ ih =>
    obtain ⟨byte, u, hput, hbyte, hturn⟩ :=
      parseChar_unescaped hcp hleast hquote hback (s ++ 0x22 :: rest)
    obtain ⟨fuel, rfl⟩ : ∃ f, fuel = f + 1 := ⟨fuel - 1, by omega⟩
    have hlength := congrArg length hput
    rw [length_append] at hfuel
    rw [length_cons] at hlength
    rw [← DecodedString.put_put, ← ih _ (show s.length < fuel by omega), ← parseStringLoop_turn hbyte
      (hturn decoded), hput]
    simp
  | @short e c s t he _ ih =>
    obtain ⟨fuel, rfl⟩ : ∃ f, fuel = f + 1 := ⟨fuel - 1, by omega⟩
    simp only [length_cons] at hfuel
    rw [← singleton_append (x := c), ← DecodedString.put_put, ← ih _ (show s.length < fuel by omega)]
    exact parseStringLoop_turn (by decide) (parseChar_short he decoded _)
  | @unicode _ _ _ _ _ s t hcp hs _ ih =>
    obtain ⟨fuel, rfl⟩ : ∃ f, fuel = f + 1 := ⟨fuel - 1, by omega⟩
    simp only [length_cons] at hfuel
    rw [← DecodedString.put_put, ← ih _ (show s.length < fuel by omega)]
    exact parseStringLoop_turn (by decide) (parseChar_unicode hcp hs decoded _)
  | @pair _ _ _ _ _ _ _ _ _ _ s t hhigh hleast hmost hlow hleast' hmost' _ ih =>
    obtain ⟨fuel, rfl⟩ : ∃ f, fuel = f + 1 := ⟨fuel - 1, by omega⟩
    simp only [length_cons] at hfuel
    rw [← DecodedString.put_put, ← ih _ (show s.length < fuel by omega)]
    exact parseStringLoop_turn (by decide)
      (parseChar_pair hhigh hleast hmost hlow hleast' hmost' decoded _)

/-- The decoded string for a text. -/
def ofText (text : Bytes) : DecodedString := (⟨[], false⟩ : DecodedString).put text

theorem parseString_sound {decoded : DecodedString} (h : parseString s = .ok (decoded, s')) :
    ∃ b t, s = 0x22 :: (b ++ 0x22 :: s') ∧ Decodes b t ∧ decoded = ofText t := by
  unfold parseString at h
  split at h
  · obtain ⟨b, t, hs, hb, hdecoded⟩ := parseStringLoop_sound h
    exact ⟨b, t, by rw [hs], hb, hdecoded⟩
  · cases h

theorem parseString_complete {b t : Bytes} (h : Decodes b t) (rest : Bytes) :
    parseString (0x22 :: (b ++ 0x22 :: rest)) = .ok (ofText t, rest) :=
  parseStringLoop_complete h _ (by rw [length_append]; omega) rest

theorem ofText_equals (text : Bytes) (literal : String) (h : (0 : UInt8) ∉ str literal) :
    (ofText text).equals literal = true ↔ text = str literal := by
  simp only [DecodedString.equals, ofText, DecodedString.put, nil_append, Bool.false_or,
    Bool.and_eq_true, Bool.not_eq_true', beq_iff_eq, contains_eq_mem, decide_eq_false_iff_not]
  constructor
  · rintro ⟨hzero, hdata⟩
    rwa [filter_eq_self.mpr] at hdata
    intro c hc
    simp only [ne_eq, decide_not, Bool.not_eq_true', decide_eq_false_iff_not]
    rintro rfl
    exact hzero hc
  · rintro rfl
    refine ⟨h, filter_eq_self.mpr ?_⟩
    intro c hc
    simp only [ne_eq, decide_not, Bool.not_eq_true', decide_eq_false_iff_not]
    rintro rfl
    exact h hc

/-! ### Numbers -/

theorem dropWhile_digits {t : Bytes} (h : t.head?.any isDigit = true) :
    ∃ ds, Digits ds ∧ t = ds ++ t.dropWhile isDigit := by
  cases t with
  | nil => cases h
  | cons d t =>
    refine ⟨(d :: t).takeWhile isDigit, ⟨?_, ?_⟩, (takeWhile_append_dropWhile ..).symm⟩
    · simpa using h
    · exact all_eq_true.mpr fun c hc => mem_takeWhile_imp hc

theorem digits_head {ds : Bytes} (h : Digits ds) (r : Bytes) :
    (ds ++ r).head?.any isDigit = true := by
  obtain ⟨hne, hall⟩ := h
  obtain ⟨d, ds, rfl⟩ := exists_cons_of_ne_nil hne
  simpa using all_eq_true.mp hall d mem_cons_self

theorem delimited_head {r : Bytes} (h : Delimited r) :
    ∀ c ∈ r.head?, isDigit c = false ∧ c ≠ 0x2e ∧ c ≠ 0x65 ∧ c ≠ 0x45 := by
  intro c hc
  have hnum := isNumChar_delimiter (h c hc)
  refine ⟨?_, ?_, ?_, ?_⟩
  · cases hdigit : isDigit c with
    | false => rfl
    | true => rw [isNumChar_of_alnum (isAlnum_of_digit hdigit)] at hnum; cases hnum
  all_goals
    rintro rfl
    exact absurd hnum (by decide)

theorem skipOne_split (signs : List UInt8) (s : Bytes) :
    ∃ sign, (sign = [] ∨ ∃ c ∈ signs, sign = [c]) ∧ s = sign ++ skipOne signs s := by
  cases s with
  | nil => exact ⟨[], .inl rfl, rfl⟩
  | cons c t =>
    by_cases hc : c ∈ signs
    · exact ⟨[c], .inr ⟨c, hc, rfl⟩, by simp [skipOne, hc]⟩
    · exact ⟨[], .inl rfl, by simp [skipOne, hc]⟩

theorem skipOne_append {signs : List UInt8} {sign : Bytes}
    (hsign : sign = [] ∨ ∃ c ∈ signs, sign = [c]) (hs : ∀ c ∈ s.head?, c ∉ signs) :
    skipOne signs (sign ++ s) = s := by
  rcases hsign with rfl | ⟨c, hc, rfl⟩
  · cases s with
    | nil => rfl
    | cons c s => simp [skipOne, hs c rfl]
  · simp [skipOne, hc]

theorem digits_not_mem {ds : Bytes} (h : Digits ds) {signs : List UInt8}
    (hsigns : ∀ c ∈ signs, isDigit c = false) (r : Bytes) : ∀ c ∈ (ds ++ r).head?, c ∉ signs := by
  intro c hc hmem
  have hdigit := digits_head h r
  rw [mem_def.mp hc, any_some, hsigns c hmem] at hdigit
  cases hdigit

theorem parseExponent_sound (h : parseExponent s = .ok s') : ∃ exp, Exp exp ∧ s = exp ++ s' := by
  cases s with
  | nil =>
    cases h
    exact ⟨[], .inl rfl, rfl⟩
  | cons e t =>
    by_cases he : e = 0x65 ∨ e = 0x45
    · simp only [parseExponent, if_pos he] at h
      by_cases hdigits : (skipOne [0x2b, 0x2d] t).head?.any isDigit = true
      · obtain ⟨sign, hsign, ht⟩ := skipOne_split [0x2b, 0x2d] t
        obtain ⟨ds, hds, hbehind⟩ := dropWhile_digits hdigits
        rw [if_pos hdigits, Except.ok.injEq] at h
        refine ⟨e :: (sign ++ ds), .inr ⟨e, sign, ds, he, ?_, rfl, hds⟩, ?_⟩
        · simpa using hsign
        · conv_lhs => rw [ht, hbehind, h]
          simp
      · rw [if_neg hdigits] at h
        cases h
    · simp only [parseExponent, if_neg he] at h
      cases h
      exact ⟨[], .inl rfl, rfl⟩

theorem parseExponent_complete {exp r : Bytes} (h : Exp exp) (hr : Delimited r) :
    parseExponent (exp ++ r) = .ok r := by
  have hhead := delimited_head hr
  rcases h with rfl | ⟨e, sign, ds, he, hsign, rfl, hds⟩
  · cases r with
    | nil => rfl
    | cons c r =>
      obtain ⟨-, -, hlow, hup⟩ := hhead c rfl
      simp [parseExponent, hlow, hup]
  · have hdrop := (takeWhile_digits hds.2 fun c hc => (hhead c hc).1).2
    have hskip : skipOne [0x2b, 0x2d] (sign ++ (ds ++ r)) = ds ++ r :=
      skipOne_append (by simpa using hsign) (digits_not_mem hds (forall_of_all (by decide)) r)
    simp only [parseExponent, cons_append, append_assoc, if_pos he, hskip,
      digits_head hds r, if_true, hdrop]

theorem parseFraction_sound (h : parseFraction s = .ok s') :
    ∃ frac exp, Frac frac ∧ Exp exp ∧ s = frac ++ (exp ++ s') := by
  have hnone : ∀ {s}, parseExponent s = .ok s' →
      ∃ frac exp, Frac frac ∧ Exp exp ∧ s = frac ++ (exp ++ s') := by
    intro s h
    obtain ⟨exp, hexp, hs⟩ := parseExponent_sound h
    exact ⟨[], exp, .inl rfl, hexp, hs⟩
  unfold parseFraction at h
  split at h
  · rename_i dot t
    split_ifs at h with hdot hdigits
    · obtain ⟨ds, hds, ht⟩ := dropWhile_digits hdigits
      obtain ⟨exp, hexp, hs⟩ := parseExponent_sound h
      refine ⟨0x2e :: ds, exp, .inr ⟨ds, rfl, hds⟩, hexp, ?_⟩
      rw [hdot, ht, hs]
      rfl
    · cases h
    · exact hnone h
  · exact hnone h

theorem parseFraction_complete {frac exp r : Bytes} (hfrac : Frac frac) (hexp : Exp exp)
    (hr : Delimited r) : parseFraction (frac ++ (exp ++ r)) = .ok r := by
  have hbehind := parseExponent_complete hexp hr
  have hhead : ∀ c ∈ (exp ++ r).head?, isDigit c = false ∧ c ≠ 0x2e := by
    cases exp with
    | nil => exact fun c hc => ⟨(delimited_head hr c hc).1, (delimited_head hr c hc).2.1⟩
    | cons e t => exact hexp.head
  rcases hfrac with rfl | ⟨ds, rfl, hds⟩
  · rw [nil_append]
    cases hs : exp ++ r with
    | nil =>
      rw [hs] at hbehind
      exact hbehind
    | cons dot t =>
      rw [hs] at hbehind hhead
      simp only [parseFraction, if_neg (hhead dot rfl).2, hbehind]
  · have hdrop := (takeWhile_digits hds.2 fun c hc => (hhead c hc).1).2
    simp only [parseFraction, cons_append, if_true, digits_head hds, hdrop, hbehind]

theorem parseNumber_sound (h : parseNumber s = .ok s') : ∃ t, Number t ∧ s = t ++ s' := by
  obtain ⟨minus, hminus, hs⟩ := skipOne_split [0x2d] s
  have hminus : minus = [] ∨ minus = [0x2d] := by simpa using hminus
  unfold parseNumber at h
  cases hs₁ : skipOne [0x2d] s with
  | nil =>
    rw [hs₁] at h
    cases h
  | cons c t =>
    rw [hs₁] at h hs
    simp only at h
    split_ifs at h with hzero hdigit
    · obtain ⟨frac, exp, hfrac, hexp, ht⟩ := parseFraction_sound h
      refine ⟨minus ++ ([0x30] ++ (frac ++ exp)), ⟨minus, [0x30], frac, exp, hminus,
        ⟨⟨by simp, rfl⟩, .inl rfl⟩, hfrac, hexp, rfl⟩, ?_⟩
      rw [hs, hzero, ht]
      simp
    · obtain ⟨frac, exp, hfrac, hexp, ht⟩ := parseFraction_sound h
      have hsplit := takeWhile_append_dropWhile (p := isDigit) (l := t)
      have hc : isDigit c = true := by
        simp only [isDigit, Bool.and_eq_true, decide_eq_true_eq]
        exact ⟨UInt8.le_trans (by decide) hdigit.1, hdigit.2⟩
      refine ⟨minus ++ ((c :: t.takeWhile isDigit) ++ (frac ++ exp)), ⟨minus, _, frac, exp, hminus,
        ⟨⟨by simp, ?_⟩, .inr ?_⟩, hfrac, hexp, rfl⟩, ?_⟩
      · rw [all_cons, hc]
        exact all_eq_true.mpr fun d hd => mem_takeWhile_imp hd
      · simpa using hzero
      · rw [ht] at hsplit
        conv_lhs => rw [hs, ← hsplit]
        simp
    · cases h

theorem parseNumber_complete {t r : Bytes} (h : Number t) (hr : Delimited r) :
    parseNumber (t ++ r) = .ok r := by
  obtain ⟨minus, int, frac, exp, hminus, ⟨hint, hlead⟩, hfrac, hexp, rfl⟩ := h
  have hbehind := parseFraction_complete hfrac hexp hr
  have hhead : ∀ c ∈ (frac ++ (exp ++ r)).head?, isDigit c = false := by
    rcases hfrac with rfl | ⟨ds, rfl, -⟩
    · cases exp with
      | nil => exact fun c hc => (delimited_head hr c hc).1
      | cons e t => exact fun c hc => (hexp.head c hc).1
    · intro c hc
      rw [← some.inj hc]
      rfl
  obtain ⟨d, ds, rfl⟩ := exists_cons_of_ne_nil hint.1
  have hd : isDigit d = true := all_eq_true.mp hint.2 d mem_cons_self
  have hskip : skipOne [0x2d] (minus ++ (d :: (ds ++ (frac ++ (exp ++ r))))) =
      d :: (ds ++ (frac ++ (exp ++ r))) :=
    skipOne_append (by simpa using hminus) (digits_not_mem hint (forall_of_all (by decide)) _)
  simp only [parseNumber, append_assoc, cons_append, hskip]
  split_ifs with hzero hdigit
  · rcases hlead with hone | hhead₀
    · rw [(cons.inj hone).2]
      exact hbehind
    · exact absurd (by rw [hzero]; rfl) hhead₀
  · have hds : ds.all isDigit = true :=
      all_eq_true.mpr fun c hc => all_eq_true.mp hint.2 c (mem_cons_of_mem d hc)
    rw [(takeWhile_digits hds hhead).2]
    exact hbehind
  · refine absurd ?_ hdigit
    simp only [isDigit, Bool.and_eq_true, decide_eq_true_eq, UInt8.le_iff_toNat_le] at hd
    rw [← UInt8.toNat_inj] at hzero
    simp only [UInt8.le_iff_toNat_le, UInt8.reduceToNat] at hd hzero ⊢
    omega

/-! ### Containers -/

theorem ws_skipSpace (s : Bytes) : ∃ ws, Ws ws ∧ s = ws ++ skipSpace s :=
  ⟨s.takeWhile isWs, ws_iff.mpr fun _ hc => mem_takeWhile_imp hc,
    (takeWhile_append_dropWhile ..).symm⟩

theorem skipSpace_append {ws : Bytes} (hws : Ws ws) (hs : ∀ c ∈ s.head?, isWs c = false) :
    skipSpace (ws ++ s) = s := by
  unfold skipSpace
  rw [dropWhile_append_of_pos (ws_iff.mp hws)]
  cases s with
  | nil => rfl
  | cons c s => rw [dropWhile_cons_of_neg (by simp [hs c rfl])]

theorem skipSpace_cons {ws : Bytes} (hws : Ws ws) {c : UInt8} (hc : isWs c = false) (s : Bytes) :
    skipSpace (ws ++ c :: s) = c :: s :=
  skipSpace_append hws (by simpa using hc)

theorem skipSpace_head (s : Bytes) : ∀ c ∈ (skipSpace s).head?, isWs c = false := by
  intro c hc
  have := head?_dropWhile_not isWs s
  unfold skipSpace at hc
  rw [mem_def.mp hc] at this
  simpa using this

theorem delimited_ws {ws r : Bytes} (hws : Ws ws) (hr : Delimited r) : Delimited (ws ++ r) :=
  delimited_spaces hws.spaces hr

/-- The reader takes exactly the texts of the items, and changes the state as they say. -/
structure Reads {σ δ : Type} (inside : δ → Bytes → Prop) (item : Reader σ)
    (effect : σ → δ → Option σ) : Prop where
  head : ∀ {d text}, inside d text → ∃ c t, text = c :: t ∧ Opens c
  sound : ∀ {st s st' s'}, (∀ c ∈ s.head?, isWs c = false) → item st s = .ok (st', s') →
    ∃ d text, inside d text ∧ s = text ++ s' ∧ effect st d = some st'
  complete : ∀ {st d text st' s'}, inside d text → Delimited s' → effect st d = some st' →
    item st (text ++ s') = .ok (st', s')

section Items

variable {σ δ : Type} {inside : δ → Bytes → Prop} {item : Reader σ} {effect : σ → δ → Option σ}

variable {close : UInt8} {ds : List δ}

section

variable (h : Reads inside item effect)

include h

theorem Reads.items_head {t : Bytes} (ht : Items close inside ds t) :
    ∃ c u, t = c :: u ∧ Opens c := by
  cases ht with
  | last hd _ | cons hd _ _ _ =>
    obtain ⟨c, u, rfl, hc⟩ := h.head hd
    exact ⟨c, _, rfl, hc⟩

theorem Reads.parseItems_sound {what : String} {st st' : σ} {s s' : Bytes}
    (hs : ∀ c ∈ s.head?, isWs c = false)
    (hok : parseItems what close item fuel st s = .ok (st', s')) :
    ∃ ds text, Items close inside ds text ∧ s = text ++ s' ∧ ds.foldlM effect st = some st' := by
  induction fuel generalizing st s with
  | zero => cases hok
  | succ fuel ih =>
    obtain ⟨⟨st₁, s₁⟩, hitem, hrest⟩ := bind_eq_ok.mp hok
    obtain ⟨d, text, hd, rfl, heffect⟩ := h.sound hs hitem
    obtain ⟨ws, hws, hs₁⟩ := ws_skipSpace s₁
    simp only at hrest
    split at hrest
    · cases hrest
    · rename_i c s₂ hskip
      rw [hskip] at hs₁
      split_ifs at hrest with hclose hcomma
      · rw [Except.ok.injEq] at hrest
        obtain ⟨rfl, rfl⟩ := hrest
        refine ⟨[d], text ++ (ws ++ [close]), .last hd hws, ?_, ?_⟩
        · simp [hs₁, hclose]
        · simpa using heffect
      · obtain ⟨ws', hws', hs₂⟩ := ws_skipSpace s₂
        obtain ⟨ds, t, hds, ht, hfold⟩ := ih (skipSpace_head s₂) hrest
        refine ⟨d :: ds, _, .cons hd hws hws' hds, ?_, ?_⟩
        · rw [hs₁, hcomma, hs₂, ht]
          simp
        · rw [foldlM_cons, heffect]
          exact hfold
      · cases hrest

theorem Reads.parseItems_complete {what : String} (hclose : close = 0x5d ∨ close = 0x7d)
    {text : Bytes} (hds : Items close inside ds text) (hfuel : text.length ≤ fuel)
    {st st' : σ} (hfold : ds.foldlM effect st = some st') (s' : Bytes) :
    parseItems what close item fuel st (text ++ s') = .ok (st', s') := by
  have hws_close : isWs close = false := by rcases hclose with rfl | rfl <;> rfl
  induction hds generalizing fuel st with
  | @last d s ws hd hws =>
    obtain ⟨fuel, rfl⟩ : ∃ f, fuel = f + 1 := ⟨fuel - 1, by simp at hfuel; omega⟩
    have hdelimited : Delimited (ws ++ close :: s') :=
      delimited_ws hws (delimited_cons (.inr hclose) s')
    have heffect : effect st d = some st' := by simpa using hfold
    refine bind_eq_ok.mpr ⟨(st', ws ++ close :: s'), ?_, ?_⟩
    · rw [append_assoc, append_assoc]
      exact h.complete hd hdelimited heffect
    · simp only
      rw [skipSpace_cons hws hws_close]
      simp
  | @cons d ds s ws ws' t hd hws hws' hds ih =>
    obtain ⟨fuel, rfl⟩ : ∃ f, fuel = f + 1 := ⟨fuel - 1, by simp at hfuel; omega⟩
    have hdelimited : Delimited (ws ++ 0x2c :: (ws' ++ (t ++ s'))) :=
      delimited_ws hws (delimited_cons (.inl rfl) _)
    obtain ⟨st₁, heffect, hfold⟩ := bind_eq_some_iff.mp hfold
    obtain ⟨c, u, hc, hopens⟩ := h.items_head hds
    refine bind_eq_ok.mpr ⟨(st₁, ws ++ 0x2c :: (ws' ++ (t ++ s'))), ?_, ?_⟩
    · have hcomplete := h.complete hd hdelimited heffect
      simpa using hcomplete
    · simp only
      rw [skipSpace_cons hws rfl]
      have hne : (0x2c : UInt8) ≠ close := by rcases hclose with rfl | rfl <;> decide
      simp only [if_neg hne, if_true]
      have hskip : skipSpace (ws' ++ (t ++ s')) = t ++ s' := by
        rw [hc]
        exact skipSpace_cons hws' hopens.1 _
      rw [hskip]
      refine ih ?_ hfold
      simp only [length_append, length_cons] at hfuel
      omega

theorem Reads.parseContainer_sound {what : String} {st st' : σ} {s s' : Bytes}
    (hok : parseContainer what close item st s = .ok (st', s')) :
    ∃ ds text, Enclosed close inside ds text ∧ s = text ++ s' ∧ ds.foldlM effect st = some st' := by
  obtain ⟨ws, hws, hs⟩ := ws_skipSpace s
  unfold parseContainer at hok
  simp only at hok
  split_ifs at hok with hclose
  · rw [Except.ok.injEq] at hok
    obtain ⟨rfl, rfl⟩ := hok
    obtain ⟨t, ht⟩ := head?_eq_some_iff.mp hclose
    refine ⟨[], ws ++ [close], .empty hws, ?_, rfl⟩
    rw [ht] at hs ⊢
    simpa using hs
  · obtain ⟨ds, text, hds, ht, hfold⟩ := h.parseItems_sound (skipSpace_head s) hok
    refine ⟨ds, ws ++ text, .items hws hds, ?_, hfold⟩
    rw [append_assoc, ← ht]
    exact hs

theorem Reads.parseContainer_complete (what : String) (hclose : close = 0x5d ∨ close = 0x7d)
    {text : Bytes} (hds : Enclosed close inside ds text) {st st' : σ}
    (hfold : ds.foldlM effect st = some st') (s' : Bytes) :
    parseContainer what close item st (text ++ s') = .ok (st', s') := by
  have hws_close : isWs close = false := by rcases hclose with rfl | rfl <;> rfl
  unfold parseContainer
  cases hds with
  | @empty ws hws =>
    have hskip : skipSpace (ws ++ [close] ++ s') = close :: s' := by
      rw [append_assoc]
      exact skipSpace_cons hws hws_close s'
    simp only [hskip, head?_cons, if_true, tail_cons]
    rw [← some.inj hfold]
  | @items ds ws t hws hds =>
    obtain ⟨c, u, hc, hopens⟩ := h.items_head hds
    have hskip : skipSpace (ws ++ t ++ s') = t ++ s' := by
      rw [append_assoc, hc]
      exact skipSpace_cons hws hopens.1 _
    have hne : (t ++ s').head? ≠ some close := by
      rw [hc]
      rintro ⟨⟩
      exact hclose.elim hopens.2.1 hopens.2.2
    simp only [hskip, if_neg hne]
    exact h.parseItems_complete hclose hds (by rw [length_append]; omega) hfold s'

end

end Items

/-! ### Members -/

variable {inside : Doc → Bytes → Prop}

theorem reads_parseMember {σ : Type} {value : DecodedString → Reader σ}
    {effect : σ → Bytes × Doc → Option σ}
    (h : ∀ key, Reads inside (value (ofText key)) fun st d => effect st (key, d)) (whose : String) :
    Reads (Member inside) (parseMember whose value) effect where
  head := by
    rintro _ _ ⟨_, _, _, _⟩
    exact ⟨_, _, rfl, rfl, by decide, by decide⟩
  sound := by
    intro st s st' s' _ hok
    obtain ⟨⟨decoded, s₁⟩, hkey, hrest⟩ := bind_eq_ok.mp hok
    obtain ⟨b, key, rfl, hb, rfl⟩ := parseString_sound hkey
    obtain ⟨ws, hws, hs₁⟩ := ws_skipSpace s₁
    simp only at hrest
    split at hrest
    · cases hrest
    · rename_i c s₂ hskip
      split_ifs at hrest with hcolon
      · obtain ⟨ws', hws', hs₂⟩ := ws_skipSpace s₂
        obtain ⟨d, text, hd, htext, heffect⟩ := (h key).sound (skipSpace_head s₂) hrest
        refine ⟨(key, d), _, .mk hb hws hws' hd, ?_, heffect⟩
        rw [hs₁, hskip, hcolon, hs₂, htext]
        simp
      · cases hrest
  complete := by
    rintro st _ _ st' s' ⟨hb, hws, hws', hd⟩ hdelimited heffect
    rename_i key b text ws ws' d
    obtain ⟨c, u, hc, hopens⟩ := (h key).head hd
    have hskip : skipSpace (ws' ++ (text ++ s')) = text ++ s' := by
      rw [hc]
      exact skipSpace_cons hws' hopens.1 _
    refine bind_eq_ok.mpr ⟨(ofText key, ws ++ 0x3a :: (ws' ++ (text ++ s'))), ?_, ?_⟩
    · have hstring := parseString_complete hb (ws ++ 0x3a :: (ws' ++ (text ++ s')))
      simpa using hstring
    · simp only
      rw [skipSpace_cons hws rfl]
      simp only [if_true, hskip]
      exact (h key).complete hd hdelimited heffect

/-! ### Values -/

/-- A value is read exactly, and nothing else happens. -/
structure ReadsOver (inside : Doc → Bytes → Prop) (value : Bytes → Except ParseError Bytes) :
    Prop where
  head : ∀ {d text}, inside d text → ∃ c t, text = c :: t ∧ Head d c
  sound : ∀ {s s'}, (∀ c ∈ s.head?, isWs c = false) → value s = .ok s' →
    ∃ d text, inside d text ∧ s = text ++ s'
  complete : ∀ {d text s'}, inside d text → Delimited s' → value (text ++ s') = .ok s'

theorem map_eq_ok {α β : Type} {x : Except ParseError α} {f : α → β} {b : β} :
    x.map f = .ok b ↔ ∃ a, x = .ok a ∧ f a = b := by
  cases x with
  | error e => exact ⟨fun h => (nomatch h), fun ⟨a, ha, _⟩ => (nomatch ha)⟩
  | ok a => simp [Except.map]

variable {value : Bytes → Except ParseError Bytes}

theorem ReadsOver.reads {σ : Type} (h : ReadsOver inside value) :
    Reads inside (passOver (σ := σ) value) fun st _ => some st where
  head := by
    intro d text hd
    obtain ⟨c, t, htext, hc⟩ := h.head hd
    exact ⟨c, t, htext, hc.opens⟩
  sound := by
    intro st s st' s' hs hok
    obtain ⟨_, hvalue, heq⟩ := map_eq_ok.mp hok
    obtain ⟨rfl, rfl⟩ := Prod.mk.inj heq
    obtain ⟨d, text, hd, htext⟩ := h.sound hs hvalue
    exact ⟨d, text, hd, htext, rfl⟩
  complete := by
    intro st d text st' s' hd hdelimited heffect
    cases heffect
    exact map_eq_ok.mpr ⟨s', h.complete hd hdelimited, rfl⟩

theorem parseLiteral_eq_ok {literal : String} :
    parseLiteral literal s = .ok s' ↔ s = str literal ++ s' := by
  unfold parseLiteral
  constructor
  · intro h
    split_ifs at h with hprefix
    · obtain ⟨t, rfl⟩ := hprefix
      rw [Except.ok.injEq, drop_left] at h
      rw [h]
    · cases h
  · rintro rfl
    rw [if_pos (prefix_append _ _), drop_left]

theorem parseLiteral_append (literal : String) (s' : Bytes) :
    parseLiteral literal (str literal ++ s') = .ok s' :=
  parseLiteral_eq_ok.mpr rfl

theorem foldlM_some {σ δ : Type} (ds : List δ) (st : σ) :
    ds.foldlM (fun st _ => some st) st = some st := by
  induction ds with
  | nil => rfl
  | cons d ds ih => exact ih

theorem parseLeaf_sound {c : UInt8} {t s' : Bytes} (h : parseLeaf c (c :: t) = .ok s') :
    ∃ d text, Leaf d text ∧ c :: t = text ++ s' := by
  have hword : ∀ literal, str literal ∈ words → parseLiteral literal (c :: t) = .ok s' →
      ∃ d text, Leaf d text ∧ c :: t = text ++ s' :=
    fun literal hmem hok => ⟨.atom, str literal, .word hmem, parseLiteral_eq_ok.mp hok⟩
  unfold parseLeaf at h
  split_ifs at h with hstring htrue hfalse hnull hnumber
  · obtain ⟨⟨decoded, rest⟩, hok, rfl⟩ := map_eq_ok.mp h
    obtain ⟨b, text, hs, hb, -⟩ := parseString_sound hok
    exact ⟨.string text, _, .string hb, by rw [hs]; simp⟩
  · exact hword "true" (by decide) h
  · exact hword "false" (by decide) h
  · exact hword "null" (by decide) h
  · obtain ⟨text, htext, hs⟩ := parseNumber_sound h
    exact ⟨.atom, text, .number htext, hs⟩
  · cases h

theorem parseLeaf_complete {d : Doc} {text s' : Bytes} (h : Leaf d text) (hs' : Delimited s') :
    ∃ c t, text = c :: t ∧ c ≠ 0x7b ∧ c ≠ 0x5b ∧ isWs c = false ∧
      parseLeaf c (text ++ s') = .ok s' := by
  cases h with
  | @string b t hb =>
    refine ⟨0x22, _, rfl, by decide, by decide, rfl, ?_⟩
    refine map_eq_ok.mpr ⟨(ofText t, s'), ?_, rfl⟩
    have hstring := parseString_complete hb s'
    simpa using hstring
  | word hw =>
    simp only [words, mem_cons, not_mem_nil, or_false] at hw
    rcases hw with rfl | rfl | rfl
    · exact ⟨0x74, _, rfl, by decide, by decide, rfl, parseLiteral_append "true" s'⟩
    · exact ⟨0x66, _, rfl, by decide, by decide, rfl, parseLiteral_append "false" s'⟩
    · exact ⟨0x6e, _, rfl, by decide, by decide, rfl,
        parseLiteral_append "null" s'⟩
  | number hn =>
    have hok := parseNumber_complete hn hs'
    obtain ⟨-, c, t, rfl, hc⟩ := hn.form
    have hws := (Head.number hc).opens.1
    have hne : ∀ x : UInt8, isDigit x = false → x ≠ 0x2d → c ≠ x := by
      rintro x hx hdash rfl
      rcases hc with hc | hc
      · rw [hx] at hc
        cases hc
      · exact hdash hc
    refine ⟨c, t, rfl, hne _ rfl (by decide), hne _ rfl (by decide), hws, ?_⟩
    unfold parseLeaf
    rw [if_neg (hne _ rfl (by decide)), if_neg (hne _ rfl (by decide)),
      if_neg (hne _ rfl (by decide)), if_neg (hne _ rfl (by decide)), if_pos hc.symm]
    exact hok

theorem ReadsOver.parseArray (h : ReadsOver inside value) :
    (∀ {s s'}, parseArray value s = .ok s' →
      ∃ ds text, Enclosed 0x5d inside ds text ∧ s = text ++ s') ∧
    ∀ {ds text}, Enclosed 0x5d inside ds text → ∀ s', parseArray value (text ++ s') = .ok s' := by
  constructor
  · intro s s' hok
    obtain ⟨⟨_, _⟩, hcontainer, rfl⟩ := map_eq_ok.mp hok
    obtain ⟨ds, text, hds, htext, -⟩ := h.reads.parseContainer_sound hcontainer
    exact ⟨ds, text, hds, htext⟩
  · intro ds text hds s'
    exact map_eq_ok.mpr ⟨((), s'),
      h.reads.parseContainer_complete _ (.inl rfl) hds (foldlM_some ds ()) s', rfl⟩

theorem ReadsOver.parseObject (h : ReadsOver inside value) :
    (∀ {s s'}, parseObject value s = .ok s' →
      ∃ ms text, Enclosed 0x7d (Member inside) ms text ∧ s = text ++ s') ∧
    ∀ {ms text}, Enclosed 0x7d (Member inside) ms text →
      ∀ s', parseObject value (text ++ s') = .ok s' := by
  have hmembers : Reads (Member inside) (parseMember "object" fun _ => passOver (σ := Unit) value)
      fun st _ => some st :=
    reads_parseMember (fun _ => h.reads) "object"
  constructor
  · intro s s' hok
    obtain ⟨⟨_, _⟩, hcontainer, rfl⟩ := map_eq_ok.mp hok
    obtain ⟨ms, text, hms, htext, -⟩ := hmembers.parseContainer_sound hcontainer
    exact ⟨ms, text, hms, htext⟩
  · intro ms text hms s'
    exact map_eq_ok.mpr ⟨((), s'),
      hmembers.parseContainer_complete _ (.inr rfl) hms (foldlM_some ms ()) s', rfl⟩

theorem skipSpace_of_not_ws (h : ∀ c ∈ s.head?, isWs c = false) : skipSpace s = s :=
  skipSpace_append (show Ws [] by simp [Ws]) h

theorem readsOver_parseValue (levels : ℕ) : ReadsOver (Written levels) (parseValue levels) := by
  induction levels with
  | zero =>
    refine ⟨Written.head, ?_, ?_⟩
    · intro s s' hs hok
      simp only [parseValue, parseValueWith, skipSpace_of_not_ws hs] at hok
      cases s with
      | nil => cases hok
      | cons c t =>
        simp only at hok
        split_ifs at hok
        · cases hok
        · cases hok
        · exact parseLeaf_sound hok
    · intro d text s' htext hs'
      obtain ⟨c, t, rfl, hbrace, hbracket, hws, hok⟩ := parseLeaf_complete htext hs'
      simp only [parseValue, parseValueWith, cons_append]
      rw [skipSpace_of_not_ws (by simpa using hws)]
      simp only [if_neg hbrace, if_neg hbracket]
      exact hok
  | succ levels ih =>
    refine ⟨Written.head, ?_, ?_⟩
    · intro s s' hs hok
      simp only [parseValue, parseValueWith, skipSpace_of_not_ws hs] at hok
      cases s with
      | nil => cases hok
      | cons c t =>
        simp only at hok
        split_ifs at hok with hbrace hbracket
        · obtain ⟨ms, text, hms, rfl⟩ := ih.parseObject.1 hok
          exact ⟨.object ms, _, .inr (.object hms), by rw [hbrace]; rfl⟩
        · obtain ⟨ds, text, hds, rfl⟩ := ih.parseArray.1 hok
          exact ⟨.array ds, _, .inr (.array hds), by rw [hbracket]; rfl⟩
        · obtain ⟨d, text, hd, htext⟩ := parseLeaf_sound hok
          exact ⟨d, text, .inl hd, htext⟩
    · rintro d text s' (hleaf | hcontainer) hs'
      · obtain ⟨c, t, rfl, hbrace, hbracket, hws, hok⟩ := parseLeaf_complete hleaf hs'
        simp only [parseValue, parseValueWith, cons_append]
        rw [skipSpace_of_not_ws (by simpa using hws)]
        simp only [if_neg hbrace, if_neg hbracket]
        exact hok
      · simp only [parseValue, parseValueWith]
        cases hcontainer with
        | array hds =>
          exact ih.parseArray.2 hds s'
        | object hms =>
          exact ih.parseObject.2 hms s'

end Ds4Studio.Crawl.Grounding

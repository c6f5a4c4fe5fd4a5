import Ds4Studio.Tokenizer.Bpe
import Mathlib.Data.List.Nodup

/-!
Tokenising a rendered chat. The special tokens are taken out of the text first,
the plain text between them is cut into words by the pre-tokenizer, and each word
is merged on its own. Nothing is lost on the way, and a special token that starts
with an angle bracket splits the text wherever it stands.
-/

namespace Ds4Studio.Tokenizer

open Bytes List Segment

/-! ### The pre-tokenizer -/

def asciiAlpha (c : UInt8) : Bool := isUpper c || isLower c

def asciiNewline (c : UInt8) : Bool := c = 0x0a || c = 0x0d

def joyaiAsciiPunctSymbol (c : UInt8) : Bool :=
  (0x21 ≤ c && c ≤ 0x2f) || (0x3a ≤ c && c ≤ 0x40) || (0x5b ≤ c && c ≤ 0x60) ||
    (0x7b ≤ c && c ≤ 0x7e)

def utf8IsCjkHiraKata (cp : ℕ) : Bool :=
  (0x4e00 ≤ cp && cp ≤ 0x9fa5) || (0x3040 ≤ cp && cp ≤ 0x309f) || (0x30a0 ≤ cp && cp ≤ 0x30ff)

/-- The code point of `utf8_peek_one`; a sequence that is cut off is its first byte. -/
def utf8PeekOne (c : UInt8) (rest : Bytes) : ℕ :=
  match utf8LenFromFirstByte c, rest with
  | 2, c₁ :: _ => (c &&& 0x1f).toNat <<< 6 ||| (c₁ &&& 0x3f).toNat
  | 3, c₁ :: c₂ :: _ =>
      (c &&& 0x0f).toNat <<< 12 ||| (c₁ &&& 0x3f).toNat <<< 6 ||| (c₂ &&& 0x3f).toNat
  | 4, c₁ :: c₂ :: c₃ :: _ =>
      (c &&& 0x07).toNat <<< 18 ||| (c₁ &&& 0x3f).toNat <<< 12 ||| (c₂ &&& 0x3f).toNat <<< 6 |||
        (c₃ &&& 0x3f).toNat
  | _, _ => c.toNat

/-- Bytes from 128 on count as letters. -/
def joyaiLetterLike (c : UInt8) : Bool := if c < 0x80 then asciiAlpha c else true

/-- Whether a text starts with such a byte. -/
def startsWith (p : UInt8 → Bool) (s : Bytes) : Bool := s.head?.any p

def joyaiLetterLikeAt (s : Bytes) : Bool := startsWith joyaiLetterLike s

def joyaiCjkAt : Bytes → Bool
  | [] => false
  | c :: rest => if c < 0x80 then false else utf8IsCjkHiraKata (utf8PeekOne c rest)

/-- Steps over UTF-8 characters while the test holds; the number of bytes. -/
def utf8Run (p : Bytes → Bool) : Bytes → ℕ
  | [] => 0
  | c :: rest =>
      if p (c :: rest) then
        nextUtf8Char (c :: rest) + utf8Run p (rest.drop (nextUtf8Char (c :: rest) - 1))
      else 0
termination_by s => s.length
decreasing_by
  simp only [length_drop, length_cons]
  omega

def joyaiConsumeLetters (s : Bytes) : ℕ := utf8Run joyaiLetterLikeAt s

/-- The number of bytes in front of the first that fails the test. -/
def byteRun (p : UInt8 → Bool) (s : Bytes) : ℕ := (s.takeWhile p).length

/-- Punctuation and the line breaks behind it. -/
def punctRun (s : Bytes) : ℕ :=
  byteRun joyaiAsciiPunctSymbol s + byteRun asciiNewline (s.drop (byteRun joyaiAsciiPunctSymbol s))

/-- The loop over white space: how far it goes and the end of the last line break
in it, zero for none. -/
def spaceLoop : ℕ → ℕ → Bytes → ℕ × ℕ
  | p, lastNewlineEnd, [] => (p, lastNewlineEnd)
  | p, lastNewlineEnd, c :: s =>
      if isSpace c then spaceLoop (p + 1) (if asciiNewline c then p + 1 else lastNewlineEnd) s
      else (p, lastNewlineEnd)

def spaceRun (s : Bytes) : ℕ :=
  let (p, lastNewlineEnd) := spaceLoop 0 0 s
  if lastNewlineEnd ≠ 0 then lastNewlineEnd
  else if p < s.length ∧ p > 1 ∧
      (joyaiLetterLikeAt (s.drop p) ∨ startsWith joyaiAsciiPunctSymbol (s.drop p)) then p - 1
  else p

/-- The branches of `bpe_tokenize_text` in their order: the number of bytes the
next piece takes. -/
def branchLen (c : UInt8) (rest : Bytes) : ℕ :=
  let s := c :: rest
  if isDigit c then byteRun isDigit (s.take 3)
  else if joyaiCjkAt s then
    nextUtf8Char s + utf8Run joyaiCjkAt (s.drop (nextUtf8Char s))
  else if joyaiAsciiPunctSymbol c && startsWith asciiAlpha rest then 1 + byteRun asciiAlpha rest
  else if joyaiLetterLikeAt s then joyaiConsumeLetters s
  else if !asciiNewline c && !joyaiAsciiPunctSymbol c && joyaiLetterLikeAt rest then
    1 + joyaiConsumeLetters rest
  else if c = 0x20 && startsWith joyaiAsciiPunctSymbol rest then 1 + punctRun rest
  else if joyaiAsciiPunctSymbol c then punctRun s
  else if isSpace c then spaceRun s
  else nextUtf8Char s

/-- A piece that would be empty is one character instead. -/
def pieceLen : Bytes → ℕ
  | [] => 0
  | c :: rest => if branchLen c rest = 0 then nextUtf8Char (c :: rest) else branchLen c rest

def bpeTokenizeText (v : Vocab) (text : Bytes) : List ℤ :=
  (pieces pieceLen text).flatMap (bpeEmitPiece v)

/-! ### Special tokens -/

def specials (v : Vocab) : List (Bytes × ℤ) :=
  [(bos, v.bosId), (eos, v.eosId), (user, v.userId), (assistant, v.assistantId),
    (thinkStart, v.thinkStartId), (thinkEnd, v.thinkEndId), (dsml, v.dsmlId)]

/-- `special_token_at`: the token and the length of its spelling. -/
def specialTokenAt (v : Vocab) (p : Bytes) : Option (ℤ × ℕ) :=
  ((specials v).find? fun s => s.1 <+: p).map fun s => (s.2, s.1.length)

def tokenizeSpan (v : Vocab) (span : Bytes) : List ℤ :=
  if span.length = 0 then [] else bpeTokenizeText v span

/-- The loop of `tokenize_rendered_chat_vocab` over the span read since the last
special token and the text from the pointer on. -/
def renderedLoop (v : Vocab) : Bytes → Bytes → List ℤ
  | span, [] => tokenizeSpan v span
  | span, c :: rest =>
      match specialTokenAt v (c :: rest) with
      | some (token, len) => tokenizeSpan v span ++ token :: renderedLoop v [] (rest.drop (len - 1))
      | none => renderedLoop v (span ++ [c]) rest
termination_by _ p => p.length
decreasing_by
  · simp only [length_drop, length_cons]
    omega
  · simp only [length_cons]
    omega

def tokenizeRenderedChat (v : Vocab) (text : Bytes) : List ℤ := renderedLoop v [] text

/-- The tokens of one segment of the text. -/
def segmentTokens (v : Vocab) : Bytes ⊕ (Bytes × ℤ) → List ℤ
  | .inl span => tokenizeSpan v span
  | .inr special => [special.2]

theorem renderedLoop_eq (v : Vocab) (span p : Bytes) :
    renderedLoop v span p = (split (specials v) span p).flatMap (segmentTokens v) := by
  induction span, p using split.induct (specials v) with
  | case1 span => simp [renderedLoop, split_nil, segmentTokens]
  | case2 span c rest m hm ih =>
    have hat : specialTokenAt v (c :: rest) = some (m.2, m.1.length) :=
      congrArg (Option.map fun s : Bytes × ℤ => (s.2, s.1.length)) hm
    rw [renderedLoop, split_marker span hm]
    simp only [hat, ih, flatMap_cons, segmentTokens, singleton_append]
  | case3 span c rest hm ih =>
    have hat : specialTokenAt v (c :: rest) = none :=
      congrArg (Option.map fun s : Bytes × ℤ => (s.2, s.1.length)) hm
    rw [renderedLoop, split_letter span hm]
    simp only [hat, ih]

theorem tokenizeRenderedChat_eq (v : Vocab) (text : Bytes) :
    tokenizeRenderedChat v text = (split (specials v) [] text).flatMap (segmentTokens v) :=
  renderedLoop_eq v [] text

/-! ### Splitting at special tokens -/

def spellings : List Bytes := [bos, eos, user, assistant, thinkStart, thinkEnd, dsml]

variable {m : Bytes × ℤ} {v : Vocab}

theorem spelling_mem (h : m ∈ specials v) : m.1 ∈ spellings := mem_map_of_mem (f := Prod.fst) h

/-- The angle bracket opens six of the special tokens and occurs nowhere else in
the seven, and none of them continues another one. -/
theorem anchored_specials (v : Vocab) : Anchored (specials v) 0x3c where
  not_behind := by
    have hspellings : ∀ s ∈ spellings, (0x3c : UInt8) ∉ s.tail := by decide
    exact fun m hm => hspellings m.1 (spelling_mem hm)
  apart := by
    have hapart : ∀ x ∈ spellings, ∀ y ∈ spellings, x <+: y → x = y := by decide
    have hnodup : ((specials v).map Prod.fst).Nodup := by
      change spellings.Nodup
      decide
    intro m hm n hn hpre
    exact inj_on_of_nodup_map hnodup hm hn (hapart _ (spelling_mem hm) _ (spelling_mem hn) hpre)

theorem solid_specials (v : Vocab) : Solid (specials v) := by
  have hspellings : ∀ s ∈ spellings, s ≠ [] := by decide
  exact fun m hm => hspellings m.1 (spelling_mem hm)

/-- Tokenisation splits at every special token that starts with an angle bracket. -/
theorem tokenizeRenderedChat_append_special (v : Vocab) {s : Bytes} {id : ℤ}
    (hs : (s, id) ∈ specials v) (hbracket : s.head? = some 0x3c) (a b : Bytes) :
    tokenizeRenderedChat v (a ++ s ++ b) =
      tokenizeRenderedChat v a ++ [id] ++ tokenizeRenderedChat v b := by
  obtain ⟨c, pat, rfl⟩ : ∃ c pat, s = c :: pat := by
    cases s with
    | nil => simp at hbracket
    | cons c pat => exact ⟨c, pat, rfl⟩
  obtain rfl : c = 0x3c := by simpa using hbracket
  have hsplit := split_append_marker (anchored_specials v) hs rfl [] a b
  simp only [tokenizeRenderedChat_eq]
  rw [hsplit, flatMap_append, flatMap_cons, segmentTokens]
  simp

/-! ### Round trip -/

theorem tokensText_bpeTokenizeText {tokens merges : List Bytes} (hv : Loaded tokens merges v)
    (hclosed : Closed tokens merges) (text : Bytes) :
    tokensText v (bpeTokenizeText v text) = text := by
  have hpieces : ∀ ps : List Bytes,
      tokensText v (ps.flatMap (bpeEmitPiece v)) = ps.flatten := by
    intro ps
    induction ps with
    | nil => rfl
    | cons piece ps ih =>
      rw [flatMap_cons, tokensText_append, tokensText_bpeEmitPiece hv hclosed, ih, flatten_cons]
  rw [bpeTokenizeText, hpieces, pieces_flatten]

/-- The thinking tags are spelled in printable ASCII, which encodes as itself; the
other special tokens hold the vertical bar and are spelled out as they are. -/
theorem tokenText_special {tokens merges : List Bytes} (hv : Loaded tokens merges v)
    (hm : m ∈ specials v) : tokenText v m.2 = m.1 := by
  simp only [specials, mem_cons, not_mem_nil, or_false] at hm
  rcases hm with rfl | rfl | rfl | rfl | rfl | rfl | rfl
  · exact hv.tokenText_literal (s := bos) hv.bosId (by decide)
  · exact hv.tokenText_literal (s := eos) hv.eosId (by decide)
  · exact hv.tokenText_literal (s := user) hv.userId (by decide)
  · exact hv.tokenText_literal (s := assistant) hv.assistantId (by decide)
  · apply hv.tokenText_byteEncode
    exact hv.thinkStartId
  · apply hv.tokenText_byteEncode
    exact hv.thinkEndId
  · exact hv.tokenText_literal (s := dsml) hv.dsmlId (by decide)

theorem segment_mem {span p : Bytes} (h : .inr m ∈ split (specials v) span p) : m ∈ specials v := by
  induction span, p using split.induct (specials v) with
  | case1 span => simp [split_nil] at h
  | case2 span c rest n hn ih =>
    rw [split_marker span hn] at h
    simp only [mem_cons, reduceCtorEq, Sum.inr.injEq, false_or] at h
    rcases h with rfl | hrest
    · exact (markerAt_head hn).1
    · exact ih hrest
  | case3 span c rest hn ih =>
    rw [split_letter span hn] at h
    exact ih h

theorem tokensText_segment {tokens merges : List Bytes} (hv : Loaded tokens merges v)
    (hclosed : Closed tokens merges) (segment : Bytes ⊕ (Bytes × ℤ))
    (hmem : ∀ m, segment = .inr m → m ∈ specials v) :
    tokensText v (segmentTokens v segment) = Sum.elim id Prod.fst segment := by
  cases segment with
  | inl span =>
    simp only [segmentTokens, tokenizeSpan, Sum.elim_inl, id_eq]
    by_cases hspan : span.length = 0
    · rw [length_eq_zero_iff.mp hspan]
      rfl
    · rw [if_neg hspan]
      exact tokensText_bpeTokenizeText hv hclosed span
  | inr m =>
    have hm := tokenText_special hv (hmem m rfl)
    simp [segmentTokens, tokensText, hm]

/-- Detokenising a tokenised text gives the text. -/
theorem tokensText_tokenizeRenderedChat {tokens merges : List Bytes} {v : Vocab}
    (hload : vocabLoad tokens merges = some v) (hclosed : Closed tokens merges) (text : Bytes) :
    tokensText v (tokenizeRenderedChat v text) = text := by
  have hv := vocabLoad_loaded hload
  have hsegments : ∀ l : List (Bytes ⊕ (Bytes × ℤ)), (∀ m, .inr m ∈ l → m ∈ specials v) →
      tokensText v (l.flatMap (segmentTokens v)) = l.flatMap (Sum.elim id Prod.fst) := by
    intro l hl
    induction l with
    | nil => rfl
    | cons segment l ih =>
      have hone := tokensText_segment hv hclosed segment fun m hm => hl m (by simp [hm])
      have hrest := ih fun m hm => hl m (mem_cons_of_mem segment hm)
      rw [flatMap_cons, tokensText_append, hone, hrest, flatMap_cons]
  rw [tokenizeRenderedChat_eq, hsegments _ fun m hm => segment_mem hm,
    split_flatMap (solid_specials v), nil_append]

/-! #### A small vocabulary -/

/-- The symbol of every byte, the special tokens and one merge result. -/
def sampleTokens : List Bytes :=
  (range 256).map (fun b => byteSymbol (.ofNat b)) ++
    [bos, eos, user, assistant, thinkStart, thinkEnd, dsml, str "ab"]

def sampleMerges : List Bytes := [str "a b"]

theorem closed_sample : Closed sampleTokens sampleMerges where
  byte := by
    intro b
    apply mem_append_left
    rw [mem_map]
    exact ⟨b.toNat, mem_range.mpr b.toNat_lt, by simp⟩
  merge := by
    intro x y hx hy h
    have heq : x ++ 0x20 :: y = [0x61] ++ 0x20 :: [0x62] := mem_singleton.mp h
    rw [append_eq_append_iff] at heq
    rcases heq with ⟨t, hleft, hright⟩ | ⟨t, hleft, hright⟩
    · cases t with
      | nil =>
        obtain rfl : x = [0x61] := by simpa using hleft.symm
        obtain rfl : y = [0x62] := by simpa using hright
        apply mem_append_right
        decide
      | cons d t =>
        obtain rfl : d = 0x20 := by simpa using (cons.inj hright).1.symm
        cases x <;> simp at hleft
    · cases t with
      | nil =>
        obtain rfl : x = [0x61] := by simpa using hleft
        obtain rfl : y = [0x62] := by simpa using hright.symm
        apply mem_append_right
        decide
      | cons d t =>
        obtain rfl : d = 0x20 := by simpa using (cons.inj hright).1.symm
        simp [hleft] at hx

theorem vocabLoad_sample : ∃ v, vocabLoad sampleTokens sampleMerges = some v :=
  Option.isSome_iff_exists.mp (by decide +kernel)

theorem tokensText_tokenizeRenderedChat_sample :
    ∃ v, vocabLoad sampleTokens sampleMerges = some v ∧
      tokensText v (tokenizeRenderedChat v (str "ab<think>\n")) = str "ab<think>\n" := by
  obtain ⟨v, hload⟩ := vocabLoad_sample
  exact ⟨v, hload, tokensText_tokenizeRenderedChat hload closed_sample _⟩

theorem tokenizeRenderedChat_append_thinkStart :
    ∃ v, vocabLoad sampleTokens sampleMerges = some v ∧
      tokenizeRenderedChat v (str "a" ++ thinkStart ++ str "b") =
        tokenizeRenderedChat v (str "a") ++ [v.thinkStartId] ++
          tokenizeRenderedChat v (str "b") := by
  obtain ⟨v, hload⟩ := vocabLoad_sample
  have hmem : (thinkStart, v.thinkStartId) ∈ specials v := by simp [specials]
  exact ⟨v, hload, tokenizeRenderedChat_append_special v hmem (by decide) _ _⟩

end Ds4Studio.Tokenizer

import Ds4Studio.Lib.Bytes

/-!
The byte alphabet of the tokenizer. Every byte is written as one printable code
point, itself where it is printable and one from 256 on where it is not, in
UTF-8. Vocabulary spellings and merges are texts of such symbols. Reading a text
of symbols back gives the bytes it was written from.
-/

namespace Ds4Studio.Tokenizer

open Bytes List

/-- `utf8_put` -/
def utf8Put (cp : ℕ) : Bytes :=
  if cp ≤ 0x7f then [.ofNat cp]
  else if cp ≤ 0x7ff then [.ofNat (0xc0 ||| cp >>> 6), .ofNat (0x80 ||| cp &&& 0x3f)]
  else if cp ≤ 0xffff then
    [.ofNat (0xe0 ||| cp >>> 12), .ofNat (0x80 ||| cp >>> 6 &&& 0x3f),
      .ofNat (0x80 ||| cp &&& 0x3f)]
  else
    [.ofNat (0xf0 ||| cp >>> 18), .ofNat (0x80 ||| cp >>> 12 &&& 0x3f),
      .ofNat (0x80 ||| cp >>> 6 &&& 0x3f), .ofNat (0x80 ||| cp &&& 0x3f)]

/-- The bytes that stand for themselves. -/
def isPrintable (b : ℕ) : Bool :=
  (33 ≤ b && b ≤ 126) || (161 ≤ b && b ≤ 172) || (174 ≤ b && b ≤ 255)

/-- The other bytes in order; the counter `n` of both table loops is the position
in this list. -/
def remapped : List ℕ := (range 256).filter fun b => !isPrintable b

def gpt2ByteToCodepoint (b : UInt8) : ℕ :=
  if isPrintable b.toNat then b.toNat else 256 + remapped.idxOf b.toNat

def gpt2CodepointToByte (cp : ℕ) : Option UInt8 :=
  if isPrintable cp then some (.ofNat cp)
  else if 256 ≤ cp then remapped[cp - 256]?.map .ofNat
  else none

/-- The symbol of one byte. -/
def byteSymbol (b : UInt8) : Bytes := utf8Put (gpt2ByteToCodepoint b)

def byteEncode (s : Bytes) : Bytes := s.flatMap byteSymbol

def utf8LenFromFirstByte (c : UInt8) : ℕ :=
  if c < 0x80 then 1
  else if c &&& 0xe0 = 0xc0 then 2
  else if c &&& 0xf0 = 0xe0 then 3
  else if c &&& 0xf8 = 0xf0 then 4
  else 1

/-- `next_utf8_char` as the number of bytes it advances by. -/
def nextUtf8Char : Bytes → ℕ
  | [] => 0
  | c :: rest => if utf8LenFromFirstByte c > rest.length + 1 then 1 else utf8LenFromFirstByte c

/-- `utf8_decode_one`: the code point and the text behind it. A sequence that is
cut off is read as its first byte. -/
def utf8DecodeOne (c : UInt8) (rest : Bytes) : ℕ × Bytes :=
  if c < 0x80 then (c.toNat, rest)
  else if c &&& 0xe0 = 0xc0 then
    match rest with
    | c₁ :: behind => ((c &&& 0x1f).toNat <<< 6 ||| (c₁ &&& 0x3f).toNat, behind)
    | [] => (c.toNat, rest)
  else if c &&& 0xf0 = 0xe0 then
    match rest with
    | c₁ :: c₂ :: behind =>
        ((c &&& 0x0f).toNat <<< 12 ||| (c₁ &&& 0x3f).toNat <<< 6 ||| (c₂ &&& 0x3f).toNat, behind)
    | _ => (c.toNat, rest)
  else if c &&& 0xf8 = 0xf0 then
    match rest with
    | c₁ :: c₂ :: c₃ :: behind =>
        ((c &&& 0x07).toNat <<< 18 ||| (c₁ &&& 0x3f).toNat <<< 12 ||| (c₂ &&& 0x3f).toNat <<< 6 |||
          (c₃ &&& 0x3f).toNat, behind)
    | _ => (c.toNat, rest)
  else (c.toNat, rest)

theorem utf8DecodeOne_length (c : UInt8) (rest : Bytes) :
    (utf8DecodeOne c rest).2.length ≤ rest.length := by
  unfold utf8DecodeOne
  split
  · exact Nat.le_refl _
  · split
    · split
      · simp
      · exact Nat.le_refl _
    · split
      · split
        · simp only [length_cons]
          omega
        · exact Nat.le_refl _
      · split
        · split
          · simp only [length_cons]
            omega
          · exact Nat.le_refl _
        · exact Nat.le_refl _

/-- The loop of `ds4_token_text`: code points that stand for no byte are dropped. -/
def symbolText : Bytes → Bytes
  | [] => []
  | c :: rest =>
      have := utf8DecodeOne_length c rest
      (gpt2CodepointToByte (utf8DecodeOne c rest).1).toList ++
        symbolText (utf8DecodeOne c rest).2
termination_by s => s.length
decreasing_by
  simp only [length_cons]
  omega

@[simp] theorem symbolText_nil : symbolText [] = [] := by rw [symbolText]

theorem symbolText_cons (c : UInt8) (rest : Bytes) :
    symbolText (c :: rest) = (gpt2CodepointToByte (utf8DecodeOne c rest).1).toList ++
      symbolText (utf8DecodeOne c rest).2 := by
  rw [symbolText]

/-- A symbol of one byte, as a letter that reads as its byte. -/
def Single (b x : UInt8) : Prop :=
  byteSymbol b = [x] ∧ x < 0x80 ∧ gpt2CodepointToByte x.toNat = some b

/-- A symbol of two bytes, a lead and a continuation that read as its byte. -/
def Double (b x y : UInt8) : Prop :=
  byteSymbol b = [x, y] ∧ ¬ x < 0x80 ∧ x &&& 0xe0 = 0xc0 ∧
    gpt2CodepointToByte ((x &&& 0x1f).toNat <<< 6 ||| (y &&& 0x3f).toNat) = some b

instance (b x : UInt8) : Decidable (Single b x) := inferInstanceAs (Decidable (_ ∧ _))

instance (b x y : UInt8) : Decidable (Double b x y) := inferInstanceAs (Decidable (_ ∧ _))

theorem byteSymbol_table : ∀ n < 256, (∃ x ∈ byteSymbol (.ofNat n), Single (.ofNat n) x) ∨
      ∃ x ∈ byteSymbol (.ofNat n), ∃ y ∈ byteSymbol (.ofNat n), Double (.ofNat n) x y := by
  decide +kernel

variable (b : UInt8)

theorem byteSymbol_shape : (∃ x, Single b x) ∨ ∃ x y, Double b x y := by
  have h := byteSymbol_table b.toNat b.toNat_lt
  rw [UInt8.ofNat_toNat] at h
  rcases h with ⟨x, -, hx⟩ | ⟨x, -, y, -, hxy⟩
  · exact Or.inl ⟨x, hx⟩
  · exact Or.inr ⟨x, y, hxy⟩

theorem byteSymbol_ne_nil : byteSymbol b ≠ [] := by
  rcases byteSymbol_shape b with ⟨x, hx, -⟩ | ⟨x, y, hxy, -⟩ <;> simp [*]

/-- Neither the separator of a merge nor the first byte of the vertical bar of
the special tokens occurs in a symbol. -/
theorem byteSymbol_bytes : ∀ c ∈ byteSymbol b, c ≠ 0x20 ∧ c ≠ 0xef := by
  have htable : ∀ n < 256, (byteSymbol (.ofNat n)).all (fun c => c ≠ 0x20 ∧ c ≠ 0xef) = true := by
    decide +kernel
  have hb := htable b.toNat b.toNat_lt
  rw [UInt8.ofNat_toNat, all_eq_true] at hb
  exact fun c hc => of_decide_eq_true (hb c hc)

theorem nextUtf8Char_byteSymbol (rest : Bytes) :
    nextUtf8Char (byteSymbol b ++ rest) = (byteSymbol b).length := by
  rcases byteSymbol_shape b with ⟨x, hx, hlow, -⟩ | ⟨x, y, hxy, hhigh, hlead, -⟩
  · simp [hx, nextUtf8Char, utf8LenFromFirstByte, hlow]
  · simp [hxy, nextUtf8Char, utf8LenFromFirstByte, hhigh, hlead]

theorem symbolText_byteSymbol (rest : Bytes) :
    symbolText (byteSymbol b ++ rest) = b :: symbolText rest := by
  rcases byteSymbol_shape b with ⟨x, hx, hlow, hback⟩ | ⟨x, y, hxy, hhigh, hlead, hback⟩
  · have hone : utf8DecodeOne x rest = (x.toNat, rest) := by simp [utf8DecodeOne, hlow]
    rw [hx, singleton_append, symbolText_cons, hone, hback]
    rfl
  · have hone : utf8DecodeOne x (y :: rest) =
        ((x &&& 0x1f).toNat <<< 6 ||| (y &&& 0x3f).toNat, rest) := by
      simp [utf8DecodeOne, hhigh, hlead]
    rw [hxy, cons_append, singleton_append, symbolText_cons, hone, hback]
    rfl

theorem symbolText_byteEncode (s : Bytes) : symbolText (byteEncode s) = s := by
  induction s with
  | nil => simp [byteEncode]
  | cons b s ih =>
    rw [byteEncode, flatMap_cons, symbolText_byteSymbol]
    exact congrArg (cons b) ih

theorem byteEncode_append (s t : Bytes) : byteEncode (s ++ t) = byteEncode s ++ byteEncode t :=
  flatMap_append

theorem byteEncode_bytes {s : Bytes} : ∀ c ∈ byteEncode s, c ≠ 0x20 ∧ c ≠ 0xef := by
  intro c hc
  obtain ⟨b, -, hb⟩ := mem_flatMap.mp hc
  exact byteSymbol_bytes b c hb

end Ds4Studio.Tokenizer

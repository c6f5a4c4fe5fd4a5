import Ds4Studio.Lib.Bytes
import Ds4Studio.Lib.Chunks
import Ds4Studio.Lib.CodeUnits

/-!
The decoder of UTF-8 that puts U+FFFD in the place of what is no character, one byte after the
other. Every character is kept with the number of bytes that it was read from.
-/

namespace Ds4Studio.Utf8

open Chunks List

/-! ### The decoder -/

/-- A character whose first bytes have been read: its value so far, the number of these bytes, the
number of those that are still wanted, and the range of the next one. -/
structure Pending where
  value : ℕ
  seen : ℕ
  wanted : ℕ
  lower : ℕ
  upper : ℕ

/-- A character and the number of its bytes. -/
abbrev Decoded := Char × ℕ

/-- U+FFFD -/
def replacement : Char := '\ufffd'

/-- A byte between two characters. -/
def start (byte : UInt8) : List Decoded × Option Pending :=
  let b := byte.toNat
  if b < 0x80 then ([(Char.ofNat b, 1)], none)
  else if 0xc2 ≤ b ∧ b ≤ 0xdf then ([], some ⟨b - 0xc0, 1, 1, 0x80, 0xbf⟩)
  else if 0xe0 ≤ b ∧ b ≤ 0xef then
    ([], some ⟨b - 0xe0, 1, 2, if b = 0xe0 then 0xa0 else 0x80, if b = 0xed then 0x9f else 0xbf⟩)
  else if 0xf0 ≤ b ∧ b ≤ 0xf4 then
    ([], some ⟨b - 0xf0, 1, 3, if b = 0xf0 then 0x90 else 0x80, if b = 0xf4 then 0x8f else 0xbf⟩)
  else ([(replacement, 1)], none)

/-- The byte goes on with the character. -/
def Pending.Takes (p : Pending) (byte : UInt8) : Prop := p.lower ≤ byte.toNat ∧ byte.toNat ≤ p.upper

instance (p : Pending) (byte : UInt8) : Decidable (p.Takes byte) :=
  inferInstanceAs (Decidable (_ ∧ _))

def Pending.push (p : Pending) (byte : UInt8) : ℕ := p.value * 64 + (byte.toNat - 0x80)

def step : Option Pending → UInt8 → List Decoded × Option Pending
  | none, byte => start byte
  | some p, byte =>
      if p.Takes byte then
        if p.wanted ≤ 1 then ([(Char.ofNat (p.push byte), p.seen + 1)], none)
        else ([], some ⟨p.push byte, p.seen + 1, p.wanted - 1, 0x80, 0xbf⟩)
      else
        let (out, next) := start byte
        ((replacement, p.seen) :: out, next)

def run : Option Pending → Bytes → List Decoded × Option Pending
  | s, [] => ([], s)
  | s, byte :: rest =>
      let (out, t) := step s byte
      let (more, u) := run t rest
      (out ++ more, u)

/-- The end of the bytes -/
def flush : Option Pending → List Decoded
  | none => []
  | some p => [(replacement, p.seen)]

def decodeFrom (s : Option Pending) (bytes : Bytes) : List Decoded :=
  (run s bytes).1 ++ flush (run s bytes).2

def decode (bytes : Bytes) : List Decoded := decodeFrom none bytes

section

variable (s : Option Pending)

include s

@[simp]
theorem run_nil : run s [] = ([], s) := rfl

theorem run_cons (byte : UInt8) (rest : Bytes) :
    run s (byte :: rest) =
      ((step s byte).1 ++ (run (step s byte).2 rest).1, (run (step s byte).2 rest).2) := rfl

theorem run_append (a b : Bytes) :
    run s (a ++ b) = ((run s a).1 ++ (run (run s a).2 b).1, (run (run s a).2 b).2) := by
  induction a generalizing s with
  | nil => rfl
  | cons byte a ih => simp only [cons_append, run_cons, ih, append_assoc]

@[simp]
theorem decodeFrom_nil : decodeFrom s [] = flush s := rfl

theorem decodeFrom_cons (byte : UInt8) (rest : Bytes) :
    decodeFrom s (byte :: rest) = (step s byte).1 ++ decodeFrom (step s byte).2 rest := by
  simp only [decodeFrom, run_cons, append_assoc]

theorem decodeFrom_append (a b : Bytes) :
    decodeFrom s (a ++ b) = (run s a).1 ++ decodeFrom (run s a).2 b := by
  simp only [decodeFrom, run_append, append_assoc]

end

variable {p : Pending} {byte : UInt8}

theorem step_of_takes (h : p.Takes byte) (hwanted : p.wanted ≤ 1) :
    step (some p) byte = ([(Char.ofNat (p.push byte), p.seen + 1)], none) := by
  simp only [step, if_pos h, if_pos hwanted]

theorem step_of_takes_more (h : p.Takes byte) (hwanted : ¬ p.wanted ≤ 1) :
    step (some p) byte = ([], some ⟨p.push byte, p.seen + 1, p.wanted - 1, 0x80, 0xbf⟩) := by
  simp only [step, if_pos h, if_neg hwanted]

theorem step_of_not_takes (h : ¬ p.Takes byte) :
    step (some p) byte = ((replacement, p.seen) :: (start byte).1, (start byte).2) := by
  simp only [step, if_neg h]

/-! ### What the bytes can be -/

/-- What is known of a character whose bytes have begun: the characters that it can become are
those that its number of bytes is for. -/
def Pending.Ok (p : Pending) : Prop :=
  p.seen ≥ 1 ∧ 0x80 ≤ p.lower ∧ p.upper ≤ 0xbf ∧
    (p.seen = 1 ∧ p.wanted = 1 ∧ 2 ≤ p.value ∧ p.value < 32 ∨
      p.seen = 1 ∧ p.wanted = 2 ∧
        (p.value = 0 ∧ 0xa0 ≤ p.lower ∨ 0 < p.value ∧ p.value < 16 ∧ p.value ≠ 13 ∨
          p.value = 13 ∧ p.upper ≤ 0x9f) ∨
      p.seen = 2 ∧ p.wanted = 1 ∧ 32 ≤ p.value ∧
        (p.value < 864 ∨ 896 ≤ p.value ∧ p.value < 1024) ∨
      p.seen = 1 ∧ p.wanted = 3 ∧
        (p.value = 0 ∧ 0x90 ≤ p.lower ∨ 0 < p.value ∧ p.value < 4 ∨
          p.value = 4 ∧ p.upper ≤ 0x8f) ∨
      p.seen = 2 ∧ p.wanted = 2 ∧ 16 ≤ p.value ∧ p.value < 272 ∨
      p.seen = 3 ∧ p.wanted = 1 ∧ 1024 ≤ p.value ∧ p.value < 17408)

/-- A character of four bytes is one above U+FFFF, and the other way round; one of several bytes is
not an ASCII character. -/
def Sized (d : Decoded) : Prop :=
  1 ≤ d.2 ∧ (d.1.toNat < 0x10000 ∧ d.2 ≤ 3 ∨ 0x10000 ≤ d.1.toNat ∧ d.2 = 4) ∧
    (d.2 = 1 ∨ 0x80 ≤ d.1.toNat)

variable {n : ℕ}

theorem toNat_ofNat (h : n.isValidChar) : (Char.ofNat n).toNat = n := by
  unfold Char.ofNat
  rw [dif_pos h]
  rfl

theorem toNat_ofNat_le (n : ℕ) : (Char.ofNat n).toNat ≤ n := by
  by_cases h : n.isValidChar
  · exact (toNat_ofNat h).le
  · unfold Char.ofNat
    rw [dif_neg h]
    exact Nat.zero_le _

theorem sized_replacement (h : 1 ≤ n) (h' : n ≤ 3) : Sized (replacement, n) :=
  ⟨h, .inl ⟨show replacement.toNat < 0x10000 by decide, h'⟩,
    .inr (show 0x80 ≤ replacement.toNat by decide)⟩

theorem sized_ofNat_one (hn : n < 0x80) : Sized (Char.ofNat n, 1) :=
  ⟨Nat.le_refl 1, .inl ⟨(toNat_ofNat_le n).trans_lt (by omega), show 1 ≤ 3 by decide⟩, .inl rfl⟩

theorem sized_ofNat {seen : ℕ} (h : 1 ≤ seen) (h' : seen ≤ 3) (hlow : 0x80 ≤ n)
    (hn : n < 0xd800 ∨ 0xdfff < n ∧ n < 0x10000) : Sized (Char.ofNat n, seen) := by
  have hval : (Char.ofNat n).toNat = n :=
    toNat_ofNat (hn.imp_right fun hn => ⟨hn.1, hn.2.trans (by decide)⟩)
  refine ⟨h, .inl ⟨?_, h'⟩, .inr ?_⟩
  · rw [hval]
    omega
  · rw [hval]
    exact hlow

theorem sized_ofNat_four (hn : 0x10000 ≤ n) (hn' : n < 0x110000) : Sized (Char.ofNat n, 4) := by
  have hval : (Char.ofNat n).toNat = n := toNat_ofNat (.inr ⟨by omega, hn'⟩)
  refine ⟨(by decide : 1 ≤ 4), .inr ⟨?_, rfl⟩, .inr ?_⟩
  · rw [hval]
    exact hn
  · rw [hval]
    omega

/-- What a step puts out and leaves pending -/
def StepOk (result : List Decoded × Option Pending) : Prop :=
  (∀ d ∈ result.1, Sized d) ∧ ∀ p, result.2 = some p → p.Ok

variable {d : Decoded}

theorem stepOk_out (h : Sized d) : StepOk ([d], none) :=
  ⟨fun _ hd => mem_singleton.mp hd ▸ h, nofun⟩

theorem stepOk_pending (h : p.Ok) : StepOk ([], some p) :=
  ⟨nofun, fun _ hp => Option.some.inj hp ▸ h⟩

variable {b : ℕ}

theorem three_ok (h : 0xe0 ≤ b ∧ b ≤ 0xef) :
    Pending.Ok ⟨b - 0xe0, 1, 2, if b = 0xe0 then 0xa0 else 0x80,
      if b = 0xed then 0x9f else 0xbf⟩ := by
  refine ⟨Nat.le_refl _, ?_, ?_, .inr (.inl ⟨rfl, rfl, ?_⟩)⟩ <;> dsimp only <;> split_ifs <;> omega

theorem four_ok (h : 0xf0 ≤ b ∧ b ≤ 0xf4) :
    Pending.Ok ⟨b - 0xf0, 1, 3, if b = 0xf0 then 0x90 else 0x80,
      if b = 0xf4 then 0x8f else 0xbf⟩ := by
  refine ⟨Nat.le_refl _, ?_, ?_, .inr (.inr (.inr (.inl ⟨rfl, rfl, ?_⟩)))⟩ <;> dsimp only <;>
    split_ifs <;> omega

theorem start_ok (byte : UInt8) : StepOk (start byte) := by
  unfold start
  by_cases hascii : byte.toNat < 0x80
  · rw [if_pos hascii]
    exact stepOk_out (sized_ofNat_one hascii)
  by_cases htwo : 0xc2 ≤ byte.toNat ∧ byte.toNat ≤ 0xdf
  · rw [if_neg hascii, if_pos htwo]
    refine stepOk_pending ⟨Nat.le_refl _, Nat.le_refl _, Nat.le_refl _, .inl ⟨rfl, rfl, ?_⟩⟩
    dsimp only
    omega
  by_cases hthree : 0xe0 ≤ byte.toNat ∧ byte.toNat ≤ 0xef
  · rw [if_neg hascii, if_neg htwo, if_pos hthree]
    exact stepOk_pending (three_ok hthree)
  by_cases hfour : 0xf0 ≤ byte.toNat ∧ byte.toNat ≤ 0xf4
  · rw [if_neg hascii, if_neg htwo, if_neg hthree, if_pos hfour]
    exact stepOk_pending (four_ok hfour)
  · rw [if_neg hascii, if_neg htwo, if_neg hthree, if_neg hfour]
    exact stepOk_out (sized_replacement (Nat.le_refl 1) (by omega))

theorem Pending.Ok.sized_replacement (h : p.Ok) : Sized (replacement, p.seen) := by
  obtain ⟨hseen, -, -, hp⟩ := h
  exact Utf8.sized_replacement hseen (by omega)

theorem Pending.Ok.push_ok (h : p.Ok) (htakes : p.Takes byte) (hwanted : ¬ p.wanted ≤ 1) :
    Pending.Ok ⟨p.push byte, p.seen + 1, p.wanted - 1, 0x80, 0xbf⟩ := by
  obtain ⟨-, hlower, hupper, hp⟩ := h
  obtain ⟨hlow, hup⟩ := htakes
  refine ⟨Nat.succ_pos _, Nat.le_refl _, Nat.le_refl _, ?_⟩
  unfold Pending.push
  dsimp only
  rcases hp with ⟨-, hone, -⟩ | ⟨hseen, htwo, hvalue⟩ | ⟨-, hone, -⟩ | ⟨hseen, hthree, hvalue⟩ |
    ⟨hseen, htwo, hvalue⟩ | ⟨-, hone, -⟩
  · omega
  · exact .inr (.inr (.inl ⟨by omega, by omega, by omega, by omega⟩))
  · omega
  · exact .inr (.inr (.inr (.inr (.inl ⟨by omega, by omega, by omega, by omega⟩))))
  · exact .inr (.inr (.inr (.inr (.inr ⟨by omega, by omega, by omega, by omega⟩))))
  · omega

theorem Pending.Ok.sized (h : p.Ok) (htakes : p.Takes byte) (hwanted : p.wanted ≤ 1) :
    Sized (Char.ofNat (p.push byte), p.seen + 1) := by
  obtain ⟨hseen, hlower, hupper, hp⟩ := h
  obtain ⟨hlow, hup⟩ := htakes
  by_cases hfour : p.seen = 3
  · rw [hfour]
    refine sized_ofNat_four ?_ ?_ <;> unfold Pending.push <;> omega
  · refine sized_ofNat (by omega) (by omega) ?_ ?_ <;> unfold Pending.push <;> omega

variable {s : Option Pending}

theorem step_ok (hs : ∀ p, s = some p → p.Ok) (byte : UInt8) : StepOk (step s byte) := by
  cases s with
  | none => exact start_ok byte
  | some p =>
    have hp := hs p rfl
    by_cases htakes : p.Takes byte
    · by_cases hwanted : p.wanted ≤ 1
      · rw [step_of_takes htakes hwanted]
        exact stepOk_out (hp.sized htakes hwanted)
      · rw [step_of_takes_more htakes hwanted]
        exact stepOk_pending (hp.push_ok htakes hwanted)
    · rw [step_of_not_takes htakes]
      obtain ⟨hout, hnext⟩ := start_ok byte
      refine ⟨fun d hd => ?_, hnext⟩
      rcases mem_cons.mp hd with rfl | hd
      · exact hp.sized_replacement
      · exact hout d hd

theorem decodeFrom_sized (hs : ∀ p, s = some p → p.Ok) (bytes : Bytes) :
    ∀ d ∈ decodeFrom s bytes, Sized d := by
  induction bytes generalizing s with
  | nil =>
    cases s with
    | none => exact nofun
    | some p =>
      intro d hd
      obtain rfl := mem_singleton.mp hd
      exact (hs p rfl).sized_replacement
  | cons byte rest ih =>
    obtain ⟨hout, hnext⟩ := step_ok hs byte
    rw [decodeFrom_cons]
    intro d hd
    rcases mem_append.mp hd with hd | hd
    · exact hout d hd
    · exact ih hnext d hd

theorem decode_sized (bytes : Bytes) : ∀ d ∈ decode bytes, Sized d :=
  decodeFrom_sized (s := none) nofun bytes

/-! ### The bytes of a decoded text -/

def read (s : Option Pending) : ℕ := s.elim 0 Pending.seen

def total (l : List Decoded) : ℕ := (l.map Prod.snd).sum

theorem total_cons (d : Decoded) (l : List Decoded) : total (d :: l) = d.2 + total l := rfl

theorem total_append (l l' : List Decoded) : total (l ++ l') = total l + total l' := by
  unfold total
  rw [map_append, sum_append]

theorem total_start (byte : UInt8) : total (start byte).1 + read (start byte).2 = 1 := by
  unfold start
  dsimp only
  split_ifs <;> rfl

theorem total_step (s : Option Pending) (byte : UInt8) :
    total (step s byte).1 + read (step s byte).2 = read s + 1 := by
  cases s with
  | none => exact (total_start byte).trans (Nat.zero_add 1).symm
  | some p =>
    by_cases htakes : p.Takes byte
    · by_cases hwanted : p.wanted ≤ 1
      · rw [step_of_takes htakes hwanted]
        rfl
      · rw [step_of_takes_more htakes hwanted]
        exact Nat.zero_add _
    · rw [step_of_not_takes htakes]
      have hstart := total_start byte
      rw [total_cons, Nat.add_assoc, hstart]
      rfl

theorem total_decodeFrom (s : Option Pending) (bytes : Bytes) :
    total (decodeFrom s bytes) = read s + bytes.length := by
  induction bytes generalizing s with
  | nil => cases s <;> rfl
  | cons byte rest ih =>
    have hstep := total_step s byte
    rw [decodeFrom_cons, total_append, ih, length_cons]
    omega

theorem total_decode (bytes : Bytes) : total (decode bytes) = bytes.length :=
  (total_decodeFrom none bytes).trans (Nat.zero_add _)

/-! ### Code units -/

/-- The code units of a character, each with its share of the bytes. -/
def units (d : Decoded) : List (UInt16 × ℕ) :=
  if d.1.toNat < 0x10000 then [(d.1.toNat.toUInt16, d.2)]
  else
    [((0xd800 + (d.1.toNat - 0x10000) / 0x400).toUInt16, 2),
      ((0xdc00 + (d.1.toNat - 0x10000) % 0x400).toUInt16, 2)]

def decodeUnits (bytes : Bytes) : List (UInt16 × ℕ) := (decode bytes).flatMap units

/-- `buffer.toString()` -/
def text (bytes : Bytes) : Utf16 := (decodeUnits bytes).map Prod.fst

theorem units_replacement (n : ℕ) : units (replacement, n) = [(0xfffd, n)] := by rfl

theorem units_sum (h : Sized d) : ((units d).map Prod.snd).sum = d.2 := by
  unfold units
  rcases h.2.1 with ⟨hlt, -⟩ | ⟨hle, hfour⟩
  · rw [if_pos hlt]
    rfl
  · rw [if_neg (by omega), hfour]
    rfl

theorem units_pos (h : Sized d) : ∀ u ∈ units d, 1 ≤ u.2 := by
  unfold units
  split
  · simpa using h.1
  · simp

theorem decodeUnits_pos (bytes : Bytes) : ∀ u ∈ decodeUnits bytes, 1 ≤ u.2 := by
  intro u hu
  obtain ⟨d, hd, hmem⟩ := mem_flatMap.mp hu
  exact units_pos (decode_sized bytes d hd) u hmem

/-! ### Bytes that are decoded in two parts -/

/-- The first bytes end inside of a character that the others go on with. -/
def Cuts (a b : Bytes) : Prop := ∃ p ∈ (run none a).2, ∃ byte ∈ b.head?, p.Takes byte

instance (a b : Bytes) : Decidable (Cuts a b) := by
  unfold Cuts
  infer_instance

theorem decodeFrom_flush {b : Bytes} (h : ¬ ∃ p ∈ s, ∃ byte ∈ b.head?, p.Takes byte) :
    decodeFrom s b = flush s ++ decodeFrom none b := by
  cases s with
  | none => rfl
  | some p =>
    cases b with
    | nil => rfl
    | cons byte rest =>
      have htakes : ¬ p.Takes byte := fun htakes => h ⟨p, rfl, byte, rfl, htakes⟩
      rw [decodeFrom_cons, decodeFrom_cons, step_of_not_takes htakes]
      rfl

theorem decode_append {a b : Bytes} (h : ¬ Cuts a b) : decode (a ++ b) = decode a ++ decode b := by
  unfold decode
  rw [decodeFrom_append, decodeFrom_flush h]
  exact (append_assoc _ _ _).symm

theorem decodeUnits_append {a b : Bytes} (h : ¬ Cuts a b) :
    decodeUnits (a ++ b) = decodeUnits a ++ decodeUnits b := by
  unfold decodeUnits
  rw [decode_append h, flatMap_append]

/-- A code unit of the whole, and what stands in its place when the bytes are decoded in parts: the
same one, or U+FFFD for half of a pair. -/
def Garbled (u v : UInt16 × ℕ) : Prop := u = v ∨ 2 ≤ u.2 ∧ u.1 ≠ 0xfffd ∧ v.1 = 0xfffd

theorem Garbled.trans {u v w : UInt16 × ℕ} (h : Garbled u v) (h' : Garbled v w) : Garbled u w := by
  rcases h with rfl | ⟨htwo, hu, hv⟩
  · exact h'
  · rcases h' with rfl | ⟨-, hne, -⟩
    · exact .inr ⟨htwo, hu, hv⟩
    · exact absurd hv hne

theorem Garbled.eq {u v : UInt16 × ℕ} (h : Garbled u v) (h' : u.1 = v.1 ∨ u.2 = 1) : u = v := by
  rcases h with rfl | ⟨htwo, hu, hv⟩
  · rfl
  · rcases h' with h' | h'
    · exact absurd (h'.trans hv) hu
    · omega

instance : IsPartialOrder (UInt16 × ℕ) Garbled where
  refl _ := .inl rfl
  trans _ _ _ := Garbled.trans
  antisymm _ _ h h' := by
    rcases h' with rfl | ⟨-, hne, -⟩
    · rfl
    · rcases h with rfl | ⟨-, -, heq⟩
      · rfl
      · exact absurd heq hne

theorem eq_of_garbled_shown {l l' : List (UInt16 × ℕ)} (h : List.Forall₂ Garbled l l')
    (hshown : l.map Prod.fst = l'.map Prod.fst) : l = l' := by
  induction h with
  | nil => rfl
  | cons hu _ ih =>
    obtain ⟨hfst, hrest⟩ := cons.inj hshown
    rw [hu.eq (.inl hfst), ih hrest]

theorem eq_of_garbled_single {l l' : List (UInt16 × ℕ)} (h : List.Forall₂ Garbled l l')
    (hsingle : ∀ u ∈ l, u.2 = 1) : l = l' := by
  induction h with
  | nil => rfl
  | cons hu _ ih =>
    obtain ⟨hone, hrest⟩ := forall_mem_cons.mp hsingle
    rw [hu.eq (.inr hone), ih hrest]

theorem toNat_valid (c : Char) :
    c.toNat < 0xd800 ∨ 0xdfff < c.toNat ∧ c.toNat < 0x110000 := c.valid

theorem toUInt16_ne (h : n < 0xfffd) : n.toUInt16 ≠ 0xfffd := by
  intro heq
  have hval := congrArg UInt16.toNat heq
  have hsize : n < UInt16.size := h.trans (by decide)
  rw [UInt16.toNat_ofNat_of_lt' hsize] at hval
  exact h.ne hval

/-- A character that is garbled because its last byte stands in the other part. -/
theorem garbled_units (d : Decoded) (seen : ℕ) (l : List (UInt16 × ℕ)) :
    Grows Garbled (units d ++ l) ((0xfffd, seen) :: (0xfffd, 1) :: l) ∧
      units d ++ l ≠ (0xfffd, seen) :: (0xfffd, 1) :: l := by
  have hvalid := toNat_valid d.1
  unfold units
  split
  case isTrue =>
    refine ⟨.inl ?_, fun heq => ?_⟩
    · simp
    · simpa using congrArg length heq
  case isFalse h =>
    have hhigh := toUInt16_ne (n := 0xd800 + (d.1.toNat - 0x10000) / 0x400) (by omega)
    have hlow := toUInt16_ne (n := 0xdc00 + (d.1.toNat - 0x10000) % 0x400) (by omega)
    refine ⟨.inr (.cons ?_ (.cons ?_ (forall₂_refl l))), fun heq => ?_⟩
    · exact .inr ⟨Nat.le_refl _, hhigh, rfl⟩
    · exact .inr ⟨Nat.le_refl _, hlow, rfl⟩
    · exact hhigh (congrArg Prod.fst (cons.inj heq).1)

theorem start_tail (h : 0x80 ≤ byte.toNat) (h' : byte.toNat ≤ 0xbf) :
    start byte = ([(replacement, 1)], none) := by
  unfold start
  rw [if_neg (by omega), if_neg (by omega), if_neg (by omega), if_neg (by omega)]

theorem flatMap_units_tail (hp : p.Ok) (htakes : p.Takes byte) (rest : Bytes) :
    (decodeFrom none (byte :: rest)).flatMap units =
      (0xfffd, 1) :: (decodeFrom none rest).flatMap units := by
  obtain ⟨-, hlower, hupper, -⟩ := hp
  obtain ⟨hlow, hup⟩ := htakes
  rw [decodeFrom_cons]
  change ((start byte).1 ++ decodeFrom (start byte).2 rest).flatMap units = _
  rw [start_tail (by omega) (by omega)]
  rfl

/-- Bytes behind a character that has begun, and the same bytes without its beginning: by
induction on the bytes, where each that the character takes leaves one more U+FFFD. -/
theorem garbled_from (hp : p.Ok) (bytes : Bytes) :
    Grows Garbled ((decodeFrom (some p) bytes).flatMap units)
        ((0xfffd, p.seen) :: (decodeFrom none bytes).flatMap units) ∧
      ∀ byte ∈ bytes.head?, p.Takes byte →
        (decodeFrom (some p) bytes).flatMap units ≠
          (0xfffd, p.seen) :: (decodeFrom none bytes).flatMap units := by
  induction bytes generalizing p with
  | nil =>
    refine ⟨?_, nofun⟩
    exact Grows.refl _
  | cons byte rest ih =>
    by_cases htakes : p.Takes byte
    · rw [flatMap_units_tail hp htakes, decodeFrom_cons]
      by_cases hwanted : p.wanted ≤ 1
      · rw [step_of_takes htakes hwanted, flatMap_append, flatMap_singleton]
        have hgarbled := garbled_units (Char.ofNat (p.push byte), p.seen + 1) p.seen
          ((decodeFrom none rest).flatMap units)
        exact ⟨hgarbled.1, fun _ _ _ => hgarbled.2⟩
      · rw [step_of_takes_more htakes hwanted, nil_append]
        have hle := (ih (hp.push_ok htakes hwanted)).1.length_le
        rw [length_cons] at hle
        refine ⟨.inl ?_, fun _ _ _ heq => ?_⟩
        · simp only [length_cons]
          omega
        · have hlen := congrArg length heq
          simp only [length_cons] at hlen
          omega
    · refine ⟨?_, fun other hother hother' => ?_⟩
      · have hflush : ¬ ∃ q ∈ some p, ∃ other ∈ (byte :: rest).head?, q.Takes other := by
          simpa using htakes
        rw [decodeFrom_flush hflush]
        exact Grows.refl _
      · obtain rfl := Option.some.inj hother
        exact absurd hother' htakes

theorem pending_ok (hs : ∀ p, s = some p → p.Ok) (bytes : Bytes) :
    ∀ p, (run s bytes).2 = some p → p.Ok := by
  induction bytes generalizing s with
  | nil => exact hs
  | cons byte rest ih => exact ih (step_ok hs byte).2

theorem decodeUnits_split (a b : Bytes) :
    decodeUnits (a ++ b) =
      (run none a).1.flatMap units ++ (decodeFrom (run none a).2 b).flatMap units := by
  unfold decodeUnits decode
  rw [decodeFrom_append, flatMap_append]

theorem decodeUnits_parts (a b : Bytes) :
    decodeUnits a ++ decodeUnits b = (run none a).1.flatMap units ++
      ((flush (run none a).2).flatMap units ++ (decodeFrom none b).flatMap units) := by
  unfold decodeUnits decode
  rw [decodeFrom, flatMap_append, append_assoc]

theorem decodeUnits_grows (a b : Bytes) :
    Grows Garbled (decodeUnits (a ++ b)) (decodeUnits a ++ decodeUnits b) := by
  rw [decodeUnits_split, decodeUnits_parts]
  refine Grows.append_left ?_ _
  cases hs : (run none a).2 with
  | none => exact Grows.refl _
  | some p =>
    exact (garbled_from (pending_ok (s := none) nofun a p hs) b).1

theorem decodeUnits_append_iff (a b : Bytes) :
    decodeUnits (a ++ b) = decodeUnits a ++ decodeUnits b ↔ ¬ Cuts a b := by
  refine ⟨fun heq hcuts => ?_, decodeUnits_append⟩
  obtain ⟨p, hp, byte, hbyte, htakes⟩ := hcuts
  have hp' : (run none a).2 = some p := hp
  rw [decodeUnits_split, decodeUnits_parts, hp'] at heq
  have hne := (garbled_from (pending_ok (s := none) nofun a p hp') b).2 byte hbyte htakes
  exact hne (append_cancel_left heq)

theorem units_ge (h : 0x80 ≤ d.1.toNat) : ∀ u ∈ units d, 0x80 ≤ u.1.toNat := by
  have hvalid := toNat_valid d.1
  have hval : ∀ n < 0x10000, n.toUInt16.toNat = n := fun n hn => UInt16.toNat_ofNat_of_lt' hn
  unfold units
  split
  case isTrue hlt =>
    intro u hu
    obtain rfl := mem_singleton.mp hu
    exact h.trans_eq (hval _ hlt).symm
  case isFalse hge =>
    intro u hu
    rcases mem_cons.mp hu with rfl | hu
    · dsimp only
      rw [hval _ (by omega)]
      omega
    · obtain rfl := mem_singleton.mp hu
      rw [hval _ (by omega)]
      omega

/-- What a character that has begun becomes, and what its other bytes become without it: the rest
of the text is the same. -/
theorem decodeFrom_parts (hp : p.Ok) (bytes : Bytes) :
    ∃ own more behind,
      (decodeFrom (some p) bytes).flatMap units = own ++ behind ∧ own ≠ [] ∧
        (∀ u ∈ own, 0x80 ≤ u.1.toNat) ∧
        (decodeFrom none bytes).flatMap units = replicate more (0xfffd, 1) ++ behind ∧
        ((∃ byte ∈ bytes.head?, p.Takes byte) → 0 < more) := by
  have hflush : ∀ n : ℕ, ∀ u ∈ [((0xfffd : UInt16), n)], 0x80 ≤ u.1.toNat := by
    intro n u hu
    obtain rfl := mem_singleton.mp hu
    exact show 0x80 ≤ (0xfffd : UInt16).toNat by decide
  induction bytes generalizing p with
  | nil =>
    refine ⟨[(0xfffd, p.seen)], 0, [], ?_, by simp, hflush _, rfl, by simp⟩
    rfl
  | cons byte rest ih =>
    by_cases htakes : p.Takes byte
    · rw [flatMap_units_tail hp htakes, decodeFrom_cons]
      by_cases hwanted : p.wanted ≤ 1
      · rw [step_of_takes htakes hwanted, flatMap_append, flatMap_singleton]
        have hsized := hp.sized htakes hwanted
        refine ⟨_, 1, _, rfl, ?_, units_ge ?_, rfl, fun _ => Nat.one_pos⟩
        · intro hnil
          have hsum := units_sum hsized
          rw [hnil] at hsum
          exact absurd hsum (Nat.succ_ne_zero _).symm
        · exact hsized.2.2.resolve_left (by have := hp.1; dsimp only; omega)
      · rw [step_of_takes_more htakes hwanted]
        obtain ⟨own, more, behind, hown, hne, hge, hmore, -⟩ := ih (hp.push_ok htakes hwanted)
        refine ⟨own, more + 1, behind, hown, hne, hge, ?_, fun _ => Nat.succ_pos _⟩
        rw [hmore]
        rfl
    · have hnone : ¬ ∃ q ∈ some p, ∃ other ∈ (byte :: rest).head?, q.Takes other := by
        simpa using htakes
      refine ⟨[(0xfffd, p.seen)], 0, (decodeFrom none (byte :: rest)).flatMap units, ?_, by simp,
        hflush _, rfl, by simpa using htakes⟩
      rw [decodeFrom_flush hnone, flush, flatMap_append, flatMap_singleton, units_replacement]

/-- The texts of two parts between which a character is cut, and the text of the whole. -/
theorem text_of_cuts {a b : Bytes} (h : Cuts a b) :
    ∃ front own more behind,
      text (a ++ b) = front ++ own ++ behind ∧ own ≠ [] ∧ (∀ u ∈ own, 0x80 ≤ u.toNat) ∧
        text a = front ++ [0xfffd] ∧ text b = replicate (more + 1) 0xfffd ++ behind := by
  obtain ⟨p, hp, hbyte⟩ := h
  have hp' : (run none a).2 = some p := hp
  obtain ⟨own, more, behind, hown, hne, hge, hmore, hpos⟩ :=
    decodeFrom_parts (pending_ok (s := none) nofun a p hp') b
  obtain ⟨more, rfl⟩ := Nat.exists_eq_add_one.mpr (hpos hbyte)
  refine ⟨((run none a).1.flatMap units).map Prod.fst, own.map Prod.fst, more,
    behind.map Prod.fst, ?_, by simpa using hne, ?_, ?_, ?_⟩
  · rw [text, decodeUnits_split, hp', hown, map_append, map_append, append_assoc]
  · intro u hu
    obtain ⟨w, hw, rfl⟩ := mem_map.mp hu
    exact hge w hw
  · rw [text, decodeUnits, decode, decodeFrom, hp', flatMap_append, map_append]
    rfl
  · rw [text, decodeUnits, decode, hmore, map_append, map_replicate]

theorem reads_decodeUnits : Reads Garbled Cuts decodeUnits :=
  ⟨rfl, decodeUnits_grows, decodeUnits_append_iff⟩

/-! ### Encoding -/

def encode (chars : List Char) : Bytes := chars.flatMap String.utf8EncodeChar

theorem toNat_ofNat_byte (h : b < 256) : (UInt8.ofNat b).toNat = b := UInt8.toNat_ofNat_of_lt' h

theorem start_two (h : 0xc2 ≤ b ∧ b ≤ 0xdf) :
    start (UInt8.ofNat b) = ([], some ⟨b - 0xc0, 1, 1, 0x80, 0xbf⟩) := by
  have hval : (UInt8.ofNat b).toNat = b := toNat_ofNat_byte (by omega)
  unfold start
  rw [hval, if_neg (by omega), if_pos h]

theorem start_three (h : 0xe0 ≤ b ∧ b ≤ 0xef) :
    start (UInt8.ofNat b) =
      ([], some ⟨b - 0xe0, 1, 2, if b = 0xe0 then 0xa0 else 0x80,
        if b = 0xed then 0x9f else 0xbf⟩) := by
  have hval : (UInt8.ofNat b).toNat = b := toNat_ofNat_byte (by omega)
  unfold start
  rw [hval, if_neg (by omega), if_neg (by omega), if_pos h]

theorem start_four (h : 0xf0 ≤ b ∧ b ≤ 0xf4) :
    start (UInt8.ofNat b) =
      ([], some ⟨b - 0xf0, 1, 3, if b = 0xf0 then 0x90 else 0x80,
        if b = 0xf4 then 0x8f else 0xbf⟩) := by
  have hval : (UInt8.ofNat b).toNat = b := toNat_ofNat_byte (by omega)
  unfold start
  rw [hval, if_neg (by omega), if_neg (by omega), if_neg (by omega), if_pos h]

theorem step_last {c : Char} (hwanted : p.wanted = 1) (hb : p.lower ≤ b ∧ b ≤ p.upper)
    (hupper : p.upper ≤ 0xbf) (hc : p.value * 64 + (b - 0x80) = c.toNat) :
    step (some p) (UInt8.ofNat b) = ([(c, p.seen + 1)], none) := by
  have hval : (UInt8.ofNat b).toNat = b :=
    toNat_ofNat_byte ((hb.2.trans hupper).trans_lt (by decide))
  have htakes : p.Takes (UInt8.ofNat b) := by
    unfold Pending.Takes
    rw [hval]
    exact hb
  have hpush : p.push (UInt8.ofNat b) = c.toNat := by
    unfold Pending.push
    rw [hval]
    exact hc
  rw [step_of_takes htakes hwanted.le, hpush, Char.ofNat_toNat]

theorem step_middle {value : ℕ} (hwanted : 1 < p.wanted) (hb : p.lower ≤ b ∧ b ≤ p.upper)
    (hupper : p.upper ≤ 0xbf) (hvalue : p.value * 64 + (b - 0x80) = value) :
    step (some p) (UInt8.ofNat b) =
      ([], some ⟨value, p.seen + 1, p.wanted - 1, 0x80, 0xbf⟩) := by
  have hval : (UInt8.ofNat b).toNat = b :=
    toNat_ofNat_byte ((hb.2.trans hupper).trans_lt (by decide))
  have htakes : p.Takes (UInt8.ofNat b) := by
    unfold Pending.Takes
    rw [hval]
    exact hb
  have hpush : p.push (UInt8.ofNat b) = value := by
    unfold Pending.push
    rw [hval]
    exact hvalue
  rw [step_of_takes_more htakes (Nat.not_le.mpr hwanted), hpush]

theorem run_encodeChar (c : Char) :
    run none (String.utf8EncodeChar c) = ([(c, (String.utf8EncodeChar c).length)], none) := by
  have hvalid : c.val.toNat < 0xd800 ∨ 0xdfff < c.val.toNat ∧ c.val.toNat < 0x110000 := c.valid
  have hc : c.toNat = c.val.toNat := rfl
  unfold String.utf8EncodeChar
  dsimp only
  generalize hv : c.val.toNat = v at hvalid hc
  split_ifs with h1 h2 h3
  · have hval : (UInt8.ofNat v).toNat = v := toNat_ofNat_byte (by omega)
    have hstart : start (UInt8.ofNat v) = ([(c, 1)], none) := by
      unfold start
      rw [hval, if_pos (by omega), ← hc, Char.ofNat_toNat]
    rw [run_cons, step, hstart]
    rfl
  · have hlast : step (some ⟨v / 64 % 32 + 0xc0 - 0xc0, 1, 1, 0x80, 0xbf⟩)
        (UInt8.ofNat (v % 64 + 0x80)) = ([(c, 2)], none) :=
      step_last rfl (by dsimp only; omega) (Nat.le_refl _) (by dsimp only; omega)
    rw [run_cons, step, start_two (by omega)]
    rw [run_cons, hlast]
    rfl
  · have hmiddle : step (some ⟨v / 4096 % 16 + 0xe0 - 0xe0, 1, 2,
        if v / 4096 % 16 + 0xe0 = 0xe0 then 0xa0 else 0x80,
        if v / 4096 % 16 + 0xe0 = 0xed then 0x9f else 0xbf⟩)
        (UInt8.ofNat (v / 64 % 64 + 0x80)) = ([], some ⟨v / 64, 2, 1, 0x80, 0xbf⟩) := by
      refine step_middle (Nat.lt_succ_self 1) ?_ ?_ (by dsimp only; omega) <;> dsimp only <;>
        split_ifs <;> omega
    have hlast : step (some ⟨v / 64, 2, 1, 0x80, 0xbf⟩) (UInt8.ofNat (v % 64 + 0x80)) =
        ([(c, 3)], none) :=
      step_last rfl (by dsimp only; omega) (Nat.le_refl _) (by dsimp only; omega)
    rw [run_cons, step, start_three (by omega)]
    rw [run_cons, hmiddle]
    rw [run_cons, hlast]
    rfl
  · have hsecond : step (some ⟨v / 262144 % 8 + 0xf0 - 0xf0, 1, 3,
        if v / 262144 % 8 + 0xf0 = 0xf0 then 0x90 else 0x80,
        if v / 262144 % 8 + 0xf0 = 0xf4 then 0x8f else 0xbf⟩)
        (UInt8.ofNat (v / 4096 % 64 + 0x80)) = ([], some ⟨v / 4096, 2, 2, 0x80, 0xbf⟩) := by
      refine step_middle (by decide : 1 < 3) ?_ ?_ (by dsimp only; omega) <;> dsimp only <;>
        split_ifs <;> omega
    have hthird : step (some ⟨v / 4096, 2, 2, 0x80, 0xbf⟩) (UInt8.ofNat (v / 64 % 64 + 0x80)) =
        ([], some ⟨v / 64, 3, 1, 0x80, 0xbf⟩) :=
      step_middle (Nat.lt_succ_self 1) (by dsimp only; omega) (Nat.le_refl _)
        (by dsimp only; omega)
    have hlast : step (some ⟨v / 64, 3, 1, 0x80, 0xbf⟩) (UInt8.ofNat (v % 64 + 0x80)) =
        ([(c, 4)], none) :=
      step_last rfl (by dsimp only; omega) (Nat.le_refl _) (by dsimp only; omega)
    rw [run_cons, step, start_four (by omega)]
    rw [run_cons, hsecond]
    rw [run_cons, hthird]
    rw [run_cons, hlast]
    rfl

theorem run_encode (chars : List Char) :
    run none (encode chars) =
      (chars.map fun c => (c, (String.utf8EncodeChar c).length), none) := by
  induction chars with
  | nil => rfl
  | cons c rest ih =>
    unfold encode at ih ⊢
    rw [flatMap_cons, run_append, run_encodeChar, ih]
    rfl

theorem decode_encode (chars : List Char) :
    decode (encode chars) = chars.map fun c => (c, (String.utf8EncodeChar c).length) := by
  rw [decode, decodeFrom, run_encode, flush, append_nil]

theorem flatMap_decode {parts : List Bytes} (h : Apart Cuts parts) :
    parts.flatMap decode = decode parts.flatten := by
  induction parts with
  | nil => rfl
  | cons part rest ih => rw [flatMap_cons, flatten_cons, decode_append h.1, ih h.2]

/-! ### ASCII -/

theorem start_out (hd : d ∈ (start byte).1) : 0x80 ≤ d.1.toNat ∨ d.1.toNat = byte.toNat := by
  unfold start at hd
  dsimp only at hd
  split_ifs at hd with hascii
  · obtain rfl := mem_singleton.mp hd
    exact .inr (toNat_ofNat (.inl (by omega)))
  all_goals first
    | exact absurd hd not_mem_nil
    | obtain rfl := mem_singleton.mp hd
      exact .inl (show 0x80 ≤ replacement.toNat by decide)

theorem step_out (hs : ∀ p, s = some p → p.Ok) (hd : d ∈ (step s byte).1) :
    0x80 ≤ d.1.toNat ∨ d.1.toNat = byte.toNat := by
  rcases ((step_ok hs byte).1 d hd).2.2 with hone | hhigh
  · cases s with
    | none => exact start_out hd
    | some p =>
      have hseen := (hs p rfl).1
      by_cases htakes : p.Takes byte
      · by_cases hwanted : p.wanted ≤ 1
        · rw [step_of_takes htakes hwanted] at hd
          obtain rfl := mem_singleton.mp hd
          omega
        · rw [step_of_takes_more htakes hwanted] at hd
          exact absurd hd not_mem_nil
      · rw [step_of_not_takes htakes] at hd
        rcases mem_cons.mp hd with rfl | hd
        · exact .inl (show 0x80 ≤ replacement.toNat by decide)
        · exact start_out hd
  · exact .inl hhigh

theorem decodeFrom_out (hs : ∀ p, s = some p → p.Ok) {bytes : Bytes} (hd : d ∈ decodeFrom s bytes) :
    0x80 ≤ d.1.toNat ∨ ∃ byte ∈ bytes, d.1.toNat = byte.toNat := by
  induction bytes generalizing s with
  | nil =>
    cases s with
    | none => exact absurd hd not_mem_nil
    | some p =>
      obtain rfl := mem_singleton.mp hd
      exact .inl (show 0x80 ≤ replacement.toNat by decide)
  | cons byte rest ih =>
    rw [decodeFrom_cons] at hd
    rcases mem_append.mp hd with hd | hd
    · exact (step_out hs hd).imp_right fun h => ⟨byte, mem_cons_self, h⟩
    · refine (ih (step_ok hs byte).2 hd).imp_right ?_
      rintro ⟨other, hother, h⟩
      exact ⟨other, mem_cons_of_mem _ hother, h⟩

theorem exists_byte {bytes : Bytes} {u : UInt16} (hu : u ∈ text bytes) (hascii : u.toNat < 0x80) :
    ∃ byte ∈ bytes, u.toNat = byte.toNat := by
  obtain ⟨v, hv, rfl⟩ := mem_map.mp hu
  obtain ⟨d, hd, hv⟩ := mem_flatMap.mp hv
  rcases decodeFrom_out (s := none) nofun hd with hhigh | ⟨byte, hbyte, heq⟩
  · have hge := units_ge hhigh v hv
    omega
  · refine ⟨byte, hbyte, ?_⟩
    have hlt : d.1.toNat < 0x10000 := by
      have := byte.toNat_lt
      omega
    rw [units, if_pos hlt] at hv
    obtain rfl := mem_singleton.mp hv
    exact (UInt16.toNat_ofNat_of_lt' hlt).trans heq

theorem units_ascii {seen : ℕ} (h : n < 0x80) :
    units (Char.ofNat n, seen) = [(n.toUInt16, seen)] := by
  have hval : (Char.ofNat n).toNat = n := toNat_ofNat (.inl (by omega))
  unfold units
  rw [hval, if_pos (by omega)]

theorem text_cons_ascii (h : byte.toNat < 0x80) (rest : Bytes) :
    text (byte :: rest) = byte.toNat.toUInt16 :: text rest := by
  have hstep : step none byte = ([(Char.ofNat byte.toNat, 1)], none) := if_pos h
  rw [text, decodeUnits, decode, decodeFrom_cons, hstep, singleton_append,
    flatMap_cons, units_ascii h]
  rfl

theorem text_concat_ascii (h : byte.toNat < 0x80) (front : Bytes) :
    ∃ more, text (front ++ [byte]) = more ++ [byte.toNat.toUInt16] := by
  have hpending := pending_ok (s := none) nofun front
  have hend : ∃ out : List Decoded,
      decodeFrom (run none front).2 [byte] = out ++ [(Char.ofNat byte.toNat, 1)] := by
    have hstart : start byte = ([(Char.ofNat byte.toNat, 1)], none) := if_pos h
    cases hs : (run none front).2 with
    | none =>
      refine ⟨[], ?_⟩
      rw [decodeFrom_cons, show step none byte = start byte from rfl, hstart]
      rfl
    | some p =>
      have hnot : ¬p.Takes byte := by
        intro htakes
        have hlower := (hpending p hs).2.1
        have := htakes.1
        omega
      refine ⟨[(replacement, p.seen)], ?_⟩
      rw [decodeFrom_cons, step_of_not_takes hnot, hstart]
      rfl
  obtain ⟨out, hout⟩ := hend
  refine ⟨((run none front).1.flatMap units ++ out.flatMap units).map Prod.fst, ?_⟩
  rw [text, decodeUnits_split, hout, flatMap_append, flatMap_singleton, units_ascii h,
    ← append_assoc, map_append]
  rfl

end Ds4Studio.Utf8

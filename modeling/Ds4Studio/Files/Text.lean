import Ds4Studio.Lib.Bytes

/-!
The files of the agent as texts: reading and writing them with everything that may fail on the
way, the lines of a text, and the buffer that tool results are written into.
-/

namespace Ds4Studio.Files

open Bytes List

def agentFileMaxBytes : ℕ := 16 * 1024 * 1024

def pathMax : ℕ := 4096

/-- `snprintf` into a buffer of a size. -/
def snprintf (size : ℕ) (text : Bytes) : Bytes := text.take (size - 1)

/-- `%d` -/
def int (n : ℤ) : Bytes := str (toString n)

theorem str_digits {cs : List Char} (hdigits : ∀ c ∈ cs, c.isDigit = true) :
    str (String.ofList cs) = cs.map fun c => c.toUInt8 := by
  unfold str
  rw [String.toUTF8_eq_toByteArray, String.toByteArray_ofList]
  induction cs with
  | nil => rfl
  | cons c rest ih =>
    obtain ⟨hc, hrest⟩ := forall_mem_cons.mp hdigits
    have hsize : c.utf8Size = 1 := by
      rw [Char.utf8Size_eq_one_iff]
      simp only [Char.isDigit, Bool.and_eq_true, decide_eq_true_eq] at hc
      exact UInt32.le_trans hc.2 (by decide)
    rw [utf8Encode_cons, utf8Encode_singleton, String.utf8EncodeChar_eq_singleton hsize]
    simp [ByteArray.data_append, ih hrest]

theorem int_natCast (n : ℕ) : int n = (Nat.toDigits 10 n).map fun c => c.toUInt8 := by
  rw [← str_digits fun c hc => Nat.isDigit_of_mem_toDigits (by decide) (by decide) hc]
  rfl

theorem int_length_le {n : ℕ} (hn : n < 10 ^ 10) : (int n).length ≤ 10 := by
  rw [int_natCast, length_map]
  exact (Nat.length_toDigits_le_iff (by decide) (by decide)).mpr hn

theorem isDigit_of_mem_int {n : ℕ} {c : UInt8} (h : c ∈ int n) : isDigit c = true := by
  rw [int_natCast] at h
  obtain ⟨d, hd, rfl⟩ := mem_map.mp h
  have hdigit := Nat.isDigit_of_mem_toDigits (by decide) (by decide) hd
  simp only [Char.isDigit, Bool.and_eq_true, decide_eq_true_eq, UInt32.le_iff_toNat_le] at hdigit
  have hvalue : d.toUInt8.toNat = d.val.toNat := by
    have hsmall : d.val.toNat < 2 ^ 8 := by
      have hnine : '9'.val.toNat = 57 := rfl
      omega
    exact Nat.mod_eq_of_lt hsmall
  simp only [isDigit, Bool.and_eq_true, decide_eq_true_eq, UInt8.le_iff_toNat_le, hvalue]
  exact hdigit

theorem int_natCast_injective {m n : ℕ} (h : int m = int n) : m = n := by
  have hrepr : Nat.repr m = Nat.repr n := str_injective h
  rw [Nat.repr_eq_ofList_toDigits, Nat.repr_eq_ofList_toDigits, String.ofList_inj] at hrepr
  have hvalue := congrArg (fun digits => Nat.ofDigitChars 10 digits 0) hrepr
  simpa [Nat.ofDigitChars_toDigits (by decide : 1 < 10) (by decide : 10 ≤ 10)] using hvalue

/-! ### Reading and writing -/

/-- What happens while a file is read: whether it can be opened, whether its size is known, and
the error that a read ends with behind a number of bytes. -/
structure ReadWorld where
  openError : Option Bytes
  statFails : Bool
  readError : Option (ℕ × Bytes)

/-- The files, and what happens when one is read. -/
abbrev Disk := Bytes → Bytes × ReadWorld

def tooLarge (path : Bytes) : Bytes :=
  str "file too large: " ++ path ++ str " exceeds " ++ int agentFileMaxBytes ++ str " bytes"

/-- `agent_read_file_bytes`; the blocks are read until one is short. -/
def readFileBytes (path file : Bytes) (w : ReadWorld) : Except Bytes Bytes :=
  match w.openError with
  | some e => .error (snprintf 256 (str "open " ++ path ++ str ": " ++ e))
  | none =>
      if w.statFails = false ∧ agentFileMaxBytes < file.length then
        .error (snprintf 256 (tooLarge path))
      else
        let got := match w.readError with
          | some (n, _) => file.take n
          | none => file
        if agentFileMaxBytes < got.length then .error (snprintf 256 (tooLarge path))
        else
          match w.readError with
          | some (_, e) => .error (snprintf 256 (str "read " ++ path ++ str ": " ++ e))
          | none => .ok file

/-- What happens while a file is written: how many bytes `fwrite` takes, and how many bytes stand
in the file when it fails. -/
structure WriteWorld where
  openError : Option Bytes
  wrote : ℕ
  writeError : Bytes
  closeError : Option Bytes
  reached : ℕ

/-- `agent_write_file_bytes`: opening the file empties it. -/
def writeFileBytes (path data file : Bytes) (w : WriteWorld) : Bytes × Option Bytes :=
  match w.openError with
  | some e => (file, some (snprintf 256 (str "open " ++ path ++ str ": " ++ e)))
  | none =>
      if w.wrote < data.length then
        (data.take w.reached,
          some (snprintf 256 (str "write " ++ path ++ str ": " ++ w.writeError)))
      else
        match w.closeError with
        | some e =>
            (data.take w.reached, some (snprintf 256 (str "close " ++ path ++ str ": " ++ e)))
        | none => (data, none)

theorem readFileBytes_ok {path file data : Bytes} {w : ReadWorld}
    (h : readFileBytes path file w = .ok data) : data = file ∧ file.length ≤ agentFileMaxBytes := by
  unfold readFileBytes at h
  split at h
  case h_1 => cases h
  case h_2 =>
    split at h
    case isTrue => cases h
    case isFalse =>
      cases hread : w.readError with
      | some e =>
        simp only [hread] at h
        split at h <;> cases h
      | none =>
        simp only [hread] at h
        split at h
        case isTrue => cases h
        case isFalse hsmall =>
          cases h
          exact ⟨rfl, Nat.le_of_not_lt hsmall⟩

theorem readFileBytes_eq {path file data : Bytes} {w : ReadWorld}
    (h : readFileBytes path file w = .ok data) : data = file :=
  (readFileBytes_ok h).1

/-- A write that fails leaves the file as it was, or a front part of what was to be written. -/
theorem writeFileBytes_cases (path data file : Bytes) (w : WriteWorld) :
    (writeFileBytes path data file w = (data, none) ∧ data.length ≤ w.wrote ∧
        w.closeError = none) ∨
      (∃ e, writeFileBytes path data file w = (file, some e) ∧ w.openError.isSome = true) ∨
      (∃ e, writeFileBytes path data file w = (data.take w.reached, some e) ∧
        w.openError = none ∧ (w.wrote < data.length ∨ w.closeError.isSome = true)) := by
  unfold writeFileBytes
  split
  case h_1 e hopen => exact .inr (.inl ⟨_, rfl, by rw [hopen]; rfl⟩)
  case h_2 hopen =>
    split
    case isTrue hshort => exact .inr (.inr ⟨_, rfl, hopen, .inl hshort⟩)
    case isFalse hlong =>
      split
      case h_1 e hclose => exact .inr (.inr ⟨_, rfl, hopen, .inr (by rw [hclose]; rfl)⟩)
      case h_2 hclose => exact .inl ⟨rfl, Nat.le_of_not_lt hlong, hclose⟩

/-! ### The buffer of a result -/

structure Buf where
  text : Bytes
  truncated : Bool

def Buf.empty : Buf := ⟨[], false⟩

def bufMax : ℕ := 128 * 1024

/-- `agent_buf_append` -/
def Buf.append (s : Bytes) (b : Buf) : Buf :=
  if s = [] ∨ b.truncated = true then b
  else if bufMax < b.text.length + s.length then
    ⟨b.text ++ s.take (if b.text.length < bufMax then bufMax - b.text.length else 0), true⟩
  else ⟨b.text ++ s, b.truncated⟩

/-- `agent_buf_take` -/
def Buf.take (b : Buf) : Bytes := b.text

theorem Buf.prefix_append (s : Bytes) (b : Buf) : b.text <+: (b.append s).text := by
  unfold Buf.append
  split
  · exact prefix_refl _
  · split <;> exact List.prefix_append _ _

theorem Buf.append_of_fits {s : Bytes} {b : Buf} (h : b.truncated = false)
    (hfits : b.text.length + s.length ≤ bufMax) : b.append s = ⟨b.text ++ s, false⟩ := by
  unfold Buf.append
  split
  case isTrue hs =>
    rcases hs with rfl | htruncated
    · rw [append_nil, ← h]
    · rw [h] at htruncated
      cases htruncated
  case isFalse =>
    rw [if_neg (Nat.not_lt.mpr hfits), h]

/-! ### Lines -/

structure LineSpan where
  start : ℕ
  contentEnd : ℕ
  stop : ℕ

/-- The lines of what is left of a text, from a position in the line that starts at `start`. -/
def splitLinesFrom (start pos : ℕ) : Bytes → List LineSpan
  | [] => if start < pos then [⟨start, pos, pos⟩] else []
  | 0x0d :: 0x0a :: rest => ⟨start, pos, pos + 2⟩ :: splitLinesFrom (pos + 2) (pos + 2) rest
  | c :: rest =>
      if c = 0x0a ∨ c = 0x0d then ⟨start, pos, pos + 1⟩ :: splitLinesFrom (pos + 1) (pos + 1) rest
      else splitLinesFrom start (pos + 1) rest

/-- `agent_split_lines` -/
def splitLines (data : Bytes) : List LineSpan := splitLinesFrom 0 0 data

/-- The bytes between two positions. -/
def slice (data : Bytes) (start stop : ℕ) : Bytes := (data.drop start).take (stop - start)

end Ds4Studio.Files

import Ds4Studio.Lib.Bytes

/-!
The directory in which the native agent keeps the originals of what it compresses. A text lies in a
file that is named by its digest. A put writes the file in place and takes a file that is there
already for the text, also when the call that wrote it has died over it.
-/

namespace Ds4Studio.Agent.ContextBlob

open Bytes List Option

variable {κ : Type} [DecidableEq κ]

/-- The files by the digests in their names. -/
abbrev Dir (κ : Type) := κ → Option Bytes

/-! ### Putting -/

inductive Ending where
  /-- The call ends in front of `open`, with an error. -/
  | early
  /-- The process dies when so many bytes are in the file. -/
  | crash (written : ℕ)
  /-- `write` or `close` fails behind so many bytes; `unlink` may fail as well. -/
  | failure (written : ℕ) (unlinked : Bool)
  | whole

structure Put where
  text : Bytes
  ending : Ending

/-- What the call leaves in a file that it creates. -/
def Put.written (put : Put) : Option Bytes :=
  match put.ending with
  | .early => none
  | .crash n => some (put.text.take n)
  | .failure n unlinked => if unlinked then none else some (put.text.take n)
  | .whole => some put.text

/-- What the call returns, where it does. -/
def Put.result (put : Put) : Option Bool :=
  match put.ending with
  | .early | .failure _ _ => some false
  | .crash _ => none
  | .whole => some true

/-- The call has come to `open`. -/
def Put.opens (put : Put) : Bool :=
  match put.ending with
  | .early => false
  | _ => true

/-- `ds4_context_blob_put_text`; the digest is any function of the text. -/
def putText (sha256Hex : Bytes → κ) (dir : Dir κ) (put : Put) : Dir κ × Option Bool :=
  let hex := sha256Hex put.text
  if put.opens && (dir hex).isSome then (dir, some true)
  else (fun k => if k = hex then (dir k).or put.written else dir k, put.result)

/-- A sequence of calls, from an empty directory. -/
def puts (sha256Hex : Bytes → κ) (calls : List Put) : Dir κ :=
  calls.foldl (fun dir put => (putText sha256Hex dir put).1) fun _ => none

/-- What `ds4_tool_compress_result_text` does with a candidate for the compressed text, where there
is one: the directory behind it and whether it reports `changed`. `marked` is the candidate with
its header. -/
def compressResultText (sha256Hex : Bytes → κ) (candidate : Bytes → Option Bytes)
    (marked : κ → Bytes → Bytes) (blobBaseDir : Bool) (dir : Dir κ) (put : Put) : Dir κ × Bool :=
  match candidate put.text with
  | none => (dir, false)
  | some text =>
      if put.text.length * 4 ≤ text.length * 5 ∨ !blobBaseDir then (dir, false)
      else
        let stored := putText sha256Hex dir put
        (stored.1, stored.2 = some true &&
          (marked (sha256Hex put.text) text).length * 5 < put.text.length * 4)

/-! ### Reading -/

/-- `ds4_context_blob_read_range`, with what a reader of its result sees. -/
def readRange (dir : Dir κ) (hex : κ) (offset length : ℕ) : Option Bytes :=
  if 2 ^ 64 - 2 < length then none
  else (dir hex).map fun file =>
    if file.length ≤ offset ∨ length = 0 then []
    else cstr ((file.drop offset).take (min length (file.length - offset)))

/-- Consecutive ranges, one behind the other. -/
def readRanges (dir : Dir κ) (hex : κ) (offset : ℕ) : List ℕ → Option Bytes
  | [] => some []
  | length :: rest => do
      let piece ← readRange dir hex offset length
      let behind ← readRanges dir hex (offset + length) rest
      some (piece ++ behind)

variable {dir : Dir κ} {file : Bytes}

omit [DecidableEq κ] in
theorem readRange_eq {hex : κ} (hfile : dir hex = some file) (hfree : (0 : UInt8) ∉ file)
    (offset : ℕ) {length : ℕ} (hlength : length ≤ 2 ^ 64 - 2) :
    readRange dir hex offset length = some ((file.drop offset).take length) := by
  unfold readRange
  rw [if_neg (by omega), hfile, map_some]
  congr 1
  split
  case isTrue h =>
    rcases h with h | rfl
    · rw [drop_eq_nil_of_le h, take_nil]
    · rw [take_zero]
  case isFalse =>
    rw [cstr_eq_self fun hmem => hfree (mem_of_mem_drop (mem_of_mem_take hmem))]
    exact take_eq_take_iff.mpr (by rw [length_drop]; omega)

omit [DecidableEq κ] in
theorem readRanges_eq {hex : κ} (hfile : dir hex = some file) (hfree : (0 : UInt8) ∉ file)
    {offset : ℕ} {lengths : List ℕ} (hlengths : ∀ n ∈ lengths, n ≤ 2 ^ 64 - 2) :
    readRanges dir hex offset lengths = some ((file.drop offset).take lengths.sum) := by
  induction lengths generalizing offset with
  | nil => simp [readRanges]
  | cons length rest ih =>
    rw [forall_mem_cons] at hlengths
    have hpiece := readRange_eq hfile hfree offset hlengths.1
    simp only [readRanges, hpiece, ih hlengths.2, bind_eq_bind, bind_some, sum_cons]
    rw [take_add, drop_drop]

/-! ### What lies in the directory -/

/-- What the first call that leaves a file under the digest has left there. -/
def firstFile (sha256Hex : Bytes → κ) (calls : List Put) (hex : κ) : Option Bytes :=
  calls.findSome? fun put => if sha256Hex put.text = hex then put.written else none

theorem putText_file (sha256Hex : Bytes → κ) (dir : Dir κ) (put : Put) (hex : κ) :
    (putText sha256Hex dir put).1 hex =
      (dir hex).or (if sha256Hex put.text = hex then put.written else none) := by
  simp only [putText]
  by_cases hopens : (put.opens && (dir (sha256Hex put.text)).isSome) = true
  · rw [if_pos hopens]
    by_cases hsame : sha256Hex put.text = hex
    · obtain ⟨file, hfile⟩ := isSome_iff_exists.mp (Bool.and_eq_true_iff.mp hopens).2
      rw [← hsame, hfile]
      exact hfile
    · rw [if_neg hsame, or_none]
  · rw [if_neg hopens]
    by_cases hsame : sha256Hex put.text = hex
    · exact (if_pos hsame.symm).trans (by rw [if_pos hsame])
    · exact (if_neg (Ne.symm hsame)).trans (by rw [if_neg hsame, or_none])

theorem puts_eq (sha256Hex : Bytes → κ) (calls : List Put) (hex : κ) :
    puts sha256Hex calls hex = firstFile sha256Hex calls hex := by
  induction calls using List.reverseRecOn with
  | nil => rfl
  | append_singleton calls put ih =>
    have hlast : puts sha256Hex (calls ++ [put]) =
        (putText sha256Hex (puts sha256Hex calls) put).1 := by
      unfold puts
      rw [foldl_append]
      rfl
    rw [hlast, putText_file, ih]
    unfold firstFile
    simp

variable {sha256Hex : Bytes → κ}

theorem putText_returns {put : Put} (h : (putText sha256Hex dir put).2 = some true) :
    (dir (sha256Hex put.text)).or put.written = (dir (sha256Hex put.text)).or (some put.text) := by
  cases hfile : dir (sha256Hex put.text) with
  | some file => rfl
  | none =>
    cases hending : put.ending <;>
      simp [putText, hfile, Put.opens, Put.result, Put.written, hending] at h ⊢

/-- A call for which the put returns true, or for which the compression reports a change. -/
def Stores (sha256Hex : Bytes → κ) (dir : Dir κ) (put : Put) : Prop :=
  (putText sha256Hex dir put).2 = some true ∨
    ∃ candidate marked blobBaseDir,
      (compressResultText sha256Hex candidate marked blobBaseDir dir put).2 = true

theorem Stores.returns {put : Put} (h : Stores sha256Hex dir put) :
    (putText sha256Hex dir put).2 = some true := by
  rcases h with h | ⟨candidate, marked, blobBaseDir, h⟩
  · exact h
  · unfold compressResultText at h
    split at h
    · cases h
    · split at h
      · cases h
      · simp only [Bool.and_eq_true, decide_eq_true_eq] at h
        exact h.1

theorem firstFile_free {calls : List Put} (hfree : ∀ call ∈ calls, (0 : UInt8) ∉ call.text)
    {hex : κ} (h : firstFile sha256Hex calls hex = some file) : (0 : UInt8) ∉ file := by
  obtain ⟨call, hcall, hwritten⟩ := exists_of_findSome?_eq_some h
  split at hwritten
  case isFalse => cases hwritten
  case isTrue =>
    have hpart : ∀ n, (0 : UInt8) ∉ call.text.take n := fun n hmem =>
      hfree call hcall (mem_of_mem_take hmem)
    unfold Put.written at hwritten
    split at hwritten
    · cases hwritten
    · cases hwritten; exact hpart _
    · split at hwritten <;> cases hwritten
      exact hpart _
    · cases hwritten; exact hfree call hcall

/-- A text that is stored is recovered from then on when the first call that has left a file under
its digest has left just this text, and else it is not. -/
theorem recovers_iff (sha256Hex : Bytes → κ) (before behind : List Put) (put : Put)
    (hfree : ∀ call ∈ before ++ put :: behind, (0 : UInt8) ∉ call.text)
    (hstores : Stores sha256Hex (puts sha256Hex before) put) :
    (∀ lengths : List ℕ, put.text.length ≤ lengths.sum → (∀ n ∈ lengths, n ≤ 2 ^ 64 - 2) →
      readRanges (puts sha256Hex (before ++ put :: behind)) (sha256Hex put.text) 0 lengths =
        some put.text) ↔
      ∀ file, firstFile sha256Hex before (sha256Hex put.text) = some file → file = put.text := by
  have hput := putText_returns hstores.returns
  rw [puts_eq] at hput
  have hdir : puts sha256Hex (before ++ put :: behind) (sha256Hex put.text) =
      (firstFile sha256Hex before (sha256Hex put.text)).or (some put.text) := by
    rw [puts_eq, firstFile, findSome?_append]
    change (firstFile sha256Hex before (sha256Hex put.text)).or _ = _
    cases hcase : firstFile sha256Hex before (sha256Hex put.text) with
    | some file => rfl
    | none =>
      rw [hcase, none_or, none_or] at hput
      rw [findSome?_cons, if_pos rfl, hput]
  constructor
  · intro hall file hfile
    rw [hfile] at hdir
    -- As many ranges of one byte as are enough for both texts.
    have hones : ∀ n ∈ List.replicate (file.length + put.text.length) 1, n ≤ 2 ^ 64 - 2 :=
      fun n hn => by rw [eq_of_mem_replicate hn]; omega
    have hread := hall _ (by simp) hones
    rw [readRanges_eq hdir (firstFile_free (fun call hcall =>
      hfree call (mem_append_left _ hcall)) hfile) hones] at hread
    rw [take_of_length_le (by simp)] at hread
    exact some.inj hread
  · intro hfirst lengths hcover hlengths
    have hfile : puts sha256Hex (before ++ put :: behind) (sha256Hex put.text) = some put.text := by
      rw [hdir]
      cases hcase : firstFile sha256Hex before (sha256Hex put.text) with
      | none => rfl
      | some file => rw [hfirst file hcase, some_or]
    rw [readRanges_eq hfile (hfree put (mem_append_right _ mem_cons_self)) hlengths,
      drop_zero, take_of_length_le hcover]

/-- A first put of a text is recovered. -/
theorem recovers_first :
    readRanges (puts id [⟨str "ab", .whole⟩]) (str "ab") 0 [1, 1] = some (str "ab") :=
  (recovers_iff id [] [] ⟨str "ab", .whole⟩ (by decide) (.inl rfl)).mpr nofun [1, 1] (by decide)
    (by decide)

/-- A crash behind the first byte, and the same text once more: the put returns true, and its text
is cut. -/
theorem cut_by_crash :
    (putText id (puts id [⟨str "ab", .crash 1⟩]) ⟨str "ab", .whole⟩).2 = some true ∧
      readRanges (puts id [⟨str "ab", .crash 1⟩, ⟨str "ab", .whole⟩]) (str "ab") 0 [2] =
        some (str "a") := by
  decide

end Ds4Studio.Agent.ContextBlob

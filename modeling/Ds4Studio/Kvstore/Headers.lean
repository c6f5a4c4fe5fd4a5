import Ds4Studio.Kvstore.Budget

/-!
Editing a checkpoint file in place. Touching it and rewriting its trailer go through
the same header as writing it, so that whatever they do not change is read back.
-/

namespace Ds4Studio.Kvstore

open Bytes List LittleEndian

theorem put_mod (width value : ℕ) : put width (value % 256 ^ width) = put width value := by
  induction width generalizing value with
  | zero => rfl
  | succ width ih =>
    have hlow : UInt8.ofNat (value % 256 ^ (width + 1)) = UInt8.ofNat value := by
      apply UInt8.toNat_inj.mp
      simp [Nat.pow_succ']
    rw [put, put, hlow, Nat.pow_succ', Nat.mod_mul_right_div_self, ih]

theorem put_get (b : Bytes) : put b.length (LittleEndian.get b) = b := by
  induction b with
  | nil => rfl
  | cons c rest ih =>
    have hc := c.toNat_lt
    have hlow : UInt8.ofNat (c.toNat + 256 * LittleEndian.get rest) = c := by simp
    have hhigh : (c.toNat + 256 * LittleEndian.get rest) / 256 = LittleEndian.get rest := by omega
    rw [length_cons, LittleEndian.get, put, hlow, hhigh, ih]

/-- The two numbers an edit sets, as the header keeps them. -/
def Header.edited (h : Header) (hits now : ℕ) : Header :=
  { h with hits := hits % 2 ^ 32, lastUsed := now % 2 ^ 64 }

theorem fillHeader_edited (h : Header) (hits now : ℕ) :
    fillHeader (h.edited hits now) = fillHeader { h with hits := hits, lastUsed := now } := by
  simp only [fillHeader, Header.edited, show 2 ^ 32 = 256 ^ 4 by rfl,
    show 2 ^ 64 = 256 ^ 8 by rfl, put_mod]

variable {name sha file : Bytes} {e : Entry}

theorem readHeader_take {n : ℕ} (hn : fixedHeader + 4 ≤ n) (hlen : fixedHeader + 4 ≤ file.length) :
    readHeader (file.take n) = readHeader file := by
  have hfield : ∀ {offset width : ℕ}, offset + width ≤ n →
      field (file.take n) offset width = field file offset width := by
    intro offset width hle
    rw [field, drop_take, take_take, Nat.min_eq_left (by omega), field]
  have hbyte : ∀ {k : ℕ}, k < n → (file.take n).getD k 0 = file.getD k 0 := by
    intro k hk
    rw [getD_eq_getElem?_getD, getElem?_take_of_lt hk, getD_eq_getElem?_getD]
  have hshort : ¬ min n file.length < fixedHeader + 4 := by omega
  unfold fixedHeader at hn
  unfold readHeader
  rw [take_take, Nat.min_eq_left (by omega), length_take, if_neg hshort, if_neg (not_lt.mpr hlen)]
  simp (disch := omega) only [hfield, hbyte, fixedHeader]

/-- A file whose first bytes are another header and which still holds its text and payload. -/
theorem readEntryFile_reheaded (hread : readEntryFile name sha file = some e) {h : Header}
    (hfits : h.Fits) (hpayload : h.payloadBytes = e.header.payloadBytes) {body : Bytes}
    (hbody : payloadEnd e.textBytes e.header.payloadBytes ≤ fixedHeader + body.length)
    (hsame : body.take 4 = (file.drop fixedHeader).take 4) :
    readEntryFile name sha (fillHeader h ++ body) =
      some { e with header := h, fileSize := fixedHeader + body.length } := by
  obtain ⟨hheader, -, hsize, -, rfl, rfl⟩ := readEntryFile_spec hread
  have htext := (readHeader_fits hheader).2
  have hlen : (body.take 4).length = 4 := by
    rw [length_take]
    unfold payloadEnd at hbody
    omega
  have hput : put 4 e.textBytes = body.take 4 := by
    have hget := put_get (body.take 4)
    rwa [hlen, hsame, ← field, ← htext, ← hsame] at hget
  have hlt : e.textBytes < 2 ^ 32 := by
    rw [htext]
    exact field_lt file fixedHeader 4
  have hnew := readHeader_fillHeader hfits hlt (body.drop 4)
  rw [hput, take_append_drop] at hnew
  unfold readEntryFile
  rw [hnew]
  simp only [length_append, fillHeader_length, hpayload]
  rw [if_neg (by omega)]

theorem Header.Fits.edited {h : Header} (hfits : h.Fits) (hits now : ℕ) :
    (h.edited hits now).Fits :=
  { hfits with
    hits := Nat.mod_lt _ (by decide)
    lastUsed := Nat.mod_lt _ (by decide) }

/-- The header of a file whose trailer was rewritten. -/
def Header.retrailed (h : Header) (extFlag : UInt8) (now : ℕ) (trailer : Bytes) : Header :=
  if trailer = [] then h
  else { h with extFlags := h.extFlags ||| extFlag, lastUsed := now % 2 ^ 64 }

/-- Touching a file sets its hit counter and its last use, and rewriting its trailer
sets the extension flag and the last use unless nothing is written; the text, the
payload and the other fields of the header stay. -/
structure Confined (name sha file : Bytes) (e : Entry) : Prop where
  touched : ∀ now hits : ℕ,
    readEntryFile name sha (touchFile now hits file) =
        some { e with header := e.header.edited hits now } ∧
      (touchFile now hits file).drop fixedHeader = file.drop fixedHeader
  retrailed : ∀ (extFlag : UInt8) (now : ℕ) (trailer : Bytes),
    readEntryFile name sha (retrailFile extFlag now trailer file) =
        some { e with
          header := e.header.retrailed extFlag now trailer
          fileSize := payloadEnd e.textBytes e.header.payloadBytes + trailer.length } ∧
      (retrailFile extFlag now trailer file).drop fixedHeader =
        (file.take (payloadEnd e.textBytes e.header.payloadBytes)).drop fixedHeader ++ trailer

theorem readEntryFile_confined (hread : readEntryFile name sha file = some e) :
    Confined name sha file e where
  touched := by
    intro now hits
    obtain ⟨hheader, hsize, -, hend, -⟩ := readEntryFile_spec hread
    have hlen := readHeader_length hheader
    have hdrop : fixedHeader + (file.drop fixedHeader).length = file.length := by
      rw [length_drop]
      omega
    unfold touchFile
    rw [hheader]
    simp only
    rw [← fillHeader_edited, drop_left' (fillHeader_length _),
      readEntryFile_reheaded hread ((readHeader_fits hheader).1.edited hits now) rfl
        (by rw [hdrop]; exact hend) rfl, hdrop, ← hsize]
    exact ⟨rfl, rfl⟩
  retrailed := by
    intro extFlag now trailer
    obtain ⟨hheader, -, hsize, hend, rfl, rfl⟩ := readEntryFile_spec hread
    have hfits := (readHeader_fits hheader).1
    have hcut : fixedHeader + 4 ≤ payloadEnd e.textBytes e.header.payloadBytes := by
      unfold payloadEnd
      omega
    have hlen : (file.take (payloadEnd e.textBytes e.header.payloadBytes)).length =
        payloadEnd e.textBytes e.header.payloadBytes := by
      rw [length_take, Nat.min_eq_left hend]
    have hdrop : (file.take (payloadEnd e.textBytes e.header.payloadBytes) ++ trailer).drop
        fixedHeader = (file.take (payloadEnd e.textBytes e.header.payloadBytes)).drop
        fixedHeader ++ trailer := by
      rw [drop_append_of_le_length (by omega)]
    unfold retrailFile
    rw [hheader]
    cases trailer with
    | nil =>
      have hkept := readHeader_take hcut (hcut.trans hend)
      simp only [isEmpty_nil, if_true, append_nil, Header.retrailed]
      unfold readEntryFile
      rw [hkept, hheader]
      simp only [hlen, length_nil, Nat.add_zero, and_true]
      rw [if_neg (by omega)]
    | cons b rest =>
      simp only [isEmpty_cons, Bool.false_eq_true, if_false, Header.retrailed, cons_ne_nil]
      rw [hdrop, drop_left' (fillHeader_length _)]
      have hsum : fixedHeader + ((file.take (payloadEnd e.textBytes e.header.payloadBytes)).drop
          fixedHeader ++ b :: rest).length =
          payloadEnd e.textBytes e.header.payloadBytes + (b :: rest).length := by
        rw [length_append, length_drop]
        omega
      have hsame : ((file.take (payloadEnd e.textBytes e.header.payloadBytes)).drop
          fixedHeader ++ b :: rest).take 4 = (file.drop fixedHeader).take 4 := by
        rw [take_append_of_le_length (by rw [length_drop, hlen]; omega), drop_take,
          take_take, Nat.min_eq_left (by omega)]
      have hedited := fillHeader_edited { e.header with extFlags := e.header.extFlags ||| extFlag }
        e.header.hits now
      simp only [Header.edited, Nat.mod_eq_of_lt hfits.hits] at hedited
      have hnew : ({ e.header with extFlags := e.header.extFlags ||| extFlag, lastUsed :=
          now % 2 ^ 64 } : Header).Fits :=
        { hfits with lastUsed := Nat.mod_lt _ (by decide) }
      rw [← hedited, readEntryFile_reheaded hread hnew rfl (by omega) hsame, hsum]
      exact ⟨rfl, rfl⟩

/-- Headers are read back as written, and edits of a file are confined. -/
theorem header_edits {h : Header} {textBytes : ℕ} (hfits : h.Fits) (htext : textBytes < 2 ^ 32)
    (rest : Bytes) (hread : readEntryFile name sha file = some e) :
    readHeader (fillHeader h ++ (put 4 textBytes ++ rest)) = some (h, textBytes) ∧
      Confined name sha file e :=
  ⟨readHeader_fillHeader hfits htext rest, readEntryFile_confined hread⟩

theorem readEntryFile_ab : readEntryFile (abEntry (str "a")).name (abEntry (str "a")).sha
    (abFile (str "a") (str "good")).2 = some (abEntry (str "a")) := by
  decide

theorem header_edits_ab :
    (readEntryFile (abEntry (str "a")).name (abEntry (str "a")).sha
      (retrailFile 1 9 [0] (abFile (str "a") (str "good")).2)).map (fun e => e.header.lastUsed) =
        some 9 := by
  have hfits := (readHeader_fits (readEntryFile_spec readEntryFile_ab).1).1
  rw [((header_edits hfits (by decide : 1 < 2 ^ 32) [] readEntryFile_ab).2.retrailed 1 9 [0]).1]
  decide

/-- Rewriting a trailer also sets the last use. -/
theorem retrailFile_lastUsed :
    ¬ ∀ (name sha file : Bytes) (e after : Entry) (extFlag : UInt8) (now : ℕ) (trailer : Bytes),
      readEntryFile name sha file = some e →
        readEntryFile name sha (retrailFile extFlag now trailer file) = some after →
          after.header.lastUsed = e.header.lastUsed := by
  intro h
  have hread := ((readEntryFile_confined readEntryFile_ab).retrailed 1 9 [0]).1
  have hsame := h _ _ _ _ _ 1 9 [0] readEntryFile_ab hread
  revert hsame
  decide

end Ds4Studio.Kvstore

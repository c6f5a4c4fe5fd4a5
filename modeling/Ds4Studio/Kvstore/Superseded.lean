import Ds4Studio.Kvstore.Budget

/-!
Checkpoints that a longer one supersedes. Being superseded only lowers the score of
an entry, which a prompt that ends in front of the longer text may still need.
-/

namespace Ds4Studio.Kvstore

open Bytes List

variable {Tok Log : Type*}

def reasonContinued : UInt8 := 2

/-- `kv_cache_incoming_supersedes_continued` -/
def supersedesContinued (sha1 : Bytes → Bytes) (e : Entry) (incoming : Incoming) : Bool :=
  decide (e.header.reason = reasonContinued) && decide (e.textBytes ≠ 0) &&
    decide (e.textBytes < incoming.text.length) && decide (e.header.modelId = incoming.modelId) &&
    !(incoming.rejectDifferentQuant && decide (e.header.quantBits ≠ incoming.quantBits)) &&
    decide (incoming.ctxSize ≤ e.header.ctxSize) &&
    decide (sha1 (incoming.text.take e.textBytes) = e.sha)

/-- The entry under which a store files the incoming checkpoint. -/
structure Filed (sha1 : Bytes → Bytes) (kc : Store) (incoming : Incoming) (n : Entry) : Prop where
  sha : n.sha = sha1 incoming.text
  textBytes : n.textBytes = incoming.text.length
  modelId : n.header.modelId = incoming.modelId
  quantBits : n.header.quantBits = incoming.quantBits
  ctxSize : n.header.ctxSize = incoming.ctxSize
  rejects : incoming.rejectDifferentQuant = kc.rejectDifferentQuant
  tokens : kc.opt.minTokens ≤ toInt n.header.tokens

variable {sha1 : Bytes → Bytes} {kc : Store} {eng : Engine Tok Log} {prompt : Bytes} {e n : Entry}
  {incoming : Incoming}

/-- Whatever prompt the old entry could be loaded for, the new one can be loaded for
if the prompt goes on with its text. -/
theorem matching_filed (hsup : supersedesContinued sha1 e incoming = true)
    (hfiled : Filed sha1 kc incoming n) (hold : matching sha1 kc eng prompt e = true)
    (hprompt : incoming.text <+: prompt) : matching sha1 kc eng prompt n = true := by
  have hlen := hprompt.length_le
  have htake := prefix_iff_eq_take.mp hprompt
  simp only [supersedesContinued, Bool.and_eq_true, decide_eq_true_eq] at hsup
  simp only [matching, usable, Bool.and_eq_true, decide_eq_true_eq] at hold ⊢
  rw [hfiled.textBytes, hfiled.modelId, hfiled.ctxSize, hfiled.quantBits, hfiled.sha, ← htake]
  obtain ⟨⟨⟨⟨-, hmodel⟩, hctx⟩, hquant⟩, -⟩ := hold
  refine ⟨⟨⟨⟨⟨hlen, hfiled.tokens⟩, ?_⟩, ?_⟩, ?_⟩, rfl⟩
  · rw [← hsup.1.1.1.2, hmodel]
  · omega
  · have hsame := hsup.1.1.2
    rw [hfiled.rejects] at hsame
    cases hreject : kc.rejectDifferentQuant with
    | false => rfl
    | true =>
      simp only [hreject, Bool.true_and, Bool.not_eq_true', decide_eq_false_iff_not,
        not_not] at hsame hquant ⊢
      rw [← hsame, hquant]

/-- A prompt that goes on with the text of the incoming checkpoint loses nothing when
the superseded entry goes and the incoming one is stored. -/
theorem lookup_superseded {d : Dir} {file : Bytes}
    (hsup : supersedesContinued sha1 e incoming = true) (hfiled : Filed sha1 kc incoming n)
    (hscan : scanFile (n.name, file) = some n)
    (hold : findTextPrefix sha1 kc eng prompt d = some e) (hprompt : incoming.text <+: prompt) :
    ∃ r, findTextPrefix sha1 kc eng prompt ((d.unlink e.name).put n.name file) = some r ∧
      matching sha1 kc eng prompt r = true := by
  rw [findTextPrefix_eq] at hold
  have hmatch := (mem_candidates.mp (mem_of_head? hold)).2
  have hnew : n ∈ candidates sha1 kc eng prompt ((d.unlink e.name).put n.name file) := by
    rw [mem_candidates]
    refine ⟨mem_filterMap.mpr ⟨(n.name, file), ?_, hscan⟩,
      matching_filed hsup hfiled hmatch hprompt⟩
    exact mem_append_right _ mem_cons_self
  cases hlist : candidates sha1 kc eng prompt ((d.unlink e.name).put n.name file) with
  | nil => simp [hlist] at hnew
  | cons r rest =>
    refine ⟨r, by rw [findTextPrefix_eq, hlist]; rfl, ?_⟩
    exact (mem_candidates.mp (hlist ▸ mem_cons_self)).2

/-! ### A prompt that ends between the two texts -/

def continuedFile : Bytes × Bytes :=
  (pathForSha (abDigest (str "a")), fillHeader { abHeader with reason := reasonContinued } ++
    LittleEndian.put 4 1 ++ str "agood")

def continuedEntry : Entry :=
  { abEntry (str "a") with header := { abHeader with reason := reasonContinued } }

def continuedDir : Dir := ⟨[continuedFile], by decide⟩

def abIncoming : Incoming := ⟨str "ab", 0, 2, 8, false⟩

theorem abIncoming_supersedes : supersedesContinued abDigest continuedEntry abIncoming = true := by
  decide

theorem abIncoming_filed : Filed abDigest abStore abIncoming (abEntry (str "ab")) := by
  constructor <;> decide

theorem scanFile_abIncoming :
    scanFile ((abEntry (str "ab")).name, (abFile (str "ab") (str "good")).2) =
      some (abEntry (str "ab")) := by
  decide

theorem lookup_superseded_ab :
    ∃ r, findTextPrefix abDigest abStore abEngine (str "ab")
        ((continuedDir.unlink continuedEntry.name).put (abEntry (str "ab")).name
          (abFile (str "ab") (str "good")).2) = some r ∧
      matching abDigest abStore abEngine (str "ab") r = true :=
  lookup_superseded abIncoming_supersedes abIncoming_filed scanFile_abIncoming
    (by decide) (prefix_refl _)

theorem lookup_superseded_short :
    ¬ ∀ (prompt file : Bytes) (d : Dir) (e n : Entry) (incoming : Incoming),
      supersedesContinued abDigest e incoming = true → Filed abDigest abStore incoming n →
        scanFile (n.name, file) = some n →
          findTextPrefix abDigest abStore abEngine prompt d = some e →
            ∃ r, findTextPrefix abDigest abStore abEngine prompt
              ((d.unlink e.name).put n.name file) = some r := by
  intro h
  obtain ⟨r, hr⟩ := h (str "a") _ continuedDir _ _ _ abIncoming_supersedes abIncoming_filed
    scanFile_abIncoming (by decide)
  cases hr

end Ds4Studio.Kvstore

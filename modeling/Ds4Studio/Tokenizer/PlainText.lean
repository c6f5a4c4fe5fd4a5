import Ds4Studio.Lib.Spelled
import Ds4Studio.Tokenizer.RenderedChat

/-!
Plain text and control tokens. Without merges that yield a control token, plain text is
never tokenized to one. A rendered text is tokenized to the control tokens it was written
with as long as none of them is spelled from one of its letters on.
-/

namespace Ds4Studio.Tokenizer

open Bytes List Segment

def controlIds (v : Vocab) : List ℤ := (specials v).map Prod.snd

def controlTokens (v : Vocab) (tokens : List ℤ) : List ℤ := tokens.filter (· ∈ controlIds v)

/-- No merge of the vocabulary yields a control token. -/
def NoControlMerge (merges : List Bytes) : Prop :=
  ∀ x y, x ++ 0x20 :: y ∈ merges → x ++ y ∉ spellings

theorem controlTokens_append (v : Vocab) (xs ys : List ℤ) :
    controlTokens v (xs ++ ys) = controlTokens v xs ++ controlTokens v ys :=
  filter_append _ _

variable {v : Vocab}

theorem controlTokens_eq_nil {tokens : List ℤ} (h : ∀ t ∈ tokens, t ∉ controlIds v) :
    controlTokens v tokens = [] := by
  rw [controlTokens, filter_eq_nil_iff]
  intro t ht hcontrol
  exact h t ht (of_decide_eq_true hcontrol)

/-! ### Plain text -/

variable {tokens merges : List Bytes}

theorem Loaded.special_id (hv : Loaded tokens merges v) {m : Bytes × ℤ} (hm : m ∈ specials v) :
    tableGet v.tokenToId m.1 = some m.2 := by
  simp only [specials, mem_cons, not_mem_nil, or_false] at hm
  rcases hm with rfl | rfl | rfl | rfl | rfl | rfl | rfl
  · exact hv.bosId
  · exact hv.eosId
  · exact hv.userId
  · exact hv.assistantId
  · exact hv.thinkStartId
  · exact hv.thinkEndId
  · exact hv.dsmlId

theorem Loaded.not_control (hv : Loaded tokens merges v) {s : Bytes} {id : ℤ}
    (h : tableGet v.tokenToId s = some id) (hs : s ∉ spellings) : id ∉ controlIds v := by
  intro hcontrol
  obtain ⟨m, hm, rfl⟩ := mem_map.mp hcontrol
  obtain ⟨-, hget⟩ := hv.token_of_id h
  obtain ⟨-, hspelled⟩ := hv.token_of_id (hv.special_id hm)
  rw [hget] at hspelled
  have hsame : s = m.1 := Option.some.inj hspelled
  exact hs (hsame ▸ spelling_mem hm)

theorem spelling_long {s : Bytes} (h : s ∈ spellings) : 2 < s.length := by
  have hall : ∀ s ∈ spellings, 2 < s.length := by decide
  exact hall s h

theorem byteSymbol_length (b : UInt8) : (byteSymbol b).length ≤ 2 := by
  rcases byteSymbol_shape b with ⟨x, hx, -⟩ | ⟨x, y, hxy, -⟩
  · simp [hx]
  · simp [hxy]

section

variable (hv : Loaded tokens merges v)

include hv

theorem Loaded.emitSymbol_plain {s : Bytes} (hs : s ∉ spellings) :
    ∀ t ∈ emitSymbol v s, t ∉ controlIds v := by
  intro t ht
  unfold emitSymbol at ht
  cases hget : tableGet v.tokenToId s with
  | some id =>
    rw [hget] at ht
    rw [mem_singleton.mp ht]
    exact hv.not_control hget hs
  | none =>
    rw [hget] at ht
    obtain ⟨c, -, hc⟩ := mem_filterMap.mp ht
    apply hv.not_control hc
    intro hone
    have := spelling_long hone
    simp at this

theorem Loaded.bpeEmitPiece_plain (hmerges : NoControlMerge merges) (piece : Bytes) :
    ∀ t ∈ bpeEmitPiece v piece, t ∉ controlIds v := by
  have hsegments : ∀ s ∈ mergeAll (bpeRank v) 2147483647 (symbols (byteEncode piece)),
      s ∉ spellings := by
    apply mergeAll_invariant (P := fun segments => ∀ s ∈ segments, s ∉ spellings)
    · intro left x y right hrank h s hs
      rcases mem_append.mp hs with hleft | hcons
      · exact h s (mem_append_left _ hleft)
      · rcases mem_cons.mp hcons with rfl | hright
        · exact hmerges x y (hv.listed_of_rank hrank)
        · exact h s (by simp [hright])
    · intro s hs hspelling
      rw [symbols_byteEncode] at hs
      obtain ⟨b, -, rfl⟩ := mem_map.mp hs
      have hlong := spelling_long hspelling
      have hshort := byteSymbol_length b
      omega
  intro t ht
  obtain ⟨s, hs, hemit⟩ := mem_flatMap.mp ht
  exact hv.emitSymbol_plain (hsegments s hs) t hemit

theorem Loaded.bpeTokenizeText_plain (hmerges : NoControlMerge merges) (text : Bytes) :
    ∀ t ∈ bpeTokenizeText v text, t ∉ controlIds v := by
  intro t ht
  obtain ⟨piece, -, hpiece⟩ := mem_flatMap.mp ht
  exact hv.bpeEmitPiece_plain hmerges piece t hpiece

end

@[simp] theorem bpeTokenizeText_nil (v : Vocab) : bpeTokenizeText v [] = [] := by
  simp [bpeTokenizeText]

theorem tokenizeSpan_eq (v : Vocab) (span : Bytes) :
    tokenizeSpan v span = bpeTokenizeText v span := by
  unfold tokenizeSpan
  split
  · rename_i hlen
    rw [length_eq_zero_iff.mp hlen, bpeTokenizeText_nil]
  · rfl

end Ds4Studio.Tokenizer

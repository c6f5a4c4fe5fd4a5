import Ds4Studio.Lib.Segment
import Ds4Studio.Tokenizer.ByteLevel

/-!
The vocabulary and the merging of one piece. A vocabulary maps spellings to ids
and merges to ranks; loading it fails when a special token is missing. A piece
is written in symbols, neighbours are merged by rank, and what results is looked
up. In a vocabulary with every symbol and every merge result the ids of a piece
spell the piece.
-/

namespace Ds4Studio.Tokenizer

open Bytes List Option Segment

/-! ### The vocabulary -/

/-- `str_i32_table`; the newest value of a key comes first. -/
abbrev Table := List (Bytes × ℤ)

def tablePut (t : Table) (key : Bytes) (value : ℤ) : Table := (key, value) :: t

def tableGet (t : Table) (key : Bytes) : Option ℤ := t.lookup key

/-- The loading loops: every key of a list is put under its position, as an `int`. -/
def putAll : ℕ → Table → List Bytes → Table
  | _, t, [] => t
  | i, t, key :: keys => putAll (i + 1) (tablePut t key ((i : ℤ).bmod (2 ^ 32))) keys

structure Vocab where
  token : List Bytes
  tokenToId : Table
  mergeRank : Table
  bosId : ℤ
  eosId : ℤ
  userId : ℤ
  assistantId : ℤ
  thinkStartId : ℤ
  thinkEndId : ℤ
  dsmlId : ℤ

def bos : Bytes := str "<｜begin▁of▁sentence｜>"
def eos : Bytes := str "<｜end▁of▁sentence｜>"
def user : Bytes := str "<｜User｜>"
def assistant : Bytes := str "<｜Assistant｜>"
def thinkStart : Bytes := str "<think>"
def thinkEnd : Bytes := str "</think>"
def dsml : Bytes := str "｜DSML｜"

/-- `vocab_load`; where the program exits there is no vocabulary. -/
def vocabLoad (tokens merges : List Bytes) : Option Vocab :=
  if tokens.length > 2147483647 then none
  else
    let tokenToId := putAll 0 [] tokens
    let mergeRank := putAll 0 [] merges
    do
      let bosId ← tableGet tokenToId bos
      let eosId ← tableGet tokenToId eos
      let userId ← tableGet tokenToId user
      let assistantId ← tableGet tokenToId assistant
      let thinkStartId ← tableGet tokenToId thinkStart
      let thinkEndId ← tableGet tokenToId thinkEnd
      let dsmlId ← tableGet tokenToId dsml
      return { token := tokens, tokenToId, mergeRank, bosId, eosId, userId, assistantId,
               thinkStartId, thinkEndId, dsmlId }

theorem tableGet_tablePut (t : Table) (key key' : Bytes) (value : ℤ) :
    tableGet (tablePut t key value) key' = if key' = key then some value else tableGet t key' := by
  by_cases h : key' = key
  · simp [tableGet, tablePut, h]
  · have hb : (key' == key) = false := by simpa using h
    simp [tableGet, tablePut, lookup_cons, hb, h]

theorem tableGet_putAll {i : ℕ} {t : Table} {keys : List Bytes} {key : Bytes} {value : ℤ}
    (h : tableGet (putAll i t keys) key = some value) :
    tableGet t key = some value ∨
      ∃ j, keys[j]? = some key ∧ value = ((i + j : ℕ) : ℤ).bmod (2 ^ 32) := by
  induction keys generalizing i t with
  | nil => exact Or.inl h
  | cons k keys ih =>
    rcases ih h with hold | ⟨j, hj, hvalue⟩
    · rw [tableGet_tablePut] at hold
      by_cases hk : key = k
      · rw [if_pos hk] at hold
        exact Or.inr ⟨0, by simp [hk], by simpa using hold.symm⟩
      · rw [if_neg hk] at hold
        exact Or.inl hold
    · refine Or.inr ⟨j + 1, by simpa using hj, ?_⟩
      rw [hvalue]
      congr 2
      omega

theorem tableGet_putAll_isSome {i : ℕ} {t : Table} {keys : List Bytes} {key : Bytes}
    (h : key ∈ keys ∨ (tableGet t key).isSome) : (tableGet (putAll i t keys) key).isSome := by
  induction keys generalizing i t with
  | nil => simpa [putAll] using h
  | cons k keys ih =>
    apply ih
    rw [tableGet_tablePut]
    by_cases hk : key = k
    · exact Or.inr (by simp [hk])
    · rcases h with hmem | hold
      · exact Or.inl ((mem_cons.mp hmem).resolve_left hk)
      · exact Or.inr (by simpa [hk] using hold)

/-- What loading leaves: the tables are those of the lists, and the seven special
ids are looked up in them. -/
structure Loaded (tokens merges : List Bytes) (v : Vocab) : Prop where
  small : tokens.length ≤ 2147483647
  token : v.token = tokens
  tokenToId : v.tokenToId = putAll 0 [] tokens
  mergeRank : v.mergeRank = putAll 0 [] merges
  bosId : tableGet v.tokenToId bos = some v.bosId
  eosId : tableGet v.tokenToId eos = some v.eosId
  userId : tableGet v.tokenToId user = some v.userId
  assistantId : tableGet v.tokenToId assistant = some v.assistantId
  thinkStartId : tableGet v.tokenToId thinkStart = some v.thinkStartId
  thinkEndId : tableGet v.tokenToId thinkEnd = some v.thinkEndId
  dsmlId : tableGet v.tokenToId dsml = some v.dsmlId

variable {tokens merges : List Bytes} {v : Vocab}

theorem vocabLoad_loaded (h : vocabLoad tokens merges = some v) : Loaded tokens merges v := by
  unfold vocabLoad at h
  split at h
  · simp at h
  · rename_i hsmall
    simp only [bind_eq_bind, bind_eq_some_iff, Option.pure_def, some.injEq] at h
    obtain ⟨bosId, hbos, eosId, heos, userId, huser, assistantId, hassistant, thinkStartId,
      hstart, thinkEndId, hend, dsmlId, hdsml, rfl⟩ := h
    exact ⟨by omega, rfl, rfl, rfl, hbos, heos, huser, hassistant, hstart, hend, hdsml⟩

variable {s : Bytes}

/-- An id found in a loaded vocabulary is the position of its spelling. -/
theorem Loaded.token_of_id (hv : Loaded tokens merges v) {id : ℤ}
    (h : tableGet v.tokenToId s = some id) : 0 ≤ id ∧ v.token[id.toNat]? = some s := by
  rw [hv.tokenToId] at h
  rcases tableGet_putAll h with hnil | ⟨j, hj, hid⟩
  · simp [tableGet] at hnil
  · have hlt : j < tokens.length := (List.getElem?_eq_some_iff.mp hj).1
    have hsmall := hv.small
    have hid' : id = (j : ℤ) := by
      rw [hid, Nat.zero_add]
      apply Int.bmod_eq_of_le <;> omega
    subst hid'
    exact ⟨Int.natCast_nonneg j, by simpa [hv.token] using hj⟩

theorem Loaded.id_of_token (hv : Loaded tokens merges v) (h : s ∈ tokens) :
    ∃ id, tableGet v.tokenToId s = some id := by
  rw [hv.tokenToId]
  exact isSome_iff_exists.mp (tableGet_putAll_isSome (Or.inl h))

/-! ### Token text -/

/-- U+FF5C, the vertical bar of the special tokens. -/
def bar : Bytes := [0xef, 0xbd, 0x9c]

def vocabTokenIsLiteralSpecial (s : Bytes) : Bool := s.tails.any fun t => bar <+: t

/-- `ds4_token_text` -/
def tokenText (v : Vocab) (token : ℤ) : Bytes :=
  if token < 0 then []
  else
    match v.token[token.toNat]? with
    | none => []
    | some s => if vocabTokenIsLiteralSpecial s then s else symbolText s

/-- The texts of a run of tokens, one behind the other. -/
def tokensText (v : Vocab) (tokens : List ℤ) : Bytes := tokens.flatMap (tokenText v)

theorem tokensText_append (v : Vocab) (xs ys : List ℤ) :
    tokensText v (xs ++ ys) = tokensText v xs ++ tokensText v ys :=
  flatMap_append

theorem tokenText_of_get {token : ℤ} (hpos : 0 ≤ token) (hget : v.token[token.toNat]? = some s) :
    tokenText v token = if vocabTokenIsLiteralSpecial s then s else symbolText s := by
  have hneg : ¬ token < 0 := by omega
  simp [tokenText, hneg, hget]

theorem not_literalSpecial_byteEncode (s : Bytes) :
    vocabTokenIsLiteralSpecial (byteEncode s) = false := by
  rw [vocabTokenIsLiteralSpecial, List.any_eq_false]
  intro t ht
  rw [mem_tails] at ht
  have hno : ¬ bar <+: t := by
    intro hbar
    have hmem : (0xef : UInt8) ∈ byteEncode s := ht.subset (hbar.subset (by decide))
    exact (byteEncode_bytes 0xef hmem).2 rfl
  simpa using hno

theorem Loaded.tokenText_byteEncode (hv : Loaded tokens merges v) {id : ℤ}
    (h : tableGet v.tokenToId (byteEncode s) = some id) : tokenText v id = s := by
  obtain ⟨hpos, hget⟩ := hv.token_of_id h
  rw [tokenText_of_get hpos hget, not_literalSpecial_byteEncode]
  exact symbolText_byteEncode s

theorem Loaded.tokenText_literal (hv : Loaded tokens merges v) {id : ℤ}
    (h : tableGet v.tokenToId s = some id) (hs : vocabTokenIsLiteralSpecial s = true) :
    tokenText v id = s := by
  obtain ⟨hpos, hget⟩ := hv.token_of_id h
  rw [tokenText_of_get hpos hget, hs]
  rfl

/-! ### One piece -/

def bpeRank (v : Vocab) (a b : Bytes) : ℤ := (tableGet v.mergeRank (a ++ 0x20 :: b)).getD (-1)

/-- The cut of the encoded piece into its code points. -/
def symbols (encoded : Bytes) : List Bytes := pieces nextUtf8Char encoded

/-- A merged symbol that is no token is looked up byte by byte. -/
def emitSymbol (v : Vocab) (s : Bytes) : List ℤ :=
  match tableGet v.tokenToId s with
  | some token => [token]
  | none => s.filterMap fun c => tableGet v.tokenToId [c]

def bpeEmitPiece (v : Vocab) (piece : Bytes) : List ℤ :=
  (mergeAll (bpeRank v) 2147483647 (symbols (byteEncode piece))).flatMap (emitSymbol v)

theorem symbols_byteEncode (s : Bytes) : symbols (byteEncode s) = s.map byteSymbol := by
  induction s with
  | nil => simp [symbols, byteEncode]
  | cons b s ih =>
    obtain ⟨x, t, hx⟩ := exists_cons_of_ne_nil (byteSymbol_ne_nil b)
    have hlen := nextUtf8Char_byteSymbol b (byteEncode s)
    rw [hx, cons_append] at hlen
    have hencode : byteEncode (b :: s) = x :: (t ++ byteEncode s) := by
      rw [byteEncode, flatMap_cons, hx]
      rfl
    rw [hencode, symbols, pieces_cons, hlen, map_cons, hx]
    simp only [length_cons, Nat.add_sub_cancel, take_left, drop_left]
    exact congrArg _ ih

/-- A piece is emitted from its byte symbols, joined one pair at a time, always
the first of the lowest rank, until no listed pair below the bound is left. -/
theorem bpeEmitPiece_greedy (v : Vocab) (piece : Bytes) :
    ∃ segments,
      Relation.ReflTransGen
        (fun s t => ∃ j, First (bpeRank v) 2147483647 s j ∧ t = joinAt j s)
        (piece.map byteSymbol) segments ∧
      Done (bpeRank v) 2147483647 segments ∧
      bpeEmitPiece v piece = segments.flatMap (emitSymbol v) := by
  rw [← symbols_byteEncode]
  obtain ⟨hrun, hdone⟩ := mergeAll_greedy (bpeRank v) 2147483647 (symbols (byteEncode piece))
  exact ⟨_, hrun, hdone, rfl⟩

/-- A vocabulary has the symbol of every byte and the result of every merge it
lists. -/
structure Closed (tokens merges : List Bytes) : Prop where
  byte : ∀ b, byteSymbol b ∈ tokens
  merge : ∀ x y, (0x20 : UInt8) ∉ x → (0x20 : UInt8) ∉ y → x ++ 0x20 :: y ∈ merges → x ++ y ∈ tokens

/-- The segments are symbols of neighbouring parts of the piece, each of them a
token. -/
def Spells (tokens : List Bytes) (piece : Bytes) (segments : List Bytes) : Prop :=
  ∃ parts : List Bytes, segments = parts.map byteEncode ∧ parts.flatten = piece ∧
    ∀ part ∈ parts, byteEncode part ∈ tokens

theorem spells_symbols (hclosed : Closed tokens merges) (piece : Bytes) :
    Spells tokens piece (symbols (byteEncode piece)) := by
  have hone : ∀ b, byteEncode [b] = byteSymbol b := fun b => by simp [byteEncode]
  refine ⟨piece.map fun b => [b], ?_, ?_, ?_⟩
  · rw [symbols_byteEncode, List.map_map]
    exact map_congr_left fun b _ => (hone b).symm
  · induction piece with
    | nil => rfl
    | cons b piece ih => simpa using ih
  · intro part hpart
    obtain ⟨b, -, rfl⟩ := mem_map.mp hpart
    rw [hone]
    exact hclosed.byte b

section

variable (hv : Loaded tokens merges v)

include hv

theorem Loaded.listed_of_rank {x y : Bytes} (h : 0 ≤ bpeRank v x y) : x ++ 0x20 :: y ∈ merges := by
  unfold bpeRank at h
  rw [hv.mergeRank] at h
  cases hget : tableGet (putAll 0 [] merges) (x ++ 0x20 :: y) with
  | none =>
    rw [hget, getD_none] at h
    omega
  | some rank =>
    rcases tableGet_putAll hget with hnil | ⟨j, hj, -⟩
    · simp [tableGet] at hnil
    · exact mem_of_getElem? hj

/-- Joining two listed neighbours keeps the segments spelling the piece. -/
theorem Spells.join (hclosed : Closed tokens merges) {piece : Bytes} (left : List Bytes)
    (x y : Bytes) (right : List Bytes) (hrank : 0 ≤ bpeRank v x y)
    (h : Spells tokens piece (left ++ x :: y :: right)) :
    Spells tokens piece (left ++ (x ++ y) :: right) := by
  obtain ⟨parts, hparts, hpiece, htokens⟩ := h
  obtain ⟨lefts, behind, rfl, rfl, hbehind⟩ := map_eq_append_iff.mp hparts.symm
  obtain ⟨px, behind, rfl, rfl, htail⟩ := map_eq_cons_iff.mp hbehind
  obtain ⟨py, rights, rfl, rfl, rfl⟩ := map_eq_cons_iff.mp htail
  have hmerge : byteEncode px ++ byteEncode py ∈ tokens := by
    apply hclosed.merge _ _ _ _ (hv.listed_of_rank hrank)
    · exact fun hspace => (byteEncode_bytes 0x20 hspace).1 rfl
    · exact fun hspace => (byteEncode_bytes 0x20 hspace).1 rfl
  refine ⟨lefts ++ (px ++ py) :: rights, by simp [byteEncode_append], ?_, ?_⟩
  · rw [← hpiece]
    simp
  · intro part hpart
    rcases mem_append.mp hpart with hleft | hcons
    · exact htokens part (mem_append_left _ hleft)
    · rcases mem_cons.mp hcons with rfl | hright
      · rwa [byteEncode_append]
      · exact htokens part (by simp [hright])

theorem tokensText_bpeEmitPiece (hclosed : Closed tokens merges) (piece : Bytes) :
    tokensText v (bpeEmitPiece v piece) = piece := by
  have hmerged : Spells tokens piece
      (mergeAll (bpeRank v) 2147483647 (symbols (byteEncode piece))) :=
    mergeAll_invariant (fun left x y right hrank h => h.join hv hclosed left x y right hrank)
      _ (spells_symbols hclosed piece)
  obtain ⟨parts, hparts, rfl, htokens⟩ := hmerged
  rw [bpeEmitPiece, hparts]
  clear hparts
  induction parts with
  | nil => rfl
  | cons part parts ih =>
    obtain ⟨id, hid⟩ := hv.id_of_token (htokens part mem_cons_self)
    have hemit : emitSymbol v (byteEncode part) = [id] := by simp [emitSymbol, hid]
    rw [map_cons, flatMap_cons, hemit, tokensText_append,
      ih fun p hp => htokens p (mem_cons_of_mem part hp)]
    simp [tokensText, hv.tokenText_byteEncode hid]

end

end Ds4Studio.Tokenizer

import Ds4Studio.Web.ReadBack

/-!
The metadata comment of an export: where it is found, what is left of the text without it, and
which conversations and which metadata come back.
-/

namespace Ds4Studio.Web.Conversation

open Chunking Json List Option Utf16

variable {t w w' : Utf16}

/-! ### JSON texts -/

theorem jsonText_obj (members : List (JsString × Value)) :
    ∃ k, jsonText (.obj members) = 0x7b :: k ∧ k.getLast? = some 0x7d ∧ 0x0a ∉ k := by
  have hascii : (0x7d : UInt8).toNat < 0x80 := by decide
  obtain ⟨more, hmore⟩ := Utf8.text_concat_ascii hascii (stringifyMembers false members)
  have htext : jsonText (.obj members) = 0x7b :: (more ++ [0x7d]) := by
    rw [jsonText, stringify, Utf8.text_cons_ascii (by decide), hmore]
    rfl
  refine ⟨more ++ [0x7d], htext, getLast?_concat .., fun hline => ?_⟩
  have hmem : (0x0a : UInt16) ∈ Utf8.text (stringify (.obj members)) := by
    rw [show Utf8.text (stringify (.obj members)) = _ from htext]
    exact mem_cons_of_mem _ hline
  obtain ⟨byte, hbyte, heq⟩ := Utf8.exists_byte hmem (by decide)
  have hprinted := UInt8.le_iff_toNat_le.mp (stringify_printed _ byte hbyte)
  rw [← heq] at hprinted
  exact absurd hprinted (by decide)

/-! ### The marker -/

/-- The metadata marker begins somewhere in the text, up to its brace. -/
def Marked (t : Utf16) : Prop := ∃ p s, t = p ++ s ∧ (opening s).isSome = true

/-- The comment ends with the text, and not at a brace in it. -/
def Closed (j : Utf16) : Prop :=
  ∀ p q, j = p ++ 0x7d :: q → q ≠ [] → ¬ascii "-->" <+: skipSpace q

/-- An empty line and a character behind it. -/
def joint (c : UInt16) (y : Utf16) : Utf16 := 0x0a :: 0x0a :: c :: y

theorem behind_joint {literal : Utf16} (h : 0x0a ∉ literal) (s : Utf16) (c : UInt16) (y : Utf16) :
    behind literal (s ++ joint c y) = (behind literal s).map (· ++ joint c y) := by
  rw [behind, behind, joint]
  by_cases hprefix : literal <+: s
  · rw [if_pos ((Search.prefix_append_cons_iff h).mpr hprefix), if_pos hprefix, map_some,
      drop_append_of_le_length hprefix.length_le]
  · rw [if_neg fun hmore => hprefix ((Search.prefix_append_cons_iff h).mp hmore), if_neg hprefix]
    rfl

theorem skipSpace_append (s z : Utf16) :
    skipSpace (s ++ z) = if skipSpace s = [] then skipSpace z else skipSpace s ++ z := by
  rw [skipSpace, dropWhile_append]
  rcases hs : s.dropWhile isSpace with _ | ⟨u, rest⟩
  · rw [skipSpace, hs]
    rfl
  · rw [skipSpace, hs]
    rfl

variable {u c : UInt16}

/-- White space and a literal that the joint cannot begin or complete. -/
theorem behind_skip_joint {literal : Utf16} (h : 0x0a ∉ u :: literal) (hu : u ≠ c)
    (hc : isSpace c = false) (s y : Utf16) :
    behind (u :: literal) (skipSpace (s ++ joint c y)) =
      (behind (u :: literal) (skipSpace s)).map (· ++ joint c y) := by
  rw [skipSpace_append]
  split_ifs with hs
  · have hjoint : skipSpace (joint c y) = c :: y := by
      rw [show joint c y = [0x0a, 0x0a] ++ c :: y from rfl, skipSpace_spaces (by decide)]
      exact skipSpace_head fun v hv => by
        cases hv
        exact hc
    rw [hjoint, hs, behind, if_neg fun hprefix => hu (cons_prefix_cons.mp hprefix).1]
    rfl
  · exact behind_joint h _ c y

theorem opening_joint (hc : isSpace c = false) (hd : 0x64 ≠ c) (hbrace : 0x7b ≠ c) (s y : Utf16) :
    opening (s ++ joint c y) = (opening s).map (· ++ joint c y) := by
  rw [opening, opening, behind_joint (by decide)]
  cases behind (ascii "<!--") s with
  | none => rfl
  | some r =>
    rw [map_some, bind_some, bind_some]
    rw [show ascii "ds4-meta:" = 0x64 :: ascii "s4-meta:" by decide,
      behind_skip_joint (by decide) hd hc]
    cases behind (0x64 :: ascii "s4-meta:") (skipSpace r) with
    | none => rfl
    | some r =>
      rw [map_some, bind_some, bind_some,
        show ascii "\x7b" = [0x7b] by decide, behind_skip_joint (by decide) hbrace hc]

theorem closing_joint (s y : Utf16) : closing (s ++ joint 0x3c y) =
    match closing s with
    | some p => some (p.1, p.2 ++ joint 0x3c y)
    | none => (closing (joint 0x3c y)).map fun p => (s ++ p.1, p.2) := by
  induction s with
  | nil =>
    rw [nil_append]
    cases closing (joint 0x3c y) <;> rfl
  | cons u s ih =>
    have hbehind : behind (ascii "-->") (skipSpace (s ++ joint 0x3c y)) =
        (behind (ascii "-->") (skipSpace s)).map (· ++ joint 0x3c y) := by
      exact behind_skip_joint (by decide) (by decide) (by decide) s y
    rw [cons_append, closing, closing, hbehind, ih]
    by_cases hu : u = 0x7d
    · rw [if_pos hu, if_pos hu]
      cases behind (ascii "-->") (skipSpace s) with
      | some after => rfl
      | none =>
        cases closing s with
        | some p => rfl
        | none => cases closing (joint 0x3c y) <;> rfl
    · rw [if_neg hu, if_neg hu]
      cases closing s with
      | some p => rfl
      | none => cases closing (joint 0x3c y) <;> rfl

theorem metaMatch_of_opening {after group : Utf16} (h : opening t = some w)
    (hclosing : closing w = some (group, after)) :
    metaMatch t = some ([], 0x7b :: group, after) := by
  rw [metaMatch.eq_def, h, bind_some, hclosing]

theorem metaMatch_of_not_opening (h : opening (u :: t) = none) :
    metaMatch (u :: t) = (metaMatch t).map fun m => (u :: m.1, m.2) := by
  rw [metaMatch, h]
  rfl

theorem metaMatch_append {p z : Utf16} (h : ∀ c s, p = c ++ s → s ≠ [] → opening (s ++ z) = none) :
    metaMatch (p ++ z) = (metaMatch z).map fun m => (p ++ m.1, m.2) := by
  induction p with
  | nil =>
    rw [nil_append]
    cases metaMatch z <;> rfl
  | cons u p ih =>
    have hnone : opening (u :: (p ++ z)) = none := h [] (u :: p) rfl (cons_ne_nil _ _)
    rw [cons_append, metaMatch_of_not_opening hnone,
      ih fun c s hs => h (u :: c) s (congrArg (u :: ·) hs), Option.map_map]
    rfl

/-! ### The metadata comment -/

/-- The comment behind its first character. -/
def comment (k : Utf16) : Utf16 := ascii "!-- ds4-meta: \x7b" ++ (k ++ ascii " -->\n")

theorem opening_comment (k : Utf16) : opening (0x3c :: comment k) = some (k ++ ascii " -->\n") := by
  have hname : skipSpace (0x20 :: (ascii "ds4-meta:" ++ (0x20 :: 0x7b :: (k ++ ascii " -->\n")))) =
      ascii "ds4-meta:" ++ (0x20 :: 0x7b :: (k ++ ascii " -->\n")) := by
    rw [show ∀ x : Utf16, 0x20 :: x = [0x20] ++ x from fun _ => rfl, skipSpace_spaces (by decide)]
    exact skipSpace_head fun v hv => by
      cases hv
      decide
  have hbrace : skipSpace (0x20 :: 0x7b :: (k ++ ascii " -->\n")) =
      ascii "\x7b" ++ (k ++ ascii " -->\n") := by
    rw [show ∀ x : Utf16, 0x20 :: x = [0x20] ++ x from fun _ => rfl, skipSpace_spaces (by decide)]
    exact skipSpace_head fun v hv => by
      cases hv
      decide
  have hcomment : 0x3c :: comment k =
      ascii "<!--" ++ (0x20 :: (ascii "ds4-meta:" ++ (0x20 :: 0x7b :: (k ++ ascii " -->\n")))) :=
    rfl
  rw [hcomment, opening, behind_append, bind_some, hname, behind_append, bind_some,
    hbrace, behind_append]

theorem closing_cons_of_ne (h : u ≠ 0x7d) (t : Utf16) :
    closing (u :: t) = (closing t).map fun p => (u :: p.1, p.2) := by
  rw [closing, if_neg h]

theorem closing_append_of_not_mem {p : Utf16} (h : 0x7d ∉ p) (t : Utf16) :
    closing (p ++ t) = (closing t).map fun q => (p ++ q.1, q.2) := by
  induction p with
  | nil =>
    rw [nil_append]
    cases closing t <;> rfl
  | cons u p ih =>
    obtain ⟨hu, hp⟩ := not_or.mp (mem_cons.not.mp h)
    rw [cons_append, closing_cons_of_ne (Ne.symm hu), ih hp, Option.map_map]
    rfl

/-- In front of the end of the comment a text with a last brace is no end of a comment. -/
theorem behind_end {q : Utf16} (hlast : q.getLast? = some 0x7d) :
    behind (ascii "-->") (skipSpace (q ++ ascii " -->\n")) = none ↔
      ¬ascii "-->" <+: skipSpace q := by
  obtain ⟨w, hw, hq, -⟩ := exists_skipSpace q
  have hskip : skipSpace q ≠ [] := by
    intro hnil
    rw [hnil, append_nil] at hq
    have hspace := hw 0x7d (hq ▸ mem_of_getLast? hlast)
    exact absurd hspace (by decide)
  have hend : (skipSpace q).getLast? = some 0x7d := by
    rw [hq, getLast?_append_of_ne_nil _ hskip] at hlast
    exact hlast
  rw [skipSpace_append, if_neg hskip, ← not_isSome_iff_eq_none, behind_isSome_iff, not_iff_not]
  refine ⟨fun hprefix => ?_, fun hprefix => hprefix.trans (prefix_append _ _)⟩
  rcases prefix_or_prefix_of_prefix hprefix (prefix_append (skipSpace q) _) with h | h
  · exact h
  · have hmem : (0x7d : UInt16) ∈ ascii "-->" := h.subset (mem_of_getLast? hend)
    exact absurd hmem (by decide)

theorem Closed.tail {j : Utf16} (h : Closed (u :: j)) : Closed j :=
  fun p q hj hq => h (u :: p) q (congrArg (u :: ·) hj) hq

variable {k : Utf16}

theorem closing_closed (h : Closed k) (hlast : k.getLast? = some 0x7d) :
    closing (k ++ ascii " -->\n") = some (k, [0x0a]) := by
  induction k with
  | nil => cases hlast
  | cons u k ih =>
    cases k with
    | nil =>
      cases hlast
      decide
    | cons v k =>
      rw [getLast?_cons_cons] at hlast
      have hrest := ih h.tail hlast
      rw [cons_append, closing, hrest]
      by_cases hu : u = 0x7d
      · rw [if_pos hu, (behind_end hlast).mpr (h [] _ (by rw [hu]; rfl) (cons_ne_nil _ _))]
        rfl
      · rw [if_neg hu]
        rfl

theorem closed_cons (hearly : u = 0x7d → ¬ascii "-->" <+: skipSpace k) (h : Closed k) :
    Closed (u :: k) := by
  intro p q hj hq
  cases p with
  | nil =>
    obtain ⟨hu, rfl⟩ := cons.inj hj
    exact hearly hu
  | cons v p => exact h p q (cons.inj hj).2 hq

/-- Where the comment ends early, the end of a comment is behind the group. -/
theorem closing_not_closed (h : ¬Closed k) (hlast : k.getLast? = some 0x7d) :
    ∃ group after q, closing (k ++ ascii " -->\n") = some (group, after) ∧ k = group ++ q ∧
      ascii "-->" <+: skipSpace q := by
  induction k with
  | nil => cases hlast
  | cons u k ih =>
    cases k with
    | nil =>
      refine absurd (closed_cons (fun _ hprefix => ?_) fun p q hj => ?_) h
      · exact absurd (prefix_nil.mp hprefix) (by decide)
      · exact absurd hj.symm (by simp)
    | cons v k =>
      rw [getLast?_cons_cons] at hlast
      by_cases hearly : u = 0x7d ∧ ascii "-->" <+: skipSpace (v :: k)
      · obtain ⟨rfl, hprefix⟩ := hearly
        have hsome : behind (ascii "-->") (skipSpace (v :: k ++ ascii " -->\n")) ≠ none :=
          fun hnone => (behind_end hlast).mp hnone hprefix
        obtain ⟨after, hafter⟩ := ne_none_iff_exists'.mp hsome
        refine ⟨[0x7d], after, v :: k, ?_, rfl, hprefix⟩
        rw [cons_append, closing, if_pos rfl, hafter]
      · have hrest : ¬Closed (v :: k) := fun hclosed =>
          h (closed_cons (fun hu hprefix => hearly ⟨hu, hprefix⟩) hclosed)
        obtain ⟨group, after, q, hclosing, hk, hprefix⟩ := ih hrest hlast
        refine ⟨u :: group, after, q, ?_, congrArg (u :: ·) hk, hprefix⟩
        rw [cons_append, closing, hclosing]
        by_cases hu : u = 0x7d
        · rw [if_pos hu, (behind_end hlast).mpr fun hprefix => hearly ⟨hu, hprefix⟩]
          rfl
        · rw [if_neg hu]
          rfl

/-! ### Conversations that come back -/

theorem tight_join {b : Utf16} {parts : List Utf16} (h : ∀ c ∈ b :: parts, c ≠ [] ∧ Tight c) :
    Chunking.join separator (b :: parts) ≠ [] ∧ Tight (Chunking.join separator (b :: parts)) := by
  induction parts generalizing b with
  | nil =>
    rw [join_singleton]
    exact h b mem_cons_self
  | cons c parts ih =>
    obtain ⟨⟨hne, htight⟩, hall⟩ := forall_mem_cons.mp h
    obtain ⟨hne', htight'⟩ := ih hall
    exact ⟨append_ne_nil_of_left_ne_nil hne _, htight.append htight' hne hne' _⟩

theorem forall_block (turns : List Turn) : ∀ c ∈ turns.map Turn.block, c ≠ [] ∧ Tight c := by
  intro c hc
  obtain ⟨t, -, rfl⟩ := mem_map.mp hc
  exact ⟨t.block_ne_nil, t.block_tight⟩

theorem conversation_tight (turns : List Turn) : Tight (conversation turns) :=
  (tight_join (forall_mem_cons.mpr ⟨header_tight, forall_block turns⟩)).2

variable {turns : List Turn} (l : Language)

/-- The messages of a text that is a conversation, apart from its metadata. -/
theorem parse_conversation (h : Kept turns) {markdown : Utf16}
    (hraw : trim (withoutMetadata markdown) = conversation turns) :
    parseConversationMarkdown l markdown = turns.map Turn.parsed := by
  rw [parse_join l hraw (forall_block turns)]
  · have hheading : (turns.map Turn.block).filter (hasHeading true) = turns.map Turn.block := by
      refine filter_eq_self.mpr fun c hc => ?_
      obtain ⟨t, -, rfl⟩ := mem_map.mp hc
      exact hasHeading_title _
    rw [hheading, filterMap_map, ← filterMap_eq_map]
    refine filterMap_congr fun t ht => ?_
    rw [Function.comp_apply, Turn.block, parseBlock_title l t t.text_tight,
      splitReasoning_text (h.parted t ht)]
    rfl
  · intro c hc
    rw [← map_dropLast] at hc
    obtain ⟨t, ht, rfl⟩ := mem_map.mp hc
    exact Turn.not_ruled_block (h.front t ht)
  · intro c hc
    rw [getLast?_map] at hc
    obtain ⟨t, ht, rfl⟩ := map_eq_some_iff.mp hc
    have hlast := h.last t ht
    rw [← append_nil t.text] at hlast
    have hblock := Turn.not_ruled_block hlast
    rwa [append_nil] at hblock

/-- The raw export of the messages, with reasoning and metadata. -/
def exported (l : Language) (turns : List Turn) (metadata : Value) : Utf16 :=
  exportConversationMarkdownRaw l (turns.map Turn.message) ⟨true, false, some metadata⟩

/-- The messages and the metadata come back. -/
structure Resumed (l : Language) (turns : List Turn) (metadata : Value) : Prop where
  messages : parseConversationMarkdown l (exported l turns metadata) = turns.map Turn.parsed
  metadata : parseConversationMetadata l (exported l turns metadata) = some metadata

theorem exported_eq (turns : List Turn) {metadata : Value} (hk : jsonText metadata = 0x7b :: k) :
    exported l turns metadata = conversation turns ++ joint 0x3c (comment k) := by
  rw [exported, export_turns, hk]
  rfl

theorem not_opening_of_not_marked (h : ¬Marked t) {c s : Utf16} (hs : t = c ++ s) :
    opening s = none := by
  by_contra hne
  exact h ⟨c, s, hs, isSome_iff_ne_none.mpr hne⟩

theorem opening_of_ne (h : u ≠ 0x3c) (t : Utf16) : opening (u :: t) = none := by
  rw [opening, show ascii "<!--" = 0x3c :: ascii "!--" by decide, behind,
    if_neg fun hprefix => h (cons_prefix_cons.mp hprefix).1.symm]
  rfl

theorem metaMatch_joint (h : ¬Marked t) {group after : Utf16}
    (hclosing : closing (k ++ ascii " -->\n") = some (group, after)) :
    metaMatch (t ++ joint 0x3c (comment k)) = some (t ++ [0x0a, 0x0a], 0x7b :: group, after) := by
  have hcomment := metaMatch_of_opening (opening_comment k) hclosing
  rw [metaMatch_append fun c s hs _ => ?_, joint,
    metaMatch_of_not_opening (opening_of_ne (by decide) _),
    metaMatch_of_not_opening (opening_of_ne (by decide) _), hcomment]
  · rfl
  · rw [opening_joint (by decide) (by decide) (by decide), not_opening_of_not_marked h hs]
    rfl

theorem resumed (h : Kept turns) (hmarked : ¬Marked (conversation turns))
    {members : List (JsString × Value)} (hclosed : Closed (jsonText (.obj members)))
    (hparse : l.parse (jsonText (.obj members)) = some (.obj members)) :
    Resumed l turns (.obj members) := by
  obtain ⟨k, hk, hlast, -⟩ := jsonText_obj members
  rw [hk] at hclosed hparse
  have hmatch := metaMatch_joint hmarked (closing_closed hclosed.tail hlast)
  constructor
  · refine parse_conversation l h ?_
    rw [exported_eq l turns hk, withoutMetadata, hmatch]
    dsimp only
    rw [append_assoc, ← nil_append (conversation turns ++ _)]
    exact trim_eq Spaces.nil (conversation_tight turns) (by decide)
  · rw [exported_eq l turns hk, parseConversationMetadata, hmatch, bind_some]
    exact hparse

/-! ### Conversations that do not come back -/

/-- What `JSON.parse` gives back of the text of an object. -/
def Returned (l : Language) (members : List (JsString × Value)) : Prop :=
  l.parse (jsonText (.obj members)) = some (.obj members)

theorem closed_of_metadata (hmarked : ¬Marked (conversation turns))
    {members : List (JsString × Value)} (hreturned : Returned l members) {metadata : Value}
    (h : parseConversationMetadata l (exported l turns (.obj members)) = some metadata) :
    Closed (jsonText (.obj members)) := by
  obtain ⟨k, hk, hlast, -⟩ := jsonText_obj members
  rw [hk]
  rw [Returned, hk] at hreturned
  refine closed_cons (fun hu => absurd hu (by decide)) ?_
  by_contra hopen
  obtain ⟨group, after, q, hclosing, rfl, hprefix⟩ := closing_not_closed hopen hlast
  rw [exported_eq l turns hk, parseConversationMetadata, metaMatch_joint hmarked hclosing] at h
  have hspaces : Spaces q := l.parse_object group q (isSome_of_eq_some h)
    (isSome_of_eq_some hreturned)
  rw [skipSpace, dropWhile_eq_nil_iff.mpr hspaces] at hprefix
  exact absurd (prefix_nil.mp hprefix) (by decide)

theorem Marked.first (h : Marked t) : ∃ p s w, t = p ++ s ∧ opening s = some w ∧
    ∀ c s', p = c ++ s' → s' ≠ [] → opening (s' ++ s) = none := by
  induction t with
  | nil =>
    obtain ⟨p, s, hs, hopening⟩ := h
    obtain ⟨-, rfl⟩ := append_eq_nil_iff.mp hs.symm
    exact absurd hopening (by decide)
  | cons u t ih =>
    rcases hopening : opening (u :: t) with _ | w
    · have hrest : Marked t := by
        obtain ⟨p, s, hs, hsome⟩ := h
        cases p with
        | nil =>
          rw [nil_append] at hs
          rw [← hs, hopening] at hsome
          exact Bool.noConfusion hsome
        | cons v p => exact ⟨p, s, (cons.inj hs).2, hsome⟩
      obtain ⟨p, s, w, rfl, hfirst, hfront⟩ := ih hrest
      refine ⟨u :: p, s, w, rfl, hfirst, fun c s' hp hs' => ?_⟩
      cases c with
      | nil =>
        rw [nil_append] at hp
        exact hp ▸ hopening
      | cons v c => exact hfront c s' (cons.inj hp).2 hs'
    · refine ⟨[], u :: t, w, rfl, hopening, fun c s' hp hs' => ?_⟩
      exact absurd (append_eq_nil_iff.mp hp.symm).2 hs'

theorem metaMatch_first {p s w z group after : Utf16} (hopening : opening s = some w)
    (hfront : ∀ c s', p = c ++ s' → s' ≠ [] → opening (s' ++ s) = none)
    (hclosing : closing (w ++ joint 0x3c z) = some (group, after)) :
    metaMatch (p ++ s ++ joint 0x3c z) = some (p, 0x7b :: group, after) := by
  have hopen : opening (s ++ joint 0x3c z) = some (w ++ joint 0x3c z) := by
    rw [opening_joint (by decide) (by decide) (by decide), hopening]
    rfl
  rw [append_assoc, metaMatch_append fun c s' hp hs' => ?_, metaMatch_of_opening hopen hclosing,
    map_some, append_nil]
  rw [← append_assoc, opening_joint (by decide) (by decide) (by decide), hfront c s' hp hs']
  rfl

theorem exists_closing (hlast : k.getLast? = some 0x7d) :
    ∃ group after, closing (k ++ ascii " -->\n") = some (group, after) := by
  by_cases h : Closed k
  · exact ⟨k, [0x0a], closing_closed h hlast⟩
  · obtain ⟨group, after, -, hclosing, -⟩ := closing_not_closed h hlast
    exact ⟨group, after, hclosing⟩

/-- At a marker of the conversation the same is read for all metadata. -/
theorem metadata_of_marked (h : Marked (conversation turns)) :
    ∃ read : Option Value, ∀ members, parseConversationMetadata l
      (exported l turns (.obj members)) = read := by
  obtain ⟨p, s, w, hs, hopening, hfront⟩ := h.first
  rcases hclosing : closing w with _ | ⟨group, after⟩
  · -- The group reaches into the comment, and a line ends in front of that.
    refine ⟨none, fun members => ?_⟩
    obtain ⟨k, hk, hlast, -⟩ := jsonText_obj members
    obtain ⟨group, after, hend⟩ := exists_closing hlast
    have hcomment : closing (joint 0x3c (comment k)) =
        some (ascii "\n\n<!-- ds4-meta: \x7b" ++ group, after) := by
      rw [show joint 0x3c (comment k) =
          ascii "\n\n<!-- ds4-meta: \x7b" ++ (k ++ ascii " -->\n") from rfl,
        closing_append_of_not_mem (by decide), hend]
      rfl
    have hgroup : closing (w ++ joint 0x3c (comment k)) =
        some (w ++ (ascii "\n\n<!-- ds4-meta: \x7b" ++ group), after) := by
      rw [closing_joint, hclosing, hcomment]
      rfl
    have hline : 0x7b :: (w ++ (ascii "\n\n<!-- ds4-meta: \x7b" ++ group)) =
        (0x7b :: w ++ [0x0a]) ++ 0x0a :: 0x3c :: (ascii "!-- ds4-meta: \x7b" ++ group) := by
      simp [ascii]
    rw [exported_eq l turns hk, hs, parseConversationMetadata,
      metaMatch_first hopening hfront hgroup, bind_some, hline, l.parse_line]
  · refine ⟨l.parse (0x7b :: group), fun members => ?_⟩
    obtain ⟨k, hk, -, -⟩ := jsonText_obj members
    have hgroup : closing (w ++ joint 0x3c (comment k)) =
        some (group, after ++ joint 0x3c (comment k)) := by
      rw [closing_joint, hclosing]
    rw [exported_eq l turns hk, hs, parseConversationMetadata,
      metaMatch_first hopening hfront hgroup, bind_some]

/-! ### Markers in the messages -/

theorem Marked.of_cons (h : Marked (u :: t)) : (opening (u :: t)).isSome = true ∨ Marked t := by
  obtain ⟨p, s, hs, hopening⟩ := h
  cases p with
  | nil =>
    exact .inl (hs ▸ hopening)
  | cons v p => exact .inr ⟨p, s, (cons.inj hs).2, hopening⟩

theorem not_marked_nil : ¬Marked [] := by
  rintro ⟨p, s, hs, hopening⟩
  obtain ⟨-, rfl⟩ := append_eq_nil_iff.mp hs.symm
  exact absurd hopening (by decide)

theorem Marked.left (h : Marked t) (a : Utf16) : Marked (a ++ t) := by
  obtain ⟨p, s, rfl, hopening⟩ := h
  exact ⟨a ++ p, s, (append_assoc ..).symm, hopening⟩

theorem marked_append_iff {a : Utf16} (h : 0x3c ∉ a) : Marked (a ++ t) ↔ Marked t := by
  refine ⟨fun hmarked => ?_, fun hmarked => hmarked.left a⟩
  induction a with
  | nil => exact hmarked
  | cons u a ih =>
    obtain ⟨hu, ha⟩ := not_or.mp (mem_cons.not.mp h)
    refine ih ha (hmarked.of_cons.resolve_left fun hsome => ?_)
    rw [opening_of_ne (Ne.symm hu)] at hsome
    exact Bool.noConfusion hsome

theorem marked_joint_iff (hc : isSpace c = false) (hd : 0x64 ≠ c) (hbrace : 0x7b ≠ c) (y : Utf16) :
    Marked (t ++ joint c y) ↔ Marked t ∨ Marked (c :: y) := by
  have hjoint : Marked (joint c y) ↔ Marked (c :: y) :=
    marked_append_iff (a := [0x0a, 0x0a]) (by decide)
  constructor
  · intro h
    induction t with
    | nil => exact .inr (hjoint.mp h)
    | cons u t ih =>
      rcases Marked.of_cons h with hsome | hrest
      · have hopening : (opening (u :: t ++ joint c y)).isSome = true := hsome
        rw [opening_joint hc hd hbrace, isSome_map] at hopening
        exact .inl ⟨[], u :: t, rfl, hopening⟩
      · exact (ih hrest).imp_left fun hmarked => hmarked.left [u]
  · rintro (⟨p, s, rfl, hopening⟩ | h)
    · refine ⟨p, s ++ joint c y, append_assoc .., ?_⟩
      rw [opening_joint hc hd hbrace, isSome_map]
      exact hopening
    · exact (hjoint.mpr h).left t

theorem marked_block_iff (t : Turn) : Marked t.block ↔ Marked t.text := by
  rw [Turn.block, ← append_assoc, ← append_assoc]
  refine marked_append_iff ?_
  rw [Turn.title]
  split_ifs <;> decide

theorem marked_join_iff (b : Utf16) (parts : List Utf16) :
    Marked (Chunking.join separator (b :: parts)) ↔ Marked b ∨ ∃ c ∈ parts, Marked c := by
  induction parts generalizing b with
  | nil =>
    rw [join_singleton]
    simp
  | cons c parts ih =>
    have hjoint : Chunking.join separator (b :: c :: parts) =
        b ++ joint 0x2d (ascii "--\n\n" ++ Chunking.join separator (c :: parts)) :=
      join_cons_cons b c parts
    have hdashes : Marked (0x2d :: (ascii "--\n\n" ++ Chunking.join separator (c :: parts))) ↔
        Marked (Chunking.join separator (c :: parts)) :=
      marked_append_iff (a := ascii "---\n\n") (by decide)
    rw [hjoint, marked_joint_iff (by decide) (by decide) (by decide), hdashes, ih]
    simp only [mem_cons, exists_eq_or_imp]

theorem marked_conversation_iff (turns : List Turn) :
    Marked (conversation turns) ↔ ∃ t ∈ turns, Marked t.text := by
  have hheader : ¬Marked header := fun h =>
    not_marked_nil ((marked_append_iff (by decide)).mp ((append_nil header).symm ▸ h))
  rw [conversation, marked_join_iff, or_iff_right hheader]
  constructor
  · rintro ⟨c, hc, h⟩
    obtain ⟨t, ht, rfl⟩ := mem_map.mp hc
    exact ⟨t, ht, (marked_block_iff t).mp h⟩
  · rintro ⟨t, ht, h⟩
    exact ⟨t.block, mem_map_of_mem ht, (marked_block_iff t).mpr h⟩

/-! ### Which conversations come back -/

/-- An object whose one member is null. -/
def single : List (JsString × Value) := [(js "a", .null)]

def nullText : Utf16 := [0x7b, 0x22, 0x61, 0x22, 0x3a, 0x6e, 0x75, 0x6c, 0x6c, 0x7d]

theorem jsonText_nil : jsonText (.obj []) = [0x7b, 0x7d] := by decide

theorem jsonText_single : jsonText (.obj single) = nullText := by decide

theorem closed_of_not_mem {j : Utf16} (h : 0x2d ∉ j) : Closed j := by
  rintro p q rfl - hfront
  obtain ⟨w, -, hq, -⟩ := exists_skipSpace q
  have hmem : (0x2d : UInt16) ∈ q := by
    rw [hq]
    exact mem_append_right _ (hfront.subset (by decide))
  exact h (mem_append_right _ (mem_cons_of_mem _ hmem))

theorem closed_nil : Closed (jsonText (.obj [])) := closed_of_not_mem (by rw [jsonText_nil]; decide)

theorem closed_single : Closed (jsonText (.obj single)) :=
  closed_of_not_mem (by rw [jsonText_single]; decide)

/-- The messages come back with all metadata when the export keeps them and none of them has a
marker; metadata come back with such messages when the comment is not closed in them. -/
theorem conversation_resumed (l : Language) (hnil : Returned l []) (hsingle : Returned l single)
    (turns : List Turn) :
    ((∀ members, Returned l members → Closed (jsonText (.obj members)) →
        Resumed l turns (.obj members)) ↔ Kept turns ∧ ∀ t ∈ turns, ¬Marked t.text) ∧
      ∀ members, Returned l members → (∀ t ∈ turns, ¬Marked t.text) →
        (Resumed l turns (.obj members) ↔ Kept turns ∧ Closed (jsonText (.obj members))) := by
  have hunmarked : (∀ t ∈ turns, ¬Marked t.text) ↔ ¬Marked (conversation turns) := by
    rw [marked_conversation_iff]
    push Not
    rfl
  rw [hunmarked]
  refine ⟨⟨fun h => ⟨kept_of_parse (h [] hnil closed_nil).messages, fun hmarked => ?_⟩, ?_⟩, ?_⟩
  · -- Two objects would be read from one marker.
    obtain ⟨read, hread⟩ := metadata_of_marked l hmarked
    have hfirst := (h [] hnil closed_nil).metadata
    have hsecond := (h single hsingle closed_single).metadata
    rw [hread] at hfirst hsecond
    cases hfirst.symm.trans hsecond
  · rintro ⟨hkept, hmarked⟩ members hreturned hclosed
    exact resumed l hkept hmarked hclosed hreturned
  · intro members hreturned hmarked
    constructor
    · intro h
      exact ⟨kept_of_parse h.messages, closed_of_metadata l hmarked hreturned h.metadata⟩
    · rintro ⟨hkept, hclosed⟩
      exact resumed l hkept hmarked hclosed hreturned

/-- Two JSON texts and their values. -/
def lookupJson (text : Utf16) : Option Value :=
  if text = [0x7b, 0x7d] then some (.obj [])
  else if text = nullText then some (.obj single)
  else none

theorem lookupJson_isSome (h : (lookupJson t).isSome) : t = [0x7b, 0x7d] ∨ t = nullText := by
  rw [lookupJson] at h
  split_ifs at h with hnil hsingle
  · exact .inl hnil
  · exact .inr hsingle
  · exact Bool.noConfusion h

theorem lookupJson_object {p q : Utf16} (hp : (lookupJson (0x7b :: p)).isSome)
    (hpq : (lookupJson (0x7b :: (p ++ q))).isSome) : q = [] := by
  rcases lookupJson_isSome hp with h | h <;> rcases lookupJson_isSome hpq with h' | h' <;>
    obtain rfl : p = _ := (cons.inj h).2
  · exact append_right_eq_self.mp (cons.inj h').2
  · exact absurd (cons.inj (cons.inj h').2).1 (by decide)
  · exact absurd (cons.inj (cons.inj h').2).1 (by decide)
  · exact append_right_eq_self.mp (cons.inj h').2

/-- Letters are ASCII here. -/
def lookup : Language where
  parse := lookupJson
  toLowerCase text := text.map lowerAscii
  toUpperCase text := text.map fun u => if 0x61 ≤ u && u ≤ 0x7a then u - 0x20 else u
  parse_line p q := by
    have hline : 0x0a ∈ p ++ 0x0a :: 0x3c :: q := mem_append_right _ mem_cons_self
    by_contra hne
    rcases lookupJson_isSome (isSome_iff_ne_none.mpr hne) with h | h <;>
    · rw [h] at hline
      exact absurd hline (by decide)
  parse_object p q hp hpq := by
    rw [lookupJson_object hp hpq]
    exact nofun
  lower_ascii _ _ := rfl

theorem returned_nil : Returned lookup [] := by rfl

theorem returned_single : Returned lookup single := by rfl

def greeting : List Turn :=
  [⟨false, ascii "Hello", [], by decide, by decide, by decide⟩,
    ⟨true, ascii "Hello.", ascii "A greeting", by decide, by decide, by decide⟩]

theorem conversation_resumed_greeting : Resumed lookup greeting (.obj single) := by
  have hplain : ∀ t ∈ greeting, 0x2d ∉ 0x0a :: (t.text ++ [0x0a]) ∧ 0x3c ∉ t.text ∧
      ¬ascii "\n\n" <:+: t.reasoning ∧ ¬ascii "### Reasoning" <+: t.content := by decide
  have hkept : Kept greeting := by
    refine ⟨fun t ht => ?_, fun t ht => ?_, fun t ht => ?_⟩
    · exact ⟨(hplain t ht).2.2.1, fun _ => (hplain t ht).2.2.2⟩
    · exact fun hruled => (hplain t (mem_of_mem_dropLast ht)).1 hruled.mem
    · exact fun hruled => (hplain t (mem_of_getLast? ht)).1 (hruled.right [0x0a]).mem
  have hunmarked : ∀ t ∈ greeting, ¬Marked t.text := by
    intro t ht hmarked
    refine not_marked_nil ((marked_append_iff (hplain t ht).2.1).mp ?_)
    rwa [append_nil]
  have hresumed := conversation_resumed lookup returned_nil returned_single greeting
  exact (hresumed.2 single returned_single hunmarked).mpr ⟨hkept, closed_single⟩

/-- A message with a rule in it is cut there. -/
theorem conversation_cut : ¬∀ (l : Language) (turns : List Turn)
    (members : List (JsString × Value)), Returned l members →
      Resumed l turns (.obj members) := by
  intro h
  have hresumed := h lookup [⟨false, ascii "a\n---\nb", [], by decide, by decide, by decide⟩] []
    returned_nil
  refine (kept_of_parse hresumed.messages).last _ rfl ?_
  exact ⟨ascii "\na\n", ascii "\nb", ⟨ascii "\na", [], Spaces.nil, rfl⟩,
    ⟨[], ascii "b", Spaces.nil, rfl⟩, rfl⟩

end Ds4Studio.Web.Conversation

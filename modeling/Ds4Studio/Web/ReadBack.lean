import Ds4Studio.Web.Resumed

/-!
What is true of all messages that are read from a text, whatever the text is: reasoning and content
are told apart as an export has them, and no line that can be a rule is in them.
-/

namespace Ds4Studio.Web.Conversation

open Chunking List Option Utf16

variable {t w w' : Utf16}

/-! ### The body of a block -/

theorem not_blank_of_cut {text x y : Utf16} (h : Search.cut (ascii "\n\n") text = some (x, y)) :
    ¬ascii "\n\n" <:+: x := by
  obtain ⟨hfind, rfl⟩ := Search.cut_eq_some_iff.mp h
  obtain ⟨-, -, hfirst⟩ := (Search.find_eq_some_iff _ _ _).mp hfind
  rintro ⟨a, b, rfl⟩
  refine hfirst a.length ?_ ?_
  · rw [length_append, length_append, ascii_blank, length_cons]
    omega
  · rw [append_assoc, append_assoc, append_assoc, drop_left]
    exact prefix_append _ _

theorem Tight.suffix {a b : Utf16} (h : Tight (a ++ b)) (hne : b ≠ []) :
    ∀ u, b.getLast? = some u → isSpace u = false := by
  intro u hu
  exact h.last u (by rw [getLast?_append_of_ne_nil _ hne, hu])

theorem exists_trim_left (hlast : ∀ u, t.getLast? = some u → isSpace u = false) (hne : t ≠ []) :
    ∃ w, Spaces w ∧ t = w ++ trim t ∧ trim t ≠ [] := by
  obtain ⟨w, w', hw, hw', ht, -⟩ := exists_trim t
  have hend : w' = [] := by
    by_contra hne'
    have hlast' := hlast (w'.getLast hne') (by
      rw [ht, getLast?_append_of_ne_nil _ (append_ne_nil_of_right_ne_nil _ hne'),
        getLast?_append_of_ne_nil _ hne', getLast?_eq_some_getLast hne'])
    rw [hw' _ (getLast_mem hne')] at hlast'
    exact Bool.noConfusion hlast'
  rw [hend, append_nil] at ht
  refine ⟨w, hw, ht, fun hnil => ?_⟩
  rw [hnil, append_nil] at ht
  have hlast' := hlast (t.getLast hne) (getLast?_eq_some_getLast hne)
  rw [hw _ (ht ▸ getLast_mem hne)] at hlast'
  exact Bool.noConfusion hlast'

/-- What stands in front of the reasoning of a body: its title, which can also be taken as the
beginning of the reasoning. -/
def Lead (f : Utf16) : Prop := f = [] ∨ ∃ w, Spaces w ∧ 0x0a ∈ w ∧ f = ascii "### Reasoning" ++ w

/-- How a body with reasoning is divided. -/
structure Divided (body reasoning content : Utf16) : Prop where
  plain : ¬ascii "\n\n" <:+: reasoning
  filled : reasoning ≠ []
  parts : ∃ f, Lead f ∧ (content = [] ∧ body = f ++ reasoning ∨
    content ≠ [] ∧ ∃ w, Spaces w ∧ 0x0a ∈ w ∧ body = f ++ (reasoning ++ (w ++ content)))

/-- A text that does not begin as a line end does, nor with white space in front of one. -/
def Started (t : Utf16) : Prop := ∀ w z, Spaces w → t ≠ w ++ 0x0a :: z

variable {body : Utf16}

theorem exists_lead {rest : Utf16} (hbody : Tight body)
    (h : behind (ascii "### Reasoning") body = some rest) :
    ∃ f, body = f ++ (afterBlank rest).getD body ∧ (afterBlank rest).getD body ≠ [] ∧
      Started ((afterBlank rest).getD body) ∧
      ∀ w r, Spaces w → (afterBlank rest).getD body = w ++ r → Lead (f ++ w) := by
  have htitle := behind_some h
  rcases hafter : afterBlank rest with _ | after
  · refine ⟨[], rfl, htitle ▸ append_ne_nil_of_left_ne_nil (by decide) _, fun w z hw ht => ?_,
      fun w r hw ht => .inl ?_⟩
    · cases w with
      | nil =>
        rw [htitle] at ht
        exact absurd (cons.inj ht).1 (by decide)
      | cons u w =>
        have hu := hbody.head u (by rw [← getD_none (a := body), ht]; rfl)
        rw [hw u mem_cons_self] at hu
        exact Bool.noConfusion hu
    · cases w with
      | nil => rfl
      | cons u w =>
        have hu := hbody.head u (by rw [← getD_none (a := body), ht]; rfl)
        rw [hw u mem_cons_self] at hu
        exact Bool.noConfusion hu
  · obtain ⟨v, hv, rfl, hnone⟩ := afterBlank_some hafter
    refine ⟨ascii "### Reasoning" ++ (v ++ [0x0a]), by simp [htitle], ?_, fun w z hw ht => ?_,
      fun w r hw ht => .inr ⟨v ++ [0x0a] ++ w, ?_, ?_, by simp⟩⟩
    · rintro rfl
      have hend := hbody.last 0x0a (by simp [htitle])
      exact absurd hend (by decide)
    · have hsome := afterBlank_isSome hw z
      rw [← ht, getD_some, hnone] at hsome
      exact Bool.noConfusion hsome
    · exact (hv.append (by decide)).append hw
    · simp

theorem splitReasoning_cases (h : Tight body) :
    splitReasoning body = ([], body) ∧ ¬ascii "### Reasoning" <+: body ∨
      Divided body (splitReasoning body).1 (splitReasoning body).2 := by
  rw [splitReasoning]
  rcases hbehind : behind (ascii "### Reasoning") body with _ | rest
  · refine .inl ⟨rfl, fun hprefix => ?_⟩
    have hsome := behind_isSome_iff.mpr hprefix
    rw [hbehind] at hsome
    exact Bool.noConfusion hsome
  refine .inr ?_
  obtain ⟨f, hf, hne, hstarted, hlead⟩ := exists_lead h hbehind
  dsimp only
  generalize (afterBlank rest).getD body = text at hf hne hstarted hlead ⊢
  have hlast := Tight.suffix (hf ▸ h) hne
  rcases hcut : Search.cut (ascii "\n\n") text with _ | ⟨x, y⟩
  · -- All of it is reasoning.
    have hblank := (Search.cut_eq_none_iff _ _).mp hcut
    obtain ⟨w, hw, htext, hreasoning⟩ := exists_trim_left hlast hne
    have hpart : trim text <:+: text := ⟨w, [], (append_nil _).trans htext.symm⟩
    refine ⟨fun hwithin => hblank (hwithin.trans hpart), hreasoning, f ++ w, hlead w _ hw htext,
      .inl ⟨rfl, ?_⟩⟩
    · rw [append_assoc, ← htext]
      exact hf
  · -- The content is behind the first blank line.
    obtain ⟨-, rfl⟩ := Search.cut_eq_some_iff.mp hcut
    obtain ⟨w, w', hw, hw', hx, -⟩ := exists_trim x
    have hy : y ≠ [] := by
      rintro rfl
      have hend := hlast 0x0a (by simp [ascii_blank])
      exact absurd hend (by decide)
    obtain ⟨v, hv, hy', hcontent⟩ := exists_trim_left (fun u hu => hlast u (by
      rw [getLast?_append_of_ne_nil _ hy, hu])) hy
    have hreasoning : trim x ≠ [] := by
      intro hnil
      rw [hnil] at hx
      refine hstarted x (0x0a :: y) ?_ (by simp [ascii_blank])
      rw [hx]
      exact hw.append hw'
    refine ⟨fun hwithin => not_blank_of_cut hcut (hwithin.trans ?_), hreasoning, f ++ w,
      hlead w (trim x ++ w' ++ ascii "\n\n" ++ y) hw ?_, .inr ⟨hcontent,
        w' ++ (ascii "\n\n" ++ v), hw'.append (Spaces.append (by decide) hv), ?_, ?_⟩⟩
    · exact ⟨w, w', by rw [append_assoc, ← hx]⟩
    · rw [← append_assoc, ← append_assoc, ← hx]
    · exact mem_append_right _ (mem_append_left _ (by decide))
    · calc body = f ++ (x ++ ascii "\n\n" ++ y) := hf
        _ = f ++ (w ++ (trim x ++ w') ++ ascii "\n\n" ++ (v ++ trim y)) := by rw [← hx, ← hy']
        _ = f ++ w ++ (trim x ++ (w' ++ (ascii "\n\n" ++ v) ++ trim y)) := by simp

/-- A rule in the export of a message is in the body that it was read from. -/
theorem Lead.ruled {f z : Utf16} (h : Lead f)
    (hruled : Ruled (0x0a :: (ascii "### Reasoning" ++ (ascii "\n\n" ++ z)))) :
    Ruled (0x0a :: (f ++ z)) := by
  rcases h with rfl | ⟨w, hw, hline, rfl⟩
  · have hbehind : Ruled ((0x0a :: (ascii "### Reasoning" ++ [0x0a])) ++ 0x0a :: z) := by
      simpa [ascii_blank] using hruled
    exact hbehind.behind (by decide)
  · have hspaced := Ruled.respace (a := 0x0a :: ascii "### Reasoning") (w := ascii "\n\n") (b := z)
      hruled (by decide) (by decide) hw hline
    simpa using hspaced

theorem ruled_body {t : Turn} (hbody : Tight body)
    (ht : splitReasoning body = (t.reasoning, t.content)) (e : Utf16)
    (h : Ruled (0x0a :: (t.text ++ e))) : Ruled (0x0a :: (body ++ e)) := by
  rcases splitReasoning_cases hbody with ⟨hplain, -⟩ | hdivided
  · obtain ⟨hreasoning, hcontent⟩ := Prod.mk.inj (hplain.symm.trans ht)
    rwa [Turn.text, if_pos hreasoning.symm, ← hcontent] at h
  · rw [ht] at hdivided
    obtain ⟨-, hreasoning, f, hf, hparts⟩ := hdivided
    dsimp only at hreasoning hparts
    rw [Turn.text, if_neg hreasoning, ascii_reasoning] at h
    rcases hparts with ⟨hcontent, rfl⟩ | ⟨hcontent, w, hw, hline, rfl⟩
    · rw [hcontent] at h
      rw [append_assoc]
      exact hf.ruled (by simpa using h)
    · rw [if_neg hcontent] at h
      have hspaced := Ruled.respace (a := 0x0a :: (ascii "### Reasoning\n\n" ++ t.reasoning))
        (w := ascii "\n\n") (b := t.content ++ e) (by simpa [ascii_reasoning] using h) (by decide)
        (by decide) hw hline
      rw [append_assoc]
      exact hf.ruled (by simpa [ascii_reasoning] using hspaced)

theorem parted_of_body {t : Turn} (hbody : Tight body)
    (ht : splitReasoning body = (t.reasoning, t.content)) : t.Parted := by
  rcases splitReasoning_cases hbody with ⟨hplain, hprefix⟩ | hdivided
  · obtain ⟨hreasoning, rfl⟩ := Prod.mk.inj (hplain.symm.trans ht)
    refine ⟨fun hinfix => ?_, fun _ => hprefix⟩
    rw [← hreasoning] at hinfix
    exact absurd hinfix (by decide)
  · rw [ht] at hdivided
    exact ⟨hdivided.plain, fun hreasoning => absurd hreasoning hdivided.filled⟩

/-! ### Blocks -/

theorem lazyTitle_some {p : Utf16 × Utf16} (h : lazyTitle t = some p) :
    ∃ f, t = f ++ 0x0a :: p.2 := by
  fun_induction lazyTitle t generalizing p with
  | case1 => cases h
  | case2 => cases h
  | case3 u rest hu body hbody =>
    cases h
    obtain ⟨w, -, rfl, -⟩ := afterBlank_some hbody
    exact ⟨u :: w, rfl⟩
  | case4 u rest hu hbody ih =>
    obtain ⟨q, hq, rfl⟩ := map_eq_some_iff.mp h
    obtain ⟨f, rfl⟩ := ih hq
    exact ⟨u :: f, rfl⟩

theorem spacedTitle_some {p : Utf16 × Utf16} (h : spacedTitle t = some p) :
    ∃ f, t = f ++ 0x0a :: p.2 := by
  fun_induction spacedTitle t generalizing p with
  | case1 => cases h
  | case2 u rest hu q hq ih =>
    cases h
    obtain ⟨f, rfl⟩ := ih hq
    exact ⟨u :: f, rfl⟩
  | case3 u rest hu hnone ih =>
    obtain ⟨f, rfl⟩ := lazyTitle_some h
    exact ⟨u :: f, rfl⟩
  | case4 => cases h

variable {l : Language} {part : Utf16}

theorem parseBlock_some {p : Parsed} (h : parseBlock l part = some p) :
    ∃ f w body w', Spaces w ∧ Spaces w' ∧ Tight body ∧ part = f ++ 0x0a :: (w ++ (body ++ w')) ∧
      splitReasoning body = (p.reasoning, p.content) := by
  obtain ⟨q, hq, rfl⟩ := map_eq_some_iff.mp h
  obtain ⟨after, hafter, htitle⟩ := bind_eq_some_iff.mp hq
  obtain ⟨f, rfl⟩ := spacedTitle_some htitle
  obtain ⟨w, w', hw, hw', hbody, htight⟩ := exists_trim q.2
  refine ⟨ascii "##" ++ f, w, trim q.2, w', hw, hw', htight, ?_, rfl⟩
  rw [← hbody, behind_some hafter, append_assoc]

theorem Ruled.widen {a e : Utf16} (h : Ruled (a ++ e)) (hw : Spaces w) (he : e = [] ∨ e = [0x0a]) :
    Ruled (a ++ (w ++ e)) := by
  rcases he with rfl | rfl
  · rw [append_nil] at h ⊢
    exact h.right w
  · have hspaces : Spaces (w ++ [0x0a]) := hw.append (by decide)
    have hspaced := Ruled.respace (b := []) (by simpa using h) (by decide)
      (cons_ne_nil _ _) hspaces (by simp)
    simpa using hspaced

theorem not_ruled_of_part {t : Turn} {e : Utf16} (ht : parseBlock l (trim part) = some t.parsed)
    (he : e = [] ∨ e = [0x0a]) (h : ¬Ruled (part ++ e)) : ¬Ruled (0x0a :: (t.text ++ e)) := by
  intro hruled
  obtain ⟨v, v', -, hv', hpart, -⟩ := exists_trim part
  obtain ⟨f, w, body, w', hw, hw', htight, hblock, hsplit⟩ := parseBlock_some ht
  have hspaced : Ruled ([] ++ ((0x0a :: w) ++ (body ++ e))) :=
    Ruled.respace (w := [0x0a]) (ruled_body htight hsplit e hruled) (by decide)
      (cons_ne_nil _ _) (forall_mem_cons.mpr ⟨by decide, hw⟩) mem_cons_self
  have hbody : Ruled ((0x0a :: (w ++ body)) ++ (w' ++ v' ++ e)) :=
    Ruled.widen (by simpa using hspaced) (hw'.append hv') he
  refine h ?_
  rw [hpart, hblock]
  simpa using hbody.left (v ++ f)

/-- The messages that are read from the parts of a text. -/
def readParts (l : Language) (parts : List Utf16) : List Parsed :=
  ((parts.map trim).filter (hasHeading true)).filterMap (parseBlock l)

theorem readParts_append (l : Language) (a b : List Utf16) :
    readParts l (a ++ b) = readParts l a ++ readParts l b := by
  simp [readParts]

theorem exists_part {parts : List Utf16} {p : Parsed} (h : p ∈ readParts l parts) :
    ∃ part ∈ parts, parseBlock l (trim part) = some p := by
  obtain ⟨block, hblock, hp⟩ := mem_filterMap.mp h
  obtain ⟨part, hpart, rfl⟩ := mem_map.mp (mem_of_mem_filter hblock)
  exact ⟨part, hpart, hp⟩

theorem length_readParts_singleton (l : Language) (part : Utf16) :
    (readParts l [part]).length ≤ 1 := by
  refine (length_filterMap_le _ _).trans ?_
  exact (length_filter_le _ _).trans (by simp)

theorem Turn.parted_of_part {t : Turn} (ht : parseBlock l part = some t.parsed) : t.Parted := by
  obtain ⟨-, -, body, -, -, -, htight, -, hsplit⟩ := parseBlock_some ht
  exact parted_of_body htight hsplit

/-- Whatever text messages are read from, they are kept by their export. -/
theorem kept_of_parse {markdown : Utf16} {turns : List Turn}
    (h : parseConversationMarkdown l markdown = turns.map Turn.parsed) : Kept turns := by
  obtain ⟨front, last, hparts, hfront, hlast⟩ := splitRules_parts (trim (withoutMetadata markdown))
  rw [parseConversationMarkdown] at h
  split_ifs at h with hraw
  · have hnil : turns = [] := map_eq_nil_iff.mp h.symm
    subst hnil
    constructor <;> simp
  rw [hparts] at h
  have hread : readParts l (front ++ [last]) = turns.map Turn.parsed := h
  have hparted : ∀ t ∈ turns, t.Parted := fun t ht => by
    have hmem : t.parsed ∈ readParts l (front ++ [last]) := hread ▸ mem_map_of_mem ht
    obtain ⟨part, -, hpart⟩ := exists_part hmem
    exact Turn.parted_of_part hpart
  refine ⟨hparted, fun t ht => ?_, fun t ht => ?_⟩
  · -- The last part has one message at most, so the others are from the parts in front.
    have hmem : t.parsed ∈ readParts l front := by
      have hdrop : t.parsed ∈ (readParts l front ++ readParts l [last]).dropLast := by
        rw [← readParts_append, hread, ← map_dropLast]
        exact mem_map_of_mem ht
      have hone := length_readParts_singleton l last
      rcases hsingle : readParts l [last] with _ | ⟨p, more⟩
      · rw [hsingle, append_nil] at hdrop
        exact mem_of_mem_dropLast hdrop
      · rw [hsingle, length_cons] at hone
        have hmore : more = [] := eq_nil_of_length_eq_zero (by omega)
        rwa [hsingle, hmore, dropLast_concat] at hdrop
    obtain ⟨part, hpart, hblock⟩ := exists_part hmem
    exact not_ruled_of_part hblock (.inr rfl) (hfront part hpart)
  · have hmem : t.parsed ∈ readParts l (front ++ [last]) :=
      hread ▸ mem_map_of_mem (mem_of_getLast? ht)
    obtain ⟨part, hpart, hblock⟩ := exists_part hmem
    have hplain : ¬Ruled part := by
      rcases mem_append.mp hpart with hmore | hend
      · exact fun hruled => hfront part hmore (hruled.right _)
      · exact mem_singleton.mp hend ▸ hlast
    have htext := not_ruled_of_part hblock (.inl rfl) (by rwa [append_nil])
    rwa [append_nil] at htext

end Ds4Studio.Web.Conversation

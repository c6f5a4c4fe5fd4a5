import Ds4Studio.Web.Conversation

/-!
Conversations that are read back from their raw export: which ones come back message by message,
and with which metadata.
-/

namespace Ds4Studio.Web.Conversation

open Chunking Json List Utf16

/-! ### White space -/

def Spaces (w : Utf16) : Prop := ∀ u ∈ w, isSpace u = true

instance (w : Utf16) : Decidable (Spaces w) := decidableBAll _ w

/-- The text neither starts nor ends with white space. -/
structure Tight (t : Utf16) : Prop where
  head : ∀ u, t.head? = some u → isSpace u = false
  last : ∀ u, t.getLast? = some u → isSpace u = false

variable {t w w' : Utf16}

theorem Spaces.nil : Spaces [] := nofun

theorem Spaces.append (h : Spaces w) (h' : Spaces w') : Spaces (w ++ w') :=
  fun u hu => (mem_append.mp hu).elim (h u) (h' u)

theorem Spaces.left (h : Spaces (w ++ w')) : Spaces w :=
  fun u hu => h u (mem_append_left _ hu)

theorem Spaces.right (h : Spaces (w ++ w')) : Spaces w' :=
  fun u hu => h u (mem_append_right _ hu)

theorem skipSpace_spaces (h : Spaces w) (t : Utf16) : skipSpace (w ++ t) = skipSpace t :=
  dropWhile_append_of_pos h

theorem skipSpace_head (h : ∀ u, t.head? = some u → isSpace u = false) : skipSpace t = t := by
  cases t with
  | nil => rfl
  | cons u t => exact dropWhile_cons_of_neg (by simp [h u rfl])

theorem exists_skipSpace (t : Utf16) : ∃ w, Spaces w ∧ t = w ++ skipSpace t ∧
    ∀ u, (skipSpace t).head? = some u → isSpace u = false := by
  refine ⟨t.takeWhile isSpace, fun u hu => mem_takeWhile_imp hu,
    takeWhile_append_dropWhile.symm, fun u hu => ?_⟩
  have hhead := head?_dropWhile_not isSpace t
  rw [skipSpace] at hu
  rw [hu] at hhead
  simpa using hhead

theorem trim_eq (hw : Spaces w) (h : Tight t) (hw' : Spaces w') : trim (w ++ (t ++ w')) = t := by
  rw [trim, dropWhile_append_of_pos hw]
  rcases eq_nil_or_concat' t with rfl | ⟨front, last, rfl⟩
  · rw [nil_append, dropWhile_eq_nil_iff.mpr hw']
    rfl
  · have hfront : skipSpace (front ++ [last] ++ w') = front ++ [last] ++ w' := by
      apply skipSpace_head
      intro u hu
      apply h.head u
      cases front <;> exact hu
    rw [skipSpace] at hfront
    rw [hfront, reverse_append, dropWhile_append_of_pos
      (fun u hu => hw' u (mem_reverse.mp hu)), reverse_append, reverse_singleton,
      singleton_append, dropWhile_cons_of_neg (by simp [h.last last (by simp)])]
    simp

theorem trim_tight (h : Tight t) : trim t = t := by simpa using trim_eq Spaces.nil h Spaces.nil

theorem exists_trim (t : Utf16) :
    ∃ w w', Spaces w ∧ Spaces w' ∧ t = w ++ (trim t ++ w') ∧ Tight (trim t) := by
  obtain ⟨w, hw, ht, hhead⟩ := exists_skipSpace t
  obtain ⟨w', hw', hback, hlast⟩ := exists_skipSpace (skipSpace t).reverse
  have htrim : trim t = (skipSpace (skipSpace t).reverse).reverse := rfl
  have hskip : skipSpace t = trim t ++ w'.reverse := by
    rw [htrim, ← reverse_append, ← hback, reverse_reverse]
  refine ⟨w, w'.reverse, hw, fun u hu => hw' u (mem_reverse.mp hu), hskip ▸ ht, ?_, ?_⟩
  · intro u hu
    apply hhead u
    rw [hskip, head?_append, hu]
    rfl
  · intro u hu
    rw [htrim, getLast?_reverse] at hu
    exact hlast u hu

theorem tight_trim (t : Utf16) : Tight (trim t) := by
  obtain ⟨-, -, -, -, -, h⟩ := exists_trim t
  exact h

theorem tight_of_trim (h : trim t = t) : Tight t := h ▸ tight_trim t

variable {a b : Utf16}

theorem Tight.append (ha : Tight a) (hb : Tight b) (hne : a ≠ []) (hne' : b ≠ [])
    (w : Utf16) : Tight (a ++ (w ++ b)) := by
  obtain ⟨u, a, rfl⟩ := exists_cons_of_ne_nil hne
  obtain ⟨b, v, rfl⟩ := eq_nil_or_concat' b |>.resolve_left hne'
  constructor
  · exact fun x hx => ha.head x hx
  · intro x hx
    rw [getLast?_append_of_ne_nil _ (by simp), getLast?_append_of_ne_nil _ hne'] at hx
    exact hb.last x hx

variable {after : Utf16}

theorem afterBlank_some (h : afterBlank t = some after) :
    ∃ w, Spaces w ∧ t = w ++ 0x0a :: after ∧ afterBlank after = none := by
  fun_induction afterBlank t with
  | case1 => cases h
  | case2 u rest hu more hmore ih =>
    cases h
    obtain ⟨w, hw, rfl, hnone⟩ := ih hmore
    exact ⟨u :: w, forall_mem_cons.mpr ⟨hu, hw⟩, rfl, hnone⟩
  | case3 rest hnone hu ih =>
    cases h
    exact ⟨[], Spaces.nil, rfl, hnone⟩
  | case4 => cases h
  | case5 => cases h

theorem afterBlank_isSome (hw : Spaces w) (t : Utf16) :
    (afterBlank (w ++ 0x0a :: t)).isSome = true := by
  induction w with
  | nil =>
    rw [nil_append, afterBlank, if_pos (by decide)]
    split <;> rfl
  | cons u w ih =>
    obtain ⟨hu, hw⟩ := forall_mem_cons.mp hw
    obtain ⟨after, hafter⟩ := Option.isSome_iff_exists.mp (ih hw)
    rw [cons_append, afterBlank, if_pos hu, hafter]
    rfl

theorem afterBlank_head (h : ∀ u, t.head? = some u → isSpace u = false) : afterBlank t = none := by
  cases t with
  | nil => rfl
  | cons u t => rw [afterBlank, if_neg (by simp [h u rfl])]

theorem afterBlank_eq (hw : Spaces w) (h : ∀ u, t.head? = some u → isSpace u = false) :
    afterBlank (w ++ 0x0a :: t) = some t := by
  induction w with
  | nil =>
    rw [nil_append, afterBlank, afterBlank_head h]
    rfl
  | cons u w ih =>
    obtain ⟨hu, hw⟩ := forall_mem_cons.mp hw
    rw [cons_append, afterBlank, if_pos hu, ih hw]

theorem behind_some {literal : Utf16} (h : behind literal t = some after) :
    t = literal ++ after := by
  rw [behind] at h
  split_ifs at h with hprefix
  cases h
  exact (prefix_iff_eq_append.mp hprefix).symm

theorem behind_append (literal t : Utf16) : behind literal (literal ++ t) = some t := by
  rw [behind, if_pos (prefix_append _ _), drop_left]

theorem behind_isSome_iff {literal : Utf16} : (behind literal t).isSome = true ↔ literal <+: t := by
  rw [behind]
  split_ifs with h
  · exact ⟨fun _ => h, fun _ => rfl⟩
  · exact ⟨fun hnone => Bool.noConfusion hnone, fun hprefix => absurd hprefix h⟩

/-! ### Rules -/

/-- A line starts, and there is only white space behind. -/
def LineStart (p : Utf16) : Prop := ∃ front w, Spaces w ∧ p = front ++ 0x0a :: w

/-- A line ends, and there is only white space in front. -/
def LineEnd (q : Utf16) : Prop := ∃ w back, Spaces w ∧ q = w ++ 0x0a :: back

/-- `\n\s*---\s*\n` matches somewhere in the text. -/
def Ruled (t : Utf16) : Prop := ∃ p q, LineStart p ∧ LineEnd q ∧ t = p ++ (dashes ++ q)

theorem LineStart.left {p : Utf16} (h : LineStart p) (a : Utf16) : LineStart (a ++ p) := by
  obtain ⟨front, w, hw, rfl⟩ := h
  exact ⟨a ++ front, w, hw, append_assoc .. |>.symm⟩

theorem LineEnd.right {q : Utf16} (h : LineEnd q) (b : Utf16) : LineEnd (q ++ b) := by
  obtain ⟨w, back, hw, rfl⟩ := h
  exact ⟨w, back ++ b, hw, append_assoc ..⟩

theorem LineStart.of_append (h : LineStart (a ++ b)) :
    LineStart b ∨ Spaces b ∧ LineStart a := by
  obtain ⟨front, w, hw, h⟩ := h
  rcases append_eq_append_iff.mp h with ⟨m, rfl, hm⟩ | ⟨m, rfl, hm⟩
  · exact .inl ⟨m, w, hw, hm⟩
  · cases m with
    | nil => exact .inl ⟨[], w, hw, hm.symm⟩
    | cons u m =>
      obtain ⟨rfl, rfl⟩ := cons.inj hm
      exact .inr ⟨hw.right, front, m, hw.left, rfl⟩

theorem LineEnd.of_append (h : LineEnd (a ++ b)) :
    LineEnd a ∨ Spaces a ∧ LineEnd b := by
  obtain ⟨w, back, hw, h⟩ := h
  rcases append_eq_append_iff.mp h with ⟨m, rfl, hm⟩ | ⟨m, rfl, hm⟩
  · exact .inr ⟨hw.left, m, back, hw.right, hm⟩
  · cases m with
    | nil => exact .inr ⟨by simpa using hw, [], back, Spaces.nil, hm.symm⟩
    | cons u m =>
      obtain ⟨rfl, rfl⟩ := cons.inj hm
      exact .inl ⟨w, m, hw, rfl⟩

theorem dashes_solid : ∀ u ∈ dashes, isSpace u = false := Bytes.forall_of_all (by decide)

theorem dashes_cases {a w b p q : Utf16} (hw : Spaces w) (hne : w ≠ [])
    (h : a ++ (w ++ b) = p ++ (dashes ++ q)) :
    (∃ m, a = p ++ (dashes ++ m) ∧ q = m ++ (w ++ b)) ∨
      ∃ m, b = m ++ (dashes ++ q) ∧ p = a ++ (w ++ m) := by
  rcases append_eq_append_iff.mp h with ⟨m, rfl, hm⟩ | ⟨m, rfl, hm⟩
  · rcases append_eq_append_iff.mp hm with ⟨n, rfl, hn⟩ | ⟨n, rfl, hn⟩
    · exact .inr ⟨n, hn, rfl⟩
    · cases n with
      | nil => exact .inr ⟨[], hn.symm, by simp⟩
      | cons u n =>
        have hu : u ∈ dashes := by exact (cons.inj hn).1 ▸ mem_cons_self
        exact absurd (hw u (by simp)) (by simp [dashes_solid u hu])
  · rcases append_eq_append_iff.mp hm with ⟨n, rfl, hn⟩ | ⟨n, hn', hn⟩
    · exact .inl ⟨n, rfl, hn⟩
    · cases n with
      | nil =>
        rw [append_nil] at hn'
        exact .inl ⟨[], by rw [hn', append_nil], hn.symm⟩
      | cons u n =>
        obtain ⟨v, w, rfl⟩ := exists_cons_of_ne_nil hne
        have hu : u ∈ dashes := hn' ▸ mem_append_right _ mem_cons_self
        rw [(cons.inj hn).1.symm] at hu
        exact absurd (hw v mem_cons_self) (by simp [dashes_solid v hu])

theorem Ruled.append (h : Ruled t) (a b : Utf16) : Ruled (a ++ (t ++ b)) := by
  obtain ⟨p, q, hp, hq, rfl⟩ := h
  exact ⟨a ++ p, q ++ b, hp.left a, hq.right b, by simp⟩

theorem Ruled.right (h : Ruled t) (b : Utf16) : Ruled (t ++ b) := h.append [] b

theorem Ruled.left (h : Ruled t) (a : Utf16) : Ruled (a ++ t) := by simpa using h.append a []

theorem Ruled.respace (h : Ruled (a ++ (w ++ b))) (hw : Spaces w) (hne : w ≠ [])
    (hw' : Spaces w') (hline : 0x0a ∈ w') : Ruled (a ++ (w' ++ b)) := by
  obtain ⟨p, q, hp, hq, h⟩ := h
  obtain ⟨c, d, rfl⟩ := append_of_mem hline
  rcases dashes_cases hw hne h with ⟨m, rfl, rfl⟩ | ⟨m, rfl, rfl⟩
  · refine ⟨p, m ++ (c ++ 0x0a :: d ++ b), hp, ?_, by simp⟩
    rcases hq.of_append with hm | ⟨hm, -⟩
    · exact hm.right _
    · exact ⟨m ++ c, d ++ b, hm.append hw'.left, by simp⟩
  · refine ⟨a ++ (c ++ 0x0a :: d ++ m), q, ?_, hq, by simp⟩
    have hd : Spaces d := (forall_mem_cons.mp hw'.right).2
    rw [← append_assoc] at hp
    rcases hp.of_append with hm | ⟨hm, -⟩
    · rw [← append_assoc]
      exact hm.left _
    · exact ⟨a ++ c, d ++ m, hd.append hm, by simp⟩

theorem Ruled.behind (h : Ruled (a ++ 0x0a :: b)) (ha : 0x2d ∉ a) :
    Ruled (0x0a :: b) := by
  obtain ⟨p, q, hp, hq, h⟩ := h
  have hw : Spaces [0x0a] := by decide
  rcases dashes_cases hw (cons_ne_nil _ _) h with ⟨m, rfl, -⟩ | ⟨m, rfl, rfl⟩
  · exact absurd (mem_append_right _ (mem_append_left _ (by decide))) ha
  · refine ⟨0x0a :: m, q, ?_, hq, rfl⟩
    rcases hp.of_append with hm | ⟨hm, -⟩
    · exact hm
    · exact ⟨[], m, hm.right, rfl⟩

theorem rule_isSome_iff : (rule t).isSome = true ↔
    ∃ w q, Spaces w ∧ LineEnd q ∧ t = 0x0a :: (w ++ (dashes ++ q)) := by
  constructor
  · intro h
    obtain ⟨after, hrule⟩ := Option.isSome_iff_exists.mp h
    cases t with
    | nil => cases hrule
    | cons u t =>
      rw [rule] at hrule
      split_ifs at hrule with hu
      obtain ⟨more, hmore, hafter⟩ := Option.bind_eq_some_iff.mp hrule
      obtain ⟨w, hw, ht, -⟩ := exists_skipSpace t
      obtain ⟨w', hw', rfl, -⟩ := afterBlank_some hafter
      rw [behind_some hmore] at ht
      exact ⟨w, _, hw, ⟨w', after, hw', rfl⟩, by rw [ht, hu]⟩
  · rintro ⟨w, q, hw, ⟨w', back, hw', rfl⟩, rfl⟩
    have hskip : skipSpace (w ++ (dashes ++ (w' ++ 0x0a :: back))) =
        dashes ++ (w' ++ 0x0a :: back) := by
      rw [skipSpace_spaces hw]
      refine skipSpace_head fun u hu => ?_
      cases hu
      decide
    rw [rule, hskip]
    exact afterBlank_isSome hw' back

theorem ruled_iff : Ruled t ↔ ∃ p s, t = p ++ s ∧ (rule s).isSome = true := by
  constructor
  · rintro ⟨p, q, ⟨front, w, hw, rfl⟩, hq, rfl⟩
    exact ⟨front, 0x0a :: (w ++ (dashes ++ q)), by simp, rule_isSome_iff.mpr ⟨w, q, hw, hq, rfl⟩⟩
  · rintro ⟨p, s, rfl, hs⟩
    obtain ⟨w, q, hw, hq, rfl⟩ := rule_isSome_iff.mp hs
    exact ⟨p ++ 0x0a :: w, q, ⟨p, w, hw, rfl⟩, hq, by simp⟩

/-! ### Splitting at rules -/

theorem splitRules_rule (h : rule t = some after) : splitRules t = [] :: splitRules after := by
  rw [splitRules.eq_def]
  split
  case h_1 more hmore =>
    rw [h] at hmore
    cases hmore
    rfl
  case h_2 hnone =>
    rw [h] at hnone
    cases hnone

theorem splitRules_nil : splitRules [] = [[]] := by
  rw [splitRules.eq_def]
  rfl

theorem splitRules_cons {u : UInt16} (h : rule (u :: t) = none) :
    splitRules (u :: t) = (splitRules t).modifyHead (u :: ·) := by
  rw [splitRules.eq_def]
  split
  case h_1 more hmore =>
    rw [h] at hmore
    cases hmore
  case h_2 => rfl

theorem splitRules_append {b z : Utf16} (hb : ∀ c s, b = c ++ s → s ≠ [] → rule (s ++ z) = none)
    (hz : rule z = some after) : splitRules (b ++ z) = b :: splitRules after := by
  induction b with
  | nil => exact splitRules_rule hz
  | cons u b ih =>
    have hnone : rule (u :: (b ++ z)) = none := hb [] (u :: b) rfl (cons_ne_nil _ _)
    rw [cons_append, splitRules_cons hnone, ih fun c s hs => hb (u :: c) s (congrArg (u :: ·) hs)]
    rfl

theorem splitRules_of_not_ruled (h : ¬Ruled t) : splitRules t = [t] := by
  induction t with
  | nil => exact splitRules_nil
  | cons u t ih =>
    have hrule : rule (u :: t) = none := by
      by_contra hne
      exact h (ruled_iff.mpr ⟨[], _, rfl, Option.isSome_iff_ne_none.mpr hne⟩)
    rw [splitRules_cons hrule, ih fun ht => h (ht.left [u])]
    rfl

theorem rule_of_line_end {s z : Utf16} (h : (rule (s ++ [0x0a])).isSome = true) :
    (rule (s ++ 0x0a :: z)).isSome = true := by
  obtain ⟨w, q, hw, hq, hs⟩ := rule_isSome_iff.mp h
  refine rule_isSome_iff.mpr ⟨w, q ++ z, hw, hq.right z, ?_⟩
  rw [show s ++ 0x0a :: z = s ++ [0x0a] ++ z by simp, hs]
  simp

theorem Ruled.of_cons {u : UInt16} (h : Ruled (u :: t)) :
    (rule (u :: t)).isSome = true ∨ Ruled t := by
  obtain ⟨p, s, hs, hrule⟩ := ruled_iff.mp h
  cases p with
  | nil =>
    exact .inl (hs ▸ hrule)
  | cons v p => exact .inr (ruled_iff.mpr ⟨p, s, (cons.inj hs).2, hrule⟩)

theorem splitRules_head (t : Utf16) : ∃ first more, splitRules t = first :: more ∧
    (more = [] ∧ first = t ∨ more ≠ [] ∧ ∃ y, t = first ++ 0x0a :: y) := by
  fun_induction splitRules t with
  | case1 t after hrule ih =>
    obtain ⟨w, q, -, -, ht⟩ := rule_isSome_iff.mp (Option.isSome_of_eq_some hrule)
    obtain ⟨first, more, hparts, -⟩ := ih
    exact ⟨[], _, rfl, .inr ⟨hparts ▸ cons_ne_nil _ _, _, ht⟩⟩
  | case2 => exact ⟨[], [], rfl, .inl ⟨rfl, rfl⟩⟩
  | case3 u rest hnone ih =>
    obtain ⟨first, more, hparts, hfirst⟩ := ih
    refine ⟨u :: first, more, by rw [hparts]; rfl, ?_⟩
    rcases hfirst with ⟨hmore, rfl⟩ | ⟨hmore, y, rfl⟩
    · exact .inl ⟨hmore, rfl⟩
    · exact .inr ⟨hmore, y, rfl⟩

/-- No part has a rule in it, and none but the last has one that the end of its line completes. -/
theorem splitRules_parts (t : Utf16) : ∃ front last, splitRules t = front ++ [last] ∧
    (∀ part ∈ front, ¬Ruled (part ++ [0x0a])) ∧ ¬Ruled last := by
  fun_induction splitRules t with
  | case1 t after hrule ih =>
    obtain ⟨front, last, hparts, hfront, hlast⟩ := ih
    refine ⟨[] :: front, last, by rw [hparts]; rfl, ?_, hlast⟩
    refine forall_mem_cons.mpr ⟨?_, hfront⟩
    rintro ⟨p, q, -, -, h⟩
    have hlength := congrArg List.length h
    simp [dashes, ascii] at hlength
    omega
  | case2 =>
    refine ⟨[], [], rfl, nofun, ?_⟩
    rintro ⟨p, q, -, -, h⟩
    have hlength := congrArg List.length h
    simp [dashes, ascii] at hlength
  | case3 u rest hnone ih =>
    obtain ⟨front, last, hparts, hfront, hlast⟩ := ih
    obtain ⟨first, more, hhead, hfirst⟩ := splitRules_head rest
    cases front with
    | nil =>
      rw [hparts] at hhead
      obtain ⟨rfl, rfl⟩ := cons.inj hhead
      obtain ⟨-, rfl⟩ := hfirst.resolve_right fun h => h.1 rfl
      refine ⟨[], u :: last, by rw [hparts]; rfl, nofun, fun hruled => ?_⟩
      rcases hruled.of_cons with hrule | hruled
      · simp [hnone] at hrule
      · exact hlast hruled
    | cons part front =>
      obtain ⟨hpart, hfront⟩ := forall_mem_cons.mp hfront
      rw [hparts] at hhead
      obtain ⟨rfl, rfl⟩ := cons.inj hhead
      refine ⟨(u :: part) :: front, last, by rw [hparts]; rfl, ?_, hlast⟩
      refine forall_mem_cons.mpr ⟨fun hruled => ?_, hfront⟩
      obtain ⟨-, y, rfl⟩ := hfirst.resolve_left fun h => by simp at h
      rcases Ruled.of_cons hruled with hrule | hruled
      · have hsome := rule_of_line_end (s := u :: part) (z := y) hrule
        simp [hnone] at hsome
      · exact hpart hruled

/-! ### Turns -/

/-- A message of the user or the assistant that is no notice and calls no tools. -/
structure Turn where
  assistant : Bool
  content : Utf16
  reasoning : Utf16
  content_trim : trim content = content
  reasoning_trim : trim reasoning = reasoning
  filled : content ≠ [] ∨ reasoning ≠ []

namespace Turn

def role (t : Turn) : Utf16 := if t.assistant then ascii "assistant" else ascii "user"

def message (t : Turn) : Message := ⟨t.role, [], t.content, t.reasoning, false, false, [], []⟩

/-- What a message is read back as. -/
def parsed (t : Turn) : Parsed := ⟨t.role, t.content, t.reasoning, true⟩

def title (t : Turn) : Utf16 := if t.assistant then ascii "Assistant" else ascii "User"

/-- The export of a message, without its title. -/
def text (t : Turn) : Utf16 :=
  if t.reasoning = [] then t.content
  else
    ascii "### Reasoning\n\n" ++ (t.reasoning ++
      if t.content = [] then [] else ascii "\n\n" ++ t.content)

def block (t : Turn) : Utf16 := ascii "## " ++ (t.title ++ (ascii "\n\n" ++ t.text))

end Turn

theorem paragraphs_cons_cons (a b : Utf16) (parts : List Utf16) :
    paragraphs (a :: b :: parts) = a ++ (ascii "\n\n" ++ paragraphs (b :: parts)) := by
  rw [paragraphs, paragraphs, Chunking.join, Chunking.join, intercalate_cons_cons, append_assoc]

theorem paragraphs_singleton (a : Utf16) : paragraphs [a] = a := by
  rw [paragraphs, Chunking.join, intercalate_singleton]

theorem ascii_blank : ascii "\n\n" = [0x0a, 0x0a] := by decide

variable (l : Language)

theorem messageBlock_message (metadata : Option Value) (t : Turn) :
    messageBlock l ⟨true, false, metadata⟩ t.message = some t.block := by
  have hcalls : toolCallsMarkdown false [] = [] := rfl
  have htitle : roleTitle l t.role = t.title := by
    unfold roleTitle Turn.role Turn.title
    cases t.assistant <;> rfl
  have htool : t.role ≠ ascii "tool" := by
    rw [Turn.role]
    split_ifs <;> decide
  have hfilled : ¬(t.content = [] ∧ t.reasoning = []) := by
    rintro ⟨hcontent, hreasoning⟩
    exact t.filled.elim (· hcontent) (· hreasoning)
  simp only [messageBlock, Turn.message, hcalls, htool, htitle]
  by_cases hreasoning : t.reasoning = [] <;> by_cases hcontent : t.content = []
  · exact absurd ⟨hcontent, hreasoning⟩ hfilled
  · simp [hreasoning, hcontent, paragraphs_cons_cons, paragraphs_singleton, Turn.block, Turn.text]
  · simp [hreasoning, hcontent, paragraphs_cons_cons, paragraphs_singleton, Turn.block, Turn.text]
  · simp [hreasoning, hcontent, paragraphs_cons_cons, paragraphs_singleton, Turn.block, Turn.text]

/-- The export in front of the metadata. -/
def conversation (turns : List Turn) : Utf16 :=
  Chunking.join separator (header :: turns.map Turn.block)

theorem export_turns (turns : List Turn) (metadata : Value) :
    exportConversationMarkdownRaw l (turns.map Turn.message) ⟨true, false, some metadata⟩ =
      conversation turns ++ (ascii "\n\n<!-- ds4-meta: " ++ (jsonText metadata ++
        ascii " -->\n")) := by
  have hblocks : (turns.map Turn.message).filterMap (messageBlock l ⟨true, false, some metadata⟩) =
      turns.map Turn.block := by
    rw [filterMap_map, ← filterMap_eq_map]
    exact filterMap_congr fun t _ => messageBlock_message l _ t
  rw [exportConversationMarkdownRaw, hblocks, conversation]
  simp [ascii]

/-! ### Reading the blocks -/

theorem lazyTitle_append {title rest body : Utf16} (hne : title ≠ [])
    (htitle : ∀ u ∈ title, isSpace u = false) (h : afterBlank rest = some body) :
    lazyTitle (title ++ rest) = some (title, body) := by
  have hterminator (u : UInt16) (hu : isSpace u = false) : isTerminator u = false := by
    rw [Bool.eq_false_iff] at hu ⊢
    intro hterm
    simp only [isTerminator, mem_cons, not_mem_nil, or_false, decide_eq_true_eq] at hterm
    rcases hterm with rfl | rfl | rfl | rfl <;> exact hu (by decide)
  induction title with
  | nil => exact absurd rfl hne
  | cons u title ih =>
    obtain ⟨hu, htitle⟩ := forall_mem_cons.mp htitle
    rw [cons_append, lazyTitle, if_neg (by simp [hterminator u hu])]
    cases title with
    | nil =>
      rw [nil_append, h]
    | cons v title =>
      have hnone : afterBlank (v :: title ++ rest) = none :=
        afterBlank_head fun x hx => by
          cases hx
          exact htitle v mem_cons_self
      rw [hnone, ih (cons_ne_nil _ _) htitle]
      rfl

theorem spacedTitle_append {title rest body : Utf16} (hne : title ≠ [])
    (htitle : ∀ u ∈ title, isSpace u = false) (h : afterBlank rest = some body) :
    spacedTitle (0x20 :: (title ++ rest)) = some (title, body) := by
  obtain ⟨u, more, rfl⟩ := exists_cons_of_ne_nil hne
  have hnone : spacedTitle (u :: more ++ rest) = none := by
    rw [cons_append, spacedTitle, if_neg (by simp [htitle u mem_cons_self])]
  rw [spacedTitle, hnone]
  exact lazyTitle_append hne htitle h

theorem cut_blank {r : Utf16} (x : Utf16) (h : ¬ascii "\n\n" <:+: r)
    (hlast : ∀ u, r.getLast? = some u → isSpace u = false) :
    Search.cut (ascii "\n\n") (r ++ (ascii "\n\n" ++ x)) = some (r, x) := by
  rw [Search.cut_eq_some_iff]
  refine ⟨?_, (append_assoc ..).symm⟩
  rw [ascii_blank] at h ⊢
  induction r with
  | nil => exact if_pos (prefix_append _ _)
  | cons u r ih =>
    have hnot : ¬[0x0a, 0x0a] <+: u :: (r ++ ([0x0a, 0x0a] ++ x)) := by
      rintro ⟨z, hz⟩
      have hu : 0x0a = u := (cons.inj hz).1
      have hrest : 0x0a :: z = r ++ ([0x0a, 0x0a] ++ x) := (cons.inj hz).2
      subst hu
      cases r with
      | nil => exact absurd (hlast 0x0a rfl) (by decide)
      | cons v r =>
        have hv : 0x0a = v := (cons.inj hrest).1
        exact h ⟨[], r, hv ▸ rfl⟩
    have hrest := ih (fun hinfix => h (infix_cons hinfix)) fun v hv => hlast v (by
      cases r with
      | nil => cases hv
      | cons w r => rwa [getLast?_cons_cons])
    rw [cons_append, Search.find, if_neg hnot, hrest]
    rfl

theorem Turn.content_tight (t : Turn) : Tight t.content := tight_of_trim t.content_trim

theorem Turn.reasoning_tight (t : Turn) : Tight t.reasoning := tight_of_trim t.reasoning_trim

theorem tight_reasoning : Tight (ascii "### Reasoning") := by
  constructor
  · intro u hu
    cases hu
    decide
  · intro u hu
    cases hu
    decide

theorem Turn.text_ne_nil (t : Turn) : t.text ≠ [] := by
  rw [Turn.text]
  split_ifs with hreasoning
  · exact t.filled.resolve_right fun h => h hreasoning
  · exact append_ne_nil_of_right_ne_nil _ (append_ne_nil_of_left_ne_nil hreasoning _)
  · exact append_ne_nil_of_right_ne_nil _ (append_ne_nil_of_left_ne_nil hreasoning _)

theorem ascii_reasoning :
    ascii "### Reasoning\n\n" = ascii "### Reasoning" ++ ascii "\n\n" := by decide

theorem Turn.text_tight (t : Turn) : Tight t.text := by
  have hne : ascii "### Reasoning" ≠ [] := by decide
  rw [Turn.text]
  split_ifs with hreasoning hcontent
  · exact t.content_tight
  · rw [ascii_reasoning, append_nil, append_assoc]
    exact tight_reasoning.append t.reasoning_tight hne hreasoning _
  · rw [ascii_reasoning, append_assoc]
    exact tight_reasoning.append (t.reasoning_tight.append t.content_tight hreasoning hcontent _)
      hne (by simp [hreasoning]) _

theorem afterBlank_blank (h : ∀ u, t.head? = some u → isSpace u = false) :
    afterBlank (ascii "\n\n" ++ t) = some t := by
  exact afterBlank_eq (w := [0x0a]) (by decide) h

/-- Reasoning and content are told apart where the reasoning has no blank line, and the content
of a message without reasoning does not begin as reasoning does. -/
def Turn.Parted (t : Turn) : Prop :=
  ¬ascii "\n\n" <:+: t.reasoning ∧
    (t.reasoning = [] → ¬ascii "### Reasoning" <+: t.content)

theorem splitReasoning_text {t : Turn} (h : t.Parted) :
    splitReasoning t.text = (t.reasoning, t.content) := by
  obtain ⟨hblank, hplain⟩ := h
  rw [Turn.text, splitReasoning]
  split_ifs with hreasoning hcontent
  · have hnone : behind (ascii "### Reasoning") t.content = none :=
      Option.not_isSome_iff_eq_none.mp fun hsome =>
        hplain hreasoning (behind_isSome_iff.mp hsome)
    rw [hnone, hreasoning]
  · have hcut : Search.cut (ascii "\n\n") t.reasoning = none :=
      (Search.cut_eq_none_iff _ _).mpr hblank
    rw [ascii_reasoning, append_assoc, behind_append, append_nil]
    dsimp only
    rw [afterBlank_blank t.reasoning_tight.head, Option.getD_some, hcut]
    rw [t.reasoning_trim, hcontent]
  · have hhead : ∀ u, (t.reasoning ++ (ascii "\n\n" ++ t.content)).head? = some u →
        isSpace u = false := by
      intro u hu
      obtain ⟨v, r, hr⟩ := exists_cons_of_ne_nil hreasoning
      exact t.reasoning_tight.head u (hr ▸ hu)
    rw [ascii_reasoning, append_assoc, behind_append]
    dsimp only
    rw [afterBlank_blank hhead, Option.getD_some, cut_blank t.content hblank t.reasoning_tight.last]
    dsimp only
    rw [t.reasoning_trim, t.content_trim]

theorem Turn.title_solid (t : Turn) : ∀ u ∈ t.title, isSpace u = false := by
  rw [Turn.title]
  split_ifs <;> exact Bytes.forall_of_all (by decide)

theorem roleFromTitle_title (t : Turn) : roleFromTitle l t.title = t.role := by
  rw [roleFromTitle, Turn.title, Turn.role]
  cases t.assistant
  · rw [l.lower_ascii _ (Bytes.forall_of_all (by decide))]
    rfl
  · rw [l.lower_ascii _ (Bytes.forall_of_all (by decide))]
    rfl

theorem parseBlock_title (t : Turn) {text : Utf16} (htext : Tight text) :
    parseBlock l (ascii "## " ++ (t.title ++ (ascii "\n\n" ++ text))) =
      some ⟨t.role, (splitReasoning text).2, (splitReasoning text).1, true⟩ := by
  have htitle : t.title ≠ [] := by
    rw [Turn.title]
    split_ifs <;> decide
  have hsharp : ascii "## " ++ (t.title ++ (ascii "\n\n" ++ text)) =
      ascii "##" ++ 0x20 :: (t.title ++ (ascii "\n\n" ++ text)) := rfl
  rw [parseBlock, hsharp, behind_append, Option.bind_some,
    spacedTitle_append htitle t.title_solid (afterBlank_blank htext.head), Option.map_some]
  rw [trim_tight htext, roleFromTitle_title]

/-- Every message comes back by itself: reasoning and content are told apart, and no line of it is
a rule, apart from the last line of all. -/
structure Kept (turns : List Turn) : Prop where
  parted : ∀ t ∈ turns, t.Parted
  front : ∀ t ∈ turns.dropLast, ¬Ruled (0x0a :: (t.text ++ [0x0a]))
  last : ∀ t, turns.getLast? = some t → ¬Ruled (0x0a :: t.text)

/-! ### Blocks and separators -/

theorem Ruled.mem (h : Ruled t) : 0x2d ∈ t := by
  obtain ⟨p, q, -, -, rfl⟩ := h
  exact mem_append_right _ (mem_append_left _ (by decide))

theorem rule_in_block {b c s : Utf16} (hb : Tight b) (hruled : ¬Ruled (b ++ [0x0a]))
    (h : b = c ++ s) (hne : s ≠ []) (z : Utf16) : rule (s ++ 0x0a :: z) = none := by
  by_contra hsome
  obtain ⟨w, q, hw, hq, hs⟩ := rule_isSome_iff.mp (Option.isSome_iff_ne_none.mpr hsome)
  obtain ⟨u, r, rfl⟩ := exists_cons_of_ne_nil hne
  obtain ⟨rfl, hr⟩ := cons.inj hs
  have hr' : r ++ ([0x0a] ++ z) = w ++ (dashes ++ q) := hr
  rcases dashes_cases (by decide) (cons_ne_nil _ _) hr' with ⟨m, rfl, rfl⟩ | ⟨m, -, rfl⟩
  · refine hruled ⟨c ++ 0x0a :: w, m ++ [0x0a], ⟨c, w, hw, rfl⟩, ?_, by simp [h]⟩
    rcases hq.of_append with hm | ⟨hm, -⟩
    · exact hm.right _
    · exact ⟨m, [], hm, rfl⟩
  · have hspace : Spaces (0x0a :: r) := forall_mem_cons.mpr ⟨by decide, hw.left⟩
    have hlast := hb.last _ (by
      rw [h, getLast?_append_of_ne_nil _ hne, getLast?_eq_some_getLast hne])
    rw [hspace _ (getLast_mem hne)] at hlast
    exact Bool.noConfusion hlast

theorem separator_eq : separator = 0x0a :: ([0x0a] ++ (dashes ++ ascii "\n\n")) := by decide

theorem rule_separator (h : ∀ u, t.head? = some u → isSpace u = false) :
    rule (separator ++ t) = some t := by
  have hskip : skipSpace ([0x0a] ++ (dashes ++ (ascii "\n\n" ++ t))) =
      dashes ++ (ascii "\n\n" ++ t) := by
    rw [skipSpace_spaces (by decide)]
    refine skipSpace_head fun u hu => ?_
    cases hu
    decide
  rw [separator_eq, cons_append, rule, if_pos rfl, append_assoc, append_assoc, hskip,
    behind_append, Option.bind_some, afterBlank_blank h]

theorem join_cons_cons (a b : Utf16) (parts : List Utf16) :
    Chunking.join separator (a :: b :: parts) =
      a ++ (separator ++ Chunking.join separator (b :: parts)) := by
  rw [Chunking.join, Chunking.join, intercalate_cons_cons, append_assoc]

theorem join_singleton (a : Utf16) : Chunking.join separator [a] = a := by
  rw [Chunking.join, intercalate_singleton]

theorem head_join {b : Utf16} (hne : b ≠ []) (parts : List Utf16) :
    (Chunking.join separator (b :: parts)).head? = b.head? := by
  obtain ⟨u, b, rfl⟩ := exists_cons_of_ne_nil hne
  cases parts with
  | nil => rw [join_singleton]
  | cons c parts => rw [join_cons_cons]; rfl

theorem splitRules_join {b : Utf16} {parts : List Utf16} (hall : ∀ c ∈ b :: parts, c ≠ [] ∧ Tight c)
    (hfront : ∀ c ∈ (b :: parts).dropLast, ¬Ruled (c ++ [0x0a]))
    (hlast : ∀ c, (b :: parts).getLast? = some c → ¬Ruled c) :
    splitRules (Chunking.join separator (b :: parts)) = b :: parts := by
  induction parts generalizing b with
  | nil =>
    rw [join_singleton]
    exact splitRules_of_not_ruled (hlast b rfl)
  | cons c parts ih =>
    obtain ⟨⟨hb, htight⟩, hall⟩ := forall_mem_cons.mp hall
    obtain ⟨hruled, hfront⟩ := forall_mem_cons.mp hfront
    have hhead : ∀ u, (Chunking.join separator (c :: parts)).head? = some u → isSpace u = false := by
      rw [head_join (hall c mem_cons_self).1]
      exact (hall c mem_cons_self).2.head
    rw [join_cons_cons, splitRules_append ?_ (rule_separator hhead), ih hall hfront
      fun x hx => hlast x (by rwa [getLast?_cons_cons])]
    intro d s hd hs
    exact rule_in_block htight hruled hd hs _

theorem Turn.block_eq (t : Turn) :
    t.block = (ascii "## " ++ (t.title ++ [0x0a])) ++ 0x0a :: t.text := by
  rw [Turn.block, ascii_blank]
  simp

theorem Turn.block_ne_nil (t : Turn) : t.block ≠ [] := append_ne_nil_of_left_ne_nil (by decide) _

theorem Turn.block_tight (t : Turn) : Tight t.block := by
  constructor
  · intro u hu
    cases hu
    decide
  · intro u hu
    rw [Turn.block_eq, getLast?_append_of_ne_nil _ (cons_ne_nil _ _)] at hu
    obtain ⟨v, text, htext⟩ := exists_cons_of_ne_nil t.text_ne_nil
    rw [htext, getLast?_cons_cons, ← htext] at hu
    exact t.text_tight.last u hu

theorem Turn.not_ruled_block {t : Turn} {e : Utf16} (h : ¬Ruled (0x0a :: (t.text ++ e))) :
    ¬Ruled (t.block ++ e) := by
  intro hruled
  rw [Turn.block_eq, append_assoc] at hruled
  refine h (hruled.behind ?_)
  rw [Turn.title]
  split_ifs <;> decide

theorem hasHeading_title (t : Utf16) : hasHeading true (ascii "## " ++ t) = true := by rfl

theorem header_tight : header ≠ [] ∧ Tight header := by
  refine ⟨by decide, tight_of_trim (by decide)⟩

theorem header_not_ruled : ¬Ruled (header ++ [0x0a]) := fun h => absurd h.mem (by decide)

theorem parse_join {markdown : Utf16} {parts : List Utf16}
    (hraw : trim (withoutMetadata markdown) = Chunking.join separator (header :: parts))
    (hall : ∀ c ∈ parts, c ≠ [] ∧ Tight c) (hfront : ∀ c ∈ parts.dropLast, ¬Ruled (c ++ [0x0a]))
    (hlast : ∀ c, parts.getLast? = some c → ¬Ruled c) :
    parseConversationMarkdown l markdown =
      (parts.filter (hasHeading true)).filterMap (parseBlock l) := by
  have hparts : splitRules (Chunking.join separator (header :: parts)) = header :: parts := by
    refine splitRules_join (forall_mem_cons.mpr ⟨header_tight, hall⟩) ?_ ?_
    · cases parts with
      | nil => exact nofun
      | cons c parts => exact forall_mem_cons.mpr ⟨header_not_ruled, hfront⟩
    · intro c hc
      cases parts with
      | nil =>
        cases hc
        exact fun h => header_not_ruled (h.right _)
      | cons d parts => exact hlast c (by rwa [getLast?_cons_cons] at hc)
  have hne : Chunking.join separator (header :: parts) ≠ [] := by
    intro h
    have hhead := head_join header_tight.1 parts
    rw [h] at hhead
    exact absurd hhead (by decide)
  have htrim : parts.map trim = parts :=
    (map_congr_left fun c hc => trim_tight (hall c hc).2).trans (map_id' parts)
  rw [parseConversationMarkdown, hraw, if_neg hne, hparts, map_cons, htrim,
    filter_cons_of_neg (by decide)]

end Ds4Studio.Web.Conversation

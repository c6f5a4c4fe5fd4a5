import Ds4Studio.Agent.EditPreflight

/-!
What is shown of a parameter. The bytes of a value are passed on to the screen as they come, but for
those that may be the front of its closing tag; these are held back, and given back when they are
not.
-/

namespace Ds4Studio.Agent

open Bytes List
open Files (Disk)

/-! ### Fronts of closing tags -/

/-- What a closing tag may begin with. -/
def Front (t : Bytes) : Prop := t ≠ [] ∧ ∃ u, u ≠ [] ∧ CloseTag (str "parameter") (t ++ u)

theorem closeStart_parameter : closeStart (str "parameter") = str "</｜DSML｜parameter" := by decide

theorem parameterCloseTail_blank {a bar b : Bytes} (ha : ∀ c ∈ a, isBlank c = true)
    (hb : ∀ c ∈ b, isBlank c = true) (hbar : bar = [] ∨ bar = dsmlBar)
    (hne : a ++ (bar ++ b) ≠ []) :
    parameterCloseTail (str "</｜DSML｜parameter" ++ (a ++ (bar ++ b))) = (true, false) := by
  have hblank : ∀ {s : Bytes}, (∀ c ∈ s, isBlank c = true) → skipBlank s = [] := by
    intro s hs
    have hskip := skipBlank_append hs []
    rwa [append_nil] at hskip
  have hlength := length_pos_of_ne_nil hne
  unfold parameterCloseTail
  simp only
  rw [if_neg (by rw [length_append]; omega), if_neg (not_not.mpr (prefix_append _ _)),
    drop_left, skipBlank_append ha]
  rcases hbar with rfl | rfl
  · rw [nil_append, hblank hb]
    rfl
  · rw [skipBlank_bar]
    split
    · rfl
    · rw [if_pos (prefix_append _ _), drop_left, hblank hb]

variable {t : Bytes}

theorem parameterCloseTail_closeTag (h : CloseTag (str "parameter") t) :
    parameterCloseTail t = (true, true) := by
  obtain ⟨a, bar, b, rfl, ha, hb, hbar⟩ := h
  have hend : skipBlank (b ++ [0x3e]) = [0x3e] := by
    rw [skipBlank_append hb]
    exact skipBlank_of_head (by decide) _
  rw [closeStart_parameter]
  unfold parameterCloseTail
  simp only
  rw [if_neg (by simp only [length_append, length_cons]; omega),
    if_neg (not_not.mpr (prefix_append _ _)), drop_left, skipBlank_append ha]
  rcases hbar with rfl | rfl
  · rw [nil_append, hend]
    rfl
  · rw [skipBlank_bar, if_neg, if_pos (prefix_append _ _), drop_left, hend]
    · rfl
    · rintro ⟨-, hlength, -⟩
      simp only [length_append, length_cons] at hlength
      omega

theorem parameterCloseTail_bar {a r : Bytes} (ha : ∀ c ∈ a, isBlank c = true) (hr : r ≠ [])
    (hbar : r <+: dsmlBar) :
    parameterCloseTail (str "</｜DSML｜parameter" ++ (a ++ r)) = (true, false) := by
  have hskip : skipBlank r = r := by
    obtain ⟨c, r, rfl⟩ := exists_cons_of_ne_nil hr
    rw [dsmlBar_eq, cons_prefix_cons] at hbar
    rw [hbar.1]
    exact skipBlank_of_head (by decide) r
  have hlength := length_pos_of_ne_nil hr
  unfold parameterCloseTail
  rw [if_neg (by simp only [length_append]; omega),
    if_neg (not_not.mpr (prefix_append _ _)), drop_left, skipBlank_append ha, hskip,
    if_pos ⟨hr, hbar.length_le, hbar⟩]

theorem prefix_append_cases {r s : Bytes} (h : r <+: s ++ t) :
    r <+: s ∨ ∃ u, r = s ++ u ∧ u <+: t := by
  rcases Nat.le_total r.length s.length with hle | hle
  · exact .inl (prefix_of_prefix_length_le h (prefix_append s t) hle)
  · obtain ⟨u, rfl⟩ := prefix_of_prefix_length_le (prefix_append s t) h hle
    exact .inr ⟨u, rfl, (prefix_append_right_inj s).mp h⟩

theorem Front.tail (h : Front t) : parameterCloseTail t = (true, false) := by
  obtain ⟨-, u, hu, h⟩ := h
  obtain ⟨a, bar, b, heq, ha, hb, hbar⟩ := h
  rw [closeStart_parameter] at heq
  have hprefix : t <+: str "</｜DSML｜parameter" ++ (a ++ (bar ++ b)) := by
    have hlast : t <+: str "</｜DSML｜parameter" ++ (a ++ (bar ++ b)) ++ [0x3e] :=
      ⟨u, by rw [heq]; simp⟩
    rcases prefix_concat_iff.mp hlast with hall | hprefix
    · rw [hall] at heq
      have hlength := congrArg length heq
      have hpos := length_pos_of_ne_nil hu
      simp only [length_append, length_cons, length_nil] at hlength
      omega
    · exact hprefix
  by_cases hshort : t.length ≤ (str "</｜DSML｜parameter").length
  · have hstart : t <+: str "</｜DSML｜parameter" :=
      prefix_of_prefix_length_le hprefix (prefix_append _ _) hshort
    unfold parameterCloseTail
    rw [if_pos hshort, decide_eq_true hstart]
  · obtain ⟨r, rfl⟩ : str "</｜DSML｜parameter" <+: t :=
      prefix_of_prefix_length_le (prefix_append _ _) hprefix (by omega)
    have hr : r ≠ [] := by
      rintro rfl
      simp at hshort
    rw [prefix_append_right_inj] at hprefix
    have hnil : ∀ c ∈ ([] : Bytes), isBlank c = true := fun c hc => (nomatch hc)
    have hblank : ∀ {s v : Bytes}, (∀ c ∈ s, isBlank c = true) → v <+: s →
        ∀ c ∈ v, isBlank c = true := fun hs hv c hc => hs c (hv.subset hc)
    rcases prefix_append_cases hprefix with hra | ⟨v, rfl, hv⟩
    · have hfront := parameterCloseTail_blank (hblank ha hra) hnil (.inl rfl)
        (by simpa using hr)
      simpa using hfront
    · rcases hbar with rfl | rfl
      · exact parameterCloseTail_blank ha (hblank hb hv) (.inl rfl) hr
      · rcases prefix_append_cases hv with hvbar | ⟨w, rfl, hw⟩
        · by_cases hvnil : v = []
          · rw [hvnil] at hr ⊢
            exact parameterCloseTail_blank ha hnil (.inl rfl) hr
          · exact parameterCloseTail_bar ha hvnil hvbar
        · exact parameterCloseTail_blank ha (hblank hb hw) (.inr rfl) hr

theorem front_of_tail (hne : t ≠ []) (h : parameterCloseTail t = (true, false)) : Front t := by
  have hnil : ∀ c ∈ ([] : Bytes), isBlank c = true := fun c hc => (nomatch hc)
  have hclose : ∀ {a bar b : Bytes}, (∀ c ∈ a, isBlank c = true) → (∀ c ∈ b, isBlank c = true) →
      (bar = [] ∨ bar = dsmlBar) → ∀ u, u ≠ [] →
      t ++ u = str "</｜DSML｜parameter" ++ (a ++ (bar ++ (b ++ [0x3e]))) → Front t :=
    fun ha hb hbar u hu heq => ⟨hne, u, hu, _, _, _, closeStart_parameter ▸ heq, ha, hb, hbar⟩
  unfold parameterCloseTail at h
  simp only at h
  by_cases hshort : t.length ≤ (str "</｜DSML｜parameter").length
  · rw [if_pos hshort, Prod.mk.injEq, decide_eq_true_iff] at h
    obtain ⟨u, hu⟩ := h.1
    exact hclose hnil hnil (.inl rfl) (u ++ [0x3e]) (by simp) (by rw [← hu]; simp)
  · rw [if_neg hshort] at h
    by_cases hstart : str "</｜DSML｜parameter" <+: t
    · obtain ⟨r, rfl⟩ := hstart
      rw [if_neg (not_not.mpr (prefix_append _ _)), drop_left] at h
      obtain ⟨a, ha, hblank⟩ := skipBlank_split r
      split at h
      case isTrue hbegun =>
        obtain ⟨u, hu⟩ := hbegun.2.2
        refine hclose (b := []) hblank hnil (.inr rfl) (u ++ [0x3e]) (by simp) ?_
        rw [ha, ← hu]
        simp
      case isFalse =>
        obtain ⟨bar, p, hp, hbar, hdrop⟩ := bar_split (skipBlank r)
        rw [hdrop] at h
        obtain ⟨b, hb, hblank'⟩ := skipBlank_split p
        split at h
        case h_1 hskip =>
          refine hclose hblank hblank' hbar [0x3e] (by simp) ?_
          rw [ha, hp, hb, hskip]
          simp
        case h_2 rest _ =>
          rw [Prod.mk.injEq] at h
          have hend := h.1.symm.trans h.2
          cases hend
        case h_3 => exact absurd (Prod.mk.inj h).1 nofun
    · rw [if_pos hstart] at h
      exact absurd (Prod.mk.inj h).1 nofun

theorem Front.of_prefix {u : Bytes} (h : Front t) (hu : u <+: t) (hne : u ≠ []) : Front u := by
  obtain ⟨-, v, hv, hclose⟩ := h
  obtain ⟨w, rfl⟩ := hu
  exact ⟨hne, w ++ v, by simp [hv], by rwa [append_assoc] at hclose⟩

theorem closeStart_head :
    closeStart (str "parameter") = 0x3c :: (closeStart (str "parameter")).tail := by decide

theorem Front.head (h : Front t) : t.head? = some 0x3c := by
  obtain ⟨hne, u, -, a, bar, b, heq, -⟩ := h
  obtain ⟨c, t, rfl⟩ := exists_cons_of_ne_nil hne
  rw [(cons.inj heq).1]
  rfl

variable {c : UInt8}

theorem CloseTag.no_bracket (h : CloseTag (str "parameter") (c :: t)) :
    c = 0x3c ∧ (0x3c : UInt8) ∉ t := by
  obtain ⟨a, bar, b, heq, ha, hb, hbar⟩ := h
  have htail : (0x3c : UInt8) ∉ (closeStart (str "parameter")).tail := by decide
  have hblank : ∀ {s : Bytes}, (∀ c ∈ s, isBlank c = true) → (0x3c : UInt8) ∉ s :=
    fun hs hmem => absurd (hs _ hmem) (by decide)
  have hnobar : (0x3c : UInt8) ∉ bar := by
    rcases hbar with rfl | rfl
    · exact not_mem_nil
    · decide
  rw [closeStart_head, cons_append] at heq
  obtain ⟨rfl, rfl⟩ := cons.inj heq
  refine ⟨rfl, ?_⟩
  simp only [mem_append, mem_singleton, not_or]
  exact ⟨htail, hblank ha, hnobar, hblank hb, by decide⟩

/-! ### The matcher -/

/-- The tail that is kept of what has been put into it. -/
def keptTail (t : Bytes) : Bytes := if parameterCloseTail t = (true, false) then t else []

/-- The tail behind a byte of a value. -/
def tailBehind (t : Bytes) (c : UInt8) : Bytes :=
  if t ≠ [] ∨ c = 0x3c then
    if t.length = 64 then if c ≠ 0x3c then [] else keptTail [c] else keptTail (t ++ [c])
  else []

theorem matchTail_tail (v : Visualizer) : v.matchTail.paramEndTail = keptTail v.paramEndTail := by
  unfold Visualizer.matchTail keptTail
  split
  case h_1 h => rw [h]; rfl
  case h_2 h => rw [h]; rfl
  case h_3 b h => rw [h, if_neg (by simp)]

theorem paramValueByte_tail (v : Visualizer) (c : UInt8) :
    (v.paramValueByte c).paramEndTail = tailBehind v.paramEndTail c := by
  unfold Visualizer.paramValueByte tailBehind
  split_ifs
  · rfl
  · exact matchTail_tail _
  · exact matchTail_tail _
  · rename_i h
    exact not_not.mp (not_or.mp h).1

/-- The bytes that a byte of a value hands to `agent_tool_viz_param_raw_byte`. -/
def Visualizer.passedOn (c : UInt8) (v : Visualizer) : Bytes :=
  let given (t : Bytes) : Bytes := if (parameterCloseTail t).1 then [] else t
  if v.paramEndTail ≠ [] ∨ c = 0x3c then
    if v.paramEndTail.length = 64 then
      v.paramEndTail ++ if c ≠ 0x3c then [c] else given [c]
    else given (v.paramEndTail ++ [c])
  else [c]

/-- The values behind which the matcher is idle, or gives back what it holds with the next byte:
everything that was held back has been broken off, or fills the buffer. -/
inductive Released : Bytes → Prop
  | nil : Released []
  | plain {v : Bytes} {c : UInt8} : Released v → c ≠ 0x3c → Released (v ++ [c])
  | broken {v t : Bytes} {c : UInt8} : Released v → Front t → t.length < 64 →
      ¬Front (t ++ [c]) → ¬CloseTag (str "parameter") (t ++ [c]) → Released (v ++ (t ++ [c]))
  | full {v t : Bytes} : Released v → Front t → t.length = 64 → Released (v ++ t)

theorem front_bracket : Front [0x3c] := front_of_tail (by decide) (by decide)

/-- The state of the matcher behind a value. -/
structure Holds (shown tail : Bytes) : Prop where
  released : Released shown
  front : tail = [] ∨ Front tail
  length : tail.length ≤ 64

theorem keptTail_cases (t : Bytes) : (Front t ∧ keptTail t = t) ∨ (¬Front t ∧ keptTail t = []) := by
  unfold keptTail
  by_cases hfront : Front t
  · exact .inl ⟨hfront, if_pos hfront.tail⟩
  · refine .inr ⟨hfront, ?_⟩
    split
    case isTrue htail =>
      by_contra hne
      exact hfront (front_of_tail hne htail)
    case isFalse => rfl

theorem Visualizer.passedOn_append {v : Visualizer} (h : ¬v.Completes c) :
    v.passedOn c ++ tailBehind v.paramEndTail c = v.paramEndTail ++ [c] := by
  have hgiven : ∀ t : Bytes, parameterCloseTail t ≠ (true, true) →
      (if (parameterCloseTail t).1 then [] else t) ++ keptTail t = t := by
    intro t ht
    unfold keptTail
    rcases hres : parameterCloseTail t with ⟨_ | _, _ | _⟩
    · simp
    · simp
    · simp
    · exact absurd hres ht
  unfold passedOn tailBehind
  by_cases hstart : v.paramEndTail ≠ [] ∨ c = 0x3c
  · rw [if_pos hstart, if_pos hstart]
    by_cases hfull : v.paramEndTail.length = 64
    · rw [if_pos hfull, if_pos hfull, append_assoc]
      by_cases hc : c ≠ 0x3c
      · rw [if_pos hc, if_pos hc, append_nil]
      · rw [if_neg hc, if_neg hc, hgiven]
        rw [not_not.mp hc]
        decide
    · rw [if_neg hfull, if_neg hfull]
      exact hgiven _ fun hcomplete => h ⟨hfull, hcomplete⟩
  · obtain ⟨htail, -⟩ := not_or.mp hstart
    rw [if_neg hstart, if_neg hstart, not_not.mp htail]
    rfl

theorem Holds.step {shown : Bytes} {v : Visualizer} (h : Holds shown v.paramEndTail)
    (hopen : ¬v.Completes c) : Holds (shown ++ v.passedOn c) (tailBehind v.paramEndTail c) := by
  have hpassed := Visualizer.passedOn_append hopen
  by_cases hstart : v.paramEndTail ≠ [] ∨ c = 0x3c
  · by_cases hfull : v.paramEndTail.length = 64
    · have hfront : Front v.paramEndTail := h.front.resolve_left fun hnil => by simp [hnil] at hfull
      have hreleased := h.released.full hfront hfull
      by_cases hc : c = 0x3c
      · have hkept : tailBehind v.paramEndTail c = [c] := by
          unfold tailBehind
          rw [if_pos hstart, if_pos hfull, hc]
          decide
        rw [hkept] at hpassed ⊢
        rw [append_cancel_right hpassed]
        exact ⟨hreleased, .inr (hc ▸ front_bracket), by simp⟩
      · have hkept : tailBehind v.paramEndTail c = [] := by
          unfold tailBehind
          rw [if_pos hstart, if_pos hfull, if_pos hc]
        rw [hkept, append_nil] at hpassed
        rw [hkept, hpassed, ← append_assoc]
        exact ⟨hreleased.plain hc, .inl rfl, by simp⟩
    · have htail : tailBehind v.paramEndTail c = keptTail (v.paramEndTail ++ [c]) := by
        unfold tailBehind
        rw [if_pos hstart, if_neg hfull]
      have hlength := h.length
      rw [htail] at hpassed ⊢
      rcases keptTail_cases (v.paramEndTail ++ [c]) with ⟨hfront, hkept⟩ | ⟨hfront, hkept⟩
      · rw [hkept] at hpassed ⊢
        have hnothing : v.passedOn c = [] := append_cancel_right hpassed
        rw [hnothing, append_nil]
        exact ⟨h.released, .inr hfront, by simp; omega⟩
      · rw [hkept, append_nil] at hpassed
        rw [hkept, hpassed]
        refine ⟨?_, .inl rfl, by simp⟩
        by_cases hnil : v.paramEndTail = []
        · have hc : c = 0x3c := hstart.resolve_left (not_not.mpr hnil)
          rw [hnil, hc] at hfront
          exact absurd front_bracket hfront
        · exact h.released.broken (h.front.resolve_left hnil) (by omega) hfront fun hclose =>
            hopen ⟨hfull, parameterCloseTail_closeTag hclose⟩
  · obtain ⟨htail, hc⟩ := not_or.mp hstart
    have hnil : v.paramEndTail = [] := not_not.mp htail
    have hkept : tailBehind v.paramEndTail c = [] := by
      unfold tailBehind
      rw [if_neg hstart]
    rw [hkept, hnil, append_nil] at hpassed
    rw [hkept, hpassed]
    exact ⟨h.released.plain hc, .inl rfl, by simp⟩

/-! ### Values alone -/

/-- What the matcher holds behind some bytes. -/
def held (value : Bytes) : Bytes := value.foldl tailBehind []

def Idle (t : Bytes) : Prop := t = [] ∨ t.length = 64

theorem held_concat (v : Bytes) (c : UInt8) : held (v ++ [c]) = tailBehind (held v) c :=
  foldl_concat ..

theorem tailBehind_idle (h : Idle t) :
    tailBehind t c = if c = 0x3c then [c] else [] := by
  have hkept : keptTail [0x3c] = [0x3c] := by decide
  unfold tailBehind
  by_cases hc : c = 0x3c
  · subst hc
    rw [if_pos (.inr rfl)]
    rcases h with rfl | hfull
    · rw [if_neg (by decide)]
      exact hkept
    · rw [if_pos hfull]
      exact hkept
  · rw [if_neg hc]
    rcases h with rfl | hfull
    · rw [if_neg (by simp [hc])]
    · rw [if_pos (.inl fun hnil => by simp [hnil] at hfull), if_pos hfull, if_pos hc]

theorem held_front {v : Bytes} (h : Idle (held v)) (ht : ∀ u, u <+: t → u ≠ [] → Front u)
    (hlength : t.length ≤ 64) (hne : t ≠ []) : held (v ++ t) = t := by
  induction t using reverseRecOn with
  | nil => exact absurd rfl hne
  | append_singleton t c ih =>
    rw [← append_assoc, held_concat]
    by_cases hnil : t = []
    · subst hnil
      have hc : c = 0x3c := by
        have hhead := (ht [c] (by simp) (by simp)).head
        simpa using hhead
      rw [append_nil, tailBehind_idle h, if_pos hc]
      rfl
    · rw [length_append, length_singleton] at hlength
      rw [ih (fun u hu => ht u (hu.trans (prefix_append _ _))) (by omega) hnil]
      have hfront := ht (t ++ [c]) prefix_rfl (by simp)
      unfold tailBehind keptTail
      rw [if_pos (.inl hnil), if_neg (by omega), if_pos hfront.tail]

theorem Released.idle {v : Bytes} (h : Released v) : Idle (held v) := by
  induction h with
  | nil => exact .inl rfl
  | plain _ hc ih =>
    rw [held_concat, tailBehind_idle ih, if_neg hc]
    exact .inl rfl
  | @broken v t c _ ht hlength hbreak _ ih =>
    rw [← append_assoc, held_concat,
      held_front ih (fun u hu hne => ht.of_prefix hu hne) (by omega) ht.1]
    unfold tailBehind
    rw [if_pos (.inl ht.1), if_neg (by omega)]
    rcases keptTail_cases (t ++ [c]) with ⟨hfront, -⟩ | ⟨-, hkept⟩
    · exact absurd hfront hbreak
    · exact .inl hkept
  | full _ ht hlength ih =>
    rw [held_front ih (fun u hu hne => ht.of_prefix hu hne) (by omega) ht.1]
    exact .inr hlength

/-! ### The stream -/

namespace StreamRenderer

/-- The bytes of a parameter that have been passed on, behind a byte. -/
def passOn (c : UInt8) (s : StreamRenderer) (shown : Bytes) : Bytes :=
  if s.dsmlActive ∧ s.dsmlIgnored = false ∧ s.viz.paramActive = true then shown ++ s.viz.passedOn c
  else []

/-- The value that the parser is in. -/
def value (s : StreamRenderer) : Bytes := s.parser.raw.drop s.parser.paramValueStart

end StreamRenderer

/-- The states of a stream up to the end of its block, where the worker stops it, with what has been
passed on of the parameter that the visualiser is in. -/
inductive Watched (disk : Disk) (replay inThink : Bool) :
    StreamRenderer → Bytes → Bytes → Prop
  | init : Watched disk replay inThink (.init replay inThink) [] []
  | text {s : StreamRenderer} {shown : Bytes} (h : Watched disk replay inThink s [] shown)
      (text : Bytes) :
      Watched disk replay inThink { s with pending := [] } (s.pending ++ text) shown
  | step {s : StreamRenderer} {c : UInt8} {rest shown : Bytes}
      (h : Watched disk replay inThink s (c :: rest) shown) (hopen : s.parser.state ≠ .done)
      (last : Bool) :
      Watched disk replay inThink (s.textStep disk last c rest).1 (s.textStep disk last c rest).2
        (s.passOn c shown)

variable {s : StreamRenderer} {disk : Disk}

theorem Watched.streamed {replay inThink : Bool} {rest shown : Bytes}
    (h : Watched disk replay inThink s rest shown) : Streamed disk replay inThink s rest := by
  induction h with
  | init => exact .init
  | text _ text ih => exact ih.text text
  | step _ _ last ih => exact ih.step last

/-- No block has begun, or none goes on. -/
structure Outside (s : StreamRenderer) : Prop where
  inactive : s.dsmlActive = false
  parser : s.parser.state = .done ∨ s.parser.state = .error ∨
    (s.parser.state = .search ∧ s.parser.raw = [])

/-- All but the value of a parameter has been parsed. -/
def Between (s : StreamRenderer) : Prop :=
  s.parser.state = .structural ∧ (0x3e : UInt8) ∉ s.parser.at_ s.parser.parsePos

/-- The bytes of the value have been passed on, or are held back. -/
structure Within (s : StreamRenderer) (shown : Bytes) : Prop where
  state : s.parser.state = .paramValue
  value : (0 : UInt8) ∈ s.value ∨
    (s.value = shown ++ s.viz.paramEndTail ∧ s.viz.paramEndTail = held s.value ∧
      Holds shown s.viz.paramEndTail)

/-- The states of a stream. -/
structure Following (s : StreamRenderer) (shown : Bytes) : Prop where
  outside : s.dsmlActive = false → Outside s
  inside : s.dsmlActive = true → s.dsmlIgnored = false → Between s ∨ Within s shown

theorem Outside.following (h : Outside s) (shown : Bytes) : Following s shown :=
  ⟨fun _ => h, fun hactive => absurd (hactive.symm.trans h.inactive) nofun⟩

theorem Outside.of_eq {t : StreamRenderer} (h : Outside s) (hparser : t.parser = s.parser)
    (hactive : t.dsmlActive = s.dsmlActive) : Outside t :=
  ⟨hactive.trans h.inactive, by rw [hparser]; exact h.parser⟩

theorem Outside.following_of_eq {t : StreamRenderer} (h : Outside s)
    (hparser : t.parser = s.parser) (hactive : t.dsmlActive = s.dsmlActive) (shown : Bytes) :
    Following t shown :=
  (h.of_eq hparser hactive).following shown

namespace StreamRenderer

variable {s : StreamRenderer}

theorem noteThinkingDsmlByte_outside (h : Outside s) (c : UInt8) :
    Outside (s.noteThinkingDsmlByte c) := by
  unfold noteThinkingDsmlByte
  split
  · exact h
  · exact h.of_eq rfl rfl

theorem notePlainDsmlByte_outside (h : Outside s) (c : UInt8) :
    Outside (s.notePlainDsmlByte c) := by
  unfold notePlainDsmlByte
  split
  · exact h
  · split
    · exact h
    · simp only
      split
      · unfold malformedDsml
        split
        · exact h.of_eq rfl rfl
        · exact ⟨h.inactive, .inr (.inl rfl)⟩
      · exact h.of_eq rfl rfl

theorem notePlain_outside (h : Outside s) (bytes : Bytes) : Outside (notePlain bytes s) := by
  induction bytes generalizing s with
  | nil => exact h
  | cons c rest ih =>
    unfold notePlain
    simp only
    split
    · exact notePlainDsmlByte_outside h c
    · exact ih (notePlainDsmlByte_outside h c)

theorem flushStartTail_outside (h : Outside s) : Outside s.flushStartTail := by
  unfold flushStartTail
  split
  · exact h
  · exact (notePlain_outside (s := s.closeGap) (h.of_eq rfl rfl) _).of_eq rfl rfl

/-! A byte of a block -/

theorem endDsml_outside (h : s.parser.state = .done ∨ s.parser.state = .error) :
    Outside s.endDsml := by
  have hignored : Outside s.finishIgnoredDsml := ⟨rfl, .inr (.inr ⟨rfl, rfl⟩)⟩
  unfold endDsml
  rcases h with h | h
  · rw [h]
    simp only
    split
    · exact hignored
    · exact ⟨rfl, .inl h⟩
  · rw [h]
    simp only
    split
    · exact hignored
    · exact ⟨rfl, .inr (.inl h)⟩

theorem endDsml_open (h : s.parser.state ≠ .done) (h' : s.parser.state ≠ .error) :
    s.endDsml = s := by
  unfold endDsml
  split
  · rename_i hstate
    exact absurd hstate h
  · rename_i hstate
    exact absurd hstate h'
  · rfl

variable {disk : Disk} {c : UInt8}

theorem feedDsmlByte_parsed (disk : Disk) {state : DsmlState}
    (hstate : (s.parsed c).parser.state = state) (h : ¬(state = .done ∨ state = .error)) :
    s.feedDsmlByte disk c =
      (s.parsed c).projected disk c (!s.dsmlIgnored && s.viz.paramActive) := by
  rw [← hstate, ← projected_parses disk c (!s.dsmlIgnored && s.viz.paramActive), not_or] at h
  exact endDsml_open h.1 h.2

theorem feedDsmlByte_between (hsettled : s.parser.Settled) (h : Between s) (hc : c ≠ 0x3e) :
    Between (s.feedDsmlByte disk c) ∧ (s.feedDsmlByte disk c).dsmlActive = s.dsmlActive := by
  have hfed : Between (s.parsed c) :=
    (DsmlParser.feed_structural hsettled.bounded h.1 h.2 c).resolve_right fun hend => hc hend.1
  have hprojected := projected_parses disk c (!s.dsmlIgnored && s.viz.paramActive) (s.parsed c)
  rw [feedDsmlByte_parsed disk hfed.1 (by simp)]
  refine ⟨?_, (projected_active disk c _ (s.parsed c)).1⟩
  unfold Between
  rw [hprojected]
  exact hfed

variable {shown : Bytes}

theorem feedDsmlByte_within (hsynced : Synced s) (hactive : s.dsmlActive = true)
    (hallowed : s.dsmlIgnored = false) (h : Within s shown) :
    Between (s.feedDsmlByte disk c) ∨ Within (s.feedDsmlByte disk c) (s.passOn c shown) := by
  have hprojected := projected_parses disk c (!s.dsmlIgnored && s.viz.paramActive) (s.parsed c)
  rcases DsmlParser.feed_param hsynced.settled h.state c with
    ⟨hopen, hfeed⟩ | ⟨i, n, hclean, hfound, hfeed⟩
  · have hparser : (s.parsed c).parser = s.parser.rawAppend [c] := hfeed
    have hstate : (s.parsed c).parser.state = .paramValue := by
      rw [hparser]
      exact h.state
    have hend := feedDsmlByte_parsed disk hstate (by simp)
    have hstart := hsynced.settled.bounded.start h.state
    have hpos := hsynced.settled.bounded.pos
    have hle : s.parser.paramValueStart ≤ s.parser.raw.length := hstart ▸ hpos
    have hvalue : (s.feedDsmlByte disk c).value = s.value ++ [c] := by
      unfold value
      rw [hend, hprojected, hparser]
      exact drop_append_of_le_length hle
    refine .inr ⟨by rw [hend, hprojected, hstate], ?_⟩
    rw [hvalue]
    by_cases hzero : (0 : UInt8) ∈ s.value ++ [c]
    · exact .inl hzero
    · refine .inr ?_
      have hclean : (0 : UInt8) ∉ s.value := fun hmem => hzero (mem_append_left _ hmem)
      change findCloseTag (str "parameter") (cstr (s.value ++ [c])) = none at hopen
      rw [cstr_eq_self hzero] at hopen
      obtain ⟨hparam, -, htail⟩ :=
        ((hsynced.viz hactive hallowed).param h.state).resolve_left hclean
      obtain ⟨hbytes, hheld, hholds⟩ := h.value.resolve_left hclean
      have hmissed : ¬s.viz.Completes c := fun hcomplete => hcomplete.closed htail hopen
      have hviz : (s.feedDsmlByte disk c).viz = s.viz.paramValueByte c := by
        rw [hend, projected_value hallowed hparam]
        exact ((vizByte_viz disk c (s.parsed c)).resolve_right fun hne => hne.1 hstate).2
      have hpassed : s.passOn c shown = shown ++ s.viz.passedOn c :=
        if_pos ⟨hactive, hallowed, hparam⟩
      rw [hviz, paramValueByte_tail, hpassed]
      refine ⟨?_, ?_, hholds.step hmissed⟩
      · rw [append_assoc, Visualizer.passedOn_append hmissed, ← append_assoc, ← hbytes]
      · rw [held_concat, ← hheld]
  · have hparser : (s.parsed c).parser = (s.parser.rawAppend [c]).closeParam i n := hfeed
    have hstate : (s.parsed c).parser.state = .structural := by
      rw [hparser]
      rfl
    have hend := feedDsmlByte_parsed disk hstate (by simp)
    refine .inl ?_
    unfold Between
    rw [hend, hprojected, hparser]
    have hunclosed := hsynced.settled.unclosed h.state
    rw [DsmlParser.at_, cstr_eq_self hclean] at hunclosed
    have hlength := findCloseTag_concat hunclosed hfound
    rw [length_drop] at hlength
    have hdrop : ((s.parser.rawAppend [c]).closeParam i n).raw.drop
        ((s.parser.rawAppend [c]).closeParam i n).parsePos = [] := by
      rw [drop_eq_nil_iff]
      simp only [DsmlParser.closeParam, DsmlParser.rawAppend, length_append, length_singleton]
      omega
    rw [DsmlParser.at_, hdrop]
    exact ⟨rfl, not_mem_nil⟩

theorem feedDsmlByte_open (hsynced : Synced s) (hactive : s.dsmlActive = true)
    (hallowed : s.dsmlIgnored = false) (h : Between s) :
    Outside (s.feedDsmlByte disk c) ∨ Between (s.feedDsmlByte disk c) ∨
      Within (s.feedDsmlByte disk c) (s.passOn c shown) := by
  have hprojected := projected_parses disk c (!s.dsmlIgnored && s.viz.paramActive) (s.parsed c)
  have hsync := hsynced.viz hactive hallowed
  have hparam : s.viz.paramActive = false := hsync.other (by rw [h.1]; nofun)
  have hpassed : s.passOn c shown = [] := if_neg fun hpass => by simp [hparam] at hpass
  rcases DsmlParser.feed_structural hsynced.settled.bounded h.1 h.2 c with
    hstruct | ⟨rfl, ⟨hvalue, hempty⟩ | hstop⟩
  · have hstate : (s.parsed c).parser.state = .structural := hstruct.1
    have hend := feedDsmlByte_parsed disk hstate (by simp)
    refine .inr (.inl ?_)
    unfold Between
    rw [hend, hprojected]
    exact hstruct
  · have hstate : (s.parsed 0x3e).parser.state = .paramValue := hvalue
    have hend := feedDsmlByte_parsed disk hstate (by simp)
    have hdrop : (s.feedDsmlByte disk 0x3e).value = [] := by
      unfold value
      rw [hend, hprojected]
      exact hempty
    have hsync' := projected_vizSync hsynced.settled hsync hallowed disk 0x3e
    have htail : (s.feedDsmlByte disk 0x3e).viz.paramEndTail = [] := by
      rw [← hend] at hsync'
      have hparam' := hsync'.param (by rw [hend, hprojected, hstate])
      change 0 ∈ (s.feedDsmlByte disk 0x3e).value ∨ _ at hparam'
      rw [hdrop] at hparam'
      obtain ⟨-, -, hsuffix⟩ := hparam'.resolve_left not_mem_nil
      change _ <:+ (s.feedDsmlByte disk 0x3e).value at hsuffix
      rw [hdrop] at hsuffix
      exact suffix_nil.mp hsuffix
    refine .inr (.inr ⟨by rw [hend, hprojected, hstate], .inr ?_⟩)
    rw [hdrop, htail, hpassed]
    exact ⟨rfl, rfl, .nil, .inl rfl, by simp⟩
  · refine .inl (endDsml_outside ?_)
    rw [hprojected]
    exact hstop

theorem feedDsmlByte_following (hsynced : Synced s) (hactive : s.dsmlActive = true)
    (h : Following s shown) : Following (s.feedDsmlByte disk c) (s.passOn c shown) := by
  have hprojected := projected_parses disk c (!s.dsmlIgnored && s.viz.paramActive) (s.parsed c)
  obtain ⟨hact, hign⟩ := projected_active disk c (!s.dsmlIgnored && s.viz.paramActive) (s.parsed c)
  by_cases hstop : (s.parsed c).parser.state = .done ∨ (s.parsed c).parser.state = .error
  · exact (endDsml_outside (by rw [hprojected]; exact hstop)).following _
  have hend := feedDsmlByte_parsed disk rfl hstop
  have hactive' : (s.feedDsmlByte disk c).dsmlActive = true := by
    rw [hend, hact]
    exact hactive
  refine ⟨fun hinactive => absurd (hinactive.symm.trans hactive') nofun, fun _ hallowed' => ?_⟩
  have hallowed : s.dsmlIgnored = false := by
    rw [hend, hign] at hallowed'
    exact hallowed'
  rcases h.inside hactive hallowed with hbetween | hwithin
  · exact (feedDsmlByte_open hsynced hactive hallowed hbetween).resolve_left fun houtside =>
      absurd (houtside.inactive.symm.trans hactive') nofun
  · exact feedDsmlByte_within hsynced hactive hallowed hwithin

/-! Bytes outside of a block -/

theorem closeGap_outside (h : Outside s) : Outside s.closeGap := h.of_eq rfl rfl

theorem hold_outside (h : Outside s) (tail : Bytes) : Outside (s.hold tail) := h.of_eq rfl rfl

theorem startDsml_between (h : s.parser.raw = []) (ignored : Bool) :
    Between (s.startDsml ignored) ∧ (s.startDsml ignored).dsmlActive = true := by
  have hne : s.parser.start.state ≠ .paramValue := nofun
  have hstart : (s.parser.start).state = .structural ∧
      (0x3e : UInt8) ∉ (s.parser.start).at_ (s.parser.start).parsePos := by
    refine ⟨rfl, ?_⟩
    have hdrop : (s.parser.start).raw.drop (s.parser.start).parsePos = [] := by
      simp [DsmlParser.start, DsmlParser.rawAppend, h]
    rw [DsmlParser.at_, hdrop]
    exact not_mem_nil
  unfold startDsml
  split
  · exact ⟨hstart, rfl⟩
  · rw [toolEvents_eq_self (.inr hne)]
    exact ⟨hstart, rfl⟩

/-- The bytes of an opener that has been taken for the opener of the block. -/
theorem feedOpener_between {bytes : Bytes} (hbytes : ∀ c ∈ bytes, c ≠ 0x3e) (hsynced : Synced s)
    (h : Between s) (hactive : s.dsmlActive = true) :
    Between (bytes.foldl (fun s c => s.feedDsmlByte disk c) s) ∧
      (bytes.foldl (fun s c => s.feedDsmlByte disk c) s).dsmlActive = true := by
  induction bytes generalizing s with
  | nil => exact ⟨h, hactive⟩
  | cons c rest ih =>
    obtain ⟨hbetween, hact⟩ := feedDsmlByte_between hsynced.settled h (hbytes c (mem_cons_self ..))
    exact ih (fun d hd => hbytes d (mem_cons_of_mem _ hd)) (feedDsmlByte_synced hsynced disk c)
      hbetween (hact.trans hactive)

theorem normalByte_following (h : Outside s) (hopen : s.parser.state ≠ .done) (shown : Bytes) :
    Following (s.normalByte disk c) shown := by
  unfold normalByte
  split
  case isTrue => exact h.following shown
  case isFalse herror =>
    have hraw : s.parser.raw = [] := ((h.parser.resolve_left hopen).resolve_left herror).2
    have hnoted := noteThinkingDsmlByte_outside h c
    have hnotedRaw : (s.noteThinkingDsmlByte c).parser.raw = [] := by
      unfold noteThinkingDsmlByte
      split <;> exact hraw
    simp only
    split
    case isTrue => exact hnoted.following shown
    case isFalse =>
      split
      case isFalse => exact (notePlainDsmlByte_outside (closeGap_outside hnoted) c).following shown
      case isTrue =>
        generalize (if (s.noteThinkingDsmlByte c).dsmlStartTail.length < 64 then
          (s.noteThinkingDsmlByte c).dsmlStartTail ++ [c]
          else (s.noteThinkingDsmlByte c).dsmlStartTail) = tail
        split
        case h_1 form implicit hmatch =>
          split
          case isFalse => exact (hold_outside hnoted _).following shown
          case isTrue =>
            obtain ⟨hstarted, hactive⟩ :=
              startDsml_between hnotedRaw (s.noteThinkingDsmlByte c).inThink
            have hfollowing : ∀ {t : StreamRenderer}, Between t → t.dsmlActive = true →
                Following t shown := fun hbetween hact =>
              ⟨fun hinactive => absurd (hinactive.symm.trans hact) nofun, fun _ _ => .inl hbetween⟩
            split
            case isFalse => exact hfollowing hstarted hactive
            case isTrue =>
              have hopener : ∀ c ∈ str "<｜DSML｜invoke", c ≠ 0x3e := forall_of_all (by decide)
              obtain ⟨hfed, hfedActive⟩ :=
                feedOpener_between hopener (startDsml_synced _ _) hstarted hactive
              exact hfollowing hfed hfedActive
        case h_2 =>
          split
          · exact (hold_outside (notePlain_outside (closeGap_outside hnoted) _) _).following shown
          · exact (flushStartTail_outside (hold_outside hnoted _)).following shown

theorem textStep_following {last : Bool} {rest : Bytes} (hsynced : Synced s)
    (h : Following s shown) (hopen : s.parser.state ≠ .done) :
    Following (s.textStep disk last c rest).1 (s.passOn c shown) := by
  unfold textStep
  simp only
  by_cases hactive : s.dsmlActive = true
  · rw [if_neg (by simp [hactive]), if_neg (by simp [hactive]), if_neg (by simp [hactive]),
      if_pos hactive]
    exact feedDsmlByte_following hsynced hactive h
  · have houtside := h.outside (by simpa using hactive)
    have hflushed := flushStartTail_outside houtside
    split
    case isTrue => exact hflushed.following_of_eq (by rfl) (by rfl) _
    case isFalse =>
      split
      case isTrue => exact hflushed.following_of_eq (by rfl) (by rfl) _
      case isFalse =>
        split
        case isTrue =>
          split
          · exact houtside.following_of_eq (by rfl) (by rfl) _
          · exact houtside.following _
        case isFalse =>
          exact normalByte_following houtside hopen _

end StreamRenderer

theorem Watched.following {replay inThink : Bool} {rest shown : Bytes}
    (h : Watched disk replay inThink s rest shown) : Following s shown := by
  induction h with
  | init => exact Outside.following ⟨rfl, .inr (.inr ⟨rfl, rfl⟩)⟩ _
  | text _ text ih => exact ⟨fun hinactive => (ih.outside hinactive).of_eq rfl rfl,
      fun hactive hallowed => (ih.inside hactive hallowed).imp id fun hwithin =>
        ⟨hwithin.state, hwithin.value⟩⟩
  | step h hopen last ih =>
    exact StreamRenderer.textStep_following h.streamed.synced ih hopen

/-! ### What is shown -/

variable {tag : Bytes}

theorem CloseTag.front (h : CloseTag (str "parameter") tag) :
    ∃ front, front ≠ [] ∧ tag = front ++ [0x3e] := by
  obtain ⟨a, bar, b, rfl, -⟩ := h
  have hstart : closeStart (str "parameter") ≠ [] := by decide
  exact ⟨closeStart (str "parameter") ++ (a ++ (bar ++ b)), by simp [hstart], by simp⟩

theorem CloseTag.ne_nil (h : CloseTag (str "parameter") tag) : tag ≠ [] := by
  obtain ⟨front, -, rfl⟩ := h.front
  simp

theorem CloseTag.unique {v w u : Bytes} (ht : CloseTag (str "parameter") t)
    (hu : CloseTag (str "parameter") u) (h : v ++ t = w ++ u) : v = w ∧ t = u := by
  have hsplit : ∀ {a b : Bytes}, CloseTag (str "parameter") b →
      CloseTag (str "parameter") (a ++ b) → a = [] := by
    intro a b hb hab
    cases a with
    | nil => rfl
    | cons d a =>
      cases b with
      | nil => exact absurd rfl hb.ne_nil
      | cons c b =>
        obtain ⟨rfl, -⟩ := hb.no_bracket
        exact absurd (mem_append_right a (mem_cons_self ..)) hab.no_bracket.2
  rcases append_eq_append_iff.mp h with ⟨a, rfl, rfl⟩ | ⟨a, rfl, rfl⟩
  · obtain rfl := hsplit hu ht
    exact ⟨(append_nil v).symm, nil_append u⟩
  · obtain rfl := hsplit ht hu
    exact ⟨append_nil w, (nil_append t).symm⟩

theorem keptTail_ne (h : CloseTag (str "parameter") tag) : keptTail t ≠ tag := by
  unfold keptTail
  have hend := parameterCloseTail_closeTag h
  split
  case isTrue htail =>
    rintro rfl
    exact absurd (htail.symm.trans hend) nofun
  case isFalse =>
    exact h.ne_nil.symm

theorem tailBehind_ne (h : CloseTag (str "parameter") tag) : tailBehind t c ≠ tag := by
  unfold tailBehind
  repeat' split
  · exact h.ne_nil.symm
  · exact keptTail_ne h
  · exact keptTail_ne h
  · exact h.ne_nil.symm

theorem passOn_closed {shown value : Bytes}
    (htail : s.viz.paramEndTail = held s.value) (hholds : Holds shown s.viz.paramEndTail)
    (hvalue : s.value = shown ++ s.viz.paramEndTail) (htag : CloseTag (str "parameter") tag)
    (hbytes : s.value ++ [c] = value ++ tag) :
    shown ++ s.viz.passedOn c = value ↔ Released value ∧ tag.length ≤ 64 := by
  by_cases hcomplete : s.viz.Completes c
  · have hnothing : s.viz.passedOn c = [] := by
      have hstart : s.viz.paramEndTail ≠ [] := by
        intro hnil
        obtain ⟨front, hne, heq⟩ := (closeTag_of_tail hcomplete.2).front
        rw [hnil] at heq
        exact hne (append_inj' heq rfl).1.symm
      unfold Visualizer.passedOn
      simp only
      rw [if_pos (.inl hstart), if_neg hcomplete.1, hcomplete.2]
      rfl
    rw [hnothing, append_nil]
    rw [hvalue, append_assoc] at hbytes
    obtain ⟨rfl, rfl⟩ := (closeTag_of_tail hcomplete.2).unique htag hbytes
    have hlength := hholds.length
    have hfull := hcomplete.1
    refine iff_of_true rfl ⟨hholds.released, ?_⟩
    rw [length_append, length_singleton]
    omega
  · have hpassed := Visualizer.passedOn_append hcomplete
    refine iff_of_false (fun hshown => ?_) fun ⟨hreleased, hlength⟩ => hcomplete ?_
    · rw [hvalue, append_assoc, ← hpassed, ← append_assoc, hshown] at hbytes
      exact tailBehind_ne htag (append_cancel_left hbytes)
    · obtain ⟨front, hne, rfl⟩ := htag.front
      obtain ⟨hall, hc⟩ := append_inj' (hbytes.trans (append_assoc ..).symm) rfl
      obtain rfl : c = 0x3e := (cons.inj hc).1
      have hfront : Front front := ⟨hne, [0x3e], by simp, htag⟩
      rw [length_append, length_singleton] at hlength
      rw [hall, held_front hreleased.idle (fun u hu hne => hfront.of_prefix hu hne) (by omega) hne]
        at htail
      unfold Visualizer.Completes
      rw [htail]
      exact ⟨by omega, parameterCloseTail_closeTag htag⟩

/-- Behind the byte that closes a value, what has been passed on is the value that the call stores,
if and only if all that was held back within the value has been given back with it, and the
closing tag fits into the tail. -/
theorem shown_exact {disk : Disk} {replay inThink : Bool} {s : StreamRenderer} {c : UInt8}
    {rest shown : Bytes} (h : Watched disk replay inThink s (c :: rest) shown)
    (hactive : s.dsmlActive = true) (hallowed : s.dsmlIgnored = false)
    (hstate : s.parser.state = .paramValue) (hclosed : (s.parser.feed c).state ≠ .paramValue) :
    ∃ name value tag,
      (s.parser.feed c).current.args = s.parser.current.args ++ [(name, value)] ∧
      CloseTag (str "parameter") tag ∧ s.value ++ [c] = value ++ tag ∧
      (s.passOn c shown = value ↔ Released value ∧ tag.length ≤ 64) := by
  have hsynced := h.streamed.synced
  rcases DsmlParser.feed_param hsynced.settled hstate c with
    ⟨-, hfeed⟩ | ⟨i, n, hclean, hfound, hfeed⟩
  · exact absurd (by rw [hfeed]; exact hstate) hclosed
  · obtain ⟨hparam, -⟩ := ((hsynced.viz hactive hallowed).param hstate).resolve_left hclean
    have hwithin : Within s shown :=
      (h.following.inside hactive hallowed).resolve_left fun hbetween =>
        absurd (hbetween.1.symm.trans hstate) nofun
    obtain ⟨hvalue, htail, hholds⟩ := hwithin.value.resolve_left hclean
    have hpassed : s.passOn c shown = shown ++ s.viz.passedOn c :=
      if_pos ⟨hactive, hallowed, hparam⟩
    have hunclosed := hsynced.settled.unclosed hstate
    rw [DsmlParser.at_, cstr_eq_self hclean] at hunclosed
    have hlength := findCloseTag_concat hunclosed hfound
    obtain ⟨tag, more, hdrop, rfl, htag⟩ := closeTagAt_eq_some_iff.mp (findCloseTag_some hfound)
    change (s.value ++ [c]).drop i = tag ++ more at hdrop
    obtain rfl : more = [] := by
      have hcount := congrArg length hdrop
      rw [length_drop, length_append, length_append, length_singleton] at hcount
      have hsize : s.value.length = (s.parser.raw.drop s.parser.paramValueStart).length := rfl
      exact length_eq_zero_iff.mp (by omega)
    rw [append_nil] at hdrop
    have hbytes : s.value ++ [c] = (s.value ++ [c]).take i ++ tag := by
      rw [← hdrop, take_append_drop]
    refine ⟨s.parser.paramName.getD [], (s.value ++ [c]).take i, tag, ?_, htag, hbytes, ?_⟩
    · have hle : s.parser.paramValueStart ≤ s.parser.raw.length := by
        rw [hsynced.settled.bounded.start hstate]
        exact hsynced.settled.bounded.pos
      rw [hfeed]
      simp only [DsmlParser.closeParam, DsmlParser.rawAppend, StreamRenderer.value]
      rw [drop_append_of_le_length hle]
    · rw [hpassed]
      exact passOn_closed htail hholds hvalue htag hbytes

/-! ### Two values -/

/-- Passes of the loop of `agent_stream_text`, up to the end of the block. -/
def watchPasses (disk : Disk) : ℕ → StreamRenderer × Bytes × Bytes → StreamRenderer × Bytes × Bytes
  | 0, p => p
  | _ + 1, (s, [], shown) => (s, [], shown)
  | n + 1, (s, c :: rest, shown) =>
      if s.parser.state = .done then (s, c :: rest, shown)
      else
        let next := s.textStep disk false c rest
        watchPasses disk n (next.1, next.2, s.passOn c shown)

theorem watched_watchPasses {replay inThink : Bool} {p : StreamRenderer × Bytes × Bytes}
    (h : Watched disk replay inThink p.1 p.2.1 p.2.2) (n : ℕ) :
    Watched disk replay inThink (watchPasses disk n p).1 (watchPasses disk n p).2.1
      (watchPasses disk n p).2.2 := by
  induction n generalizing p with
  | zero => exact h
  | succ n ih =>
    obtain ⟨s, rest, shown⟩ := p
    cases rest with
    | nil => exact h
    | cons c rest =>
      unfold watchPasses
      split
      case isTrue => exact h
      case isFalse hopen => exact ih (p := (_, _, _)) (h.step hopen false)

/-- In front of the last byte of a text. -/
def atLast (text : Bytes) : StreamRenderer × Bytes × Bytes :=
  watchPasses (fun _ => ([], ⟨none, false, none⟩)) (text.length - 1) (.init false false, text, [])

theorem watched_atLast (text : Bytes) : Watched (fun _ => ([], ⟨none, false, none⟩)) false false
    (atLast text).1 (atLast text).2.1 (atLast text).2.2 :=
  watched_watchPasses (p := (.init false false, text, [])) (Watched.init.text text) _

/-- In front of the last byte of the tag behind a command. -/
def atEnd (command : Bytes) : StreamRenderer × Bytes × Bytes :=
  atLast (str "<｜DSML｜tool_calls><｜DSML｜invoke name=\"bash\">" ++
    (str "<｜DSML｜parameter name=\"command\">" ++ (command ++ str "</｜DSML｜parameter>")))

theorem watched_atEnd (command : Bytes) : Watched (fun _ => ([], ⟨none, false, none⟩)) false false
    (atEnd command).1 (atEnd command).2.1 (atEnd command).2.2 := by
  unfold atEnd
  exact watched_atLast _

theorem shown_exact_redirected : ∃ name value tag,
    ((atEnd (str "a <b c")).1.parser.feed 0x3e).current.args =
      (atEnd (str "a <b c")).1.parser.current.args ++ [(name, value)] ∧
    CloseTag (str "parameter") tag ∧ (atEnd (str "a <b c")).1.value ++ [0x3e] = value ++ tag ∧
    ((atEnd (str "a <b c")).1.passOn 0x3e (atEnd (str "a <b c")).2.2 = value ↔
      Released value ∧ tag.length ≤ 64) := by
  have hwatched := watched_atEnd (str "a <b c")
  have hrest : (atEnd (str "a <b c")).2.1 = [0x3e] := by decide +kernel
  rw [hrest] at hwatched
  exact shown_exact hwatched (by decide +kernel) (by decide +kernel) (by decide +kernel)
    (by decide +kernel)

/-- With a bracket in front of it the closing tag is shown. -/
theorem shown_tag : ¬ ∀ (disk : Disk) (replay inThink : Bool) (s : StreamRenderer) (c : UInt8)
    (rest shown : Bytes), Watched disk replay inThink s (c :: rest) shown → s.dsmlActive = true →
      s.dsmlIgnored = false → s.parser.state = .paramValue →
      (s.parser.feed c).state ≠ .paramValue →
      ∃ name value, (s.parser.feed c).current.args = s.parser.current.args ++ [(name, value)] ∧
        s.passOn c shown = value := by
  intro hclaim
  have hwatched := watched_atEnd (str "ls <")
  have hrest : (atEnd (str "ls <")).2.1 = [0x3e] := by decide +kernel
  rw [hrest] at hwatched
  obtain ⟨name, value, hargs, hshown⟩ := hclaim _ _ _ _ _ _ _ hwatched (by decide +kernel)
    (by decide +kernel) (by decide +kernel) (by decide +kernel)
  have hstored : ((atEnd (str "ls <")).1.parser.feed 0x3e).current.args =
      (atEnd (str "ls <")).1.parser.current.args ++ [(str "command", str "ls <")] := by
    decide +kernel
  have hpassed : (atEnd (str "ls <")).1.passOn 0x3e (atEnd (str "ls <")).2.2 =
      str "ls <</｜DSML｜parameter>" := by decide +kernel
  have hvalue := append_cancel_left (hargs.symm.trans hstored)
  rw [hpassed, (Prod.mk.inj (cons.inj hvalue).1).2] at hshown
  exact absurd hshown (by decide)

end Ds4Studio.Agent

import Ds4Studio.Lib.Bytes
import Ds4Studio.Lib.Search

/-!
The markup of tool calls: the marker spellings the server accepts, the escapers
of the prompt renderer and the unescaper of the generated-text parser. Attributes
escape every byte that could end them. Parameter text escapes only its own
closing tag, while the unescaper undoes every entity.
-/

namespace Ds4Studio.Dsml

open Bytes List Search

/-- One spelling of the six markers. -/
structure Spelling where
  toolCallsStart : Bytes
  toolCallsEnd : Bytes
  invokeStart : Bytes
  invokeEnd : Bytes
  paramStart : Bytes
  paramEnd : Bytes

def spell (dsml : String) : Spelling where
  toolCallsStart := str "<" ++ str dsml ++ str "tool_calls>"
  toolCallsEnd := str "</" ++ str dsml ++ str "tool_calls>"
  invokeStart := str "<" ++ str dsml ++ str "invoke"
  invokeEnd := str "</" ++ str dsml ++ str "invoke>"
  paramStart := str "<" ++ str dsml ++ str "parameter"
  paramEnd := str "</" ++ str dsml ++ str "parameter>"

/-- `DS4_DSML` -/
def dsml : Spelling := spell "｜DSML｜"

/-- `DS4_DSML_SHORT`: the first vertical bar is omitted. -/
def dsmlShort : Spelling := spell "DSML｜"

/-- Plain XML. -/
def plain : Spelling := spell ""

/-! ### Entities -/

/-- The entities in the order in which the unescaper tries them. -/
def entities : List (Bytes × UInt8) :=
  [(str "&amp;", 0x26), (str "&lt;", 0x3c), (str "&gt;", 0x3e), (str "&quot;", 0x22),
    (str "&apos;", 0x27)]

def entityAt (s : Bytes) : Option (Bytes × UInt8) := entities.find? fun e => e.1 <+: s

/-- The loop of `dsml_unescape_text`; the counter is what is left of the entity
just decoded. -/
def unescapeLoop : ℕ → Bytes → Bytes
  | _, [] => []
  | skip + 1, _ :: s => unescapeLoop skip s
  | 0, c :: s =>
      match entityAt (c :: s) with
      | some (e, decoded) => decoded :: unescapeLoop (e.length - 1) s
      | none => c :: unescapeLoop 0 s

def dsmlUnescapeText (s : Bytes) : Bytes := unescapeLoop 0 s

theorem unescapeLoop_skip (t s : Bytes) : unescapeLoop t.length (t ++ s) = unescapeLoop 0 s := by
  induction t with
  | nil => rfl
  | cons c t ih => simpa [unescapeLoop] using ih

@[simp] theorem dsmlUnescapeText_nil : dsmlUnescapeText [] = [] := rfl

variable {s : Bytes}

theorem dsmlUnescapeText_cons {c : UInt8} (h : ∀ e ∈ entities, ¬ e.1 <+: c :: s) :
    dsmlUnescapeText (c :: s) = c :: dsmlUnescapeText s := by
  have hnone : entityAt (c :: s) = none := by simpa [entityAt, find?_eq_none] using h
  simp [dsmlUnescapeText, unescapeLoop, hnone]

theorem entity_shape {e : Bytes × UInt8} (he : e ∈ entities) :
    ∃ t, e.1 = 0x26 :: t ∧ (0x26 : UInt8) ∉ t ∧ (0x3c : UInt8) ∉ t := by
  simp only [entities, mem_cons, not_mem_nil, or_false] at he
  rcases he with rfl | rfl | rfl | rfl | rfl <;> exact ⟨_, rfl, by decide, by decide⟩

theorem dsmlUnescapeText_plain {c : UInt8} (hc : c ≠ 0x26) (s : Bytes) :
    dsmlUnescapeText (c :: s) = c :: dsmlUnescapeText s := by
  refine dsmlUnescapeText_cons fun e he h => ?_
  obtain ⟨t, ht, -⟩ := entity_shape he
  rw [ht, cons_prefix_cons] at h
  exact hc h.1.symm

theorem dsmlUnescapeText_entity {e : Bytes × UInt8} (he : e ∈ entities) (s : Bytes) :
    dsmlUnescapeText (e.1 ++ s) = e.2 :: dsmlUnescapeText s := by
  have hat : entityAt (e.1 ++ s) = some e := by
    simp only [entities, mem_cons, not_mem_nil, or_false] at he
    rcases he with rfl | rfl | rfl | rfl | rfl <;> rfl
  obtain ⟨t, ht, -⟩ := entity_shape he
  rw [ht, cons_append] at hat ⊢
  simp only [dsmlUnescapeText, unescapeLoop, hat, ht, length_cons, Nat.add_sub_cancel]
  rw [unescapeLoop_skip]

/-! ### Attributes -/

def attrEscapeByte (c : UInt8) : Bytes :=
  if c = 0x26 then str "&amp;"
  else if c = 0x3c then str "&lt;"
  else if c = 0x3e then str "&gt;"
  else if c = 0x22 then str "&quot;"
  else [c]

def appendDsmlAttrEscaped (s : Bytes) : Bytes := s.flatMap attrEscapeByte

theorem attrEscapeByte_eq (c : UInt8) :
    (∃ e ∈ entities, attrEscapeByte c = e.1 ∧ c = e.2) ∨
      (attrEscapeByte c = [c] ∧ c ≠ 0x26 ∧ c ≠ 0x3c ∧ c ≠ 0x3e ∧ c ≠ 0x22) := by
  unfold attrEscapeByte
  split
  · exact Or.inl ⟨(str "&amp;", 0x26), by simp [entities], rfl, by assumption⟩
  · split
    · exact Or.inl ⟨(str "&lt;", 0x3c), by simp [entities], rfl, by assumption⟩
    · split
      · exact Or.inl ⟨(str "&gt;", 0x3e), by simp [entities], rfl, by assumption⟩
      · split
        · exact Or.inl ⟨(str "&quot;", 0x22), by simp [entities], rfl, by assumption⟩
        · exact Or.inr ⟨rfl, by assumption, by assumption, by assumption, by assumption⟩

theorem dsmlUnescapeText_attr (s rest : Bytes) :
    dsmlUnescapeText (appendDsmlAttrEscaped s ++ rest) = s ++ dsmlUnescapeText rest := by
  induction s with
  | nil => rfl
  | cons c s ih =>
    have hcons : appendDsmlAttrEscaped (c :: s) = attrEscapeByte c ++ appendDsmlAttrEscaped s := rfl
    rw [hcons, append_assoc]
    rcases attrEscapeByte_eq c with ⟨e, he, hbyte, rfl⟩ | ⟨hbyte, hamp, -⟩
    · rw [hbyte, dsmlUnescapeText_entity he, ih, cons_append]
    · rw [hbyte, singleton_append, dsmlUnescapeText_plain hamp, ih, cons_append]

theorem attr_safe : ∀ c ∈ appendDsmlAttrEscaped s, c ≠ 0x22 ∧ c ≠ 0x3e ∧ c ≠ 0x3c := by
  intro c hc
  obtain ⟨d, -, hd⟩ := mem_flatMap.mp hc
  rcases attrEscapeByte_eq d with ⟨e, he, hbyte, -⟩ | ⟨hbyte, -, hlt, hgt, hq⟩
  · rw [hbyte] at hd
    have hall : ∀ e ∈ entities, e.1.all (fun c => c ≠ 0x22 ∧ c ≠ 0x3e ∧ c ≠ 0x3c) = true := by
      decide
    exact forall_of_all (hall e he) c hd
  · rw [hbyte, mem_singleton] at hd
    subst hd
    exact ⟨hq, hgt, hlt⟩

/-- An escaped attribute ends in a text without special bytes only where the
attribute does. -/
theorem attr_suffix {q : Bytes} (hq : ∀ c ∈ q, attrEscapeByte c = [c] ∧ c ≠ 0x3b)
    (h : q <:+ appendDsmlAttrEscaped s) : q <:+ s := by
  induction q using List.reverseRecOn generalizing s with
  | nil => exact nil_suffix
  | append_singleton q d ih =>
    obtain ⟨hd, hsemi⟩ := hq d (by simp)
    rcases eq_nil_or_concat s with rfl | ⟨s, c, rfl⟩
    · simp [appendDsmlAttrEscaped] at h
    · have hlast : d ∈ (attrEscapeByte c).getLast? := by
        have hsplit : appendDsmlAttrEscaped (s ++ [c]) =
            appendDsmlAttrEscaped s ++ attrEscapeByte c := by simp [appendDsmlAttrEscaped]
        have hne : attrEscapeByte c ≠ [] := by
          rcases attrEscapeByte_eq c with ⟨e, he, hbyte, -⟩ | ⟨hbyte, -⟩
          · obtain ⟨t, ht, -⟩ := entity_shape he
            simp [hbyte, ht]
          · simp [hbyte]
        obtain ⟨front, hfront⟩ := h
        have hget := congrArg List.getLast? hfront
        rw [concat_eq_append, hsplit] at hget
        simpa [getLast?_append, hne] using hget.symm
      have hc : attrEscapeByte c = [c] := by
        rcases attrEscapeByte_eq c with ⟨e, he, hbyte, -⟩ | ⟨hbyte, -⟩
        · have hends : ∀ e ∈ entities, e.1.getLast? = some 0x3b := by decide
          rw [hbyte, hends e he] at hlast
          simp at hlast
          exact absurd hlast.symm hsemi
        · exact hbyte
      have hcd : c = d := by simpa [hc] using hlast
      subst hcd
      rw [concat_eq_append] at h ⊢
      simp only [appendDsmlAttrEscaped, flatMap_append, flatMap_singleton, hc] at h
      obtain ⟨front, hfront⟩ := h
      rw [← append_assoc] at hfront
      obtain ⟨front', rfl⟩ := ih (fun e he => hq e (by simp [he]))
        ⟨front, append_cancel_right hfront⟩
      exact ⟨front', by rw [append_assoc]⟩

/-! ### Values -/

def appendDsmlParameterText (s : Bytes) : Bytes := mask dsml.paramEnd (str "&lt;") s

/-- Values that are no strings escape the same tag the JSON way. -/
def appendDsmlJsonLiteral (s : Bytes) : Bytes := mask dsml.paramEnd (str "\\u003c") s

theorem paramEnd_shape : dsml.paramEnd = 0x3c :: (str "/" ++ str "｜DSML｜" ++ str "parameter>") := by
  decide

theorem not_paramEnd_parameterText (s : Bytes) : ¬ dsml.paramEnd <:+: appendDsmlParameterText s :=
  not_infix_mask paramEnd_shape (r := 0x26) rfl (by decide) (by decide) s

theorem not_paramEnd_jsonLiteral (s : Bytes) : ¬ dsml.paramEnd <:+: appendDsmlJsonLiteral s :=
  not_infix_mask paramEnd_shape (r := 0x5c) rfl (by decide) (by decide) s

theorem dsmlUnescapeText_parameterText (hs : ∀ e ∈ entities, ¬ e.1 <:+: s) :
    dsmlUnescapeText (appendDsmlParameterText s) = s := by
  unfold appendDsmlParameterText
  induction s with
  | nil => rfl
  | cons c s ih =>
    have hrest := ih fun e he h => hs e he (h.trans (infix_cons (infix_refl s)))
    rw [mask]
    split
    · rename_i hat
      have hc : c = 0x3c := by
        rw [paramEnd_shape, cons_prefix_cons] at hat
        exact hat.1.symm
      rw [dsmlUnescapeText_entity (e := (str "&lt;", 0x3c)) (by decide), hrest, hc]
    · rw [dsmlUnescapeText_cons, hrest]
      intro e he h
      obtain ⟨t, ht, hamp, -⟩ := entity_shape he
      rw [ht, cons_prefix_cons] at h
      have htail := prefix_of_prefix_mask (r := 0x26) rfl hamp h.2
      refine hs e he (List.IsPrefix.isInfix ?_)
      rw [ht, cons_prefix_cons]
      exact ⟨h.1, htail⟩

end Ds4Studio.Dsml

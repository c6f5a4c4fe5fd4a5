import Ds4Studio.Files.Edit

/-!
What an edit does to the file. The region that the old text selects is replaced, or the file is
as it was; only a write that fails behind its start is neither.
-/

namespace Ds4Studio.Files

open List Option

open Agent (ToolCall toolArgValue)
open Bytes
open Search (OnlyAt)

/-! ### The region -/

/-- The old text occurs once, or the text in front of its only marker occurs once and, behind
that, the text that follows the line breaks of the marker. -/
inductive Selects (data old : Bytes) : ℕ → ℕ → Prop
  | whole {start : ℕ} (hmarker : ¬ marker <:+: old) (hold : old ≠ [])
      (honly : OnlyAt old data start) : Selects data old start (start + old.length)
  | anchored {head rest : Bytes} {start i : ℕ} (hmarker : OnlyAt marker old head.length)
      (hsplit : old = head ++ marker ++ rest) (hhead : head ≠ [])
      (honly : OnlyAt head data start)
      (hspace : spanHasNonspace (rest.dropWhile isBreak) = true)
      (htail : OnlyAt (rest.dropWhile isBreak) (data.drop (start + head.length)) i) :
      Selects data old start (start + head.length + i + (rest.dropWhile isBreak).length)

theorem marker_headed : Search.Headed marker := ⟨0x5b, str "upto]", by decide, by decide⟩

/-- The second search of `agent_find_unique` and the one of `agent_find_unique_after`. -/
theorem second_eq {data needle : Bytes} {first : ℕ} (hneedle : needle ≠ [])
    (hfirst : first + needle.length ≤ data.length) :
    (if first + 1 ≤ data.length then memmemSimple (data.drop (first + 1)) needle else none) =
      Search.find needle (data.drop (first + 1)) := by
  have hpos := length_pos_of_ne_nil hneedle
  rw [if_pos (by omega)]
  rfl

theorem findUnique_ok_iff {data needle label : Bytes} {i : ℕ} :
    findUnique data needle label = .ok i ↔ needle ≠ [] ∧ OnlyAt needle data i := by
  unfold findUnique
  by_cases hneedle : needle = []
  · simp [hneedle]
  · rw [if_neg hneedle, Search.onlyAt_iff hneedle]
    unfold memmemSimple
    cases hfind : Search.find needle data with
    | none => simp
    | some first =>
      have hsecond := second_eq hneedle (Search.find_bound hfind)
      unfold memmemSimple at hsecond
      simp only [hsecond]
      cases hbehind : Search.find needle (data.drop (first + 1)) with
      | none =>
        simp only [isSome_none, Bool.false_eq_true, if_false, Except.ok.injEq,
          some.injEq, ne_eq, hneedle, not_false_eq_true, true_and]
        exact ⟨fun h => ⟨h, h ▸ hbehind⟩, fun h => h.1⟩
      | some j =>
        simp only [isSome_some, if_true, reduceCtorEq, some.injEq, false_iff]
        rintro ⟨-, rfl, h⟩
        rw [hbehind] at h
        cases h

theorem findUniqueAfter_ok_iff {data needle label : Bytes} {start pos : ℕ}
    (hstart : start ≤ data.length) :
    findUniqueAfter data start needle label = .ok pos ↔
      needle ≠ [] ∧ ∃ i, pos = start + i ∧ OnlyAt needle (data.drop start) i := by
  unfold findUniqueAfter
  by_cases hneedle : needle = []
  · simp [hneedle]
  · rw [if_neg hneedle, if_neg (Nat.not_lt.mpr hstart)]
    simp only [Search.onlyAt_iff hneedle, drop_drop]
    unfold memmemSimple
    cases hfind : Search.find needle (data.drop start) with
    | none => simp
    | some first =>
      have hbound := Search.find_bound hfind
      rw [length_drop] at hbound
      have hsecond := @second_eq data needle (start + first) hneedle (by omega)
      unfold memmemSimple at hsecond
      simp only [hsecond]
      cases hbehind : Search.find needle (data.drop (start + first + 1)) with
      | none =>
        simp only [isSome_none, Bool.false_eq_true, if_false, Except.ok.injEq,
          some.injEq, ne_eq, hneedle, not_false_eq_true, true_and]
        constructor
        · rintro rfl
          exact ⟨first, rfl, rfl, by rw [← Nat.add_assoc]; exact hbehind⟩
        · rintro ⟨i, rfl, rfl, -⟩
          rfl
      | some j =>
        simp only [isSome_some, if_true, reduceCtorEq, some.injEq, false_iff]
        rintro ⟨-, i, -, rfl, h⟩
        rw [← Nat.add_assoc, hbehind] at h
        cases h

theorem marker_split {old : Bytes} {upto : ℕ} (hfind : Search.find marker old = some upto) :
    old = old.take upto ++ marker ++ old.drop (upto + marker.length) ∧
      (old.take upto).length = upto := by
  have hcut : Search.cut marker old =
      some (old.take upto, old.drop (upto + marker.length)) := by
    simp only [Search.cut, hfind, map_some]
  obtain ⟨hlength, hsplit⟩ := Search.cut_eq_some_iff.mp hcut
  rw [hfind] at hlength
  exact ⟨hsplit, (some.inj hlength).symm⟩

theorem ne_nil_of_nonspace {s : Bytes} (h : spanHasNonspace s = true) : s ≠ [] := by
  rintro rfl
  cases h

theorem editFindOldSpan_selects {data old : Bytes} {span : Span}
    (h : editFindOldSpan data old = .ok span) :
    Selects data old span.start (span.start + span.length) := by
  unfold editFindOldSpan at h
  cases hfind : Search.find marker old with
  | none =>
    simp only [hfind] at h
    cases hunique : findUnique data old (str "old text") with
    | error e =>
      rw [hunique] at h
      cases h
    | ok start =>
      rw [hunique] at h
      cases h
      obtain ⟨hold, honly⟩ := findUnique_ok_iff.mp hunique
      exact .whole ((Search.find_eq_none_iff _ _).mp hfind) hold honly
  | some upto =>
    simp only [hfind] at h
    obtain ⟨hsplit, hlength⟩ := marker_split hfind
    split at h
    case isTrue => cases h
    case isFalse hone =>
      split at h
      case isTrue => cases h
      case isFalse hspace =>
        cases hhead : findUnique data (old.take upto) (str "old head") with
        | error e =>
          rw [hhead] at h
          cases h
        | ok headPos =>
          rw [hhead] at h
          obtain ⟨hne, honly⟩ := findUnique_ok_iff.mp hhead
          have hbound := honly.bound hne
          cases htail : findUniqueAfter data (headPos + (old.take upto).length)
              ((old.drop (upto + marker.length)).dropWhile isBreak) (str "old tail") with
          | error e =>
            simp only [htail] at h
            cases h
          | ok tailPos =>
            simp only [htail] at h
            obtain rfl := Except.ok.inj h
            obtain ⟨-, i, rfl, hafter⟩ := (findUniqueAfter_ok_iff hbound).mp htail
            have hmarker : OnlyAt marker old (old.take upto).length := by
              rw [hlength]
              refine marker_headed.onlyAt_iff.mpr ⟨hfind, ?_⟩
              simpa using hone
            have hselects := Selects.anchored hmarker hsplit hne honly (by simpa using hspace)
              hafter
            have hstop : headPos + (headPos + (old.take upto).length + i - headPos +
                ((old.drop (upto + marker.length)).dropWhile isBreak).length) =
                headPos + (old.take upto).length + i +
                  ((old.drop (upto + marker.length)).dropWhile isBreak).length := by
              omega
            rw [← hstop] at hselects
            exact hselects

theorem Selects.found {data old : Bytes} {start stop : ℕ} (h : Selects data old start stop) :
    ∃ span, editFindOldSpan data old = .ok span ∧ span.start = start ∧
      span.start + span.length = stop := by
  unfold editFindOldSpan
  cases h with
  | whole hmarker hold honly =>
    rw [(Search.find_eq_none_iff _ _).mpr hmarker]
    simp only [findUnique_ok_iff.mpr ⟨hold, honly⟩]
    exact ⟨_, rfl, rfl, rfl⟩
  | @anchored head rest start i hmarker hsplit hhead honly hspace htail =>
    obtain ⟨hfind, hone⟩ := marker_headed.onlyAt_iff.mp hmarker
    have hdrop : old.drop (head.length + marker.length) = rest := by
      rw [hsplit, drop_left' (by simp)]
    have htake : old.take head.length = head := by rw [hsplit, append_assoc, take_left]
    have hbound := honly.bound hhead
    have htailPos : findUniqueAfter data (start + head.length) (rest.dropWhile isBreak)
        (str "old tail") = .ok (start + head.length + i) :=
      (findUniqueAfter_ok_iff hbound).mpr ⟨ne_nil_of_nonspace hspace, i, rfl, htail⟩
    rw [hdrop] at hone
    rw [hfind]
    simp only [hdrop, hone, isSome_none, Bool.false_eq_true, if_false, htake, hspace,
      Bool.true_eq_false, findUnique_ok_iff.mpr ⟨hhead, honly⟩, htailPos]
    refine ⟨_, rfl, rfl, ?_⟩
    simp only
    omega

theorem Selects.bound {data old : Bytes} {start stop : ℕ} (h : Selects data old start stop) :
    start ≤ stop ∧ stop ≤ data.length := by
  cases h with
  | whole hmarker hold honly => exact ⟨Nat.le_add_right _ _, honly.bound hold⟩
  | anchored hmarker hsplit hhead honly hspace htail =>
    have hhead := honly.bound hhead
    have htail := htail.bound (ne_nil_of_nonspace hspace)
    rw [length_drop] at htail
    omega

/-! ### The edit -/

/-- An error of a tool, as the model sees it. -/
def IsToolError (result : Bytes) : Prop := str "Tool error: " <+: result

instance (result : Bytes) : Decidable (IsToolError result) := inferInstanceAs (Decidable (_ <+: _))

/-- The file with the region between two positions replaced. -/
def replaced (file : Bytes) (start stop : ℕ) (new : Bytes) : Bytes :=
  file.take start ++ new ++ file.drop stop

theorem isToolError_toolError (e : Bytes) : IsToolError (toolError e) := by
  refine (prefix_refl _).trans (.trans ?_ (Buf.prefix_append _ _))
  refine .trans ?_ (Buf.prefix_append _ _)
  decide

theorem appendLine_front (data : Bytes) (sp : LineSpan) (line : ℤ) (b : Buf) :
    b.text <+: (appendLine data sp line b).text :=
  ((Buf.prefix_append _ _).trans (Buf.prefix_append _ _)).trans (Buf.prefix_append _ _)

theorem appendLines_front (data : Bytes) (spans : List LineSpan) (first last : ℤ) (b : Buf) :
    b.text <+: (appendLines data spans first last b).text := by
  unfold appendLines
  induction List.range (last + 1 - first).toNat generalizing b with
  | nil => exact prefix_refl _
  | cons i rest ih =>
    exact (appendLine_front _ _ _ b).trans (ih _)

theorem appendContext_front (path data : Bytes) (anchorStart anchorEnd : ℤ) (b : Buf) :
    b.text <+: (appendContext path data anchorStart anchorEnd b).text := by
  unfold appendContext
  simp only
  split
  · exact prefix_refl _
  · split
    · exact (Buf.prefix_append _ b).trans (appendLines_front _ _ _ _ _)
    · refine .trans (.trans ?_ (Buf.prefix_append _ _)) (appendLines_front _ _ _ _ _)
      exact (Buf.prefix_append _ b).trans (appendLines_front _ _ _ _ _)

theorem editResult_ok (path : Bytes) (effect : LineEffect) (newData kind : Bytes) :
    ¬ IsToolError (editResult path effect newData kind) := by
  have hfirst : str "Edited " <+: (Buf.empty.append (snprintf (pathMax + 180)
      (str "Edited " ++ path ++ str " using " ++ kind ++ str "\n"))).text := by
    have hlength : (snprintf (pathMax + 180)
        (str "Edited " ++ path ++ str " using " ++ kind ++ str "\n")).length ≤ bufMax := by
      refine (length_take_le _ _).trans (by decide)
    rw [Buf.append_of_fits rfl (by simpa [Buf.empty] using hlength)]
    simp only [Buf.empty, nil_append, snprintf, append_assoc]
    refine prefix_of_prefix_length_le (prefix_append _ _) ( take_prefix _ _) ?_
    rw [length_take, length_append]
    exact Nat.le_min.mpr ⟨by decide, Nat.le_add_right _ _⟩
  have hresult : str "Edited " <+: editResult path effect newData kind := by
    unfold editResult Buf.take
    split
    · refine hfirst.trans (.trans ?_ (appendContext_front _ _ _ _ _))
      split
      · exact (Buf.prefix_append _ _).trans (Buf.prefix_append _ _)
      · exact Buf.prefix_append _ _
    · exact hfirst
  intro herror
  rcases prefix_or_prefix_of_prefix hresult herror with h | h
  · exact absurd h (by decide)
  · exact absurd h (by decide)

theorem refused : IsToolError (str "Tool error: edit requires path\n") ∧
    IsToolError (str "Tool error: edit requires non-empty old text\n") ∧
    IsToolError (str "Tool error: edit requires new text\n") := by
  decide

/-- An edit that reads the file: what it was asked, and that the file can be read. -/
structure Attempt (call : ToolCall) (file : Bytes) (r : ReadWorld) (old new : Bytes) : Prop where
  read : ∃ path, toolArgValue call (str "path") = some path ∧ path ≠ [] ∧
    readFileBytes path file r = .ok file
  oldText : toolArgValue call (str "old") = some old
  nonempty : old ≠ []
  newText : toolArgValue call (str "new") = some new

theorem applyFileSplice_cases {path file new kind : Bytes} {w : WriteWorld} {start length : ℕ}
    (hbound : start + length ≤ file.length) :
    (¬ IsToolError (applyFileSplice path file start length new kind w).result ∧
        (applyFileSplice path file start length new kind w).file =
            replaced file start (start + length) new ∧
          (replaced file start (start + length) new).length ≤ w.wrote ∧ w.closeError = none) ∨
      (IsToolError (applyFileSplice path file start length new kind w).result ∧
        (applyFileSplice path file start length new kind w).file = file ∧
          w.openError.isSome = true) ∨
      (IsToolError (applyFileSplice path file start length new kind w).result ∧
        (applyFileSplice path file start length new kind w).file =
            (replaced file start (start + length) new).take w.reached ∧
          w.openError = none ∧ (w.wrote < (replaced file start (start + length) new).length ∨
            w.closeError.isSome = true)) := by
  have hremove : min length (file.length - start) = length := by omega
  unfold applyFileSplice
  simp only [hremove]
  have hwritten := writeFileBytes_cases path (replaced file start (start + length) new) file w
  unfold replaced at hwritten ⊢
  rcases hwritten with ⟨h, hends⟩ | ⟨e, h, hopen⟩ | ⟨e, h, hopen, hfails⟩
  · rw [h]
    exact .inl ⟨editResult_ok _ _ _ _, rfl, hends⟩
  · rw [h]
    exact .inr (.inl ⟨isToolError_toolError e, rfl, hopen⟩)
  · rw [h]
    exact .inr (.inr ⟨isToolError_toolError e, rfl, hopen, hfails⟩)

theorem toolEdit_cases (call : ToolCall) (file : Bytes) (r : ReadWorld) (w : WriteWorld) :
    (IsToolError (toolEdit call file r w).result ∧ (toolEdit call file r w).file = file ∧
        ∀ old new start stop, Attempt call file r old new → ¬ Selects file old start stop) ∨
      ∃ path old new span kind, Attempt call file r old new ∧
        editFindOldSpan file old = .ok span ∧
        toolEdit call file r w = applyFileSplice path file span.start span.length new kind w := by
  unfold toolEdit
  split
  case h_1 hpath =>
    refine .inl ⟨refused.1, rfl, fun old new start stop h _ => ?_⟩
    obtain ⟨path, hsome, -⟩ := h.read
    rw [hpath] at hsome
    cases hsome
  case h_2 hpath =>
    refine .inl ⟨refused.1, rfl, fun old new start stop h _ => ?_⟩
    obtain ⟨path, hsome, hne, -⟩ := h.read
    rw [hpath] at hsome
    exact hne (some.inj hsome).symm
  case h_3 c path hpath =>
    split
    case h_1 hold =>
      refine .inl ⟨refused.2.1, rfl, fun old new start stop h _ => ?_⟩
      have hsome := h.oldText
      rw [hold] at hsome
      cases hsome
    case h_2 hold =>
      refine .inl ⟨refused.2.1, rfl, fun old new start stop h _ => ?_⟩
      have hsome := h.oldText
      rw [hold] at hsome
      exact h.nonempty (some.inj hsome).symm
    case h_3 d old hold =>
      split
      case h_1 hnew =>
        refine .inl ⟨refused.2.2, rfl, fun old new start stop h _ => ?_⟩
        have hsome := h.newText
        rw [hnew] at hsome
        cases hsome
      case h_2 new hnew =>
        split
        case h_1 e hread =>
          refine .inl ⟨isToolError_toolError e, rfl, fun old new start stop h _ => ?_⟩
          obtain ⟨path', hsome, -, hok⟩ := h.read
          rw [hpath] at hsome
          obtain rfl := some.inj hsome
          rw [hread] at hok
          cases hok
        case h_2 data hread =>
          obtain rfl := readFileBytes_eq hread
          split
          case h_1 e hspan =>
            refine .inl ⟨isToolError_toolError e, rfl, fun old' new start stop h hselects => ?_⟩
            have hsome := h.oldText
            rw [hold] at hsome
            obtain rfl := some.inj hsome
            obtain ⟨span, hfound, -⟩ := hselects.found
            rw [hspan] at hfound
            cases hfound
          case h_2 span hspan =>
            exact .inr ⟨_, _, _, span, _, ⟨⟨_, hpath, cons_ne_nil _ _, hread⟩, hold,
              cons_ne_nil _ _, hnew⟩, hspan, rfl⟩

/-- The selected region is replaced and nothing else, or the call is refused and the file is as
it was. -/
def EditsExactly (call : ToolCall) (file : Bytes) (o : Outcome) : Prop :=
  (¬ IsToolError o.result ∧ ∃ old new start stop, toolArgValue call (str "old") = some old ∧
      toolArgValue call (str "new") = some new ∧ Selects file old start stop ∧
        o.file = replaced file start stop new) ∨
    (IsToolError o.result ∧ o.file = file)

/-- A write that has been started goes through, or what it leaves is the file. -/
def WriteEnds (call : ToolCall) (file : Bytes) (r : ReadWorld) (w : WriteWorld) : Prop :=
  ∀ old new start stop, Attempt call file r old new → Selects file old start stop →
    w.openError.isSome = true ∨
      ((replaced file start stop new).length ≤ w.wrote ∧ w.closeError = none) ∨
      (replaced file start stop new).take w.reached = file

/-- An edit changes exactly the selected region or nothing, if and only if the write does not fail
once the file is open, which has emptied it. -/
theorem edit_exact (call : ToolCall) (file : Bytes) (r : ReadWorld) (w : WriteWorld) :
    EditsExactly call file (toolEdit call file r w) ↔ WriteEnds call file r w := by
  rcases toolEdit_cases call file r w with
    ⟨herror, hfile, hnone⟩ | ⟨path, old, new, span, kind, hattempt, hspan, hedit⟩
  · refine ⟨fun _ old new start stop hattempt hselects => ?_, fun _ => .inr ⟨herror, hfile⟩⟩
    exact absurd hselects (hnone old new start stop hattempt)
  · have hselects := editFindOldSpan_selects hspan
    rw [hedit]
    have hcases := @applyFileSplice_cases path file new kind w span.start span.length
      hselects.bound.2
    constructor
    · intro hexact old' new' start' stop' hattempt' hselects'
      obtain rfl := some.inj (hattempt.oldText.symm.trans hattempt'.oldText)
      obtain rfl := some.inj (hattempt.newText.symm.trans hattempt'.newText)
      obtain ⟨span', hspan', rfl, rfl⟩ := hselects'.found
      obtain rfl := Except.ok.inj (hspan.symm.trans hspan')
      rcases hcases with ⟨-, -, hends⟩ | ⟨-, -, hopen⟩ | ⟨herror, hfile, -, -⟩
      · exact .inr (.inl hends)
      · exact .inl hopen
      · rcases hexact with ⟨hok, -⟩ | ⟨-, hsame⟩
        · exact absurd herror hok
        · exact .inr (.inr (hfile.symm.trans hsame))
    · intro hends
      rcases hcases with ⟨hok, hfile, -⟩ | ⟨herror, hfile, -⟩ | ⟨herror, hfile, hopen, hfails⟩
      · exact .inl ⟨hok, old, new, _, _, hattempt.oldText, hattempt.newText, hselects, hfile⟩
      · exact .inr ⟨herror, hfile⟩
      · refine .inr ⟨herror, hfile.trans ?_⟩
        rcases hends old new _ _ hattempt hselects with hopen' | ⟨hwrote, hclose⟩ | hsame
        · rw [hopen] at hopen'
          cases hopen'
        · rcases hfails with hshort | hclose'
          · exact absurd hshort (Nat.not_lt.mpr hwrote)
          · rw [hclose] at hclose'
            cases hclose'
        · exact hsame

/-- A full disk, on which the buffered bytes fail at `fclose`: the call is refused and the file is
empty. -/
theorem edit_empties : ¬ ∀ (call : ToolCall) (file : Bytes) (r : ReadWorld) (w : WriteWorld),
    EditsExactly call file (toolEdit call file r w) := by
  intro hclaim
  have hedit := hclaim
    ⟨some (str "edit"), [(str "path", str "f"), (str "old", str "a"), (str "new", str "b")]⟩
    (str "ab") ⟨none, false, none⟩ ⟨none, 2, [], some (str "No space left on device"), 0⟩
  rcases hedit with ⟨hok, -⟩ | ⟨-, hsame⟩
  · exact hok (isToolError_toolError _)
  · exact absurd hsame (by decide)

end Ds4Studio.Files

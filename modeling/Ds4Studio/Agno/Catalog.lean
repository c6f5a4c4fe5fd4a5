import Ds4Studio.Json.Canonical
import Ds4Studio.Json.NumberText
import Mathlib.Data.List.Sort

/-!
The digest of the tool catalog. The server signs the catalog with the digest of a canonical text
that JavaScript prints, and the service compares it with the digest of the text that Python prints
for the catalog it has received.
-/

namespace Ds4Studio.Agno.Catalog

open Bytes Json List NumberText Option

/-- A value of JSON, as both languages hold it. -/
inductive Datum where
  | null
  | bool (b : Bool)
  | num (x : Decimal)
  | str (s : JsString)
  | arr (items : List Datum)
  | obj (members : List (JsString × Datum))

/-! ### The canonical texts -/

/-- What the two printers differ in: the order of keys, the strings that have a text, and the
numbers. -/
structure Printer where
  key : JsString → List ℕ
  accepts : JsString → Bool
  quoted : JsString → Option Bytes
  quoted_eq : ∀ s, quoted s = if accepts s then some (quote s) else none
  number : Decimal → Bytes
  written : ∀ x, Written (number x) x

variable {α β : Type*}

def Printer.before (p : Printer) (a b : JsString × α) : Bool := decide (p.key a.1 ≤ p.key b.1)

/-- The members in the order of their keys. -/
def Printer.sorted (p : Printer) (members : List (JsString × α)) : List (JsString × α) :=
  members.mergeSort p.before

def join (texts : List Bytes) : Bytes := [0x2c].intercalate texts

mutual

def Printer.text (p : Printer) : Datum → Option Bytes
  | .null => some (str "null")
  | .bool b => some (if b then str "true" else str "false")
  | .num x => some (p.number x)
  | .str s => p.quoted s
  | .arr items => (p.itemTexts items).map fun texts => 0x5b :: (join texts ++ [0x5d])
  | .obj members =>
      (p.memberTexts members).map fun ms =>
        0x7b :: (join ((p.sorted ms).map Prod.snd) ++ [0x7d])

def Printer.itemTexts (p : Printer) : List Datum → Option (List Bytes)
  | [] => some []
  | item :: rest =>
      match p.text item, p.itemTexts rest with
      | some text, some texts => some (text :: texts)
      | _, _ => none

/-- The texts of the members with their keys. -/
def Printer.memberTexts (p : Printer) :
    List (JsString × Datum) → Option (List (JsString × Bytes))
  | [] => some []
  | (key, value) :: rest =>
      match p.quoted key, p.text value, p.memberTexts rest with
      | some name, some text, some ms => some ((key, name ++ 0x3a :: text) :: ms)
      | _, _, _ => none

end

/-- `stableCatalogJson`: `JSON.stringify` of keys and scalars, the keys by their code units. -/
def stableCatalogJson : Printer where
  key s := s.flatMap fun cp => codeUnits cp.val
  accepts _ := true
  quoted s := some (quote s)
  quoted_eq _ := rfl
  number := jsNumber
  written := written_jsNumber

/-- A character as `json.dumps` writes it without `ensure_ascii`, encoded; a surrogate has no
encoding. -/
def dumpsChar (cp : ℕ) : Option Bytes :=
  if cp = 0x5c then some [0x5c, 0x5c]
  else if cp = 0x22 then some [0x5c, 0x22]
  else if cp = 0x08 then some [0x5c, 0x62]
  else if cp = 0x0c then some [0x5c, 0x66]
  else if cp = 0x0a then some [0x5c, 0x6e]
  else if cp = 0x0d then some [0x5c, 0x72]
  else if cp = 0x09 then some [0x5c, 0x74]
  else if cp < 0x20 then some (0x5c :: 0x75 :: hexUnit cp)
  else if isSurrogate cp then none
  else some (utf8Put cp)

def dumpsChars : JsString → Option Bytes
  | [] => some []
  | cp :: rest =>
      match dumpsChar cp.val, dumpsChars rest with
      | some text, some texts => some (text ++ texts)
      | _, _ => none

/-- No surrogate stands alone. -/
def isPaired (s : JsString) : Bool := s.all fun cp => !isSurrogate cp.val

theorem dumpsChar_eq (cp : ℕ) :
    dumpsChar cp = if isSurrogate cp then none else some (quoteChar cp) := by
  have hlow (h : cp < 0xd800) : isSurrogate cp = false := by
    simp only [isSurrogate, Bool.and_eq_false_iff, decide_eq_false_iff_not]
    omega
  rw [dumpsChar, quoteChar]
  by_cases hsurrogate : isSurrogate cp = true
  · have hhigh : 0xd800 ≤ cp := by
      by_contra h
      rw [hlow (by omega)] at hsurrogate
      exact Bool.noConfusion hsurrogate
    rw [if_neg (by omega), if_neg (by omega), if_neg (by omega), if_neg (by omega),
      if_neg (by omega), if_neg (by omega), if_neg (by omega), if_neg (by omega),
      if_pos hsurrogate, if_pos hsurrogate]
  · have hcontrol : (cp < 0x20 ∨ isSurrogate cp = true) ↔ cp < 0x20 :=
      ⟨fun h => h.resolve_right hsurrogate, .inl⟩
    simp only [hcontrol]
    by_cases hslash : cp = 0x5c
    · rw [hslash]
      rfl
    · rw [if_neg hslash]
      split_ifs <;> rfl

theorem dumpsChars_eq (s : JsString) :
    dumpsChars s = if isPaired s then some (quoteChars s) else none := by
  induction s with
  | nil => rfl
  | cons cp rest ih =>
    have hpaired : isPaired (cp :: rest) = (!isSurrogate cp.val && isPaired rest) := all_cons
    rw [dumpsChars, dumpsChar_eq, ih, hpaired]
    cases isSurrogate cp.val <;> cases isPaired rest <;> rfl

/-- `canonical_catalog_json` with `encode("utf-8")`, of what has been read from the server. -/
def canonicalCatalogJson : Printer where
  key s := s.map Fin.val
  accepts := isPaired
  quoted s := (dumpsChars s).map fun text => 0x22 :: (text ++ [0x22])
  quoted_eq s := by
    rw [dumpsChars_eq]
    split_ifs <;> rfl
  number := pyNumber
  written := written_pyNumber

/-! ### The value that a text stands for -/

def Printer.numeral (p : Printer) (x : Decimal) : Numeral := ⟨p.number x, (p.written x).number⟩

mutual

/-- The value that `JSON.stringify` would print so. -/
def Printer.value (p : Printer) : Datum → Option Value
  | .null => some .null
  | .bool b => some (.bool b)
  | .num x => some (.num (p.numeral x))
  | .str s => if p.accepts s then some (.str s) else none
  | .arr items => (p.values items).map .arr
  | .obj members => (p.memberValues members).map fun ms => .obj (p.sorted ms)

def Printer.values (p : Printer) : List Datum → Option (List Value)
  | [] => some []
  | item :: rest =>
      match p.value item, p.values rest with
      | some v, some vs => some (v :: vs)
      | _, _ => none

def Printer.memberValues (p : Printer) :
    List (JsString × Datum) → Option (List (JsString × Value))
  | [] => some []
  | (key, value) :: rest =>
      if p.accepts key then
        match p.value value, p.memberValues rest with
        | some v, some ms => some ((key, v) :: ms)
        | _, _ => none
      else none

end

variable {p q : Printer}

variable {ms : List (JsString × Value)}

theorem defined_members : DefinedMembers ms ↔ ∀ m ∈ ms, Defined m.2 := by
  induction ms with
  | nil => exact ⟨fun _ _ h => absurd h not_mem_nil, fun _ => trivial⟩
  | cons m ms ih => rw [DefinedMembers, ih, forall_mem_cons]

variable {members : List (JsString × α)}

theorem mem_sorted {m : JsString × α} : m ∈ p.sorted members ↔ m ∈ members :=
  (mergeSort_perm members p.before).mem_iff

mutual

theorem value_defined (p : Printer) : ∀ {d : Datum} {v : Value}, p.value d = some v → Defined v
  | .null, _, h | .bool _, _, h | .num _, _, h => by
    cases h
    trivial
  | .str s, _, h => by
    rw [Printer.value] at h
    split_ifs at h
    cases h
    trivial
  | .arr items, _, h => by
    obtain ⟨vs, hvs, rfl⟩ := map_eq_some_iff.mp h
    exact values_defined p hvs
  | .obj members, _, h => by
    obtain ⟨ms, hms, rfl⟩ := map_eq_some_iff.mp h
    have hdefined := defined_members.mp (memberValues_defined p hms)
    exact defined_members.mpr fun m hm => hdefined m (mem_sorted.mp hm)

theorem values_defined (p : Printer) : ∀ {items : List Datum} {vs : List Value},
    p.values items = some vs → DefinedElements vs
  | [], _, h => by
    cases h
    trivial
  | item :: rest, _, h => by
    rw [Printer.values] at h
    split at h
    case h_1 v vs hv hvs =>
      cases h
      exact ⟨value_defined p hv, values_defined p hvs⟩
    case h_2 => cases h

theorem memberValues_defined (p : Printer) : ∀ {members : List (JsString × Datum)}
    {ms : List (JsString × Value)}, p.memberValues members = some ms → DefinedMembers ms
  | [], _, h => by
    cases h
    trivial
  | (key, value) :: rest, _, h => by
    rw [Printer.memberValues] at h
    split_ifs at h
    split at h
    case h_1 v ms hv hms =>
      cases h
      exact ⟨value_defined p hv, memberValues_defined p hms⟩
    case h_2 => cases h

end

/-- The text of a member with its key. -/
def memberText (m : JsString × Value) : JsString × Bytes :=
  (m.1, quote m.1 ++ 0x3a :: stringify m.2)

theorem join_cons_cons (text next : Bytes) (texts : List Bytes) :
    join (text :: next :: texts) = text ++ 0x2c :: join (next :: texts) := by
  simp [join, intercalate]

theorem join_elements (vs : List Value) : join (vs.map stringify) = stringifyElements vs := by
  induction vs with
  | nil => rfl
  | cons v vs ih =>
    cases vs with
    | nil => simp [join, intercalate, stringifyElements]
    | cons w vs =>
      rw [map_cons, map_cons, join_cons_cons, ← map_cons, ih]
      rfl

theorem join_members_behind (m : JsString × Value) (ms : List (JsString × Value))
    (h : DefinedMembers (m :: ms)) : join ((m :: ms).map fun m => (memberText m).2) =
      (memberText m).2 ++ stringifyMembers true ms := by
  induction ms generalizing m with
  | nil => simp [join, intercalate, stringifyMembers]
  | cons n ms ih =>
    have hrest : join ((memberText n).2 :: ms.map fun m => (memberText m).2) =
        (memberText n).2 ++ stringifyMembers true ms := ih n h.2
    rw [map_cons, map_cons, join_cons_cons, hrest, stringifyMembers_cons h.2.1]
    simp [memberText]

theorem join_members (h : DefinedMembers ms) :
    join (ms.map fun m => (memberText m).2) = stringifyMembers false ms := by
  cases ms with
  | nil => rfl
  | cons m ms =>
    rw [join_members_behind m ms h, stringifyMembers_cons h.1]
    simp [memberText]

theorem sorted_map (p : Printer) {f : JsString × α → JsString × β} (hf : ∀ m, (f m).1 = m.1)
    (members : List (JsString × α)) : p.sorted (members.map f) = (p.sorted members).map f := by
  apply Eq.symm
  apply map_mergeSort
  intro a _ b _
  rw [Printer.before, Printer.before, hf, hf]

mutual

/-- A printer prints what `JSON.stringify` prints for the value in its order. -/
theorem text_eq (p : Printer) : ∀ d : Datum, p.text d = (p.value d).map stringify
  | .null | .bool _ | .num _ => rfl
  | .str s => by
    rw [Printer.text, Printer.value, p.quoted_eq]
    split_ifs <;> rfl
  | .arr items => by
    rw [Printer.text, Printer.value, itemTexts_eq p items]
    cases p.values items with
    | none => rfl
    | some vs =>
      simp only [map_some, join_elements, stringify]
  | .obj members => by
    rw [Printer.text, Printer.value, memberTexts_eq p members]
    cases hms : p.memberValues members with
    | none => rfl
    | some ms =>
      have hdefined : DefinedMembers (p.sorted ms) := by
        have hall := defined_members.mp (memberValues_defined p hms)
        exact defined_members.mpr fun m hm => hall m (mem_sorted.mp hm)
      have hsorted : p.sorted (ms.map memberText) = (p.sorted ms).map memberText :=
        sorted_map p (fun m => (rfl : (memberText m).1 = m.1)) ms
      have hjoin := join_members hdefined
      simp only [map_some, stringify, hsorted, List.map_map, ← hjoin]
      rfl

theorem itemTexts_eq (p : Printer) :
    ∀ items : List Datum, p.itemTexts items = (p.values items).map (map stringify)
  | [] => rfl
  | item :: rest => by
    rw [Printer.itemTexts, Printer.values, text_eq p item, itemTexts_eq p rest]
    cases p.value item <;> cases p.values rest <;> rfl

theorem memberTexts_eq (p : Printer) : ∀ members : List (JsString × Datum),
    p.memberTexts members = (p.memberValues members).map (map memberText)
  | [] => rfl
  | (key, value) :: rest => by
    rw [Printer.memberTexts, Printer.memberValues, p.quoted_eq, text_eq p value,
      memberTexts_eq p rest]
    split_ifs
    · cases p.value value <;> cases p.memberValues rest <;> rfl
    · rfl

end

/-! ### The order of keys -/

/-- The order of the keys is the same in both languages. -/
def SameOrder (keys : List JsString) : Prop :=
  ∀ k ∈ keys, ∀ l ∈ keys, stableCatalogJson.key k ≤ stableCatalogJson.key l ↔
    canonicalCatalogJson.key k ≤ canonicalCatalogJson.key l

/-- No two keys have the same code units. -/
def Distinct (keys : List JsString) : Prop :=
  keys.Pairwise fun k l => stableCatalogJson.key k ≠ stableCatalogJson.key l

instance : DecidablePred Distinct := fun _ => inferInstanceAs (Decidable (List.Pairwise _ _))

theorem pairwise_sorted (p : Printer) (members : List (JsString × α)) :
    (p.sorted members).Pairwise fun a b => p.key a.1 ≤ p.key b.1 := by
  have htrans (a b c : JsString × α) (hab : p.before a b = true) (hbc : p.before b c = true) :
      p.before a c = true :=
    decide_eq_true (le_trans (of_decide_eq_true hab) (of_decide_eq_true hbc))
  have htotal (a b : JsString × α) : (p.before a b || p.before b a) = true := by
    rw [Printer.before, Printer.before, Bool.or_eq_true, decide_eq_true_eq, decide_eq_true_eq]
    exact le_total _ _
  have hsorted := pairwise_mergeSort htrans htotal members
  exact hsorted.imp fun h => of_decide_eq_true h

theorem sorted_congr (h : ∀ a ∈ members, ∀ b ∈ members,
    p.key a.1 ≤ p.key b.1 ↔ q.key a.1 ≤ q.key b.1) : p.sorted members = q.sorted members := by
  have hmap := map_mergeSort (r := p.before) (s := q.before) (f := id) (l := members)
    fun a ha b hb => decide_eq_decide.mpr (h a ha b hb)
  rw [List.map_id, List.map_id] at hmap
  exact hmap

theorem order_of_sorted (hp : members.Pairwise fun a b => p.key a.1 ≠ p.key b.1)
    (hq : members.Pairwise fun a b => q.key a.1 ≠ q.key b.1)
    (h : p.sorted members = q.sorted members) : ∀ a ∈ members, ∀ b ∈ members,
      p.key a.1 ≤ p.key b.1 ↔ q.key a.1 ≤ q.key b.1 := by
  have hperm : (p.sorted members).Perm members := mergeSort_perm members p.before
  have hp' := (hperm.pairwise_iff fun h => h.symm).mpr hp
  have hq' := (hperm.pairwise_iff fun h => h.symm).mpr hq
  have hsorted : (p.sorted members).Pairwise fun a b =>
      p.key a.1 < p.key b.1 ∧ q.key a.1 < q.key b.1 := by
    have hple := pairwise_sorted p members
    have hqle := pairwise_sorted q members
    rw [← h] at hqle
    exact ((hple.and hp').and (hqle.and hq')).imp fun h =>
      ⟨lt_of_le_of_ne h.1.1 h.1.2, lt_of_le_of_ne h.2.1 h.2.2⟩
  have hall : ∀ a ∈ p.sorted members, ∀ b ∈ p.sorted members,
      p.key a.1 ≤ p.key b.1 ↔ q.key a.1 ≤ q.key b.1 := by
    apply List.Pairwise.forall_of_forall_of_flip
    · exact fun a _ => iff_of_true le_rfl le_rfl
    · exact hsorted.imp fun h => iff_of_true h.1.le h.2.le
    · exact hsorted.imp fun h => iff_of_false h.1.not_ge h.2.not_ge
  exact fun a ha b hb => hall a (mem_sorted.mpr ha) b (mem_sorted.mpr hb)

theorem perm_eq_of_keys {ms ns : List (JsString × α)} (hkeys : ms.map Prod.fst = ns.map Prod.fst)
    (hnodup : (ms.map Prod.fst).Nodup) (h : ms.Perm ns) : ms = ns := by
  induction ms generalizing ns with
  | nil => exact h.nil_eq
  | cons m ms ih =>
    cases ns with
    | nil => exact absurd h.eq_nil (cons_ne_nil m ms)
    | cons n ns =>
      rw [map_cons, map_cons, cons.injEq] at hkeys
      rw [map_cons, nodup_cons] at hnodup
      have hmn : m = n := by
        rcases mem_cons.mp (h.mem_iff.mp (mem_cons_self ..)) with hmn | hmem
        · exact hmn
        · have hkey : m.1 ∈ ns.map Prod.fst := mem_map_of_mem hmem
          rw [← hkeys.2] at hkey
          exact absurd hkey hnodup.1
      subst hmn
      rw [ih hkeys.2 hnodup.2 h.cons_inv]

/-! ### Where the languages agree -/

mutual

/-- No surrogate stands alone, no number is tiny, and the keys of every object have one order. -/
def Agrees : Datum → Prop
  | .null | .bool _ => True
  | .num x => ¬Tiny x
  | .str s => isPaired s = true
  | .arr items => AgreesItems items
  | .obj members => SameOrder (members.map Prod.fst) ∧ AgreesMembers members

def AgreesItems : List Datum → Prop
  | [] => True
  | item :: rest => Agrees item ∧ AgreesItems rest

def AgreesMembers : List (JsString × Datum) → Prop
  | [] => True
  | (key, value) :: rest => isPaired key = true ∧ Agrees value ∧ AgreesMembers rest

end

/-- A high surrogate in front of a low one is not two code points. -/
def Joined : JsString → Prop
  | a :: b :: rest =>
      ¬((0xd800 ≤ a.val ∧ a.val < 0xdc00) ∧ 0xdc00 ≤ b.val ∧ b.val < 0xe000) ∧ Joined (b :: rest)
  | _ => True

instance decidableJoined : DecidablePred Joined
  | _ :: b :: rest =>
      have := decidableJoined (b :: rest)
      inferInstanceAs (Decidable (_ ∧ _))
  | [] | [_] => inferInstanceAs (Decidable True)

mutual

/-- What a value of JSON is: strings are read by their code points, and no object has a key
twice. -/
def Valid : Datum → Prop
  | .null | .bool _ | .num _ => True
  | .str s => Joined s
  | .arr items => ValidItems items
  | .obj members => Distinct (members.map Prod.fst) ∧ ValidMembers members

def ValidItems : List Datum → Prop
  | [] => True
  | item :: rest => Valid item ∧ ValidItems rest

def ValidMembers : List (JsString × Datum) → Prop
  | [] => True
  | (key, value) :: rest => Joined key ∧ Valid value ∧ ValidMembers rest

end

/-- A tool list that is representable in JSON. -/
structure ToolList where
  items : List Datum
  valid : ValidItems items

mutual

theorem value_isSome : ∀ d : Datum, (stableCatalogJson.value d).isSome = true
  | .null | .bool _ | .num _ | .str _ => rfl
  | .arr items => by
    rw [Printer.value, isSome_map]
    exact values_isSome items
  | .obj members => by
    rw [Printer.value, isSome_map]
    exact memberValues_isSome members

theorem values_isSome : ∀ items : List Datum, (stableCatalogJson.values items).isSome = true
  | [] => rfl
  | item :: rest => by
    obtain ⟨v, hv⟩ := isSome_iff_exists.mp (value_isSome item)
    obtain ⟨vs, hvs⟩ := isSome_iff_exists.mp (values_isSome rest)
    rw [Printer.values, hv, hvs]
    rfl

theorem memberValues_isSome : ∀ members : List (JsString × Datum),
    (stableCatalogJson.memberValues members).isSome = true
  | [] => rfl
  | (key, value) :: rest => by
    obtain ⟨v, hv⟩ := isSome_iff_exists.mp (value_isSome value)
    obtain ⟨ms, hms⟩ := isSome_iff_exists.mp (memberValues_isSome rest)
    rw [Printer.memberValues, hv, hms]
    rfl

end

theorem memberValues_keys {members : List (JsString × Datum)}
    (h : p.memberValues members = some ms) : ms.map Prod.fst = members.map Prod.fst := by
  induction members generalizing ms with
  | nil =>
    cases h
    rfl
  | cons m members ih =>
    rw [Printer.memberValues] at h
    split_ifs at h
    split at h
    case h_1 v ms' hv hms =>
      cases h
      rw [map_cons, map_cons, ih hms]
    case h_2 => cases h

theorem Distinct.nodup {keys : List JsString} (h : Distinct keys) : keys.Nodup :=
  h.imp fun hne heq => hne (congrArg stableCatalogJson.key heq)

theorem keys_ne_of_distinct {ms : List (JsString × α)} (h : Distinct (ms.map Prod.fst)) :
    (ms.Pairwise fun a b => stableCatalogJson.key a.1 ≠ stableCatalogJson.key b.1) ∧
      ms.Pairwise fun a b => canonicalCatalogJson.key a.1 ≠ canonicalCatalogJson.key b.1 := by
  have hpairs := pairwise_map.mp h
  refine ⟨hpairs, hpairs.imp fun hne heq => hne ?_⟩
  rw [map_injective_iff.mpr Fin.val_injective heq]

/-- Values in the orders of the two languages are the same just if the values are and the orders
agree. -/
theorem sorted_eq_iff {keys : List JsString} (hdistinct : Distinct keys)
    {ms ns : List (JsString × Value)} (hms : ms.map Prod.fst = keys)
    (hns : ns.map Prod.fst = keys) :
    canonicalCatalogJson.sorted ms = stableCatalogJson.sorted ns ↔ SameOrder keys ∧ ms = ns := by
  subst hms
  have horder {ms : List (JsString × Value)} : SameOrder (ms.map Prod.fst) ↔
      ∀ a ∈ ms, ∀ b ∈ ms, stableCatalogJson.key a.1 ≤ stableCatalogJson.key b.1 ↔
        canonicalCatalogJson.key a.1 ≤ canonicalCatalogJson.key b.1 := by
    simp only [SameOrder, List.forall_mem_map]
  constructor
  · intro h
    have hperm : ms.Perm ns := by
      have hleft := mergeSort_perm ms canonicalCatalogJson.before
      have hright := mergeSort_perm ns stableCatalogJson.before
      exact hleft.symm.trans ((List.Perm.of_eq h).trans hright)
    obtain rfl := perm_eq_of_keys hns.symm hdistinct.nodup hperm
    obtain ⟨hunits, hpoints⟩ := keys_ne_of_distinct hdistinct
    exact ⟨horder.mpr (order_of_sorted hunits hpoints h.symm), rfl⟩
  · rintro ⟨hsame, rfl⟩
    exact (sorted_congr (horder.mp hsame)).symm

mutual

/-- The two printers print one value just if the languages agree on the datum. -/
theorem value_eq_iff : ∀ d : Datum, Valid d →
    (canonicalCatalogJson.value d = stableCatalogJson.value d ↔ Agrees d)
  | .null, _ | .bool _, _ => iff_of_true rfl trivial
  | .num x, _ => by
    rw [Printer.value, Printer.value, Agrees, ← pyNumber_eq_iff]
    simp [Printer.numeral, canonicalCatalogJson, stableCatalogJson]
  | .str s, _ => by
    have hvalue : canonicalCatalogJson.value (.str s) =
        if isPaired s then some (.str s) else none := by rw [Printer.value]; rfl
    rw [hvalue, Agrees]
    split_ifs with hpaired
    · exact iff_of_true rfl hpaired
    · exact iff_of_false (fun h => absurd h.symm (some_ne_none _)) hpaired
  | .arr items, hvalid => by
    rw [Printer.value, Printer.value, Agrees, ← values_eq_iff items hvalid]
    constructor
    · exact fun h => map_injective (fun _ _ heq => Value.arr.inj heq) h
    · exact fun h => congrArg _ h
  | .obj members, hvalid => by
    have hmembers := memberValues_eq_iff members hvalid.2
    rw [Printer.value, Printer.value, Agrees, ← hmembers]
    obtain ⟨ns, hns⟩ := isSome_iff_exists.mp (memberValues_isSome members)
    rw [hns]
    cases hms : canonicalCatalogJson.memberValues members with
    | none =>
      constructor
      · exact fun h => absurd h.symm (some_ne_none _)
      · exact fun h => absurd h.2.symm (some_ne_none _)
    | some ms =>
      rw [map_some, map_some, some.injEq, Value.obj.injEq, some.injEq]
      exact sorted_eq_iff hvalid.1 (memberValues_keys hms) (memberValues_keys hns)

theorem values_eq_iff : ∀ items : List Datum, ValidItems items →
    (canonicalCatalogJson.values items = stableCatalogJson.values items ↔ AgreesItems items)
  | [], _ => iff_of_true rfl trivial
  | item :: rest, hvalid => by
    rw [AgreesItems, ← value_eq_iff item hvalid.1, ← values_eq_iff rest hvalid.2, Printer.values,
      Printer.values]
    obtain ⟨v, hv⟩ := isSome_iff_exists.mp (value_isSome item)
    obtain ⟨vs, hvs⟩ := isSome_iff_exists.mp (values_isSome rest)
    rw [hv, hvs]
    cases canonicalCatalogJson.value item <;> cases canonicalCatalogJson.values rest <;> simp

theorem memberValues_eq_iff : ∀ members : List (JsString × Datum), ValidMembers members →
    (canonicalCatalogJson.memberValues members = stableCatalogJson.memberValues members ↔
      AgreesMembers members)
  | [], _ => iff_of_true rfl trivial
  | (key, value) :: rest, hvalid => by
    rw [AgreesMembers, ← value_eq_iff value hvalid.2.1, ← memberValues_eq_iff rest hvalid.2.2,
      Printer.memberValues, Printer.memberValues]
    obtain ⟨v, hv⟩ := isSome_iff_exists.mp (value_isSome value)
    obtain ⟨ms, hms⟩ := isSome_iff_exists.mp (memberValues_isSome rest)
    rw [hv, hms]
    have haccepts : canonicalCatalogJson.accepts key = isPaired key := rfl
    rw [haccepts, if_pos (show stableCatalogJson.accepts key = true from rfl)]
    cases isPaired key <;> cases canonicalCatalogJson.value value <;>
      cases canonicalCatalogJson.memberValues rest <;> simp

end

/-! ### One text, one value -/

mutual

/-- The values are the same up to the order of members. -/
def Same : Datum → Datum → Prop
  | .null, .null => True
  | .bool a, .bool b => a = b
  | .num x, .num y => x = y
  | .str s, .str t => s = t
  | .arr items, .arr items' => SameItems items items'
  | .obj members, .obj members' =>
      (members.map Prod.fst).Perm (members'.map Prod.fst) ∧ SameMembers members members'
  | _, _ => False

def SameItems : List Datum → List Datum → Prop
  | [], [] => True
  | item :: rest, item' :: rest' => Same item item' ∧ SameItems rest rest'
  | _, _ => False

def SameMembers : List (JsString × Datum) → List (JsString × Datum) → Prop
  | [], _ => True
  | (key, value) :: rest, members =>
      (∃ value', (key, value') ∈ members ∧ Same value value') ∧ SameMembers rest members

end

theorem number_injective (p : Printer) {x y : Decimal} (h : p.number x = p.number y) : x = y :=
  (p.written x).unique (h ▸ p.written y)

theorem mem_memberValues {members : List (JsString × Datum)}
    (h : p.memberValues members = some ms) {key : JsString} {v : Value} (hv : (key, v) ∈ ms) :
    ∃ value, (key, value) ∈ members ∧ p.value value = some v := by
  induction members generalizing ms with
  | nil =>
    cases h
    exact absurd hv not_mem_nil
  | cons m members ih =>
    obtain ⟨name, value⟩ := m
    rw [Printer.memberValues] at h
    split_ifs at h
    split at h
    case h_1 w ms' hw hms =>
      cases h
      rcases mem_cons.mp hv with heq | hmem
      · cases heq
        exact ⟨value, mem_cons_self .., hw⟩
      · obtain ⟨value', hvalue', hprinted⟩ := ih hms hmem
        exact ⟨value', mem_cons_of_mem _ hvalue', hprinted⟩
    case h_2 => cases h

mutual

theorem same_of_value (p : Printer) : ∀ (a b : Datum) {v : Value}, p.value a = some v →
    p.value b = some v → Same a b
  | .null, b, _, ha, hb => by
    cases ha
    cases b <;> simp [Printer.value, Same] at hb ⊢
  | .bool _, b, _, ha, hb => by
    cases ha
    cases b <;> simp [Printer.value, Same] at hb ⊢
    exact hb.symm
  | .num x, b, _, ha, hb => by
    cases ha
    cases b <;> simp [Printer.value, Same] at hb ⊢
    exact (number_injective p (congrArg Numeral.text hb)).symm
  | .str s, b, _, ha, hb => by
    rw [Printer.value] at ha
    split_ifs at ha
    cases ha
    cases b <;> simp [Printer.value, Same] at hb ⊢
    exact hb.2.symm
  | .arr items, b, _, ha, hb => by
    obtain ⟨vs, hvs, rfl⟩ := map_eq_some_iff.mp ha
    cases b <;> simp [Printer.value, Same] at hb ⊢
    exact same_of_values p items _ hvs hb
  | .obj members, b, _, ha, hb => by
    obtain ⟨ms, hms, rfl⟩ := map_eq_some_iff.mp ha
    cases b with
    | obj members' =>
      obtain ⟨ns, hns, heq⟩ := map_eq_some_iff.mp hb
      have hperm : ms.Perm ns := by
        have hleft := mergeSort_perm ms p.before
        have hright := mergeSort_perm ns p.before
        exact hleft.symm.trans ((List.Perm.of_eq (Value.obj.inj heq).symm).trans hright)
      constructor
      · rw [← memberValues_keys hms, ← memberValues_keys hns]
        exact hperm.map Prod.fst
      · exact same_of_memberValues p members members' hms hns fun m hm => hperm.mem_iff.mp hm
    | _ => simp [Printer.value] at hb

theorem same_of_values (p : Printer) : ∀ (items items' : List Datum) {vs : List Value},
    p.values items = some vs → p.values items' = some vs → SameItems items items'
  | [], items', _, h, h' => by
    cases h
    cases items' with
    | nil => trivial
    | cons item' rest' =>
      rw [Printer.values] at h'
      split at h' <;> cases h'
  | item :: rest, items', _, h, h' => by
    rw [Printer.values] at h
    split at h
    case h_1 v vs hv hvs =>
      cases h
      cases items' with
      | nil => cases h'
      | cons item' rest' =>
        rw [Printer.values] at h'
        split at h'
        case h_1 w ws hw hws =>
          cases h'
          exact ⟨same_of_value p item item' hv hw, same_of_values p rest rest' hvs hws⟩
        case h_2 => cases h'
    case h_2 => cases h

theorem same_of_memberValues (p : Printer) : ∀ (members members' : List (JsString × Datum))
    {ms ns : List (JsString × Value)}, p.memberValues members = some ms →
    p.memberValues members' = some ns → (∀ m ∈ ms, m ∈ ns) → SameMembers members members'
  | [], _, _, _, _, _, _ => trivial
  | (key, value) :: rest, members', _, _, h, h', hsub => by
    rw [Printer.memberValues] at h
    split_ifs at h
    split at h
    case h_1 v ms hv hms =>
      cases h
      obtain ⟨value', hmem, hprinted⟩ := mem_memberValues h' (hsub _ (mem_cons_self ..))
      exact ⟨⟨value', hmem, same_of_value p value value' hv hprinted⟩,
        same_of_memberValues p rest members' hms h' fun m hm => hsub m (mem_cons_of_mem _ hm)⟩
    case h_2 => cases h

end

theorem same_of_text (p : Printer) {a b : Datum} {text : Bytes} (ha : p.text a = some text)
    (hb : p.text b = some text) : Same a b := by
  rw [text_eq] at ha hb
  obtain ⟨v, hv, hprinted⟩ := map_eq_some_iff.mp ha
  obtain ⟨w, hw, hprinted'⟩ := map_eq_some_iff.mp hb
  have heq : v = w := stringify_injOn (value_defined p hv) (value_defined p hw)
    (hprinted.trans hprinted'.symm)
  exact same_of_value p a b hv (heq ▸ hw)

/-! ### The digests and the check -/

def isHexDigit (cp : Fin 0x110000) : Bool :=
  (0x30 ≤ cp.val && cp.val ≤ 0x39) || (0x61 ≤ cp.val && cp.val ≤ 0x66)

/-- SHA-256 in hexadecimal digits. -/
structure Sha256 where
  hex : Bytes → JsString
  digits : ∀ text, (hex text).length = 64 ∧ (hex text).all isHexDigit = true

/-- `catalogDigest` and `catalog_digest` -/
def digest (p : Printer) (h : Sha256) (tools : List Datum) : Option JsString :=
  (p.text (.arr tools)).map fun text => js "sha256:" ++ h.hex text

inductive Failure where
  | bridge (message : String)
  | unicodeEncodeError
  | typeError

structure ToolCatalog where
  profile : JsString
  tools : List Datum
  catalogDigest : JsString

/-- `data.get(key)` -/
def get (members : List (JsString × Datum)) (key : String) : Datum :=
  ((members.find? fun m => m.1 = js key).map Prod.snd).getD .null

def isText (text : String) : Datum → Bool
  | .str s => s = js text
  | _ => false

def one : Decimal := ⟨false, [0x31], 1, by decide, by decide, by decide, by decide, nofun⟩

/-- `data == 1`; a boolean is a number. -/
def isOne : Datum → Bool
  | .num x => x = one
  | .bool b => b
  | _ => false

/-- A character of `_NAME_RE`. -/
def isNameChar (cp : Fin 0x110000) : Bool :=
  (0x41 ≤ cp.val && cp.val ≤ 0x5a) || (0x61 ≤ cp.val && cp.val ≤ 0x7a) ||
    (0x30 ≤ cp.val && cp.val ≤ 0x39) || cp.val ∈ [0x5f, 0x2e, 0x3a, 0x2d]

def isName (s : JsString) : Bool := 1 ≤ s.length && s.length ≤ 128 && s.all isNameChar

/-- `_DIGEST_RE` -/
def isDigest (s : JsString) : Bool :=
  s.take 7 = js "sha256:" && (s.drop 7).length = 64 && (s.drop 7).all isHexDigit

/-- The checks of a function definition; they give its name. -/
def checkFunction (names : List JsString) (function : List (JsString × Datum)) :
    Except Failure JsString :=
  match get function "name" with
  | .str name =>
      if !isName name || names.contains name then
        .error (.bridge "tool name is invalid or duplicated")
      else
        match get function "description", get function "parameters" with
        | .str _, .obj parameters =>
            if isText "object" (get parameters "type") then .ok name
            else .error (.bridge "tool parameter schema is invalid")
        | .str _, _ => .error (.bridge "tool parameter schema is invalid")
        | _, _ => .error (.bridge "tool description is invalid")
  | _ => .error (.bridge "tool name is invalid or duplicated")

def checkEntry (names : List JsString) : Datum → Except Failure JsString
  | .obj entry =>
      if isText "function" (get entry "type") then
        match get entry "function" with
        | .obj function => checkFunction names function
        | _ => .error (.bridge "tool function definition is invalid")
      else .error (.bridge "tool catalog entry is invalid")
  | _ => .error (.bridge "tool catalog entry is invalid")

def checkEntries (names : List JsString) : List Datum → Except Failure Unit
  | [] => .ok ()
  | entry :: rest =>
      match checkEntry names entry with
      | .ok name => checkEntries (name :: names) rest
      | .error failure => .error failure

/-- The last checks of `parse_catalog_payload`. -/
def checkDigest (h : Sha256) (profile : JsString) (tools : List Datum) :
    Datum → Except Failure ToolCatalog
  | .str signed =>
      if isDigest signed then
        match digest canonicalCatalogJson h tools with
        | none => .error .unicodeEncodeError
        | some own =>
            if signed = own then .ok ⟨profile, tools, signed⟩
            else .error (.bridge "tool catalog digest does not match payload")
      else .error (.bridge "tool catalog digest is invalid")
  | _ => .error (.bridge "tool catalog digest is invalid")

/-- `parse_catalog_payload` behind the check of the profile. -/
def parseTools (h : Sha256) (profile : JsString) (data : List (JsString × Datum)) :
    Except Failure ToolCatalog :=
  match get data "tools" with
  | .arr (tool :: tools) =>
      match checkEntries [] (tool :: tools) with
      | .ok () => checkDigest h profile (tool :: tools) (get data "catalogDigest")
      | .error failure => .error failure
  | _ => .error (.bridge "tool catalog must contain tools")

def parseCatalogPayload (h : Sha256) (data : List (JsString × Datum)) :
    Except Failure ToolCatalog :=
  if isOne (get data "protocolVersion") then
    match get data "profile" with
    | .str profile =>
        if profile = js "safe" ∨ profile = js "full" then parseTools h profile data
        else .error (.bridge "tool catalog profile is invalid")
    | .arr _ | .obj _ => .error .typeError
    | _ => .error (.bridge "tool catalog profile is invalid")
  else .error (.bridge "tool catalog protocol version is invalid")

/-- What the catalog route answers with. -/
def payload (h : Sha256) (profile : JsString) (tools : List Datum) :
    Option (List (JsString × Datum)) :=
  (digest stableCatalogJson h tools).map fun signed =>
    [(js "protocolVersion", .num one), (js "profile", .str profile), (js "tools", .arr tools),
      (js "catalogDigest", .str signed)]

/-- The tools pass the checks that have nothing to do with the digest. -/
def WellFormed (tools : List Datum) : Prop := tools ≠ [] ∧ checkEntries [] tools = .ok ()

/-- The digests are the same, whatever the hash function, and the service accepts what the server
has signed. -/
structure Signed (tools : List Datum) : Prop where
  same : ∀ h, digest canonicalCatalogJson h tools = digest stableCatalogJson h tools
  accepted : ∀ h profile data, profile = js "safe" ∨ profile = js "full" → WellFormed tools →
    payload h profile tools = some data → ∃ catalog, parseCatalogPayload h data = .ok catalog

theorem isDigest_hex (h : Sha256) (text : Bytes) :
    isDigest (js "sha256:" ++ h.hex text) = true := by
  have hlength : (js "sha256:").length = 7 := by decide
  rw [isDigest, take_left' hlength, drop_left' hlength, (h.digits text).1, (h.digits text).2]
  decide

theorem parse_payload {h : Sha256} {profile : JsString} {tools : List Datum} {signed : JsString}
    (hprofile : profile = js "safe" ∨ profile = js "full") (hwell : WellFormed tools)
    (hsigned : isDigest signed = true) (hsame : digest canonicalCatalogJson h tools = some signed) :
    parseCatalogPayload h [(js "protocolVersion", .num one), (js "profile", .str profile),
      (js "tools", .arr tools), (js "catalogDigest", .str signed)] =
        .ok ⟨profile, tools, signed⟩ := by
  obtain ⟨hne, hentries⟩ := hwell
  obtain ⟨tool, rest, rfl⟩ := exists_cons_of_ne_nil hne
  simp [parseCatalogPayload, parseTools, checkDigest, get, isOne, hprofile, hentries, hsigned,
    hsame]

theorem text_eq_iff (tools : ToolList) :
    canonicalCatalogJson.text (.arr tools.items) = stableCatalogJson.text (.arr tools.items) ↔
      AgreesItems tools.items := by
  have hvalue := value_eq_iff (.arr tools.items) tools.valid
  rw [Agrees] at hvalue
  rw [← hvalue, text_eq, text_eq]
  constructor
  · intro h
    obtain ⟨v, hv⟩ := isSome_iff_exists.mp (value_isSome (.arr tools.items))
    rw [hv] at h ⊢
    obtain ⟨w, hw, hprinted⟩ := map_eq_some_iff.mp h
    rw [hw, stringify_injOn (value_defined _ hw) (value_defined _ hv) hprinted]
  · exact fun h => congrArg _ h

/-- A hash function that tells one text from all others. -/
def marking (text : Bytes) : Sha256 where
  hex other := if other = text then js (.ofList (.replicate 64 '0')) else
    js (.ofList (.replicate 64 '1'))
  digits other := by split_ifs <;> decide

theorem agrees_of_same {tools : ToolList}
    (h : ∀ h, digest canonicalCatalogJson h tools.items = digest stableCatalogJson h tools.items) :
    AgreesItems tools.items := by
  rw [← text_eq_iff]
  have htext : (stableCatalogJson.text (.arr tools.items)).isSome = true := by
    rw [text_eq, isSome_map]
    exact value_isSome _
  obtain ⟨text, htext⟩ := isSome_iff_exists.mp htext
  have hmarked := h (marking text)
  rw [digest, digest, htext] at hmarked
  obtain ⟨other, hother, hdigest⟩ := map_eq_some_iff.mp hmarked
  rw [hother, htext]
  by_contra hne
  have hhex : (marking text).hex other = (marking text).hex text := append_cancel_left hdigest
  simp only [marking, if_true] at hhex
  rw [if_neg fun heq => hne (congrArg some heq)] at hhex
  exact absurd hhex (by decide)

theorem signed_of_agrees {tools : ToolList} (h : AgreesItems tools.items) : Signed tools.items := by
  have hsame (hash : Sha256) :
      digest canonicalCatalogJson hash tools.items = digest stableCatalogJson hash tools.items :=
    congrArg _ ((text_eq_iff tools).mpr h)
  refine ⟨hsame, fun hash profile data hprofile hwell hdata => ?_⟩
  obtain ⟨signed, hsigned, rfl⟩ := map_eq_some_iff.mp hdata
  have hform : isDigest signed = true := by
    obtain ⟨text, -, rfl⟩ := map_eq_some_iff.mp hsigned
    exact isDigest_hex hash text
  exact ⟨_, parse_payload hprofile hwell hform ((hsame hash).trans hsigned)⟩

/-- The digests are the same just if the languages agree on the tools; and no two lists that
differ have one canonical text. -/
theorem catalog_exact (tools : ToolList) :
    (Signed tools.items ↔ AgreesItems tools.items) ∧
      ∀ (p : Printer) (other : ToolList) (text : Bytes), p.text (.arr tools.items) = some text →
        p.text (.arr other.items) = some text → Same (.arr tools.items) (.arr other.items) :=
  ⟨⟨fun h => agrees_of_same h.same, signed_of_agrees⟩, fun p _ _ => same_of_text p⟩

/-- `1e-7`, which Python prints as `1e-07`. -/
def tenMillionth : Decimal := ⟨false, [0x31], -6, by decide, by decide, by decide, by decide, nofun⟩

/-- A tool with a parameter schema that has a small number in it. -/
def stepTool : Datum :=
  .obj [(js "type", .str (js "function")), (js "function", .obj [(js "name", .str (js "step")),
    (js "description", .str []), (js "parameters", .obj [(js "type", .str (js "object")),
      (js "multipleOf", .num tenMillionth)])])]

theorem signed_rejected : ¬∀ tools : ToolList, Signed tools.items := by
  intro h
  have hvalid : ValidItems [stepTool] := by
    simp only [stepTool, ValidItems, Valid, ValidMembers, and_true]
    decide
  have hagrees : AgreesItems [stepTool] := agrees_of_same (h ⟨[stepTool], hvalid⟩).same
  simp only [stepTool, AgreesItems, Agrees, AgreesMembers] at hagrees
  tauto

end Ds4Studio.Agno.Catalog

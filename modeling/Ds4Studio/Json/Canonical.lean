import Ds4Studio.Json.Printed
import Mathlib.Data.List.Lex

/-!
Canonical JSON. The members of every object are put in the order of their names, so that a text
that is read back is printed as it was. The property `__proto__` is lost on the way.
-/

namespace Ds4Studio.Json

open List Option

/-! ### The order of properties -/

/-- The code units of a code point. -/
def codeUnits (cp : ℕ) : List ℕ :=
  if cp < 0x10000 then [cp] else [0xd800 + (cp - 0x10000) / 0x400, 0xdc00 + (cp - 0x10000) % 0x400]

def digitOf (cp : ℕ) : Option ℕ := if 0x30 ≤ cp ∧ cp ≤ 0x39 then some (cp - 0x30) else none

/-- The digits of a name that is a decimal number without a leading zero. -/
def indexOf (s : JsString) : Option ℕ :=
  match s.mapM fun cp => digitOf cp.val with
  | none | some [] => none
  | some (0 :: _ :: _) => none
  | some digits =>
      let n := digits.foldl (fun n d => 10 * n + d) 0
      if n < 2 ^ 32 - 1 then some n else none

/-- Where an object that gets its properties in the order of their names lists one: indices stand in
front. -/
def propertyKey (s : JsString) : List ℕ :=
  match indexOf s with
  | some n => [0, n]
  | none => 1 :: s.flatMap fun cp => codeUnits cp.val

/-! ### Canonical values -/

def assign (key : JsString) (value : Value) : List (JsString × Value) → List (JsString × Value)
  | [] => [(key, value)]
  | m :: rest =>
      if propertyKey key < propertyKey m.1 then (key, value) :: m :: rest
      else if propertyKey m.1 < propertyKey key then m :: assign key value rest
      else (key, value) :: rest

def proto : JsString := js "__proto__"

mutual

/-- `canonicalValue`; it throws at what is `undefined`. Assigning to `__proto__` makes no
property. -/
def canonicalValue : Value → Option Value
  | .undefined => none
  | .null => some .null
  | .bool b => some (.bool b)
  | .num n => some (.num n)
  | .str s => some (.str s)
  | .arr elements => (canonicalElements elements).map .arr
  | .obj members => (canonicalMembers members).map .obj

def canonicalElements : List Value → Option (List Value)
  | [] => some []
  | element :: rest =>
      match canonicalValue element, canonicalElements rest with
      | some v, some vs => some (v :: vs)
      | _, _ => none

def canonicalMembers : List (JsString × Value) → Option (List (JsString × Value))
  | [] => some []
  | (key, value) :: rest =>
      match canonicalValue value, canonicalMembers rest with
      | some v, some ms => some (if key = proto then ms else assign key v ms)
      | _, _ => none

end

/-- `canonicalJson` -/
def canonicalJson (v : Value) : Option Bytes := (canonicalValue v).map stringify

/-! ### Values in order -/

/-- The names stand in their order. -/
def Ordered (members : List (JsString × Value)) : Prop :=
  members.Pairwise fun a b => propertyKey a.1 < propertyKey b.1

mutual

def InOrder : Value → Prop
  | .undefined => False
  | .arr elements => InOrderElements elements
  | .obj members => Ordered members ∧ InOrderMembers members
  | .null | .bool _ | .num _ | .str _ => True

def InOrderElements : List Value → Prop
  | [] => True
  | element :: rest => InOrder element ∧ InOrderElements rest

def InOrderMembers : List (JsString × Value) → Prop
  | [] => True
  | (key, value) :: rest => key ≠ proto ∧ InOrder value ∧ InOrderMembers rest

end

variable {members : List (JsString × Value)} {key : JsString} {value : Value}

theorem mem_assign {m : JsString × Value} (h : m ∈ assign key value members) :
    m = (key, value) ∨ m ∈ members := by
  induction members with
  | nil => exact .inl (mem_singleton.mp h)
  | cons n rest ih =>
    unfold assign at h
    split at h
    case isTrue =>
      rcases mem_cons.mp h with rfl | h
      · exact .inl rfl
      · exact .inr h
    case isFalse =>
      split at h
      case isTrue =>
        rcases mem_cons.mp h with rfl | h
        · exact .inr mem_cons_self
        · exact (ih h).imp_right (mem_cons_of_mem n)
      case isFalse =>
        rcases mem_cons.mp h with rfl | h
        · exact .inl rfl
        · exact .inr (mem_cons_of_mem n h)

theorem Ordered.assign (h : Ordered members) (key : JsString) (value : Value) :
    Ordered (assign key value members) := by
  induction members with
  | nil => exact pairwise_singleton _ _
  | cons n rest ih =>
    obtain ⟨hn, hrest⟩ := pairwise_cons.mp h
    unfold Json.assign
    split
    case isTrue hlt =>
      refine pairwise_cons.mpr ⟨fun m hm => ?_, h⟩
      rcases mem_cons.mp hm with rfl | hm
      · exact hlt
      · exact hlt.trans (hn m hm)
    case isFalse hnot =>
      split
      case isTrue hlt =>
        refine pairwise_cons.mpr ⟨fun m hm => ?_, ih hrest⟩
        rcases mem_assign hm with rfl | hm
        · exact hlt
        · exact hn m hm
      case isFalse hnot' =>
        have hsame : propertyKey key = propertyKey n.1 :=
          le_antisymm (not_lt.mp hnot') (not_lt.mp hnot)
        exact pairwise_cons.mpr ⟨fun m hm => hsame ▸ hn m hm, hrest⟩

theorem inOrderMembers_iff : InOrderMembers members ↔ ∀ m ∈ members, m.1 ≠ proto ∧ InOrder m.2 := by
  induction members with
  | nil => simp [InOrderMembers]
  | cons m rest ih =>
    rw [forall_mem_cons, ← ih]
    simp [InOrderMembers, and_assoc]

mutual

theorem canonicalValue_inOrder : ∀ {v w : Value}, canonicalValue v = some w → InOrder w
  | .null, _, h | .bool _, _, h | .num _, _, h | .str _, _, h => by
    cases h
    trivial
  | .arr elements, _, h => by
    obtain ⟨vs, hvs, rfl⟩ := map_eq_some_iff.mp h
    exact canonicalElements_inOrder hvs
  | .obj members, _, h => by
    obtain ⟨ms, hms, rfl⟩ := map_eq_some_iff.mp h
    exact canonicalMembers_inOrder hms

theorem canonicalElements_inOrder : ∀ {vs ws : List Value}, canonicalElements vs = some ws →
    InOrderElements ws
  | [], _, h => by
    cases h
    trivial
  | v :: rest, _, h => by
    unfold canonicalElements at h
    split at h
    case h_1 w ws hw hws =>
      cases h
      exact ⟨canonicalValue_inOrder hw, canonicalElements_inOrder hws⟩
    case h_2 => cases h

theorem canonicalMembers_inOrder : ∀ {ms ns : List (JsString × Value)},
    canonicalMembers ms = some ns → Ordered ns ∧ InOrderMembers ns
  | [], _, h => by
    cases h
    exact ⟨List.Pairwise.nil, trivial⟩
  | (key, v) :: rest, _, h => by
    unfold canonicalMembers at h
    split at h
    case h_1 w ns hw hns =>
      cases h
      obtain ⟨hordered, hmembers⟩ := canonicalMembers_inOrder hns
      split
      case isTrue => exact ⟨hordered, hmembers⟩
      case isFalse hkey =>
        refine ⟨hordered.assign key w, inOrderMembers_iff.mpr fun m hm => ?_⟩
        rcases mem_assign hm with rfl | hm
        · exact ⟨hkey, canonicalValue_inOrder hw⟩
        · exact inOrderMembers_iff.mp hmembers m hm
    case h_2 => cases h

end

theorem assign_front (h : ∀ m ∈ members, propertyKey key < propertyKey m.1) :
    assign key value members = (key, value) :: members := by
  cases members with
  | nil => rfl
  | cons m rest =>
    unfold assign
    rw [if_pos (h m mem_cons_self)]

theorem canonicalMembers_cons {v : Value} {rest ms : List (JsString × Value)} (hkey : key ≠ proto)
    (hfront : ∀ m ∈ ms, propertyKey key < propertyKey m.1)
    (hvalue : canonicalValue value = some v) (hrest : canonicalMembers rest = some ms) :
    canonicalMembers ((key, value) :: rest) = some ((key, v) :: ms) := by
  unfold canonicalMembers
  rw [hvalue, hrest]
  simp only
  rw [if_neg hkey, assign_front hfront]

mutual

theorem InOrder.canonical : ∀ {v : Value}, InOrder v → canonicalValue v = some v
  | .undefined, h => h.elim
  | .null, _ | .bool _, _ | .num _, _ | .str _, _ => rfl
  | .arr elements, h => by
    unfold canonicalValue
    rw [inOrderElements_canonical h]
    rfl
  | .obj members, h => by
    unfold canonicalValue
    rw [inOrderMembers_canonical h.1 h.2]
    rfl

theorem inOrderElements_canonical : ∀ {vs : List Value}, InOrderElements vs →
    canonicalElements vs = some vs
  | [], _ => rfl
  | v :: rest, h => by
    unfold canonicalElements
    rw [InOrder.canonical h.1, inOrderElements_canonical h.2]

theorem inOrderMembers_canonical : ∀ {ms : List (JsString × Value)}, Ordered ms →
    InOrderMembers ms → canonicalMembers ms = some ms
  | [], _, _ => rfl
  | (key, v) :: rest, hordered, h => by
    obtain ⟨hkey, hv, hrest⟩ := h
    obtain ⟨hfront, hordered⟩ := pairwise_cons.mp hordered
    exact canonicalMembers_cons hkey hfront hv.canonical (inOrderMembers_canonical hordered hrest)

end

theorem names_eq {R : Value → Value → Prop} {ms ns : List (JsString × Value)}
    (h : List.Forall₂ (fun m n => m.1 = n.1 ∧ R m.2 n.2) ms ns) :
    ms.map Prod.fst = ns.map Prod.fst := by
  induction h with
  | nil => rfl
  | cons hhead _ ih => rw [map_cons, map_cons, hhead.1, ih]

theorem canonicalMembers_eq_some_iff {ms ns : List (JsString × Value)} (hordered : Ordered ms)
    (hproto : ∀ m ∈ ms, m.1 ≠ proto) :
    canonicalMembers ms = some ns ↔
      List.Forall₂ (fun m n => m.1 = n.1 ∧ canonicalValue m.2 = some n.2) ms ns := by
  induction ms generalizing ns with
  | nil =>
    constructor
    · rintro ⟨⟩
      exact .nil
    · rintro ⟨⟩
      rfl
  | cons m rest ih =>
    obtain ⟨hlt, hrest⟩ := pairwise_cons.mp hordered
    have ih : ∀ {ks}, canonicalMembers rest = some ks ↔
        List.Forall₂ (fun m n => m.1 = n.1 ∧ canonicalValue m.2 = some n.2) rest ks :=
      ih hrest fun m hm => hproto m (mem_cons_of_mem _ hm)
    have hkey := hproto m mem_cons_self
    have hfront : ∀ {ns}, canonicalMembers rest = some ns →
        ∀ n ∈ ns, propertyKey m.1 < propertyKey n.1 := by
      intro ns hns n hn
      have hname : n.1 ∈ rest.map Prod.fst := by
        rw [names_eq (R := fun v w => canonicalValue v = some w) (ih.mp hns)]
        exact mem_map_of_mem hn
      obtain ⟨r, hr, heq⟩ := mem_map.mp hname
      exact heq ▸ hlt r hr
    constructor
    · intro h
      unfold canonicalMembers at h
      split at h
      case h_1 v ks hv hks =>
        cases h
        rw [if_neg hkey, assign_front (hfront hks)]
        exact .cons ⟨rfl, hv⟩ (ih.mp hks)
      case h_2 => cases h
    · intro h
      cases h with
      | @cons _ n _ ks hhead htail =>
        obtain ⟨hname, hvalue⟩ := hhead
        have hks := ih.mpr htail
        rw [canonicalMembers_cons hkey (hfront hks) hvalue hks, hname]

mutual

theorem InOrder.defined : ∀ {v : Value}, InOrder v → Defined v
  | .undefined, h => h
  | .null, _ | .bool _, _ | .num _, _ | .str _, _ => trivial
  | .arr _, h => inOrderElements_defined h
  | .obj _, h => inOrderMembers_defined h.2

theorem inOrderElements_defined : ∀ {vs : List Value}, InOrderElements vs → DefinedElements vs
  | [], _ => trivial
  | _ :: _, h => ⟨InOrder.defined h.1, inOrderElements_defined h.2⟩

theorem inOrderMembers_defined : ∀ {ms : List (JsString × Value)}, InOrderMembers ms →
    DefinedMembers ms
  | [], _ => trivial
  | _ :: _, h => ⟨InOrder.defined h.2.1, inOrderMembers_defined h.2.2⟩

end

/-! ### Values that stay what they are -/

/-- The values are the same up to the order of members. -/
inductive Alike : Value → Value → Prop
  | refl (v : Value) : Alike v v
  | arr {es fs : List Value} : List.Forall₂ Alike es fs → Alike (.arr es) (.arr fs)
  | obj {ms ns ks : List (JsString × Value)} : ms.map Prod.fst = ns.map Prod.fst →
      List.Forall₂ Alike (ms.map Prod.snd) (ns.map Prod.snd) → ns.Perm ks →
      Alike (.obj ms) (.obj ks)

mutual

/-- No object of the value has two members of one name, nor one that is named `__proto__`. -/
def Kept : Value → Prop
  | .arr elements => KeptElements elements
  | .obj members => KeptMembers members
  | .undefined | .null | .bool _ | .num _ | .str _ => True

def KeptElements : List Value → Prop
  | [] => True
  | element :: rest => Kept element ∧ KeptElements rest

def KeptMembers : List (JsString × Value) → Prop
  | [] => True
  | (key, value) :: rest => key ≠ proto ∧ (∀ m ∈ rest, propertyKey m.1 ≠ propertyKey key) ∧
      Kept value ∧ KeptMembers rest

end

theorem assign_perm (h : ∀ m ∈ members, propertyKey m.1 ≠ propertyKey key) :
    (assign key value members).Perm ((key, value) :: members) := by
  induction members with
  | nil => exact List.Perm.refl _
  | cons n rest ih =>
    unfold assign
    split
    case isTrue => exact List.Perm.refl _
    case isFalse hnot =>
      split
      case isTrue =>
        have hperm := ih fun m hm => h m (mem_cons_of_mem n hm)
        exact (hperm.cons n).trans (List.Perm.swap _ _ _)
      case isFalse hnot' =>
        exact absurd (le_antisymm (not_lt.mp hnot) (not_lt.mp hnot')) (h n mem_cons_self)

mutual

theorem Kept.alike : ∀ {v w : Value}, Kept v → canonicalValue v = some w → Alike v w
  | .undefined, _, _, h => by cases h
  | .null, _, _, h | .bool _, _, _, h | .num _, _, _, h | .str _, _, _, h => by
    cases h
    exact .refl _
  | .arr elements, _, hkept, h => by
    obtain ⟨vs, hvs, rfl⟩ := map_eq_some_iff.mp h
    exact .arr (keptElements_alike hkept hvs)
  | .obj members, _, hkept, h => by
    obtain ⟨ks, hks, rfl⟩ := map_eq_some_iff.mp h
    obtain ⟨ns, hnames, hvalues, hperm⟩ := keptMembers_alike hkept hks
    exact .obj hnames hvalues hperm

theorem keptElements_alike : ∀ {vs ws : List Value}, KeptElements vs →
    canonicalElements vs = some ws → List.Forall₂ Alike vs ws
  | [], _, _, h => by
    cases h
    exact .nil
  | v :: rest, _, hkept, h => by
    unfold canonicalElements at h
    split at h
    case h_1 w ws hw hws =>
      cases h
      exact .cons (Kept.alike hkept.1 hw) (keptElements_alike hkept.2 hws)
    case h_2 => cases h

theorem keptMembers_alike : ∀ {ms ks : List (JsString × Value)}, KeptMembers ms →
    canonicalMembers ms = some ks → ∃ ns : List (JsString × Value),
      ms.map Prod.fst = ns.map Prod.fst ∧
        List.Forall₂ Alike (ms.map Prod.snd) (ns.map Prod.snd) ∧ ns.Perm ks
  | [], _, _, h => by
    cases h
    exact ⟨[], rfl, .nil, List.Perm.refl _⟩
  | (key, v) :: rest, _, hkept, h => by
    obtain ⟨hkey, hdistinct, hv, hrest⟩ := hkept
    unfold canonicalMembers at h
    split at h
    case h_1 w ks hw hks =>
      cases h
      rw [if_neg hkey]
      obtain ⟨ns, hnames, hvalues, hperm⟩ := keptMembers_alike hrest hks
      have hnew : ∀ m ∈ ks, propertyKey m.1 ≠ propertyKey key := by
        intro m hm
        have hmem : m.1 ∈ rest.map Prod.fst := by
          rw [hnames]
          exact mem_map_of_mem (hperm.mem_iff.mpr hm)
        obtain ⟨n, hn, heq⟩ := mem_map.mp hmem
        exact heq ▸ hdistinct n hn
      refine ⟨(key, w) :: ns, ?_, .cons (Kept.alike hv hw) hvalues,
        (hperm.cons _).trans (assign_perm hnew).symm⟩
      rw [map_cons, map_cons, hnames]
    case h_2 => cases h

end

end Ds4Studio.Json

import Ds4Studio.Evolution.Ledger
import Ds4Studio.Json.NumberText
import Ds4Studio.Json.PropertyNames
import Mathlib.Data.List.Nodup

/-!
The content that a hash stands for. Values that `JSON.parse` gives are put in a canonical text, and
the hash of that text is recorded. The text leaves out a property that is named `__proto__`, and it
does not tell a zero with a sign from one without; a number that is not finite has no text.
-/

namespace Ds4Studio.Evolution.Integrity

open Bytes EvolutionLedger Json Json.NumberText List Option

/-! ### Parsed values -/

/-- The numbers of JSON texts. One that is too large is read as infinite. -/
inductive JsNumber where
  | finite (x : Decimal)
  | negativeZero
  | infinite (neg : Bool)

/-- A value that `JSON.parse` has given, the members of an object in the order of its properties. -/
inductive Parsed where
  | null
  | bool (b : Bool)
  | num (n : JsNumber)
  | str (s : JsString)
  | arr (items : List Parsed)
  | obj (members : List (JsString × Parsed))

def zero : Decimal where
  neg := false
  digits := []
  point := 0
  digital := rfl
  lead := nofun
  trail := nofun
  short := by decide
  zero := fun _ => ⟨rfl, rfl⟩

def numeral (x : Decimal) : Numeral := ⟨jsNumber x, (written_jsNumber x).number⟩

mutual

/-- The value as `canonicalValue` and `JSON.stringify` see it: the zero with a sign is printed as
the other one, and at a number that is not finite `canonicalValue` throws as at `undefined`. -/
def Parsed.value : Parsed → Json.Value
  | .null => .null
  | .bool b => .bool b
  | .num (.finite x) => .num (numeral x)
  | .num .negativeZero => .num (numeral zero)
  | .num (.infinite _) => .undefined
  | .str s => .str s
  | .arr items => .arr (itemValues items)
  | .obj members => .obj (memberValues members)

def itemValues : List Parsed → List Json.Value
  | [] => []
  | item :: rest => item.value :: itemValues rest

def memberValues : List (JsString × Parsed) → List (JsString × Json.Value)
  | [] => []
  | (key, item) :: rest => (key, item.value) :: memberValues rest

end

def Parsed.canonicalJson (v : Parsed) : Option Bytes := Json.canonicalJson v.value

mutual

/-- What is so of every value that has been parsed: its numbers are among those of the language,
strings hold whole code points, and the properties of an object have different names. -/
def Proper (number : Decimal → Prop) : Parsed → Prop
  | .null | .bool _ | .num (.infinite _) => True
  | .num (.finite x) => number x
  | .num .negativeZero => number zero
  | .str s => Paired s
  | .arr items => ProperItems number items
  | .obj members => ProperMembers number members

def ProperItems (number : Decimal → Prop) : List Parsed → Prop
  | [] => True
  | item :: rest => Proper number item ∧ ProperItems number rest

def ProperMembers (number : Decimal → Prop) : List (JsString × Parsed) → Prop
  | [] => True
  | (key, item) :: rest =>
      Paired key ∧ (∀ m ∈ rest, m.1 ≠ key) ∧ Proper number item ∧ ProperMembers number rest

end

/-- Numbers are the same for `Object.is`, or else for `===`. -/
def JsNumber.same (strict : Bool) (m n : JsNumber) : Prop :=
  m = n ∨ strict = false ∧ (m = .finite zero ∧ n = .negativeZero ∨
    m = .negativeZero ∧ n = .finite zero)

mutual

/-- The values are equal up to the order of properties. -/
def Alike (strict : Bool) : Parsed → Parsed → Prop
  | .null, .null => True
  | .bool b, .bool c => b = c
  | .num m, .num n => m.same strict n
  | .str s, .str t => s = t
  | .arr items, .arr items' => AlikeItems strict items items'
  | .obj members, .obj members' =>
      AlikeMembers strict members members' ∧ ∀ m ∈ members', m.1 ∈ members.map Prod.fst
  | _, _ => False

def AlikeItems (strict : Bool) : List Parsed → List Parsed → Prop
  | [], [] => True
  | item :: rest, item' :: rest' => Alike strict item item' ∧ AlikeItems strict rest rest'
  | _, _ => False

/-- Each of the members has one of the same name and of a value that is alike. -/
def AlikeMembers (strict : Bool) :
    List (JsString × Parsed) → List (JsString × Parsed) → Prop
  | [], _ => True
  | (key, item) :: rest, members' =>
      (∃ item', (key, item') ∈ members' ∧ Alike strict item item') ∧
        AlikeMembers strict rest members'

end

mutual

/-- All numbers are finite, no property is named `__proto__`, and where zeros are told apart there
is none with a sign. -/
def Bindable (strict : Bool) : Parsed → Prop
  | .null | .bool _ | .str _ | .num (.finite _) => True
  | .num .negativeZero => strict = false
  | .num (.infinite _) => False
  | .arr items => BindableItems strict items
  | .obj members => BindableMembers strict members

def BindableItems (strict : Bool) : List Parsed → Prop
  | [] => True
  | item :: rest => Bindable strict item ∧ BindableItems strict rest

def BindableMembers (strict : Bool) : List (JsString × Parsed) → Prop
  | [] => True
  | (key, item) :: rest => key ≠ proto ∧ Bindable strict item ∧ BindableMembers strict rest

end

theorem memberValues_eq (members : List (JsString × Parsed)) :
    memberValues members = members.map fun m => (m.1, m.2.value) := by
  induction members with
  | nil => rfl
  | cons m rest ih => rw [memberValues, ih, map_cons]

variable {number : Decimal → Prop} {members : List (JsString × Parsed)}

theorem properMembers_iff : ProperMembers number members ↔
    (members.Pairwise fun m n => n.1 ≠ m.1) ∧ ∀ m ∈ members, Paired m.1 ∧ Proper number m.2 := by
  induction members with
  | nil => exact iff_of_true trivial ⟨List.Pairwise.nil, fun m h => absurd h not_mem_nil⟩
  | cons m rest ih =>
    rw [ProperMembers, ih, forall_mem_cons, pairwise_cons]
    exact ⟨fun ⟨hkey, hnew, hitem, hpair, hrest⟩ => ⟨⟨hnew, hpair⟩, ⟨hkey, hitem⟩, hrest⟩,
      fun ⟨⟨hnew, hpair⟩, ⟨hkey, hitem⟩, hrest⟩ => ⟨hkey, hnew, hitem, hpair, hrest⟩⟩

variable {strict : Bool} {members members' : List (JsString × Parsed)}

theorem alikeMembers_iff :
    AlikeMembers strict members members' ↔
      ∀ m ∈ members, ∃ item', (m.1, item') ∈ members' ∧ Alike strict m.2 item' := by
  induction members with
  | nil => exact iff_of_true trivial fun m h => absurd h not_mem_nil
  | cons m rest ih => rw [AlikeMembers, ih, forall_mem_cons]

variable {items : List Parsed}

theorem bindableItems_iff : BindableItems strict items ↔ ∀ item ∈ items, Bindable strict item := by
  induction items with
  | nil => exact iff_of_true trivial fun item h => absurd h not_mem_nil
  | cons item rest ih => rw [BindableItems, ih, forall_mem_cons]

theorem bindableMembers_iff :
    BindableMembers strict members ↔
      ∀ m ∈ members, m.1 ≠ proto ∧ Bindable strict m.2 := by
  induction members with
  | nil => exact iff_of_true trivial fun m h => absurd h not_mem_nil
  | cons m rest ih => rw [BindableMembers, ih, forall_mem_cons, and_assoc]

variable {key : JsString}

theorem ProperMembers.unique (h : ProperMembers number members) {item item' : Parsed}
    (hitem : (key, item) ∈ members) (hitem' : (key, item') ∈ members) : item = item' := by
  have hnames : (members.map Prod.fst).Nodup :=
    pairwise_map.mpr ((properMembers_iff.mp h).1.imp fun hne => hne.symm)
  have hsame := inj_on_of_nodup_map hnames hitem hitem' rfl
  exact (Prod.ext_iff.mp hsame).2

/-! ### Canonical members -/

theorem propertyKey_ne (h : ProperMembers number members) (hkey : Paired key)
    (hnew : ∀ m ∈ members, m.1 ≠ key) :
    ∀ m ∈ members, propertyKey m.1 ≠ propertyKey key := fun m hm hsame =>
  hnew m hm (propertyKey_inj ((properMembers_iff.mp h).2 m hm).1 hkey hsame)

variable {ks : List (JsString × Json.Value)}

/-- A canonical member is one of the members with its canonical value. -/
theorem of_mem_canonical (h : canonicalMembers (memberValues members) = some ks) {w : Json.Value}
    (hmem : (key, w) ∈ ks) :
    key ≠ proto ∧ ∃ item, (key, item) ∈ members ∧ canonicalValue item.value = some w := by
  induction members generalizing ks with
  | nil =>
    cases h
    exact absurd hmem not_mem_nil
  | cons m rest ih =>
    rw [memberValues, canonicalMembers] at h
    split at h
    case h_1 v ks' hv hks' =>
      cases h
      have hrest : (key, w) ∈ ks' → key ≠ proto ∧
          ∃ item, (key, item) ∈ m :: rest ∧ canonicalValue item.value = some w := by
        intro hold
        obtain ⟨hkey, item, hitem, hw⟩ := ih hks' hold
        exact ⟨hkey, item, mem_cons_of_mem _ hitem, hw⟩
      split at hmem
      case isTrue => exact hrest hmem
      case isFalse hproto =>
        rcases mem_assign hmem with hnew | hold
        · cases hnew
          exact ⟨hproto, m.2, mem_cons_self, hv⟩
        · exact hrest hold
    case h_2 => cases h

/-- Every member is among the canonical ones, unless it is named `__proto__`. -/
theorem mem_canonical (hproper : ProperMembers number members)
    (h : canonicalMembers (memberValues members) = some ks) {item : Parsed}
    (hmem : (key, item) ∈ members) (hkey : key ≠ proto) :
    ∃ w, canonicalValue item.value = some w ∧ (key, w) ∈ ks := by
  induction members generalizing ks with
  | nil => exact absurd hmem not_mem_nil
  | cons m rest ih =>
    obtain ⟨hpaired, hnew, -, hrest⟩ := hproper
    rw [memberValues, canonicalMembers] at h
    split at h
    case h_1 v ks' hv hks' =>
      cases h
      have hdistinct : ∀ n ∈ ks', propertyKey n.1 ≠ propertyKey m.1 := by
        intro n hn
        obtain ⟨-, item', hitem', -⟩ := of_mem_canonical hks' hn
        exact propertyKey_ne hrest hpaired hnew _ hitem'
      rcases mem_cons.mp hmem with rfl | hold
      · rw [if_neg hkey]
        exact ⟨v, hv, (assign_perm hdistinct).mem_iff.mpr mem_cons_self⟩
      · obtain ⟨w, hw, hwmem⟩ := ih hrest hks' hold
        refine ⟨w, hw, ?_⟩
        split
        case isTrue => exact hwmem
        case isFalse =>
          exact (assign_perm hdistinct).mem_iff.mpr (mem_cons_of_mem _ hwmem)
    case h_2 => cases h

theorem ordered_ext {ks' : List (JsString × Json.Value)} (h : Ordered ks) (h' : Ordered ks')
    (hmem : ∀ m, m ∈ ks ↔ m ∈ ks') : ks = ks' := by
  have hnodup : ∀ {l : List (JsString × Json.Value)}, Ordered l → l.Nodup := by
    intro l hl
    refine hl.imp fun {a b} hlt heq => ?_
    rw [heq] at hlt
    exact lt_irrefl _ hlt
  have hperm : ks.Perm ks' := (perm_ext_iff_of_nodup (hnodup h) (hnodup h')).mpr hmem
  exact hperm.eq_of_pairwise (fun a b _ _ hab hba => absurd (hab.trans hba) (lt_irrefl _)) h h'

/-! ### Canonical texts -/

mutual

theorem Bindable.canonical {strict : Bool} : ∀ {v : Parsed}, Bindable strict v →
    ∃ w, canonicalValue v.value = some w
  | .null, _ | .bool _, _ | .str _, _ | .num (.finite _), _ | .num .negativeZero, _ => ⟨_, rfl⟩
  | .num (.infinite _), h => h.elim
  | .arr items, h => by
    obtain ⟨ws, hws⟩ := bindableItems_canonical h
    refine ⟨.arr ws, ?_⟩
    rw [Parsed.value, canonicalValue, hws]
    rfl
  | .obj members, h => by
    obtain ⟨ks, hks⟩ := bindableMembers_canonical h
    refine ⟨.obj ks, ?_⟩
    rw [Parsed.value, canonicalValue, hks]
    rfl

theorem bindableItems_canonical {strict : Bool} : ∀ {items : List Parsed},
    BindableItems strict items → ∃ ws, canonicalElements (itemValues items) = some ws
  | [], _ => ⟨[], rfl⟩
  | item :: rest, h => by
    obtain ⟨w, hw⟩ := Bindable.canonical h.1
    obtain ⟨ws, hws⟩ := bindableItems_canonical h.2
    refine ⟨w :: ws, ?_⟩
    rw [itemValues, canonicalElements, hw, hws]

theorem bindableMembers_canonical {strict : Bool} : ∀ {members : List (JsString × Parsed)},
    BindableMembers strict members → ∃ ks, canonicalMembers (memberValues members) = some ks
  | [], _ => ⟨[], rfl⟩
  | (key, item) :: rest, h => by
    obtain ⟨w, hw⟩ := Bindable.canonical h.2.1
    obtain ⟨ks, hks⟩ := bindableMembers_canonical h.2.2
    refine ⟨if key = proto then ks else assign key w ks, ?_⟩
    rw [memberValues, canonicalMembers, hw, hks]

end

theorem jsNumber_inj {x y : Decimal} (h : jsNumber x = jsNumber y) : x = y :=
  (written_jsNumber x).unique (h ▸ written_jsNumber y)

theorem numeral_inj {x y : Decimal} (h : numeral x = numeral y) : x = y :=
  jsNumber_inj (congrArg Numeral.text h)

theorem JsNumber.same_finite {x y : Decimal} :
    JsNumber.same strict (.finite x) (.finite y) ↔ x = y := by
  simp [JsNumber.same]

/-- Numbers that have a text have the same one just if they are the same. -/
theorem canonical_num_iff {m n : JsNumber} (hm : Bindable strict (.num m))
    (hn : Bindable strict (.num n)) :
    canonicalValue (Parsed.num m).value = canonicalValue (Parsed.num n).value ↔
      m.same strict n := by
  have hfinite : ∀ x y : Decimal, canonicalValue (.num (numeral x)) =
      canonicalValue (.num (numeral y)) ↔ x = y := fun x y =>
    ⟨fun h => numeral_inj (Json.Value.num.inj (some.inj h)), fun h => h ▸ rfl⟩
  rcases m with x | _ | _
  · rcases n with y | _ | _
    · exact (hfinite x y).trans JsNumber.same_finite.symm
    · refine (hfinite x zero).trans ?_
      simp only [Bindable] at hn
      simp [JsNumber.same, hn]
    · exact hn.elim
  · simp only [Bindable] at hm
    rcases n with y | _ | _
    · refine (hfinite zero y).trans ?_
      simp [JsNumber.same, hm, eq_comm]
    · exact iff_of_true rfl (.inl rfl)
    · exact hn.elim
  · exact hm.elim

/-- What holds of a value if it holds of its items and members holds of all values. -/
@[elab_as_elim]
theorem Parsed.induct {P : Parsed → Prop} (null : P .null) (bool : ∀ b, P (.bool b))
    (num : ∀ n, P (.num n)) (str : ∀ s, P (.str s))
    (arr : ∀ items, (∀ item ∈ items, P item) → P (.arr items))
    (obj : ∀ members, (∀ m ∈ members, P m.2) → P (.obj members)) (v : Parsed) : P v := by
  refine Parsed.rec (motive_1 := P) (motive_2 := fun items => ∀ item ∈ items, P item)
    (motive_3 := fun members => ∀ m ∈ members, P m.2) (motive_4 := fun m => P m.2)
    null bool num str arr obj ?_ ?_ ?_ ?_ ?_ v
  · exact fun item h => absurd h not_mem_nil
  · exact fun item rest hitem hrest => forall_mem_cons.mpr ⟨hitem, hrest⟩
  · exact fun m h => absurd h not_mem_nil
  · exact fun m rest hm hrest => forall_mem_cons.mpr ⟨hm, hrest⟩
  · exact fun _ _ hitem => hitem

def Parsed.kind : Parsed → ℕ
  | .null => 0
  | .bool _ => 1
  | .num _ => 2
  | .str _ => 3
  | .arr _ => 4
  | .obj _ => 5

variable {v : Parsed}

theorem canonical_kind {c : Json.Value} (h : canonicalValue v.value = some c) :
    c.kind = v.kind := by
  rcases v with _ | b | n | s | items | members
  · cases h
    rfl
  · cases h
    rfl
  · rcases n with x | _ | neg <;> cases h <;> rfl
  · cases h
    rfl
  · obtain ⟨ws, -, rfl⟩ := map_eq_some_iff.mp h
    rfl
  · obtain ⟨ks, -, rfl⟩ := map_eq_some_iff.mp h
    rfl

theorem alike_kind {w : Parsed} (h : Alike strict v w) : v.kind = w.kind := by
  cases v <;> cases w <;> first | rfl | exact h.elim

/-- Whether the canonical values are the same says whether the values are alike. -/
def Told (number : Decimal → Prop) (strict : Bool) (v : Parsed) : Prop :=
  ∀ w, Proper number v → Proper number w → Bindable strict v → Bindable strict w →
    (canonicalValue v.value = canonicalValue w.value ↔ Alike strict v w)

variable {items' : List Parsed}

theorem told_items (ih : ∀ item ∈ items, Told number strict item)
    (hproper : ProperItems number items) (hproper' : ProperItems number items')
    (hbind : BindableItems strict items) (hbind' : BindableItems strict items') :
    canonicalElements (itemValues items) = canonicalElements (itemValues items') ↔
      AlikeItems strict items items' := by
  induction items generalizing items' with
  | nil =>
    cases items' with
    | nil => exact iff_of_true rfl trivial
    | cons item' rest' =>
      obtain ⟨w, hw⟩ := Bindable.canonical hbind'.1
      obtain ⟨ws, hws⟩ := bindableItems_canonical hbind'.2
      rw [itemValues, itemValues, canonicalElements, canonicalElements, hw, hws]
      exact iff_of_false nofun id
  | cons item rest ihrest =>
    obtain ⟨v, hv⟩ := Bindable.canonical hbind.1
    obtain ⟨vs, hvs⟩ := bindableItems_canonical hbind.2
    cases items' with
    | nil =>
      rw [itemValues, itemValues, canonicalElements, canonicalElements, hv, hvs]
      exact iff_of_false nofun id
    | cons item' rest' =>
      obtain ⟨w, hw⟩ := Bindable.canonical hbind'.1
      obtain ⟨ws, hws⟩ := bindableItems_canonical hbind'.2
      have hhead := ih item mem_cons_self item' hproper.1 hproper'.1 hbind.1 hbind'.1
      have htail := ihrest (fun other hother => ih other (mem_cons_of_mem _ hother))
        hproper.2 hproper'.2 hbind.2 hbind'.2
      rw [hv, hw, some_inj] at hhead
      rw [hvs, hws, some_inj] at htail
      rw [itemValues, itemValues, canonicalElements, canonicalElements, hv, hvs, hw, hws]
      simp only [some_inj, cons.injEq, hhead, htail, AlikeItems]

theorem told_members (ih : ∀ m ∈ members, Told number strict m.2)
    (hproper : ProperMembers number members) (hproper' : ProperMembers number members')
    (hbind : BindableMembers strict members) (hbind' : BindableMembers strict members') :
    canonicalMembers (memberValues members) = canonicalMembers (memberValues members') ↔
      AlikeMembers strict members members' ∧ ∀ m ∈ members', m.1 ∈ members.map Prod.fst := by
  obtain ⟨ks, hks⟩ := bindableMembers_canonical hbind
  obtain ⟨ks', hks'⟩ := bindableMembers_canonical hbind'
  have hall := (properMembers_iff.mp hproper).2
  have hall' := (properMembers_iff.mp hproper').2
  have hnames := bindableMembers_iff.mp hbind
  have hnames' := bindableMembers_iff.mp hbind'
  have htold : ∀ {key item item'}, (key, item) ∈ members → (key, item') ∈ members' →
      (canonicalValue item.value = canonicalValue item'.value ↔ Alike strict item item') :=
    fun hm hm' => ih _ hm _ (hall _ hm).2 (hall' _ hm').2 (hnames _ hm).2 (hnames' _ hm').2
  rw [hks, hks', some_inj]
  constructor
  · rintro rfl
    refine ⟨alikeMembers_iff.mpr fun m hm => ?_, fun m hm => ?_⟩
    · obtain ⟨w, hw, hwmem⟩ := mem_canonical hproper hks hm (hnames m hm).1
      obtain ⟨-, item', hitem', hw'⟩ := of_mem_canonical hks' hwmem
      exact ⟨item', hitem', (htold hm hitem').mp (hw.trans hw'.symm)⟩
    · obtain ⟨w, -, hwmem⟩ := mem_canonical hproper' hks' hm (hnames' m hm).1
      obtain ⟨-, item, hitem, -⟩ := of_mem_canonical hks hwmem
      exact mem_map.mpr ⟨_, hitem, rfl⟩
  · rintro ⟨halike, hsub⟩
    refine ordered_ext (canonicalMembers_inOrder hks).1 (canonicalMembers_inOrder hks').1 ?_
    rintro ⟨key, w⟩
    constructor
    · intro hmem
      obtain ⟨hkey, item, hitem, hw⟩ := of_mem_canonical hks hmem
      obtain ⟨item', hitem', hsame⟩ := alikeMembers_iff.mp halike _ hitem
      obtain ⟨w', hw', hwmem⟩ := mem_canonical hproper' hks' hitem' hkey
      have heq := (htold hitem hitem').mpr hsame
      rw [hw, hw', some_inj] at heq
      exact heq ▸ hwmem
    · intro hmem
      obtain ⟨hkey, item', hitem', hw'⟩ := of_mem_canonical hks' hmem
      obtain ⟨⟨key', item⟩, hitem, hsamekey⟩ := mem_map.mp (hsub _ hitem')
      obtain rfl : key' = key := hsamekey
      obtain ⟨item'', hitem'', hsame⟩ := alikeMembers_iff.mp halike _ hitem
      obtain rfl := hproper'.unique hitem' hitem''
      obtain ⟨w, hw, hwmem⟩ := mem_canonical hproper hks hitem hkey
      have heq := (htold hitem hitem').mpr hsame
      rw [hw, hw', some_inj] at heq
      exact heq ▸ hwmem

theorem Told.of_kind
    (h : ∀ w, v.kind = w.kind → Proper number v → Proper number w →
      Bindable strict v → Bindable strict w →
      (canonicalValue v.value = canonicalValue w.value ↔ Alike strict v w)) :
    Told number strict v := by
  intro w hv hw hbind hbind'
  by_cases hkind : v.kind = w.kind
  · exact h w hkind hv hw hbind hbind'
  · obtain ⟨c, hc⟩ := hbind.canonical
    refine iff_of_false (fun hsame => hkind ?_) fun halike => hkind (alike_kind halike)
    exact (canonical_kind hc).symm.trans (canonical_kind (hsame ▸ hc))

/-- Values that have a text have the same one just if they are equal up to the order of
properties. -/
theorem told (strict : Bool) (v : Parsed) : Told number strict v := by
  induction v using Parsed.induct with
  | null =>
    refine .of_kind fun w hkind _ _ _ _ => ?_
    cases w <;> cases hkind
    exact iff_of_true rfl trivial
  | bool b =>
    refine .of_kind fun w hkind _ _ _ _ => ?_
    cases w <;> cases hkind
    simp [Parsed.value, canonicalValue, Alike]
  | num n =>
    refine .of_kind fun w hkind _ _ hbind hbind' => ?_
    cases w <;> cases hkind
    exact canonical_num_iff hbind hbind'
  | str s =>
    refine .of_kind fun w hkind _ _ _ _ => ?_
    cases w <;> cases hkind
    simp [Parsed.value, canonicalValue, Alike]
  | arr items ih =>
    refine .of_kind fun w hkind hv hw hbind hbind' => ?_
    cases w <;> cases hkind
    rw [Alike, ← told_items ih hv hw hbind hbind']
    exact (map_injective fun _ _ => Json.Value.arr.inj).eq_iff
  | obj members ih =>
    refine .of_kind fun w hkind hv hw hbind hbind' => ?_
    cases w <;> cases hkind
    rw [Alike, ← told_members ih hv hw hbind hbind']
    exact (map_injective fun _ _ => Json.Value.obj.inj).eq_iff

/-! ### Values that are read back -/

mutual

/-- The value is as it is read from a text that is canonical. -/
def Printed : Parsed → Prop
  | .null | .bool _ | .str _ | .num (.finite _) => True
  | .num _ => False
  | .arr items => PrintedItems items
  | .obj members =>
      (members.Pairwise fun m n => propertyKey m.1 < propertyKey n.1) ∧ PrintedMembers members

def PrintedItems : List Parsed → Prop
  | [] => True
  | item :: rest => Printed item ∧ PrintedItems rest

def PrintedMembers : List (JsString × Parsed) → Prop
  | [] => True
  | (key, item) :: rest => key ≠ proto ∧ Printed item ∧ PrintedMembers rest

end

theorem printedItems_iff : PrintedItems items ↔ ∀ item ∈ items, Printed item := by
  induction items with
  | nil => exact iff_of_true trivial fun item h => absurd h not_mem_nil
  | cons item rest ih => rw [PrintedItems, ih, forall_mem_cons]

theorem printedMembers_iff : PrintedMembers members ↔ ∀ m ∈ members, m.1 ≠ proto ∧ Printed m.2 := by
  induction members with
  | nil => exact iff_of_true trivial fun m h => absurd h not_mem_nil
  | cons m rest ih => rw [PrintedMembers, ih, forall_mem_cons, and_assoc]

theorem Printed.bindable (strict : Bool) (h : Printed v) : Bindable strict v := by
  induction v using Parsed.induct with
  | null | bool b | str s => trivial
  | num n =>
    rcases n with x | _ | _
    · trivial
    · exact h.elim
    · exact h.elim
  | arr items ih =>
    exact bindableItems_iff.mpr fun item hitem => ih item hitem (printedItems_iff.mp h item hitem)
  | obj members ih =>
    refine bindableMembers_iff.mpr fun m hm => ?_
    obtain ⟨hname, hitem⟩ := printedMembers_iff.mp h.2 m hm
    exact ⟨hname, ih m hm hitem⟩

/-- A canonical value is that of a printed one. -/
def Readable (number : Decimal → Prop) (v : Parsed) : Prop :=
  ∀ w, Proper number v → canonicalValue v.value = some w →
    ∃ c : Parsed, c.value = w ∧ Proper number c ∧ Printed c

theorem readable_items (ih : ∀ item ∈ items, Readable number item)
    (hproper : ProperItems number items) {ws : List Json.Value}
    (h : canonicalElements (itemValues items) = some ws) :
    ∃ cs, itemValues cs = ws ∧ ProperItems number cs ∧ PrintedItems cs := by
  induction items generalizing ws with
  | nil =>
    cases h
    exact ⟨[], rfl, trivial, trivial⟩
  | cons item rest ihrest =>
    rw [itemValues, canonicalElements] at h
    split at h
    case h_1 w ws' hw hws =>
      cases h
      obtain ⟨c, rfl, hc, hprinted⟩ := ih item mem_cons_self w hproper.1 hw
      obtain ⟨cs, rfl, hcs, hall⟩ := ihrest
        (fun other hother => ih other (mem_cons_of_mem _ hother)) hproper.2 hws
      exact ⟨c :: cs, rfl, ⟨hc, hcs⟩, hprinted, hall⟩
    case h_2 => cases h

theorem readable_members (ih : ∀ m ∈ members, Readable number m.2)
    (hproper : ProperMembers number members)
    (h : canonicalMembers (memberValues members) = some ks) :
    ∃ cs, memberValues cs = ks ∧ ProperMembers number cs ∧
      (cs.Pairwise fun m n => propertyKey m.1 < propertyKey n.1) ∧ PrintedMembers cs := by
  have hall := (properMembers_iff.mp hproper).2
  have heach : ∀ k ∈ ks, ∃ c : JsString × Parsed, (c.1, c.2.value) = k ∧
      (Paired c.1 ∧ Proper number c.2) ∧ c.1 ≠ proto ∧ Printed c.2 := by
    rintro ⟨key, w⟩ hk
    obtain ⟨hkey, item, hitem, hw⟩ := of_mem_canonical h hk
    obtain ⟨hpaired, hitemProper⟩ := hall _ hitem
    obtain ⟨c, rfl, hc, hprinted⟩ := ih _ hitem w hitemProper hw
    exact ⟨(key, c), rfl, ⟨hpaired, hc⟩, hkey, hprinted⟩
  have hordered := (canonicalMembers_inOrder h).1
  clear h
  obtain ⟨cs, rfl, hcs⟩ : ∃ cs : List (JsString × Parsed),
      cs.map (fun c => (c.1, c.2.value)) = ks ∧
        ∀ c ∈ cs, (Paired c.1 ∧ Proper number c.2) ∧ c.1 ≠ proto ∧ Printed c.2 := by
    induction ks with
    | nil => exact ⟨[], rfl, fun c hc => absurd hc not_mem_nil⟩
    | cons k ks ihks =>
      obtain ⟨c, rfl, hc⟩ := heach k mem_cons_self
      obtain ⟨cs, rfl, hcs⟩ := ihks (fun j hj => heach j (mem_cons_of_mem _ hj))
        (pairwise_cons.mp hordered).2
      exact ⟨c :: cs, rfl, forall_mem_cons.mpr ⟨hc, hcs⟩⟩
  have hplaces : cs.Pairwise fun m n => propertyKey m.1 < propertyKey n.1 :=
    (pairwise_map (R := fun k l : JsString × Json.Value =>
      propertyKey k.1 < propertyKey l.1)).mp hordered
  refine ⟨cs, memberValues_eq cs, properMembers_iff.mpr ⟨?_, fun c hc => (hcs c hc).1⟩, hplaces,
    printedMembers_iff.mpr fun c hc => (hcs c hc).2⟩
  refine hplaces.imp fun {m n} hlt hsame => ?_
  rw [hsame] at hlt
  exact lt_irrefl _ hlt

theorem readable (v : Parsed) : Readable number v := by
  induction v using Parsed.induct with
  | null | bool b =>
    intro w hproper h
    cases h
    exact ⟨_, rfl, hproper, trivial⟩
  | str s =>
    intro w hproper h
    cases h
    exact ⟨.str s, rfl, hproper, trivial⟩
  | num n =>
    intro w hproper h
    rcases n with x | _ | _
    · cases h
      exact ⟨.num (.finite x), rfl, hproper, trivial⟩
    · cases h
      exact ⟨.num (.finite zero), rfl, hproper, trivial⟩
    · cases h
  | arr items ih =>
    intro w hproper h
    obtain ⟨ws, hws, rfl⟩ := map_eq_some_iff.mp h
    obtain ⟨cs, rfl, hcs, hprinted⟩ := readable_items ih hproper hws
    exact ⟨.arr cs, rfl, hcs, hprinted⟩
  | obj members ih =>
    intro w hproper h
    obtain ⟨ks, hks, rfl⟩ := map_eq_some_iff.mp h
    obtain ⟨cs, rfl, hcs, hprinted⟩ := readable_members ih hproper hks
    exact ⟨.obj cs, rfl, hcs, hprinted⟩

theorem alikeItems_bindable
    (ih : ∀ item ∈ items, ∀ w, Proper number w → Alike strict item w → Bindable strict item →
      Bindable strict w) (hproper : ProperItems number items')
    (halike : AlikeItems strict items items')
    (hbind : BindableItems strict items) : BindableItems strict items' := by
  induction items generalizing items' with
  | nil =>
    cases items' with
    | nil => trivial
    | cons item' rest' => exact halike.elim
  | cons item rest ihrest =>
    cases items' with
    | nil => exact halike.elim
    | cons item' rest' =>
      exact ⟨ih item mem_cons_self item' hproper.1 halike.1 hbind.1,
        ihrest (fun other hother => ih other (mem_cons_of_mem _ hother)) hproper.2 halike.2
          hbind.2⟩

theorem Bindable.of_alike {w : Parsed} (hproper : Proper number w) (halike : Alike strict v w)
    (hbind : Bindable strict v) : Bindable strict w := by
  induction v using Parsed.induct generalizing w with
  | null | bool b | str s => cases w <;> trivial
  | num m =>
    cases w with
    | num n =>
      rcases halike with rfl | ⟨hloose, ⟨-, rfl⟩ | ⟨-, rfl⟩⟩
      · exact hbind
      · exact hloose
      · trivial
    | null | bool | str | arr | obj => exact halike.elim
  | arr items ih =>
    cases w with
    | arr items' =>
      refine alikeItems_bindable (fun item hitem w hw hsame hold => ?_) hproper halike hbind
      exact ih item hitem hw hsame hold
    | null | bool | num | str | obj => exact halike.elim
  | obj members ih =>
    cases w with
    | obj members' =>
      refine bindableMembers_iff.mpr fun m hm => ?_
      obtain ⟨hall, hnames⟩ := halike
      obtain ⟨n, hn, hsamekey⟩ := mem_map.mp (hnames m hm)
      obtain ⟨hkey, hitem⟩ := bindableMembers_iff.mp hbind n hn
      obtain ⟨item', hitem', hsame⟩ := alikeMembers_iff.mp hall n hn
      have hunique : item' = m.2 := ProperMembers.unique hproper (hsamekey ▸ hitem') hm
      have hproper' := ((properMembers_iff.mp hproper).2 m hm).2
      exact ⟨hsamekey ▸ hkey, ih n hn hproper' (hunique ▸ hsame) hitem⟩
    | null | bool | num | str | arr => exact halike.elim

/-! ### What a hash binds -/

/-- `crypto` and `JSON.parse`, which reads a printed value as it was. -/
structure Node where
  sha256 : Bytes → JsString
  sha256_hex : ∀ text, hex64 (sha256 text) = true
  parse : Bytes → Option Parsed
  /-- The numbers of the language -/
  number : Decimal → Prop
  parse_printed : ∀ v, Proper number v → Printed v → parse (stringify v.value) = some v

namespace Node

variable (node : Node)

/-- `hashJson`; it throws where there is no text. -/
def hashJson (v : Parsed) : Option JsString := v.canonicalJson.map node.sha256

/-- A value passes the check of a hash that has been recorded. -/
def Passes (recorded : JsString) (v : Parsed) : Prop :=
  (node.hashJson v).any (fun hash => hexEqual (.str hash) (.str recorded)) = true

/-- The hash tells the texts of the two values apart. -/
def CollisionFree (a b : Parsed) : Prop :=
  ∀ s t, a.canonicalJson = some s → b.canonicalJson = some t → node.sha256 s = node.sha256 t →
    s = t

def ReadsBack (strict : Bool) (v : Parsed) : Prop :=
  ∃ text c, v.canonicalJson = some text ∧ node.parse text = some c ∧ Alike strict c v

/-- The texts and the hashes of two values are the same just if the values are equal up to the
order of properties, and the texts are read as the values. -/
def Binds (strict : Bool) (a b : Parsed) : Prop :=
  (a.canonicalJson = b.canonicalJson ↔ Alike strict a b) ∧
    node.ReadsBack strict a ∧ node.ReadsBack strict b ∧
    ∀ recorded, node.hashJson a = some recorded → (node.Passes recorded b ↔ Alike strict a b)

end Node

theorem canonicalJson_inj {w : Parsed} : v.canonicalJson = w.canonicalJson ↔
    canonicalValue v.value = canonicalValue w.value := by
  refine ⟨fun h => ?_, fun h => congrArg (Option.map stringify) h⟩
  unfold Parsed.canonicalJson Json.canonicalJson at h
  cases hv : canonicalValue v.value with
  | none =>
    cases hw : canonicalValue w.value with
    | none => rfl
    | some d =>
      rw [hv, hw] at h
      cases h
  | some c =>
    cases hw : canonicalValue w.value with
    | none =>
      rw [hv, hw] at h
      cases h
    | some d =>
      rw [hv, hw] at h
      rw [stringify_injOn (canonicalValue_inOrder hv).defined (canonicalValue_inOrder hw).defined
        (some.inj h)]

theorem readsBack_iff (node : Node) (strict : Bool) (hproper : Proper node.number v) :
    node.ReadsBack strict v ↔ Bindable strict v := by
  constructor
  · rintro ⟨text, c, htext, hparse, halike⟩
    obtain ⟨w, hw, rfl⟩ := map_eq_some_iff.mp htext
    obtain ⟨c', rfl, hc, hprinted⟩ := readable v w hproper hw
    have hsame : c' = c := some.inj ((node.parse_printed c' hc hprinted).symm.trans hparse)
    exact .of_alike hproper halike (hsame ▸ hprinted.bindable strict)
  · intro hbind
    obtain ⟨w, hw⟩ := hbind.canonical
    obtain ⟨c, rfl, hc, hprinted⟩ := readable v w hproper hw
    have hself : canonicalValue c.value = some c.value := (canonicalValue_inOrder hw).canonical
    refine ⟨stringify c.value, c, ?_, node.parse_printed c hc hprinted, ?_⟩
    · rw [Parsed.canonicalJson, Json.canonicalJson, hw]
      rfl
    · exact (told strict c v hc hproper (hprinted.bindable strict) hbind).mp (hself.trans hw.symm)

/-- Two values are bound by their texts and hashes just if in both all numbers are finite and no
property is named `__proto__`; for `Object.is` no zero has a sign either. -/
theorem content_bound_iff (node : Node) (strict : Bool) {a b : Parsed}
    (ha : Proper node.number a) (hb : Proper node.number b) (hfree : node.CollisionFree a b) :
    node.Binds strict a b ↔ Bindable strict a ∧ Bindable strict b := by
  constructor
  · rintro ⟨-, hreads, hreads', -⟩
    exact ⟨(readsBack_iff node strict ha).mp hreads, (readsBack_iff node strict hb).mp hreads'⟩
  · rintro ⟨hbind, hbind'⟩
    have htexts : a.canonicalJson = b.canonicalJson ↔ Alike strict a b :=
      canonicalJson_inj.trans (told strict a b ha hb hbind hbind')
    refine ⟨htexts, (readsBack_iff node strict ha).mpr hbind,
      (readsBack_iff node strict hb).mpr hbind', fun recorded hrecorded => ?_⟩
    obtain ⟨s, hs, rfl⟩ := map_eq_some_iff.mp hrecorded
    obtain ⟨w, hw⟩ := hbind'.canonical
    have ht : b.canonicalJson = some (stringify w) := congrArg (Option.map stringify) hw
    have hpasses : node.Passes (node.sha256 s) b ↔
        node.sha256 (stringify w) = node.sha256 s := by
      simp [Node.Passes, Node.hashJson, ht, hexEqual, node.sha256_hex]
    rw [hpasses, ← htexts, hs, ht, some_inj]
    exact ⟨fun h => (hfree s _ hs ht h.symm), fun h => by rw [h]⟩

/-! ### A property that is lost -/

/-- A printed value is known by what is printed. -/
def Known (v : Parsed) : Prop := ∀ w, Printed v → Printed w → v.value = w.value → v = w

theorem known_items (ih : ∀ item ∈ items, Known item) (hprinted : PrintedItems items)
    (hprinted' : PrintedItems items') (h : itemValues items = itemValues items') :
    items = items' := by
  induction items generalizing items' with
  | nil =>
    cases items' with
    | nil => rfl
    | cons item' rest' => cases h
  | cons item rest ihrest =>
    cases items' with
    | nil => cases h
    | cons item' rest' =>
      obtain ⟨hhead, htail⟩ := cons.inj h
      rw [ih item mem_cons_self item' hprinted.1 hprinted'.1 hhead,
        ihrest (fun other hother => ih other (mem_cons_of_mem _ hother)) hprinted.2
          hprinted'.2 htail]

theorem known_members (ih : ∀ m ∈ members, Known m.2) (hprinted : PrintedMembers members)
    (hprinted' : PrintedMembers members') (h : memberValues members = memberValues members') :
    members = members' := by
  induction members generalizing members' with
  | nil =>
    cases members' with
    | nil => rfl
    | cons m' rest' => cases h
  | cons m rest ihrest =>
    cases members' with
    | nil => cases h
    | cons m' rest' =>
      obtain ⟨hhead, htail⟩ := cons.inj h
      obtain ⟨hkey, hvalue⟩ := Prod.ext_iff.mp hhead
      have hitem : m.2 = m'.2 := ih m mem_cons_self m'.2 hprinted.2.1 hprinted'.2.1 hvalue
      have hm : m = m' := Prod.ext hkey hitem
      rw [hm, ihrest (fun other hother => ih other (mem_cons_of_mem _ hother))
        hprinted.2.2 hprinted'.2.2 htail]

theorem known (v : Parsed) : Known v := by
  induction v using Parsed.induct with
  | null | bool b | str s =>
    intro w _ hw h
    rcases w with _ | _ | n | _ | _ | _
    case num => rcases n with y | _ | _ <;> cases h
    all_goals cases h
    all_goals rfl
  | num m =>
    intro w hv hw h
    rcases m with x | _ | _
    case negativeZero => exact hv.elim
    case infinite => exact hv.elim
    rcases w with _ | _ | n | _ | _ | _
    case num =>
      rcases n with y | _ | _
      · rw [numeral_inj (Json.Value.num.inj h)]
      · exact hw.elim
      · exact hw.elim
    all_goals cases h
  | arr items ih =>
    intro w hv hw h
    rcases w with _ | _ | n | _ | items' | _
    case num => rcases n with y | _ | _ <;> cases h
    case arr => rw [known_items ih hv hw (Json.Value.arr.inj h)]
    all_goals cases h
  | obj members ih =>
    intro w hv hw h
    rcases w with _ | _ | n | _ | _ | members'
    case num => rcases n with y | _ | _ <;> cases h
    case obj => rw [known_members ih hv.2 hw.2 (Json.Value.obj.inj h)]
    all_goals cases h

theorem Printed.inOrder (h : Printed v) : InOrder v.value := by
  induction v using Parsed.induct with
  | null | bool b | str s => trivial
  | num n => rcases n with x | _ | _ <;> trivial
  | arr items ih =>
    change InOrderElements (itemValues items)
    induction items with
    | nil => trivial
    | cons item rest ihrest =>
      exact ⟨ih item mem_cons_self h.1,
        ihrest (fun other hother => ih other (mem_cons_of_mem _ hother)) h.2⟩
  | obj members ih =>
    have hordered : Ordered (memberValues members) := by
      rw [memberValues_eq]
      exact pairwise_map.mpr h.1
    refine ⟨hordered, inOrderMembers_iff.mpr fun m hm => ?_⟩
    rw [memberValues_eq] at hm
    obtain ⟨n, hn, rfl⟩ := mem_map.mp hm
    obtain ⟨hkey, hitem⟩ := printedMembers_iff.mp h.2 n hn
    exact ⟨hkey, ih n hn hitem⟩

open Classical in
/-- The value that a text has been printed for. -/
noncomputable def printedFor (text : Bytes) : Option Parsed :=
  if h : ∃ v : Parsed, Printed v ∧ stringify v.value = text then some h.choose else none

theorem printedFor_stringify (v : Parsed) (hprinted : Printed v) :
    printedFor (stringify v.value) = some v := by
  have hex : ∃ w : Parsed, Printed w ∧ stringify w.value = stringify v.value := ⟨v, hprinted, rfl⟩
  unfold printedFor
  rw [dif_pos hex]
  obtain ⟨hchosen, heq⟩ := hex.choose_spec
  rw [known _ v hchosen hprinted (stringify_injOn hchosen.inOrder.defined
    hprinted.inOrder.defined heq)]

def emptyHash : String := "44136fa355b3678a1146ad16f7e8649e94fb4fc21fe77e8310c060f61caaff8a"

def pairHash : String := "777fd7cd7406c9292c68b3a96618c04974c9823714b5625f200e8dc3eb5d6bf0"

/-- The hashes of two texts. -/
def sampleHash (text : Bytes) : JsString :=
  if text = str "\x7b\x7d" then js emptyHash
  else if text = str "\x7b\"a\":null,\"b\":true\x7d" then js pairHash
  else js (String.ofList (replicate 64 '0'))

theorem sampleHash_hex (text : Bytes) : hex64 (sampleHash text) = true := by
  unfold sampleHash
  split_ifs <;> decide +kernel

noncomputable def sampleNode : Node where
  sha256 := sampleHash
  sha256_hex := sampleHash_hex
  parse := printedFor
  number _ := True
  parse_printed := fun v _ => printedFor_stringify v

def pair : Parsed := .obj [(js "b", .bool true), (js "a", .null)]

def swapped : Parsed := .obj [(js "a", .null), (js "b", .bool true)]

theorem collisionFree_of_eq {node : Node} {a b : Parsed}
    (h : a.canonicalJson = b.canonicalJson) : node.CollisionFree a b := by
  intro s t hs ht _
  rw [hs, ht] at h
  exact some.inj h

theorem content_bound_pair : sampleNode.Binds true pair swapped := by
  have hpair : Proper sampleNode.number pair :=
    ⟨by decide +kernel, by decide +kernel, trivial, by decide +kernel, nofun, trivial, trivial⟩
  have hswapped : Proper sampleNode.number swapped :=
    ⟨by decide +kernel, by decide +kernel, trivial, by decide +kernel, nofun, trivial, trivial⟩
  have htexts : pair.canonicalJson = swapped.canonicalJson := by decide +kernel
  have hb : js "b" ≠ proto := by decide +kernel
  have ha : js "a" ≠ proto := by decide +kernel
  exact (content_bound_iff sampleNode true hpair hswapped (collisionFree_of_eq htexts)).mpr
    ⟨⟨hb, trivial, ha, trivial, trivial⟩, ha, trivial, hb, trivial, trivial⟩

def withProto : Parsed := .obj [(proto, .bool true)]

/-- The text of an object with a property `__proto__` is that of the empty one. -/
theorem content_unbound : ¬ ∃ strict, ∀ (node : Node) (a b : Parsed),
    Proper node.number a → Proper node.number b →
      node.CollisionFree a b → node.Binds strict a b := by
  rintro ⟨strict, hclaim⟩
  have hproper : Proper sampleNode.number withProto := ⟨by decide +kernel, nofun, trivial, trivial⟩
  have htexts : withProto.canonicalJson = (Parsed.obj []).canonicalJson := by decide +kernel
  have hbinds := hclaim sampleNode withProto (.obj []) hproper trivial (collisionFree_of_eq htexts)
  obtain ⟨⟨⟨item, hitem, -⟩, -⟩, -⟩ := hbinds.1.mp htexts
  exact not_mem_nil hitem

end Ds4Studio.Evolution.Integrity

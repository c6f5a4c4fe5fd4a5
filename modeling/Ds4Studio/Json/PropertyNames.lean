import Ds4Studio.Json.Canonical
import Mathlib.Tactic.Ring

/-!
The names of properties as JavaScript orders them. Where no two code units of a name make up one
code point, the place in the order says which name it is.
-/

namespace Ds4Studio.Json

open List

/-! ### Code units -/

def units (s : JsString) : List ℕ := s.flatMap fun cp => codeUnits cp.val

/-- No two code points of the string are the halves of one. -/
def Paired (s : JsString) : Prop :=
  s.IsChain fun a b => ¬ (0xd800 ≤ a.val ∧ a.val ≤ 0xdbff ∧ 0xdc00 ≤ b.val ∧ b.val ≤ 0xdfff)

instance (s : JsString) : Decidable (Paired s) := by
  unfold Paired
  infer_instance

variable {a : Fin 0x110000}

theorem Paired.tail {s : JsString} (h : Paired (a :: s)) : Paired s := by
  cases s with
  | nil => exact List.IsChain.nil
  | cons b s => exact (isChain_cons_cons.mp h).2

theorem units_narrow (h : a.val < 0x10000) (s : JsString) : units (a :: s) = a.val :: units s := by
  rw [units, flatMap_cons, codeUnits, if_pos h]
  rfl

theorem units_wide (h : ¬ a.val < 0x10000) (s : JsString) :
    units (a :: s) = (0xd800 + (a.val - 0x10000) / 0x400) ::
      (0xdc00 + (a.val - 0x10000) % 0x400) :: units s := by
  rw [units, flatMap_cons, codeUnits, if_neg h]
  rfl

variable {s t : JsString}

/-- A code point of two code units does not begin as a pair of others. -/
theorem units_mixed {b : Fin 0x110000} (ht : Paired (b :: t))
    (ha : ¬ a.val < 0x10000) (hb : b.val < 0x10000) : units (a :: s) ≠ units (b :: t) := by
  intro heq
  rw [units_wide ha, units_narrow hb, cons.injEq] at heq
  obtain ⟨hhigh, hrest⟩ := heq
  cases t with
  | nil => cases hrest
  | cons c t =>
    have hnot := (isChain_cons_cons.mp ht).1
    by_cases hc : c.val < 0x10000
    · rw [units_narrow hc] at hrest
      have hlow := (cons.inj hrest).1
      omega
    · rw [units_wide hc] at hrest
      have hlow := (cons.inj hrest).1
      omega

theorem units_inj (hs : Paired s) (ht : Paired t) (h : units s = units t) :
    s = t := by
  have hnil : ∀ (a : Fin 0x110000) (u : JsString), units (a :: u) ≠ [] := by
    intro a u
    by_cases ha : a.val < 0x10000
    · rw [units_narrow ha]
      exact cons_ne_nil _ _
    · rw [units_wide ha]
      exact cons_ne_nil _ _
  induction s generalizing t with
  | nil =>
    cases t with
    | nil => rfl
    | cons b t => exact absurd h.symm (hnil b t)
  | cons a s ih =>
    cases t with
    | nil => exact absurd h (hnil a s)
    | cons b t =>
      by_cases ha : a.val < 0x10000
      · by_cases hb : b.val < 0x10000
        · rw [units_narrow ha, units_narrow hb, cons.injEq] at h
          rw [Fin.ext h.1, ih hs.tail ht.tail h.2]
        · exact absurd h.symm (units_mixed hs hb ha)
      · by_cases hb : b.val < 0x10000
        · exact absurd h (units_mixed ht ha hb)
        · rw [units_wide ha, units_wide hb, cons.injEq, cons.injEq] at h
          obtain ⟨hhigh, hlow, hrest⟩ := h
          have hab : a.val = b.val := by omega
          rw [Fin.ext hab, ih hs.tail ht.tail hrest]

/-! ### Indices -/

def decimal (n : ℕ) (digits : List ℕ) : ℕ := digits.foldl (fun n d => 10 * n + d) n

theorem decimal_bounds {digits : List ℕ} (h : ∀ d ∈ digits, d < 10) (n : ℕ) :
    n * 10 ^ digits.length ≤ decimal n digits ∧
      decimal n digits < (n + 1) * 10 ^ digits.length := by
  induction digits generalizing n with
  | nil => simp [decimal]
  | cons d digits ih =>
    obtain ⟨hge, hlt⟩ := ih (fun e he => h e (mem_cons_of_mem _ he)) (10 * n + d)
    have hd := h d mem_cons_self
    rw [length_cons]
    change n * (10 ^ digits.length * 10) ≤ decimal (10 * n + d) digits ∧
      decimal (10 * n + d) digits < (n + 1) * (10 ^ digits.length * 10)
    constructor
    · calc n * (10 ^ digits.length * 10) = (10 * n) * 10 ^ digits.length := by ring
        _ ≤ (10 * n + d) * 10 ^ digits.length := Nat.mul_le_mul_right _ (Nat.le_add_right _ _)
        _ ≤ _ := hge
    · calc decimal (10 * n + d) digits < (10 * n + d + 1) * 10 ^ digits.length := hlt
        _ ≤ (10 * (n + 1)) * 10 ^ digits.length := Nat.mul_le_mul_right _ (by omega)
        _ = _ := by ring

theorem decimal_inj {ds es : List ℕ} (hd : ∀ d ∈ ds, d < 10) (he : ∀ e ∈ es, e < 10)
    (hlength : ds.length = es.length) {m n : ℕ} (h : decimal m ds = decimal n es) :
    m = n ∧ ds = es := by
  induction ds generalizing es m n with
  | nil =>
    rw [length_nil, eq_comm, length_eq_zero_iff] at hlength
    subst hlength
    exact ⟨h, rfl⟩
  | cons d ds ih =>
    cases es with
    | nil => cases hlength
    | cons e es =>
      have hrest : 10 * m + d = 10 * n + e ∧ ds = es :=
        ih (fun x hx => hd x (mem_cons_of_mem _ hx))
          (fun x hx => he x (mem_cons_of_mem _ hx)) (by simpa using hlength) h
      have hdlt := hd d mem_cons_self
      have helt := he e mem_cons_self
      have hde : d = e := by omega
      exact ⟨by omega, by rw [hrest.2, hde]⟩

/-- Digits without a zero in front, unless it is the only one. -/
def Plain (digits : List ℕ) : Prop :=
  (∀ d ∈ digits, d < 10) ∧ digits ≠ [] ∧ (digits.head? = some 0 → digits.length = 1)

theorem Plain.length_le {ds es : List ℕ} (hd : Plain ds) (he : Plain es)
    (h : decimal 0 ds = decimal 0 es) : es.length ≤ ds.length := by
  by_contra hlonger
  obtain ⟨hdigits, hne, hlead⟩ := he
  obtain ⟨e, es, rfl⟩ := exists_cons_of_ne_nil hne
  have hpos : 1 ≤ ds.length := length_pos_of_ne_nil hd.2.1
  have hfirst : e ≠ 0 := by
    rintro rfl
    have := hlead rfl
    omega
  have hmost := (decimal_bounds hd.1 0).2
  have hleast := (decimal_bounds (fun x hx => hdigits x (mem_cons_of_mem _ hx)) (10 * 0 + e)).1
  have hpow : 10 ^ ds.length ≤ 10 ^ es.length :=
    Nat.pow_le_pow_right (by decide) (by rw [length_cons] at hlonger; omega)
  have hvalue : decimal 0 (e :: es) = decimal (10 * 0 + e) es := rfl
  have hmany : 10 ^ es.length ≤ (10 * 0 + e) * 10 ^ es.length := Nat.le_mul_of_pos_left _ (by omega)
  omega

theorem Plain.eq {ds es : List ℕ} (hd : Plain ds) (he : Plain es)
    (h : decimal 0 ds = decimal 0 es) : ds = es :=
  (decimal_inj hd.1 he.1 (le_antisymm (he.length_le hd h.symm) (hd.length_le he h)) h).2

theorem digits_of_mapM {s : JsString} {digits : List ℕ}
    (h : s.mapM (fun cp => digitOf cp.val) = some digits) :
    (∀ d ∈ digits, d < 10) ∧ s.map Fin.val = digits.map (0x30 + ·) := by
  induction s generalizing digits with
  | nil =>
    cases h
    exact ⟨fun d hd => absurd hd not_mem_nil, rfl⟩
  | cons cp s ih =>
    rw [mapM_cons] at h
    obtain ⟨d, hd, h⟩ := Option.bind_eq_some_iff.mp h
    obtain ⟨ds, hds, h⟩ := Option.bind_eq_some_iff.mp h
    cases h
    obtain ⟨hsmall, hmap⟩ := ih hds
    unfold digitOf at hd
    split_ifs at hd with hrange
    cases hd
    refine ⟨fun e he => ?_, ?_⟩
    · rcases mem_cons.mp he with rfl | he
      · omega
      · exact hsmall e he
    · rw [map_cons, map_cons, hmap, Nat.add_sub_cancel' hrange.1]

theorem indexOf_inj {n : ℕ} (hs : indexOf s = some n) (ht : indexOf t = some n) :
    s = t := by
  have hplain : ∀ {u : JsString}, indexOf u = some n → ∃ digits, Plain digits ∧
      u.map Fin.val = digits.map (0x30 + ·) ∧ decimal 0 digits = n := by
    intro u hu
    unfold indexOf at hu
    split at hu
    case h_1 => cases hu
    case h_2 => cases hu
    case h_3 => cases hu
    case h_4 digits hnil hzero hmap =>
      dsimp only at hu
      split_ifs at hu
      cases hu
      obtain ⟨hsmall, heq⟩ := digits_of_mapM hmap
      refine ⟨digits, ⟨hsmall, hnil, fun hhead => ?_⟩, heq, rfl⟩
      cases digits with
      | nil => cases hhead
      | cons d rest =>
        cases rest with
        | nil => rfl
        | cons e rest =>
          cases hhead
          exact absurd rfl (hzero e rest)
  obtain ⟨ds, hds, hsmap, hvalue⟩ := hplain hs
  obtain ⟨es, hes, htmap, hvalue'⟩ := hplain ht
  have hsame := hds.eq hes (hvalue.trans hvalue'.symm)
  exact map_injective_iff.mpr (fun _ _ => Fin.ext) (hsmap.trans (hsame ▸ htmap.symm))

/-! ### The order of names -/

theorem propertyKey_inj (hs : Paired s) (ht : Paired t)
    (h : propertyKey s = propertyKey t) : s = t := by
  unfold propertyKey at h
  split at h
  case h_1 m hm =>
    split at h
    case h_1 n hn =>
      have hsame : m = n := by simpa using h
      exact indexOf_inj hm (hsame ▸ hn)
    case h_2 => cases h
  case h_2 =>
    split at h
    case h_1 => cases h
    case h_2 => exact units_inj hs ht (cons.inj h).2

end Ds4Studio.Json

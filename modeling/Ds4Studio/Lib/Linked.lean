import Mathlib.Data.List.Induction

/-!
Doubly linked lists threaded through a store. The order of the nodes is a list,
and the two edits write only the links next to a node. An index beside such a
list finds each node under its key.
-/

namespace Ds4Studio.Linked

open List Function

/-- The links of every node, and the two ends. -/
structure Links (P : Type*) where
  prev : P → Option P
  next : P → Option P
  head : Option P
  tail : Option P

variable {P : Type*} [DecidableEq P] {s : Links P} {a b l : List P} {e : P}

/-- What the links say when the nodes are those of `l`, in that order. -/
structure Links.Holds (s : Links P) (l : List P) : Prop where
  nodup : l.Nodup
  head : s.head = l.head?
  tail : s.tail = l.getLast?
  link : ∀ a e b, l = a ++ e :: b → s.prev e = a.getLast? ∧ s.next e = b.head?

def Links.linkHead (s : Links P) (e : P) : Links P :=
  let prev := update s.prev e none
  let next := update s.next e s.head
  match s.head with
  | some h => ⟨update prev h (some e), next, some e, s.tail⟩
  | none => ⟨prev, next, some e, some e⟩

def Links.bypassNext (s : Links P) (e : P) : Links P :=
  match s.prev e with
  | some p => { s with next := update s.next p (s.next e) }
  | none => { s with head := s.next e }

def Links.bypassPrev (s : Links P) (e : P) : Links P :=
  match s.next e with
  | some n => { s with prev := update s.prev n (s.prev e) }
  | none => { s with tail := s.prev e }

def Links.unlink (s : Links P) (e : P) : Links P :=
  let s := (s.bypassNext e).bypassPrev e
  { s with prev := update s.prev e none, next := update s.next e none }

theorem Links.Holds.linkHead (h : s.Holds l) (hnew : e ∉ l) : (s.linkHead e).Holds (e :: l) := by
  have hhead := h.head
  have hnodup := nodup_cons.mpr ⟨hnew, h.nodup⟩
  cases l with
  | nil =>
    have hnone : s.head = none := hhead
    refine ⟨hnodup, by simp [Links.linkHead, hnone], by simp [Links.linkHead, hnone], ?_⟩
    intro a f b hsplit
    obtain ⟨rfl, rfl, rfl⟩ : a = [] ∧ e = f ∧ b = [] := by cases a <;> simp_all
    simp [Links.linkHead, hnone]
  | cons first rest =>
    have hfirst : s.head = some first := hhead
    have hne : e ≠ first := fun heq => hnew (heq ▸ mem_cons_self)
    refine ⟨hnodup, by simp [Links.linkHead, hfirst], ?_, ?_⟩
    · simp only [Links.linkHead, hfirst, getLast?_cons_cons]
      exact h.tail
    intro a f b hsplit
    cases a with
    | nil =>
      obtain ⟨rfl, rfl⟩ := cons.inj hsplit
      simp [Links.linkHead, hfirst, update_of_ne hne]
    | cons node a =>
      obtain ⟨rfl, htail⟩ := cons.inj hsplit
      obtain ⟨hprev, hnext⟩ := h.link a f b htail
      have hf : f ∈ first :: rest := htail ▸ mem_append_right a mem_cons_self
      have hfe : f ≠ e := fun heq => hnew (heq ▸ hf)
      simp only [Links.linkHead, hfirst, update_of_ne hfe]
      refine ⟨?_, hnext⟩
      cases a with
      | nil =>
        obtain ⟨rfl, -⟩ := cons.inj htail
        simp
      | cons second a =>
        obtain ⟨rfl, hrest⟩ := cons.inj htail
        have hff : f ≠ first := fun heq =>
          (nodup_cons.mp h.nodup).1 (heq ▸ hrest ▸ mem_append_right a
            mem_cons_self)
        rw [update_of_ne hff, update_of_ne hfe, hprev, getLast?_cons_cons]

omit [DecidableEq P] in
theorem split_append {c d : List P} {f : P} (h : a ++ b = c ++ f :: d) :
    (∃ front, c = a ++ front ∧ b = front ++ f :: d) ∨
      ∃ back, a = c ++ f :: back ∧ d = back ++ b := by
  rcases append_eq_append_iff.mp h with ⟨front, hc, hb⟩ | ⟨back, ha, hd⟩
  · exact .inl ⟨front, hc, hb⟩
  · cases back with
    | nil => exact .inl ⟨[], by rw [ha]; simp, hd.symm⟩
    | cons x back =>
      obtain ⟨rfl, rfl⟩ := cons.inj hd
      exact .inr ⟨back, ha, rfl⟩

theorem Links.unlink_spec {p n : Option P} (hprev : s.prev e = p) (hnext : s.next e = n)
    (hp : p ≠ some e) :
    (s.unlink e).head = (if p = none then n else s.head) ∧
      (s.unlink e).tail = (if n = none then p else s.tail) ∧
      ∀ f, f ≠ e →
        (s.unlink e).prev f = (if n = some f then p else s.prev f) ∧
          (s.unlink e).next f = (if p = some f then n else s.next f) := by
  unfold Links.unlink Links.bypassPrev Links.bypassNext
  rw [hprev]
  cases p with
  | none =>
    rw [hnext, hprev]
    cases n <;> simp +contextual [update_apply, eq_comm]
  | some p =>
    have hne : e ≠ p := fun heq => hp (heq ▸ rfl)
    simp only [update_of_ne hne, hnext, hprev]
    cases n <;> simp +contextual [update_apply, eq_comm]

theorem Links.Holds.unlink (h : s.Holds (a ++ e :: b)) : (s.unlink e).Holds (a ++ b) := by
  obtain ⟨hprev, hnext⟩ := h.link a e b rfl
  have hnodup := h.nodup
  rw [nodup_append, nodup_cons] at hnodup
  obtain ⟨ha, ⟨heb, hb⟩, hab⟩ := hnodup
  have hea : e ∉ a := fun hmem => hab e hmem e mem_cons_self rfl
  obtain ⟨hhead, htail, hlink⟩ := Links.unlink_spec hprev hnext
    fun hlast => hea (mem_of_getLast? hlast)
  refine ⟨nodup_append.mpr ⟨ha, hb, fun x hx y hy => hab x hx y (mem_cons_of_mem e hy)⟩, ?_, ?_, ?_⟩
  · rw [hhead, h.head]
    cases a <;> simp
  · rw [htail, h.tail]
    cases b <;> simp
  intro c f d hsplit
  rcases split_append hsplit with ⟨front, rfl, rfl⟩ | ⟨back, rfl, rfl⟩
  · have hf : f ∈ front ++ f :: d := mem_append_right front mem_cons_self
    obtain ⟨hp, hn⟩ := h.link (a ++ e :: front) f d (by simp)
    obtain ⟨hp', hn'⟩ := hlink f fun heq => heb (heq ▸ hf)
    have hlast : a.getLast? ≠ some f := fun hlast =>
      hab f (mem_of_getLast? hlast) f (mem_cons_of_mem e hf) rfl
    rw [hp', hn', if_neg hlast, hn, hp]
    cases front with
    | nil => simp
    | cons x front =>
      have hxf : x ≠ f := fun heq =>
        (nodup_cons.mp hb).1 (heq ▸ mem_append_right front mem_cons_self)
      simp [hxf, getLast?_append]
  · have hf : f ∈ c ++ f :: back := mem_append_right c mem_cons_self
    obtain ⟨hp, hn⟩ := h.link c f (back ++ e :: b) (by simp)
    obtain ⟨hp', hn'⟩ := hlink f fun heq => hea (heq ▸ hf)
    have hfirst : b.head? ≠ some f := fun hfirst =>
      hab f hf f (mem_cons_of_mem e (mem_of_mem_head? hfirst)) rfl
    rw [hp', hn', if_neg hfirst, hn, hp]
    induction back using reverseRecOn with
    | nil => simp
    | append_singleton back x _ =>
      have hfx : f ∉ back ++ [x] := (nodup_cons.mp (nodup_append.mp ha).2.1).1
      have hxf : x ≠ f := fun heq => hfx (heq ▸ mem_append_right back mem_cons_self)
      cases back <;> simp [hxf, getLast?_append, getLast?_cons]

section Index

variable {K : Type*} [DecidableEq K] {f : K → Option P} {key key' : P → K} {k : K} {p : P}

/-- The index finds the nodes of `l`, each under its own key. -/
def Indexes (f : K → Option P) (l : List P) (key : P → K) : Prop :=
  ∀ k p, f k = some p ↔ p ∈ l ∧ key p = k

theorem Indexes.insert (h : Indexes f l key) (hk : f k = none) (hp : p ∉ l) (hkey : key' p = k)
    (hrest : ∀ q ∈ l, key' q = key q) : Indexes (update f k (some p)) (p :: l) key' := by
  intro k' q
  by_cases hqp : q = p
  · subst hqp
    rw [update_apply, hkey]
    split
    · simp_all
    · rename_i hne
      simp only [h k' q, hp, false_and, mem_cons_self, true_and, false_iff]
      exact fun heq => hne heq.symm
  · have hmem : q ∈ p :: l ↔ q ∈ l := by simp [hqp]
    rw [hmem, update_apply]
    split
    · rename_i hkk
      refine ⟨fun heq => absurd (Option.some.inj heq).symm hqp, fun ⟨hq, heq⟩ => ?_⟩
      have := (h k q).mpr ⟨hq, by rw [← hrest q hq, heq, hkk]⟩
      rw [hk] at this
      contradiction
    · rw [h k' q]
      exact and_congr_right fun hq => by rw [hrest q hq]

omit [DecidableEq P] in
theorem Indexes.remove (h : Indexes f l key) (hperm : l.Perm (p :: a)) (hp : p ∉ a) :
    Indexes (update f (key p) none) a key := by
  intro k' q
  have hmem : q ∈ l ↔ q = p ∨ q ∈ a := by rw [hperm.mem_iff, mem_cons]
  rw [update_apply]
  split
  · rename_i hkk
    refine ⟨fun hnone => by contradiction, fun ⟨hq, heq⟩ => absurd ?_ hp⟩
    have hsame := ((h k' q).mpr ⟨hmem.mpr (.inr hq), heq⟩).symm.trans
      ((h k' p).mpr ⟨hperm.mem_iff.mpr mem_cons_self, hkk.symm⟩)
    rwa [← Option.some.inj hsame]
  · rename_i hkk
    rw [h k' q, hmem]
    exact and_congr_left fun heq => or_iff_right fun hqp => hkk (hqp ▸ heq.symm)

end Index

end Ds4Studio.Linked

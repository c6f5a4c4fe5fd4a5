import Ds4Studio.Lib.LittleEndian
import Ds4Studio.Lib.Stateful

/-!
Reading a file of which a given number of bytes belongs to the reader. A read
fails where the allotted bytes or the file are too short, and what it consumes
is specified by the bytes that a writer has put there.
-/

namespace Ds4Studio

open List LittleEndian Stateful

/-- What is left of a file, and how many bytes of it may still be read. -/
structure Input where
  stream : Bytes
  remaining : ℕ

/-- A file that is read as a whole. -/
def Input.ofBytes (b : Bytes) : Input := ⟨b, b.length⟩

abbrev Reader := EStateM String Input

namespace Reader

/-- Reads `n` bytes; `kind` names the payload in the errors. -/
def readBytes (kind : String) (n : ℕ) : Reader Bytes := do
  let i ← get
  reject (i.remaining < n) ("truncated " ++ kind ++ " payload")
  reject (i.stream.length < n) ("failed to read " ++ kind ++ " payload")
  set (⟨i.stream.drop n, i.remaining - n⟩ : Input)
  return i.stream.take n

def readU32 (kind : String) : Reader ℕ := do
  let b ← readBytes kind 4
  return get b

/-- One number for each check; the first number that misses its check is refused. -/
def readChecked (kind refusal : String) : List (ℕ → Bool) → Reader (List ℕ)
  | [] => return []
  | ok :: rest => do
    let n ← readU32 kind
    reject (!ok n) refusal
    let ns ← readChecked kind refusal rest
    return n :: ns

def readWords (kind : String) (n : ℕ) : Reader (List ℕ) :=
  readChecked kind "" (List.replicate n fun _ => true)

/-- The reader succeeds with `a` on exactly the bytes `b`, whatever stands behind them. -/
def Reads {α : Type} (m : Reader α) (b : Bytes) (a : α) : Prop :=
  ∀ rest r, Runs m ⟨b ++ rest, b.length + r⟩ a ⟨rest, r⟩

section Rules

variable {α β : Type} {m : Reader α} {f : α → Reader β} {a : α} {b : β} {x y : Bytes}

theorem reads_pure (a : α) : Reads (pure a) [] a := by
  intro rest r
  simpa using runs_pure a (⟨rest, r⟩ : Input)

theorem reads_reject {bad : Bool} {e : String} (h : bad = false) : Reads (reject bad e) [] () := by
  intro rest r
  simpa using runs_reject h (⟨rest, r⟩ : Input)

theorem Reads.bind (hm : Reads m x a) (hf : Reads (f a) y b) : Reads (m >>= f) (x ++ y) b := by
  intro rest r
  have h := (hm (y ++ rest) (y.length + r)).bind (hf rest r)
  rwa [← append_assoc, ← Nat.add_assoc, ← length_append] at h

theorem Reads.bind_nil (hm : Reads m x a) (hf : Reads (f a) [] b) : Reads (m >>= f) x b := by
  simpa using hm.bind hf

theorem Reads.nil_bind (hm : Reads m [] a) (hf : Reads (f a) y b) : Reads (m >>= f) y b :=
  hm.bind hf

end Rules

variable {kind : String} {n : ℕ}

theorem readBytes_run {i : Input} (hr : n ≤ i.remaining) (hs : n ≤ i.stream.length) :
    Runs (readBytes kind n) i (i.stream.take n) ⟨i.stream.drop n, i.remaining - n⟩ := by
  refine (runs_reject (by simpa using hr) i).bind ?_
  exact (runs_reject (by simpa using hs) i).bind rfl

theorem readBytes_fails {i : Input} (h : i.remaining < n ∨ i.stream.length < n) :
    Fails (readBytes kind n) i := by
  refine fails_bind (runs_get i) ?_
  by_cases hr : i.remaining < n
  · exact (fails_reject (by simpa using hr) i).bind
  · have hs : i.stream.length < n := h.resolve_left hr
    refine fails_bind (runs_reject (by simpa using hr) i) ?_
    exact (fails_reject (by simpa using hs) i).bind

theorem readBytes_runs_iff {i j : Input} {b : Bytes} :
    Runs (readBytes kind n) i b j ↔ n ≤ i.remaining ∧ n ≤ i.stream.length ∧
      b = i.stream.take n ∧ j = ⟨i.stream.drop n, i.remaining - n⟩ := by
  constructor
  · intro h
    have hn : ¬ (i.remaining < n ∨ i.stream.length < n) := fun hf => h.not_fails (readBytes_fails hf)
    have hr : n ≤ i.remaining := by omega
    have hs : n ≤ i.stream.length := by omega
    obtain ⟨hb, hj⟩ := h.unique (readBytes_run hr hs)
    exact ⟨hr, hs, hb, hj⟩
  · rintro ⟨hr, hs, rfl, rfl⟩
    exact readBytes_run hr hs

theorem reads_bytes (kind : String) (b : Bytes) : Reads (readBytes kind b.length) b b := by
  intro rest r
  have h : Runs (readBytes kind b.length) ⟨b ++ rest, b.length + r⟩ _ _ :=
    readBytes_run (Nat.le_add_right b.length r) (by simp)
  simpa using h

theorem reads_u32 (kind : String) (h : n < 2 ^ 32) : Reads (readU32 kind) (put 4 n) n := by
  have hb : Reads (readBytes kind 4) (put 4 n) (put 4 n) := by
    simpa using reads_bytes kind (put 4 n)
  refine hb.bind_nil ?_
  rw [get_put_of_lt (by simpa using h)]
  exact reads_pure n

variable {oks : List (ℕ → Bool)} {ns : List ℕ}

theorem reads_checked (kind refusal : String)
    (h : List.Forall₂ (fun ok n => ok n = true ∧ n < 2 ^ 32) oks ns) :
    Reads (readChecked kind refusal oks) (ns.flatMap (put 4)) ns := by
  induction h with
  | nil => exact reads_pure []
  | cons hn _ ih =>
    refine (reads_u32 kind hn.2).bind ?_
    refine (reads_reject (by simp [hn.1])).nil_bind ?_
    exact ih.bind_nil (reads_pure _)

theorem reads_words (kind : String) (h : ∀ n ∈ ns, n < 2 ^ 32) :
    Reads (readWords kind ns.length) (ns.flatMap (put 4)) ns := by
  refine reads_checked kind "" ?_
  induction ns with
  | nil => exact .nil
  | cons n ns ih =>
    refine .cons ⟨rfl, h n (mem_cons_self ..)⟩ ?_
    exact ih fun m hm => h m (mem_cons_of_mem _ hm)

/-- On numbers that a writer has put there, the reader asks for nothing but the checks. -/
theorem ends_checked {refusal : String} {rest : Bytes} {r : ℕ} {Q : List ℕ → Input → Prop}
    (hlen : oks.length = ns.length) (hlt : ∀ n ∈ ns, n < 2 ^ 32) :
    Ends (readChecked kind refusal oks)
        ⟨ns.flatMap (put 4) ++ rest, (ns.flatMap (put 4)).length + r⟩ Q ↔
      List.Forall₂ (fun ok n => ok n = true) oks ns ∧ Q ns ⟨rest, r⟩ := by
  induction oks generalizing ns Q with
  | nil =>
    obtain rfl := length_eq_zero_iff.mp hlen.symm
    have hnil := reads_pure ([] : List ℕ) rest r
    rw [show readChecked kind refusal [] = pure [] from rfl,
      show ([] : List ℕ).flatMap (put 4) = [] from rfl, ends_iff hnil]
    simp
  | cons ok oks ih =>
    cases ns with
    | nil => cases hlen
    | cons n ns =>
      have hn := reads_u32 kind (hlt n (mem_cons_self ..)) (ns.flatMap (put 4) ++ rest)
        ((ns.flatMap (put 4)).length + r)
      have hns : ∀ m ∈ ns, m < 2 ^ 32 := fun m hm => hlt m (mem_cons_of_mem _ hm)
      rw [flatMap_cons, append_assoc, length_append, Nat.add_assoc]
      unfold readChecked
      rw [ends_runs_bind hn, ends_bind, ends_reject, ends_bind, ih (by simpa using hlen) hns,
        ends_iff (runs_pure _ _)]
      simp [and_assoc]

theorem readU32_lt {i j : Input} (h : Runs (readU32 kind) i n j) : n < 2 ^ 32 := by
  obtain ⟨b, k, hb, hn⟩ := h.of_bind
  obtain ⟨-, hlen, rfl, -⟩ := readBytes_runs_iff.mp hb
  obtain ⟨rfl, -⟩ := hn.unique (runs_pure _ k)
  have hget := get_lt (i.stream.take 4)
  rw [length_take, Nat.min_eq_left hlen] at hget
  exact hget

theorem readChecked_spec {refusal : String} {i j : Input}
    (h : Runs (readChecked kind refusal oks) i ns j) :
    List.Forall₂ (fun ok n => ok n = true ∧ n < 2 ^ 32) oks ns := by
  induction oks generalizing i j ns with
  | nil =>
    obtain ⟨rfl, -⟩ := h.unique (runs_pure [] i)
    exact .nil
  | cons ok oks ih =>
    obtain ⟨n, k, hn, h⟩ := h.of_bind
    obtain ⟨⟨⟩, k', hok, h⟩ := h.of_bind
    obtain ⟨ms, k'', hms, h⟩ := h.of_bind
    obtain ⟨rfl, -⟩ := h.unique (runs_pure _ k'')
    cases hcheck : ok n with
    | true => exact .cons ⟨hcheck, readU32_lt hn⟩ (ih hms)
    | false => exact absurd (fails_reject (by simp [hcheck]) k) hok.not_fails

end Reader

end Ds4Studio

import Ds4Studio.Kvstore.Budget
import Mathlib.Data.List.Nodup
import Mathlib.Data.Prod.Lex

/-!
Which entries eviction removes. An entry whose file cannot be unlinked ends the loop.
-/

namespace Ds4Studio.Kvstore

open Bytes List

variable {Score : Type*} [LinearOrder Score]

/-- The order in which entries go: the lower score first, and the least recently used
one among equals. -/
def rank (score : Entry → Score) (e : Entry) : Score ×ₗ ℕ := toLex (score e, e.header.lastUsed)

/-- The loop of `ds4_kvstore_evict`: the entries it unlinks. -/
def victims (score : Entry → Score) (unlinks : Entry → Bool) (target : ℕ) :
    ℕ → ℕ → List Entry → List Entry
  | fuel + 1, total, first :: rest =>
      if target < total then
        let victim := pickVictim score first rest
        let left := (first :: rest).filter fun e => e.name ≠ victim.name
        if unlinks victim then
          victim :: victims score unlinks target fuel
            (if victim.fileSize ≤ total then total - victim.fileSize else 0) left
        else victims score unlinks target fuel 0 left
      else []
  | _, _, _ => []

/-- `ds4_kvstore_evict` where not every file can be unlinked. -/
def evicted (score : Entry → Score) (unlinks : Entry → Bool) (kc : Store) (extraBytes : ℕ)
    (entries : List Entry) : List Entry :=
  if kc.enabled = false ∨ kc.budgetBytes = 0 then []
  else if kc.budgetBytes < extraBytes then []
  else
    victims score unlinks (kc.budgetBytes - extraBytes) entries.length
      ((entries.map Entry.fileSize).sum % 2 ^ 64) entries

def Dir.unlinkAll (d : Dir) (gone : List Entry) : Dir := gone.foldl (fun d e => d.unlink e.name) d

variable (score : Entry → Score) (unlinks : Entry → Bool) (target : ℕ)

theorem evictLoop_eq (fuel total : ℕ) (entries : List Entry) (d : Dir) :
    evictLoop score target fuel total entries d =
      d.unlinkAll (victims score (fun _ => true) target fuel total entries) := by
  induction fuel generalizing total entries d with
  | zero => rfl
  | succ fuel ih =>
    cases entries with
    | nil => rfl
    | cons first rest =>
      unfold evictLoop victims
      split
      · exact ih _ _ _
      · rfl

/-- Where every file can be unlinked, this is the directory that eviction leaves. -/
theorem evict_eq (kc : Store) (extraBytes : ℕ) (d : Dir) :
    evict score kc extraBytes d =
      d.unlinkAll (evicted score (fun _ => true) kc extraBytes d.refresh) := by
  unfold evict evicted
  split
  · rfl
  split
  · rfl
  exact evictLoop_eq score _ _ _ _ d

theorem rank_lt {e victim : Entry} :
    (score e < score victim ∨
      (score e = score victim ∧ e.header.lastUsed < victim.header.lastUsed)) ↔
      rank score e < rank score victim := by
  unfold rank
  rw [Prod.Lex.toLex_lt_toLex]

theorem pickVictim_le (first : Entry) (rest : List Entry) :
    ∀ e ∈ first :: rest, rank score (pickVictim score first rest) ≤ rank score e := by
  unfold pickVictim
  simp only [rank_lt]
  induction rest generalizing first with
  | nil => simp
  | cons a rest ih =>
    have hpick := ih (if rank score a < rank score first then a else first)
    rw [foldl_cons]
    have hmin := hpick _ mem_cons_self
    simp only [forall_mem_cons]
    refine ⟨hmin.trans ?_, hmin.trans ?_, fun e he => hpick e (mem_cons_of_mem _ he)⟩
    · split
      · rename_i hlt
        exact hlt.le
      · exact le_rfl
    · split
      · exact le_rfl
      · rename_i hle
        exact not_lt.mp hle

/-- What a run of the loop removes and leaves. -/
structure EvictsLowest (d : Dir) (gone : List Entry) : Prop where
  fits : validBytes (d.unlinkAll gone) ≤ target ∨ ∃ e ∈ (d.unlinkAll gone).refresh,
    unlinks e = false ∧ ∀ f ∈ (d.unlinkAll gone).refresh, rank score e ≤ rank score f
  unlinked : ∀ v ∈ gone, v ∈ d.refresh ∧ unlinks v = true
  lowest : ∀ v ∈ gone, ∀ e ∈ (d.unlinkAll gone).refresh, rank score v ≤ rank score e
  needed : ∀ v, gone.getLast? = some v → target < validBytes (d.unlinkAll gone) + v.fileSize

variable {score unlinks target}

theorem EvictsLowest.nil {d : Dir} (h : validBytes d ≤ target ∨ ∃ e ∈ d.refresh,
    unlinks e = false ∧ ∀ f ∈ d.refresh, rank score e ≤ rank score f) :
    EvictsLowest score unlinks target d [] :=
  ⟨h, by simp, by simp, by simp⟩

theorem mem_refresh_unlink {d : Dir} {name : Bytes} {e : Entry}
    (h : e ∈ (d.unlink name).refresh) : e ∈ d.refresh := by
  rw [Dir.refresh_unlink] at h
  exact mem_of_mem_filter h

theorem mem_refresh_unlinkAll {gone : List Entry} {d : Dir} {e : Entry}
    (h : e ∈ (d.unlinkAll gone).refresh) : e ∈ d.refresh := by
  induction gone generalizing d with
  | nil => exact h
  | cons v gone ih => exact mem_refresh_unlink (ih h)

/-- One round removes the lowest entry in front of what the next rounds remove. -/
theorem EvictsLowest.cons {d : Dir} {v : Entry} {gone : List Entry} (hmem : v ∈ d.refresh)
    (hunlinks : unlinks v = true) (hlowest : ∀ e ∈ d.refresh, rank score v ≤ rank score e)
    (hover : target < validBytes d) (h : EvictsLowest score unlinks target (d.unlink v.name) gone) :
    EvictsLowest score unlinks target d (v :: gone) where
  fits := h.fits
  unlinked := forall_mem_cons.mpr ⟨⟨hmem, hunlinks⟩, fun w hw =>
    ⟨mem_refresh_unlink (h.unlinked w hw).1, (h.unlinked w hw).2⟩⟩
  lowest := forall_mem_cons.mpr ⟨fun e he =>
    hlowest e (mem_refresh_unlink (mem_refresh_unlinkAll he)), h.lowest⟩
  needed := by
    intro w hw
    rw [getLast?_cons, Option.some.injEq] at hw
    cases hlast : gone.getLast? with
    | none =>
      rw [hlast] at hw
      obtain rfl : v = w := hw
      rw [getLast?_eq_none_iff.mp hlast]
      exact hover.trans_eq (validBytes_unlink_entry hmem)
    | some u =>
      rw [hlast] at hw
      obtain rfl : u = w := hw
      exact h.needed u hlast

theorem victims_done {fuel total : ℕ} {entries : List Entry} (h : ¬target < total) :
    victims score unlinks target fuel total entries = [] := by
  unfold victims
  split
  · rw [if_neg h]
  · rfl

theorem victims_lowest (fuel : ℕ) (d : Dir) (hfuel : d.refresh.length ≤ fuel) :
    EvictsLowest score unlinks target d
      (victims score unlinks target fuel (validBytes d) d.refresh) := by
  induction fuel generalizing d with
  | zero =>
    have hnone : d.refresh = [] := length_eq_zero_iff.mp (Nat.le_zero.mp hfuel)
    exact .nil (.inl (by simp [validBytes, hnone]))
  | succ fuel ih =>
    by_cases hover : target < validBytes d
    · cases hentries : d.refresh with
      | nil => exact .nil (.inl (by simp [validBytes, hentries]))
      | cons first rest =>
        have hmem := pickVictim_mem score first rest
        have hlowest := pickVictim_le score first rest
        unfold victims
        simp only [hover, if_true]
        generalize pickVictim score first rest = v at hmem hlowest ⊢
        rw [← hentries] at hmem hlowest ⊢
        have hsize := validBytes_unlink_entry hmem
        cases hunlinks : unlinks v with
        | true =>
          have hlast : validBytes d - v.fileSize = validBytes (d.unlink v.name) := by omega
          simp only [if_true]
          rw [if_pos (by omega), hlast, ← Dir.refresh_unlink]
          refine .cons hmem hunlinks hlowest hover (ih _ ?_)
          have hlt : (d.refresh.filter fun e => e.name ≠ v.name).length < d.refresh.length :=
            length_filter_lt_length_iff_exists.mpr ⟨v, hmem, by simp⟩
          rw [Dir.refresh_unlink]
          omega
        | false =>
          simp only [Bool.false_eq_true, if_false]
          rw [victims_done (Nat.not_lt_zero _)]
          exact .nil (.inr ⟨v, hmem, hunlinks, hlowest⟩)
    · rw [victims_done hover]
      exact .nil (.inl (not_lt.mp hover))

/-- The order of the directory does not matter where no two entries rank equal. -/
theorem victims_perm (fuel total : ℕ) {entries entries' : List Entry}
    (h : entries.Perm entries') (hnodup : (entries.map (rank score)).Nodup) :
    victims score unlinks target fuel total entries' =
      victims score unlinks target fuel total entries := by
  induction fuel generalizing total entries entries' with
  | zero => rfl
  | succ fuel ih =>
    cases entries with
    | nil => rw [h.nil_eq]
    | cons first rest =>
      cases entries' with
      | nil => exact absurd h.symm.nil_eq nofun
      | cons first' rest' =>
        have hmem := h.mem_iff.mpr (pickVictim_mem score first' rest')
        have hrank := le_antisymm (pickVictim_le score first rest _ hmem)
          (pickVictim_le score first' rest' _ (h.mem_iff.mp (pickVictim_mem score first rest)))
        have hsame := inj_on_of_nodup_map hnodup (pickVictim_mem score first rest) hmem hrank
        have hfilter := h.filter fun e => decide (e.name ≠ (pickVictim score first rest).name)
        unfold victims
        rw [← hsame]
        simp only [ih _ hfilter ((filter_sublist.map (rank score)).nodup hnodup)]

/-- Eviction removes the lowest entries, no more than it must, whatever order the
directory lists them in. -/
theorem evicted_lowest {kc : Store} {extraBytes : ℕ} {d : Dir} (henabled : kc.enabled = true)
    (hbudget : kc.budgetBytes ≠ 0) (hextra : extraBytes ≤ kc.budgetBytes)
    (hsum : validBytes d < 2 ^ 64) :
    EvictsLowest score unlinks (kc.budgetBytes - extraBytes) d
      (evicted score unlinks kc extraBytes d.refresh) ∧
    ∀ d' : Dir, d.files.Perm d'.files → (d.refresh.map (rank score)).Nodup →
      evicted score unlinks kc extraBytes d'.refresh =
        evicted score unlinks kc extraBytes d.refresh := by
  have hmod : (d.refresh.map Entry.fileSize).sum % 2 ^ 64 = validBytes d := Nat.mod_eq_of_lt hsum
  unfold evicted
  rw [if_neg (by simp [henabled, hbudget]), if_neg (not_lt.mpr hextra), hmod]
  refine ⟨victims_lowest _ d le_rfl, fun d' hperm hnodup => ?_⟩
  have hentries : d.refresh.Perm d'.refresh := hperm.filterMap scanFile
  rw [if_neg (by simp [henabled, hbudget]), if_neg (not_lt.mpr hextra), ← hentries.length_eq,
    ← (hentries.map Entry.fileSize).sum_nat, hmod]
  exact victims_perm _ _ hentries hnodup

def sixtyBytes : Store := { abStore with budgetBytes := 60 }

theorem evicted_lowest_ab :
    EvictsLowest Entry.textBytes (fun _ => true) 60 abDir [abEntry (str "a")] := by
  have hgone : evicted Entry.textBytes (fun _ => true) sixtyBytes 0 abDir.refresh =
      [abEntry (str "a")] := by
    decide
  rw [← hgone]
  have hsum : validBytes abDir < 2 ^ 64 := by decide
  have hbudget : sixtyBytes.budgetBytes ≠ 0 := by decide
  exact (evicted_lowest rfl hbudget (Nat.zero_le 60) hsum).1

/-- Where all files can be unlinked, the lowest entries are gone from the directory
and evicting again for no more bytes leaves it as it is. -/
theorem evict_settled {kc : Store} {extraBytes : ℕ} {d : Dir} (henabled : kc.enabled = true)
    (hbudget : kc.budgetBytes ≠ 0) (hbits : kc.budgetBytes < 2 ^ 64)
    (hextra : extraBytes ≤ kc.budgetBytes) (hsum : validBytes d < 2 ^ 64) :
    (∃ gone, evict score kc extraBytes d = d.unlinkAll gone ∧
      EvictsLowest score (fun _ => true) (kc.budgetBytes - extraBytes) d gone) ∧
    ∀ more ≤ extraBytes,
      evict score kc more (evict score kc extraBytes d) = evict score kc extraBytes d := by
  refine ⟨⟨_, evict_eq score kc extraBytes d, ?_⟩, fun more hmore => ?_⟩
  · have hmod : (d.refresh.map Entry.fileSize).sum % 2 ^ 64 = validBytes d := Nat.mod_eq_of_lt hsum
    unfold evicted
    rw [if_neg (by simp [henabled, hbudget]), if_neg (not_lt.mpr hextra), hmod]
    exact victims_lowest _ d le_rfl
  · have hle := evict_le score henabled hbudget hextra hsum
    exact evict_of_fits score (by omega) (by omega)

theorem evict_settled_ab :
    evict Entry.textBytes sixtyBytes 0 (evict Entry.textBytes sixtyBytes 0 abDir) =
      evict Entry.textBytes sixtyBytes 0 abDir :=
  (evict_settled rfl (by decide) (by decide) (Nat.zero_le 60) (by decide)).2 0 le_rfl

/-- The entry with the lowest score cannot be unlinked, and the other one stays. -/
theorem evicted_stuck :
    ¬ ∀ (unlinks : Entry → Bool) (kc : Store) (extraBytes : ℕ) (d : Dir),
      extraBytes ≤ kc.budgetBytes →
        let left := d.unlinkAll (evicted Entry.textBytes unlinks kc extraBytes d.refresh)
        validBytes left ≤ kc.budgetBytes - extraBytes ∨ ∀ e ∈ left.refresh, unlinks e = false := by
  intro h
  have hstuck := h (fun e => e.textBytes ≠ 1) sixtyBytes 0 abDir (Nat.zero_le 60)
  revert hstuck
  decide

end Ds4Studio.Kvstore

import Mathlib.Init

/-!
Computations that may fail and keep the state they have reached when they do.
A run is specified by the value and the state a success ends in, or by a
relation between the first and the last state that failures keep as well.
-/

namespace Ds4Studio.Stateful

universe u

variable {ε σ α β : Type u}

/-- The state a run ends in, whether it fails or not. -/
def after (m : EStateM ε σ α) (s : σ) : σ :=
  match m s with
  | .ok _ s' => s'
  | .error _ s' => s'

/-- The run from `s` succeeds with `a` and ends in `s'`. -/
def Runs (m : EStateM ε σ α) (s : σ) (a : α) (s' : σ) : Prop := m s = .ok a s'

/-- The run from `s` fails. -/
def Fails (m : EStateM ε σ α) (s : σ) : Prop := ∃ e s', m s = .error e s'

/-- Refuses to go on where a check fails. -/
def reject {ε σ : Type} (bad : Bool) (e : ε) : EStateM ε σ Unit := if bad then throw e else pure ()

theorem runs_pure (a : α) (s : σ) : Runs (pure a : EStateM ε σ α) s a s := rfl

theorem runs_get (s : σ) : Runs (get : EStateM ε σ σ) s s s := rfl

theorem runs_modify {ε σ : Type} (f : σ → σ) (s : σ) :
    Runs (modify f : EStateM ε σ PUnit) s ⟨⟩ (f s) := rfl

theorem runs_reject {ε σ : Type} {bad : Bool} {e : ε} (h : bad = false) (s : σ) :
    Runs (reject bad e) s () s := by
  rw [h]
  rfl

theorem fails_reject {ε σ : Type} {bad : Bool} {e : ε} (h : bad = true) (s : σ) :
    Fails (reject bad e) s := by
  rw [h]
  exact ⟨e, s, rfl⟩

section Bind

variable {m : EStateM ε σ α} {f : α → EStateM ε σ β} {s s' : σ} {a : α} {b : β}

theorem bind_run (h : Runs m s a s') : (m >>= f) s = f a s' := by
  change EStateM.bind m f s = f a s'
  rw [EStateM.bind, show m s = _ from h]

theorem Runs.bind {s'' : σ} (h : Runs m s a s') (hf : Runs (f a) s' b s'') :
    Runs (m >>= f) s b s'' := by
  unfold Runs
  rw [bind_run h]
  exact hf

theorem Runs.of_bind {s'' : σ} (h : Runs (m >>= f) s b s'') :
    ∃ a s', Runs m s a s' ∧ Runs (f a) s' b s'' := by
  change EStateM.bind m f s = .ok b s'' at h
  unfold EStateM.bind at h
  split at h
  · next a s' hm => exact ⟨a, s', hm, h⟩
  · cases h

theorem Fails.bind (h : Fails m s) : Fails (m >>= f) s := by
  obtain ⟨e, s', h⟩ := h
  refine ⟨e, s', ?_⟩
  change EStateM.bind m f s = _
  rw [EStateM.bind, h]

theorem fails_bind (h : Runs m s a s') (hf : Fails (f a) s') : Fails (m >>= f) s := by
  unfold Fails
  rw [bind_run h]
  exact hf

end Bind

theorem runs_or_fails (m : EStateM ε σ α) (s : σ) : (∃ a s', Runs m s a s') ∨ Fails m s := by
  cases h : m s with
  | ok a s' => exact .inl ⟨a, s', h⟩
  | error e s' => exact .inr ⟨e, s', h⟩

variable {m : EStateM ε σ α} {a : α} {s s' : σ}

theorem Runs.after_eq (h : Runs m s a s') : after m s = s' := by
  unfold after
  rw [show m s = _ from h]

theorem Runs.unique {s s' s'' : σ} {a b : α} (h : Runs m s a s') (h' : Runs m s b s'') :
    a = b ∧ s' = s'' := by
  have hb : EStateM.Result.ok a s' = .ok b s'' := (show m s = _ from h).symm.trans h'
  cases hb
  exact ⟨rfl, rfl⟩

theorem Runs.not_fails (h : Runs m s a s') : ¬ Fails m s := by
  rintro ⟨e, s'', he⟩
  cases (show m s = _ from h).symm.trans he

section Ends

variable {Q : α → σ → Prop}

/-- The run from `s` succeeds, and `Q` holds of its value and the state it ends in. -/
def Ends (m : EStateM ε σ α) (s : σ) (Q : α → σ → Prop) : Prop := ∃ a s', Runs m s a s' ∧ Q a s'

variable {m : EStateM ε σ α}

theorem not_ends {s : σ} (h : Fails m s) : ¬ Ends m s Q := by
  rintro ⟨a, s', hm, -⟩
  exact hm.not_fails h

theorem fails_iff {s : σ} : Fails m s ↔ ¬ Ends m s fun _ _ => True := by
  refine ⟨not_ends, fun h => ?_⟩
  rcases runs_or_fails m s with ⟨a, s', hm⟩ | hm
  · exact absurd ⟨a, s', hm, trivial⟩ h
  · exact hm

theorem ends_iff (h : Runs m s a s') : Ends m s Q ↔ Q a s' := by
  constructor
  · rintro ⟨b, t, hm, hQ⟩
    obtain ⟨rfl, rfl⟩ := h.unique hm
    exact hQ
  · exact fun hQ => ⟨a, s', h, hQ⟩

theorem ends_bind {f : α → EStateM ε σ β} {s : σ} {Q : β → σ → Prop} :
    Ends (m >>= f) s Q ↔ Ends m s fun a s' => Ends (f a) s' Q := by
  constructor
  · rintro ⟨b, s'', h, hQ⟩
    obtain ⟨a, s', hm, hf⟩ := h.of_bind
    exact ⟨a, s', hm, b, s'', hf, hQ⟩
  · rintro ⟨a, s', hm, b, s'', hf, hQ⟩
    exact ⟨b, s'', hm.bind hf, hQ⟩

theorem ends_runs_bind {f : α → EStateM ε σ β} {Q : β → σ → Prop}
    (h : Runs m s a s') : Ends (m >>= f) s Q ↔ Ends (f a) s' Q := by
  rw [ends_bind, ends_iff h]

theorem ends_reject {ε σ : Type} {bad : Bool} {e : ε} {s : σ} {Q : Unit → σ → Prop} :
    Ends (reject bad e) s Q ↔ bad = false ∧ Q () s := by
  cases bad with
  | false => simp [ends_iff (runs_reject rfl s)]
  | true => simpa using not_ends (fails_reject (e := e) rfl s)

theorem Ends.runs (h : Ends m s fun b t => b = a ∧ t = s') : Runs m s a s' := by
  obtain ⟨b, t, hm, rfl, rfl⟩ := h
  exact hm

end Ends

section Zoom

variable {τ : Type u} {look : σ → τ} {put : τ → σ → σ} {m : EStateM ε τ α}

/-- A computation on a part of the state. -/
def zoom (look : σ → τ) (put : τ → σ → σ) (m : EStateM ε τ α) : EStateM ε σ α := fun s =>
  match m (look s) with
  | .ok a t => .ok a (put t s)
  | .error e t => .error e (put t s)

theorem zoom_runs {s : σ} {t : τ} (h : Runs m (look s) a t) :
    Runs (zoom look put m) s a (put t s) := by
  unfold Runs zoom
  rw [show m (look s) = _ from h]

theorem after_zoom (s : σ) : after (zoom look put m) s = put (after m (look s)) s := by
  unfold after zoom
  cases m (look s) <;> rfl

theorem zoom_fails {s : σ} : Fails (zoom look put m) s ↔ Fails m (look s) := by
  unfold Fails zoom
  cases m (look s) <;> simp

theorem ends_zoom {s : σ} {Q : α → σ → Prop} :
    Ends (zoom look put m) s Q ↔ Ends m (look s) fun a t => Q a (put t s) := by
  rcases runs_or_fails m (look s) with ⟨a, t, h⟩ | h
  · rw [ends_iff (zoom_runs h), ends_iff h]
  · constructor
    · exact fun hQ => absurd hQ (not_ends (zoom_fails.mpr h))
    · exact fun hQ => absurd hQ (not_ends h)

end Zoom

section Keeps

variable {R : σ → σ → Prop} {m : EStateM ε σ α} {f : α → EStateM ε σ β}

/-- Every run, failed or not, leads from its first state to a related one. -/
def Keeps (R : σ → σ → Prop) (m : EStateM ε σ α) : Prop := ∀ s, R s (after m s)

theorem Keeps.runs (h : Keeps R m) (hm : Runs m s a s') : R s s' := by
  have hs := h s
  rwa [hm.after_eq] at hs

theorem keeps_pure (hrefl : ∀ s, R s s) (a : α) : Keeps R (pure a : EStateM ε σ α) :=
  fun s => hrefl s

theorem keeps_reject {ε σ : Type} {R : σ → σ → Prop} (hrefl : ∀ s, R s s) (bad : Bool) (e : ε) :
    Keeps R (reject bad e : EStateM ε σ Unit) := by
  intro s
  cases bad <;> exact hrefl s

theorem Keeps.bind (htrans : ∀ {s t u}, R s t → R t u → R s u) (hm : Keeps R m)
    (hf : ∀ a, Keeps R (f a)) : Keeps R (m >>= f) := by
  intro s
  have hs := hm s
  cases h : m s with
  | ok a t =>
    have hbind : after (m >>= f) s = after (f a) t := by
      unfold after
      rw [bind_run h]
    rw [Runs.after_eq h] at hs
    rw [hbind]
    exact htrans hs (hf a t)
  | error e t =>
    have hbind : after (m >>= f) s = after m s := by
      change (match EStateM.bind m f s with | .ok _ s' => s' | .error _ s' => s') = _
      rw [EStateM.bind, after, h]
    rw [hbind]
    exact hs

theorem keeps_forM {ι : Type u} {g : ι → EStateM ε σ PUnit} (hrefl : ∀ s, R s s)
    (htrans : ∀ {s t u}, R s t → R t u → R s u) (l : List ι) (hg : ∀ i ∈ l, Keeps R (g i)) :
    Keeps R (l.forM g) := by
  induction l with
  | nil => exact keeps_pure hrefl _
  | cons i l ih =>
    refine Keeps.bind htrans (hg i (List.mem_cons_self ..)) fun _ => ?_
    exact ih fun j hj => hg j (List.mem_cons_of_mem _ hj)

theorem Keeps.mono {R' : σ → σ → Prop} (h : Keeps R m) (hR : ∀ s t, R s t → R' s t) :
    Keeps R' m := fun s => hR _ _ (h s)

end Keeps

theorem keeps_zoom {τ : Type u} {look : σ → τ} {put : τ → σ → σ} {m : EStateM ε τ α}
    {R : σ → σ → Prop} (h : ∀ s t, R s (put t s)) : Keeps R (zoom look put m) := by
  intro s
  rw [after_zoom]
  exact h s _

section Leaves

variable {m : EStateM ε σ α} {f : α → EStateM ε σ β} {s : σ} {E : σ → Prop}

/-- Where the run from `s` fails, `E` holds of the state it leaves. -/
def Leaves (m : EStateM ε σ α) (s : σ) (E : σ → Prop) : Prop := Fails m s → E (after m s)

theorem leaves_zoom {τ : Type u} {look : σ → τ} {put : τ → σ → σ} {m : EStateM ε τ α}
    (h : Leaves m (look s) fun t => E (put t s)) : Leaves (zoom look put m) s E := by
  intro hf
  rw [after_zoom]
  exact h (zoom_fails.mp hf)

theorem leaves_iff : Leaves m s E ↔ ∀ e s', m s = .error e s' → E s' := by
  unfold Leaves Fails after
  cases h : m s <;> simp

theorem leaves_bind : Leaves (m >>= f) s E ↔
    Leaves m s E ∧ ∀ a s', Runs m s a s' → Leaves (f a) s' E := by
  simp only [leaves_iff]
  change (∀ e s', EStateM.bind m f s = .error e s' → E s') ↔ _
  unfold Runs EStateM.bind
  cases m s with
  | ok a s' => simp
  | error e s' => simp

theorem leaves_runs_bind {s' : σ} (h : Runs m s a s') :
    Leaves (m >>= f) s E ↔ Leaves (f a) s' E := by
  rw [leaves_bind]
  constructor
  · exact fun hboth => hboth.2 a s' h
  · refine fun hf => ⟨fun hfails => absurd hfails h.not_fails, fun b s'' hrun => ?_⟩
    obtain ⟨rfl, rfl⟩ := h.unique hrun
    exact hf

theorem leaves_reject {ε σ : Type} {bad : Bool} {e : ε} {s : σ} {E : σ → Prop} :
    Leaves (reject bad e) s E ↔ (bad = true → E s) := by
  rw [leaves_iff]
  cases bad with
  | false => exact iff_of_true nofun nofun
  | true =>
    refine ⟨fun h _ => h e s rfl, fun h e' s' he => ?_⟩
    cases he
    exact h rfl

theorem leaves_of_runs {s' : σ} (h : Runs m s a s') : Leaves m s E :=
  fun hf => absurd hf h.not_fails

theorem Keeps.leaves {R : σ → σ → Prop} (h : Keeps R m) (hE : ∀ s', R s s' → E s') :
    Leaves m s E := fun _ => hE _ (h s)

theorem Leaves.bind (hm : Leaves m s E) (hf : ∀ a s', Runs m s a s' → Leaves (f a) s' E) :
    Leaves (m >>= f) s E := leaves_bind.mpr ⟨hm, hf⟩

end Leaves

end Ds4Studio.Stateful

import Ds4Studio.Agent.Turn

/-!
What the steps of a turn keep, whatever is to be kept. While a round generates, an invariant may
speak of the worker and of the output that is deferred; a step keeps it if its blocks do.
-/

namespace Ds4Studio.Agent

open Bytes Exit List Tokenizer

variable {σ : Type} {env : TurnEnv} {sm : Stream σ} {w : TurnWorker} {l : Locals σ}
  {idle head done : TurnWorker → Prop} {inside : TurnWorker → Option Bytes → Prop}
  {leaves : Next → Prop}

theorem generate_meets {evalOk : ℕ → Bool} {tokens : List ℤ} (h : inside w l.deferred)
    (haccept : ∀ token ∈ tokens, ∀ w (l : Locals σ), inside w l.deferred →
      inside (acceptToken env sm token w l).1 (acceptToken env sm token w l).2.deferred)
    (hlong : l.maxTokens - l.generated < tokens.length → leaves (.returned 1 w))
    (hfail : ∀ w deferred i, evalOk i = false → inside w deferred → leaves (.returned 1 w)) :
    Meets (generate env sm evalOk tokens w l) (fun x => inside x.1 x.2.deferred) leaves := by
  have hforce : ∀ i w (l : Locals σ), inside w l.deferred →
      Meets (forceTokens env sm evalOk i tokens w l) (fun x => inside x.1 x.2.deferred) leaves := by
    clear hlong h
    induction tokens with
    | nil => exact fun i w l h => h
    | cons token rest ih =>
      intro i w l h
      refine Meets.ite (fun _ => ?_) (fun hok => hfail w _ i (Bool.eq_false_iff.mpr hok) h)
      exact ih (fun t ht => haccept t (mem_cons_of_mem _ ht)) _ _ _
        (haccept token mem_cons_self w l h)
  exact Meets.ite hlong fun _ => hforce 0 w l h

theorem stopFlags_deferred (sm : Stream σ) (l : Locals σ) :
    (stopFlags sm l).1.deferred = l.deferred := by
  unfold stopFlags
  split_ifs <;> rfl

/-- A pass of the loop accepts the sampled token, or the tokens that are forced in its place. -/
theorem sampleStep_meets (inside : TurnWorker → Option Bytes → Prop) {interrupt : Bool}
    {token : ℤ} {evalOk : ℕ → Bool} (h : inside w l.deferred)
    (haccept : ∀ t, (t = token ∧ token ≠ env.base.vocab.eosId ∨ t ∈ forcedTokens env ∧
        (sm.offer l.stream (tokenText env.base.vocab token)).2 = true) →
      ∀ w (l : Locals σ), inside w l.deferred →
        inside (acceptToken env sm t w l).1 (acceptToken env sm t w l).2.deferred)
    (hlong : (sm.offer l.stream (tokenText env.base.vocab token)).2 = true →
      l.maxTokens - l.generated < (forcedTokens env).length → leaves (.returned 1 w))
    (hfail : ∀ w deferred i, evalOk i = false → inside w deferred → leaves (.returned 1 w)) :
    Meets (sampleStep env sm interrupt token evalOk w l) (fun x => inside x.1 x.2.1.deferred)
      leaves := by
  have hafter : ∀ x : TurnWorker × Locals σ, inside x.1 x.2.deferred →
      inside x.1 (stopFlags sm x.2).1.deferred := by
    intro x hx
    rw [stopFlags_deferred]
    exact hx
  refine Meets.ite (fun _ => h) (fun hroom => ?_)
  refine Meets.ite (fun _ => h) (fun htoken => ?_)
  refine Meets.ite (fun _ => h) (fun _ => ?_)
  refine Meets.ite (fun hoffered => ?_) (fun _ => ?_)
  · exact Meets.bind (generate_meets h (fun t ht => haccept t (.inr ⟨ht, hoffered⟩))
      (hlong hoffered) hfail) hafter
  · refine Meets.bind (generate_meets h (fun t ht => haccept t (.inl ⟨mem_singleton.mp ht, htoken⟩))
      (fun hlong => ?_) hfail) hafter
    have hnone : l.maxTokens - l.generated < 1 := hlong
    omega

/-- From the end of a round the turn goes on, or it is interrupted. -/
theorem roundEnd_holds {f : Finish}
    (hinterrupted : done (((rendererWrites w l.deferred (sm.finish l.stream).2).1.pushEos env
      ).publish [.status (str "Stopped by user")]))
    (hafter : f.interrupted = false →
      Meets (afterMessage env f (verdict env sm l (sm.finish l.stream).1)
        ((rendererWrites w l.deferred (sm.finish l.stream).2).1.pushEos env)) head
          (Next.Holds head done)) :
    (roundEnd env sm f l w).Holds head done := by
  simp only [roundEnd]
  split
  · exact hinterrupted
  · rename_i hgoes
    have hmeets := hafter (Bool.eq_false_iff.mpr hgoes)
    split
    · rename_i heq
      rw [heq] at hmeets
      exact hmeets
    · rename_i heq
      rw [heq] at hmeets
      exact hmeets

/-- What holds of the worker, by where the turn stands. -/
def TurnState.Holds (idle head : TurnWorker → Prop) (inside : TurnWorker → Option Bytes → Prop)
    (done : TurnWorker → Prop) (st : TurnState σ) : Prop :=
  match st.control with
  | .idle => idle st.worker
  | .head _ => head st.worker
  | .decode _ l | .ended _ l => inside st.worker l.deferred
  | .returned _ => done st.worker

theorem leave_holds {toolRound : ℕ} {next : Next} (h : next.Holds head done) :
    (leave toolRound next : TurnState σ).Holds idle head inside done := by
  cases next with
  | head w => exact h
  | returned rc w => exact h

theorem turnStep_holds {st : TurnState σ} {input : Input} (h : st.Holds idle head inside done)
    (hbegin : ∀ user date r, idle st.worker →
      (beginTurn env user date r st.worker).Holds head done)
    (hround : ∀ toolRound r sync, st.control = .head toolRound → input = .round r sync →
      head st.worker → Meets (roundHead env sm toolRound r sync st.worker)
        (fun x => inside x.1 x.2.deferred) (Next.Holds head done))
    (hsample : ∀ toolRound l interrupt token evalOk, st.control = .decode toolRound l →
      input = .sample interrupt token evalOk → inside st.worker l.deferred →
        Meets (sampleStep env sm interrupt token evalOk st.worker l)
          (fun x => inside x.1 x.2.1.deferred) (Next.Holds head done))
    (hfinish : ∀ toolRound l f, st.control = .ended toolRound l → input = .finish f →
      inside st.worker l.deferred → (roundEnd env sm f l st.worker).Holds head done) :
    (turnStep env sm st input).Holds idle head inside done := by
  obtain ⟨control, w⟩ := st
  unfold turnStep
  split
  · rename_i user date r hcontrol
    cases hcontrol
    exact leave_holds (hbegin user date r h)
  · rename_i toolRound r sync hcontrol
    cases hcontrol
    have hmeets := hround toolRound r sync rfl rfl h
    split
    · rename_i heq
      rw [heq] at hmeets
      exact hmeets
    · rename_i heq
      rw [heq] at hmeets
      exact leave_holds hmeets
  · rename_i toolRound l interrupt token evalOk hcontrol
    cases hcontrol
    have hmeets := hsample toolRound l interrupt token evalOk rfl rfl h
    split
    · rename_i w' l' stop heq
      rw [heq] at hmeets
      cases stop
      · exact hmeets
      · exact hmeets
    · rename_i heq
      rw [heq] at hmeets
      exact leave_holds hmeets
  · rename_i toolRound l f hcontrol
    cases hcontrol
    exact leave_holds (hfinish toolRound l f rfl rfl h)
  · exact h

end Ds4Studio.Agent

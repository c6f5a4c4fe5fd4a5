import Ds4Studio.Agent.Origins

/-!
The commands of the runtime that load and drop a skill. Each replaces the prompt of the
skill, then saves the session if it is dirty and starts it again from the new system
prompt, and both can fail.
-/

namespace Ds4Studio.Agent.SkillCommand

open Bytes Tokenizer

inductive SkillPrompt where
  | metacognition | soul | ethic | structural | sage
deriving DecidableEq

inductive AgentSlashCommand where
  | metacognition | soul | ethic | sagePol | sage

/-- The prompt that the branch of a command replaces. -/
def AgentSlashCommand.prompt : AgentSlashCommand → SkillPrompt
  | .metacognition => .metacognition
  | .soul => .soul
  | .ethic => .ethic
  | .sagePol | .sage => .sage

/-- What the commands read and change of the worker. -/
structure SkillWorker where
  prompts : SkillPrompt → Option Bytes
  defaultSkillsEnabled : Bool
  transcript : List ℤ
  userActivity : Bool
  sessionDirty : Bool

/-! ### The system prompt -/

/-- A skill between the markers of its policy. -/
def policy (name : String) (text : Bytes) : Bytes :=
  str "[BEGIN DS4 " ++ str name ++ str " POLICY]\n" ++ text ++
    (if text ≠ [] ∧ text.getLast? ≠ some 0x0a then str "\n" else []) ++
    str "[END DS4 " ++ str name ++ str " POLICY]"

/-- `agent_build_default_skills_block` -/
def agentBuildDefaultSkillsBlock (prompts : SkillPrompt → Option Bytes) : Bytes :=
  policy "DEFAULT SOUL" ((prompts .soul).getD []) ++ str "\n\n" ++
    policy "DEFAULT ETHIC" ((prompts .ethic).getD []) ++ str "\n\n" ++
    policy "STRUCTURE" ((prompts .structural).getD [])

def appendBlock (b block : Bytes) : Bytes := b ++ (if b = [] then [] else str "\n\n") ++ block

/-- `agent_worker_build_system_text`; the text is empty where it returns none. -/
def agentWorkerBuildSystemText (base : Bytes) (w : SkillWorker) : Bytes :=
  let anyDefault := [SkillPrompt.soul, .ethic, .structural].map fun p => (w.prompts p).isSome
  if w.defaultSkillsEnabled = true ∧ anyDefault.all id = false then []
  else
    let b := match w.prompts .metacognition with
      | some text => appendBlock base (policy "OPTIONAL METACOGNITION" text)
      | none => base
    let b := if anyDefault.any id then appendBlock b (agentBuildDefaultSkillsBlock w.prompts) else b
    match w.prompts .sage with
    | some text => appendBlock b (policy "SAGE" text)
    | none => b

/-- `agent_worker_build_system_tokens`, where the base of the system text stands for
what was given on the command line. -/
def systemTokens (v : Vocab) (prompts : Prompts) (setup : Setup) (w : SkillWorker) : List ℤ :=
  buildSystemTokens v prompts { setup with extra := agentWorkerBuildSystemText setup.extra w }

/-! ### The commands -/

/-- How reading the skill, saving and prefilling come out. -/
structure Outcomes where
  content : Option Bytes
  saves : Bool
  renders : Bool
  loaded : Option (List ℤ)
  syncs : Bool

inductive Failure where
  | unread | inactive | unsaved | notReset

variable (v : Vocab) (prompts : Prompts) (setup : Setup) (o : Outcomes)

/-- `runtime_command_save_if_dirty` -/
def runtimeCommandSaveIfDirty (w : SkillWorker) : Option SkillWorker :=
  if w.userActivity && w.sessionDirty then
    if o.saves then some { w with sessionDirty := false } else none
  else some w

/-- `agent_worker_reset_to_sysprompt`: whether it succeeds, and the worker it leaves. -/
def agentWorkerResetToSysprompt (w : SkillWorker) : Bool × SkillWorker :=
  if o.renders then
    match o.loaded with
    | some tokens =>
        (true, { w with transcript := tokens, userActivity := false, sessionDirty := false })
    | none =>
        let w := { w with transcript := systemTokens v prompts setup w }
        if o.syncs then (true, { w with userActivity := false, sessionDirty := false }) else (false, w)
  else (false, w)

/-- What follows a new prompt. -/
def saveAndReset (w : SkillWorker) : Option Failure × SkillWorker :=
  match runtimeCommandSaveIfDirty o w with
  | none => (some .unsaved, w)
  | some w =>
      match agentWorkerResetToSysprompt v prompts setup o w with
      | (true, w) => (none, w)
      | (false, w) => (some .notReset, w)

def SkillWorker.replace (w : SkillWorker) (p : SkillPrompt) (content : Option Bytes) :
    SkillWorker :=
  { w with prompts := Function.update w.prompts p content }

/-- `ds4_agent_runtime_command` for the start or the stop of a skill. -/
def runtimeCommand (c : AgentSlashCommand) (start : Bool) (w : SkillWorker) :
    Option Failure × SkillWorker :=
  if start then
    match o.content with
    | none => (some .unread, w)
    | some content => saveAndReset v prompts setup o (w.replace c.prompt (some content))
  else
    match w.prompts c.prompt with
    | none => (some .inactive, w)
    | some _ => saveAndReset v prompts setup o (w.replace c.prompt none)

/-- The prompts and the transcript are those from before. -/
def Unchanged (w w' : SkillWorker) : Prop := w'.prompts = w.prompts ∧ w'.transcript = w.transcript

/-- A start reads no skill, or the one that is loaded already, and what fails then
leaves the transcript alone or finds the system prompt in it. -/
def Harmless (c : AgentSlashCommand) (start : Bool) (w : SkillWorker) : Prop :=
  start = true ∧ (o.content = none ∨ o.content = w.prompts c.prompt ∧
    ((w.userActivity = true ∧ w.sessionDirty = true ∧ o.saves = false) ∨ o.renders = false ∨
      systemTokens v prompts setup w = w.transcript))

variable {v prompts setup o} {w w' : SkillWorker}

theorem saveIfDirty_eq_none : runtimeCommandSaveIfDirty o w = none ↔
    w.userActivity = true ∧ w.sessionDirty = true ∧ o.saves = false := by
  unfold runtimeCommandSaveIfDirty
  cases w.userActivity <;> cases w.sessionDirty <;> cases o.saves <;> simp

theorem saveIfDirty_eq_some (h : runtimeCommandSaveIfDirty o w = some w') :
    w'.prompts = w.prompts ∧ w'.defaultSkillsEnabled = w.defaultSkillsEnabled ∧
      w'.transcript = w.transcript := by
  unfold runtimeCommandSaveIfDirty at h
  split_ifs at h
  all_goals
    obtain rfl := Option.some.inj h
    exact ⟨rfl, rfl, rfl⟩

theorem resetToSysprompt_failed (h : (agentWorkerResetToSysprompt v prompts setup o w).1 = false) :
    (agentWorkerResetToSysprompt v prompts setup o w).2.prompts = w.prompts ∧
      ((agentWorkerResetToSysprompt v prompts setup o w).2.transcript = w.transcript ↔
        o.renders = false ∨ systemTokens v prompts setup w = w.transcript) := by
  unfold agentWorkerResetToSysprompt at h ⊢
  cases hrenders : o.renders with
  | false => simp
  | true =>
    cases hloaded : o.loaded with
    | some tokens => simp [hrenders, hloaded] at h
    | none =>
      cases hsyncs : o.syncs with
      | true => simp [hrenders, hloaded, hsyncs] at h
      | false => simp

theorem saveAndReset_failed {f : Failure} (h : (saveAndReset v prompts setup o w).1 = some f) :
    (saveAndReset v prompts setup o w).2.prompts = w.prompts ∧
      ((saveAndReset v prompts setup o w).2.transcript = w.transcript ↔
        (w.userActivity = true ∧ w.sessionDirty = true ∧ o.saves = false) ∨ o.renders = false ∨
          systemTokens v prompts setup w = w.transcript) := by
  unfold saveAndReset at h ⊢
  cases hsaved : runtimeCommandSaveIfDirty o w with
  | none => exact ⟨rfl, iff_of_true rfl (.inl (saveIfDirty_eq_none.mp hsaved))⟩
  | some u =>
    obtain ⟨hprompts, hdefaults, htranscript⟩ := saveIfDirty_eq_some hsaved
    have hsaves := saveIfDirty_eq_none.not.mp (hsaved ▸ Option.some_ne_none u)
    have hsystem : systemTokens v prompts setup u = systemTokens v prompts setup w := by
      simp only [systemTokens, agentWorkerBuildSystemText, hprompts, hdefaults]
    simp only [hsaved] at h ⊢
    cases hreset : agentWorkerResetToSysprompt v prompts setup o u with
    | mk done u' =>
      cases done with
      | true => simp [hreset] at h
      | false =>
        have hfailed := resetToSysprompt_failed (congrArg Prod.fst hreset)
        rw [hreset, hprompts, htranscript, hsystem] at hfailed
        rwa [or_iff_right hsaves]

/-- After a failure the skills and the session are those from before exactly where the
command was harmless. -/
theorem runtimeCommand_unchanged {c : AgentSlashCommand} {start : Bool} {f : Failure}
    (hfail : (runtimeCommand v prompts setup o c start w).1 = some f) (hactive : f ≠ .inactive) :
    Unchanged w (runtimeCommand v prompts setup o c start w).2 ↔
      Harmless v prompts setup o c start w := by
  unfold runtimeCommand at hfail ⊢
  unfold Unchanged Harmless
  cases start with
  | false =>
    simp only [Bool.false_eq_true, if_false, false_and, iff_false] at hfail ⊢
    cases hloaded : w.prompts c.prompt with
    | none =>
      rw [hloaded] at hfail
      exact absurd (Option.some.inj hfail).symm hactive
    | some content =>
      simp only [hloaded] at hfail ⊢
      intro hsame
      have hnone := congrFun (hsame.1.symm.trans (saveAndReset_failed hfail).1) c.prompt
      simp [SkillWorker.replace, hloaded] at hnone
  | true =>
    simp only [if_true, true_and] at hfail ⊢
    cases hcontent : o.content with
    | none => simp
    | some content =>
      simp only [hcontent] at hfail ⊢
      obtain ⟨hprompts, htranscript⟩ := saveAndReset_failed hfail
      have hreplace : (w.replace c.prompt (some content)).prompts = w.prompts ↔
          some content = w.prompts c.prompt := Function.update_eq_self_iff
      rw [hprompts, hreplace, show w.transcript = (w.replace c.prompt (some content)).transcript
        from rfl, htranscript]
      simp only [reduceCtorEq, false_or]
      refine and_congr_right fun hsame => ?_
      have hself : w.replace c.prompt (some content) = w := by simp [SkillWorker.replace, hsame]
      rw [hself]

def sampleWorker : SkillWorker :=
  ⟨Function.update (fun _ => none) .soul (some (str "Be kind.")), false, [7], true, true⟩

def unsavable : Outcomes := ⟨some (str "Be kind."), false, true, none, true⟩

theorem runtimeCommand_unchanged_again : Unchanged sampleWorker
    (runtimeCommand sampleEnv.vocab ⟨[], []⟩ ⟨false, [], []⟩ unsavable .soul true sampleWorker).2 :=
  (runtimeCommand_unchanged (f := .unsaved) rfl nofun).mpr
    ⟨rfl, .inr ⟨rfl, .inl ⟨rfl, rfl, rfl⟩⟩⟩

/-- A stop whose save fails drops the skill all the same. -/
theorem runtimeCommand_changed :
    ¬ ∀ (v : Vocab) (prompts : Prompts) (setup : Setup) (o : Outcomes) (c : AgentSlashCommand)
      (start : Bool) (w : SkillWorker) (f : Failure),
      (runtimeCommand v prompts setup o c start w).1 = some f → f ≠ .inactive →
        Unchanged w (runtimeCommand v prompts setup o c start w).2 := by
  intro h
  have hsame := (h sampleEnv.vocab ⟨[], []⟩ ⟨false, [], []⟩ unsavable .soul false sampleWorker
    .unsaved rfl nofun).1
  have hsoul : none = some (str "Be kind.") := congrFun hsame .soul
  cases hsoul

end Ds4Studio.Agent.SkillCommand

import Mathlib.Data.List.Infix

/-!
A session over an arbitrary target model. The graph is described by the list of
tokens whose raw rows, compressed rows and compressor frontiers it holds; a step
that fails half way leaves it in a state that no list describes, and so does a
token written at a position other than the next one.
-/

namespace Ds4Studio.Session

variable {Tok Log : Type*}

/-- The logits after a list of tokens, and the token greedy decoding picks from logits. -/
structure Target (Tok Log : Type*) where
  logits : List Tok → Log
  top : Log → Tok

/-- What a session keeps between calls. -/
structure State (Tok Log : Type*) where
  checkpoint : List Tok
  checkpointValid : Bool
  graph : Option (List Tok)
  logits : Option Log
  mtpDraft : Option Tok

/-- Checkpoint, graph and logits belong to the same list of tokens. -/
structure State.Describes (T : Target Tok Log) (s : State Tok Log) : Prop where
  graph : s.graph = some s.checkpoint
  logits : s.logits = some (T.logits s.checkpoint)

/-- The graph after a token at a position. -/
def decodeAt (graph : Option (List Tok)) (pos : ℕ) (token : Tok) : Option (List Tok) :=
  match graph with
  | some held => if held.length = pos then some (held ++ [token]) else none
  | none => none

@[simp] theorem decodeAt_length (held : List Tok) (token : Tok) :
    decodeAt (some held) held.length token = some (held ++ [token]) := by
  simp [decodeAt]

/-- `ds4_session_eval_internal` on a session without `s->distributed`. The draft is what the draft
model proposes behind the token, if it is asked and succeeds. -/
def sessionEval (T : Target Tok Log) (ok : Bool) (draft : Option Tok) (s : State Tok Log)
    (token : Tok) : Bool × State Tok Log :=
  if ok then
    let graph := decodeAt s.graph s.checkpoint.length token
    (true, { s with
      checkpoint := s.checkpoint ++ [token]
      graph := graph
      logits := graph.map T.logits
      mtpDraft := draft })
  else
    (false, { s with checkpointValid := false, graph := none, logits := none, mtpDraft := none })

theorem sessionEval_describes {T : Target Tok Log} {s : State Tok Log} (hs : s.Describes T)
    (draft : Option Tok) (token : Tok) : (sessionEval T true draft s token).2.Describes T := by
  constructor <;> simp [sessionEval, hs.graph]

/-! ### Greedy decoding -/

/-- Every token is the greedy choice behind the ones in front of it. -/
def Greedy (T : Target Tok Log) : List Tok → List Tok → Prop
  | _, [] => True
  | held, t :: rest => t = T.top (T.logits held) ∧ Greedy T (held ++ [t]) rest

/-- A target whose next token is the number of tokens so far. -/
def countTarget : Target ℕ ℕ where
  logits := List.length
  top := id

end Ds4Studio.Session

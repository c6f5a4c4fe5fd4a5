import Ds4Studio.Tokenizer.RenderedChat

/-!
The tokens a chat message appends. Only the tags of a message are control tokens; its
content is tokenized as plain text, and the tag that closes a tool result is escaped in it.
-/

namespace Ds4Studio.Agent

open Bytes Tokenizer

inductive Role where
  | system | developer | assistant | tool | function | user
deriving DecidableEq

def toolResultStart : Bytes := str "<tool_result>"
def toolResultEnd : Bytes := str "</tool_result>"

/-- The loop of `bpe_tokenize_tool_result_text`, over the span read since the last
escaped tag and the text from the pointer on. -/
def toolResultLoop (v : Vocab) : Bytes → Bytes → List ℤ
  | span, [] => tokenizeSpan v span
  | span, c :: rest =>
      if toolResultEnd <+: c :: rest then
        tokenizeSpan v span ++ bpeTokenizeText v (str "&lt;") ++ toolResultLoop v [] rest
      else toolResultLoop v (span ++ [c]) rest

def bpeTokenizeToolResultText (v : Vocab) (content : Bytes) : List ℤ := toolResultLoop v [] content

/-- What `ds4_chat_append_message` appends. -/
def chatAppendMessage (v : Vocab) (role : Role) (content : Bytes) : List ℤ :=
  match role with
  | .system | .developer => bpeTokenizeText v content
  | .assistant =>
      v.assistantId ::
        (if ¬ thinkStart <+: content ∧ ¬ thinkEnd <+: content then [v.thinkEndId] else []) ++
        bpeTokenizeText v content
  | .tool | .function =>
      v.userId :: bpeTokenizeText v toolResultStart ++ bpeTokenizeToolResultText v content ++
        bpeTokenizeText v toolResultEnd
  | .user => v.userId :: bpeTokenizeText v content

/-- What `ds4_chat_append_assistant_prefix` appends. -/
def chatAppendAssistantPrefix (v : Vocab) (think : Bool) : List ℤ :=
  [v.assistantId, if think then v.thinkStartId else v.thinkEndId]

theorem chatAppendMessage_tool_ne_nil (v : Vocab) (content : Bytes) :
    chatAppendMessage v .tool content ≠ [] := by
  simp [chatAppendMessage]

end Ds4Studio.Agent

import Ds4Studio.Dsml.Parse
import Mathlib.Data.List.Forall2

/-!
The prompt renderer of tool calls, and what the generated-text parser makes of
its output. A pair of an argument object becomes a typed parameter; the parser
reads back the key and the value of every parameter, one by one, and the calls of
a rendered block in their order.
-/

namespace Ds4Studio.Dsml

open Bytes Json List Option Search

/-- The calls of a message, with the block they were sampled as if it is known. -/
structure ToolCalls where
  v : List ToolCall
  rawDsml : Option Bytes

def appendDsmlArg (a : JsonArg) : Bytes :=
  dsml.paramStart ++ str " name=\"" ++ appendDsmlAttrEscaped a.key ++ str "\" string=\"" ++
    (if a.isString then str "true" else str "false") ++ str "\">" ++
    (if a.isString then appendDsmlParameterText a.value else appendDsmlJsonLiteral a.value) ++
    dsml.paramEnd ++ str "\n"

/-- The pairs named by a schema order first, each once, then the others. -/
def orderArgs : List Bytes → List JsonArg → List JsonArg
  | [], args => args
  | prop :: order, args =>
      match args.find? fun a => a.key = prop with
      | none => orderArgs order args
      | some a => a :: orderArgs order (args.erase a)

def appendDsmlArgumentsFromJson (json : Bytes) (order : Option (List Bytes)) : Option Bytes :=
  (jsonArgsParse json).map fun args => (orderArgs (order.getD []) args).flatMap appendDsmlArg

def appendDsmlInvoke (call : ToolCall) : Bytes :=
  dsml.invokeStart ++ str " name=\"" ++ appendDsmlAttrEscaped call.name ++ str "\">\n" ++
    (appendDsmlArgumentsFromJson call.arguments none).getD
      (dsml.paramStart ++ str " name=\"arguments\" string=\"true\">" ++
        appendDsmlParameterText call.arguments ++ dsml.paramEnd ++ str "\n") ++
    dsml.invokeEnd ++ str "\n"

def appendDsmlToolCallsText (calls : ToolCalls) : Bytes :=
  if calls.v = [] then []
  else
    match calls.rawDsml with
    | some (c :: raw) => c :: raw
    | _ => str "\n\n" ++ dsml.toolCallsStart ++ str "\n" ++ calls.v.flatMap appendDsmlInvoke ++
        dsml.toolCallsEnd

/-- The pair the parser returns for a rendered pair: a closing tag inside a value
that is no string keeps its JSON escape. -/
def renderedArg (a : JsonArg) : JsonArg :=
  { a with value := if a.isString then a.value else appendDsmlJsonLiteral a.value }

variable {a : JsonArg}

theorem renderedArg_read (ha : a.Read) : (renderedArg a).Read := by
  refine ⟨ha.key, fun hs => ?_, fun hs => ?_, fun hs => ?_⟩
  · simpa [renderedArg, show a.isString = true from hs] using ha.string hs
  · have hs' : a.isString = false := hs
    simpa [renderedArg, hs', appendDsmlJsonLiteral] using
      (ha.compact hs').mask paramEnd_shape (forall_of_all (by decide))
  · have hs' : a.isString = false := hs
    obtain ⟨d, t, hv, -⟩ := (ha.compact hs').head
    have hd := ha.unquoted hs'
    simp only [renderedArg, hs', Bool.false_eq_true, if_false, hv, appendDsmlJsonLiteral, mask]
    split
    · rw [show str "\\u003c" = 0x5c :: str "u003c" from rfl, cons_append, head?_cons]
      decide
    · simpa [hv] using hd

/-- The strings for which the escaper of parameter text and the unescaper agree,
under keys that cannot be taken for the string attribute. -/
def Plain (a : JsonArg) : Prop :=
  a.isString = true → (∀ e ∈ entities, ¬ e.1 <:+: a.value) ∧ ¬ str "string=" <:+ a.key

instance (a : JsonArg) : Decidable (Plain a) :=
  inferInstanceAs (Decidable (a.isString = true →
    (∀ e ∈ entities, ¬ e.1 <:+: a.value) ∧ ¬ str "string=" <:+ a.key))

/-! ### Tags -/

theorem openTag_written {start front : Bytes} (hstart : start <+: front)
    (hfront : (0x3e : UInt8) ∉ front) (rest : Bytes) :
    openTag start (front ++ 0x3e :: rest) = some (front ++ [0x3e], rest) := by
  have hcut := @cut_append_headed UInt8 _ [0x3e] front
    ⟨0x3e, [], rfl, by simp⟩ (by simpa [singleton_infix_iff] using hfront) rest
  rw [append_assoc, singleton_append] at hcut
  simp [openTag, hstart.trans (prefix_append _ _), hcut]

theorem dsmlAttr_written {name front raw : Bytes} (hname : Headed (name ++ [0x3d, 0x22]))
    (hfront : ¬ name ++ [0x3d, 0x22] <:+: front) (hraw : (0x22 : UInt8) ∉ raw) (rest : Bytes) :
    dsmlAttr (front ++ (name ++ [0x3d, 0x22]) ++ (raw ++ 0x22 :: rest)) name =
      some (dsmlUnescapeText raw) := by
  have hcut := @cut_append_headed UInt8 _ [0x22] raw
    ⟨0x22, [], rfl, by simp⟩ (by simpa [singleton_infix_iff] using hraw) rest
  rw [append_assoc, singleton_append] at hcut
  simp only [dsmlAttr, cut_append_headed hname hfront, hcut, map_some]

theorem quote_not_mem_attr (s : Bytes) : (0x22 : UInt8) ∉ appendDsmlAttrEscaped s :=
  fun h => (attr_safe _ h).1 rfl

/-- The tag of a rendered pair without its closing bracket. -/
def paramTag (a : JsonArg) : Bytes :=
  dsml.paramStart ++ str " name=\"" ++ appendDsmlAttrEscaped a.key ++ str "\" string=\"" ++
    (if a.isString then str "true" else str "false") ++ [0x22]

theorem paramTag_name (a : JsonArg) :
    paramTag a ++ [0x3e] =
      (dsml.paramStart ++ [0x20]) ++ (str "name" ++ [0x3d, 0x22]) ++
        (appendDsmlAttrEscaped a.key ++ 0x22 ::
          (str " string=\"" ++ (if a.isString then str "true" else str "false") ++ [0x22, 0x3e])) := by
  rw [paramTag, show str " name=\"" = [0x20] ++ (str "name" ++ [0x3d, 0x22]) from rfl,
    show str "\" string=\"" = 0x22 :: str " string=\"" from rfl]
  simp only [append_assoc, cons_append, nil_append]

theorem paramTag_string (a : JsonArg) :
    paramTag a ++ [0x3e] =
      ((dsml.paramStart ++ str " name=") ++ 0x22 :: (appendDsmlAttrEscaped a.key ++ [0x22, 0x20])) ++
        (str "string" ++ [0x3d, 0x22]) ++
        ((if a.isString then str "true" else str "false") ++ 0x22 :: [0x3e]) := by
  rw [paramTag, show str " name=\"" = str " name=" ++ [0x22] from rfl,
    show str "\" string=\"" = [0x22, 0x20] ++ (str "string" ++ [0x3d, 0x22]) from rfl]
  simp only [append_assoc, cons_append, nil_append]

theorem name_paramTag (a : JsonArg) : dsmlAttr (paramTag a ++ [0x3e]) (str "name") = some a.key := by
  have hunescape := dsmlUnescapeText_attr a.key []
  simp only [append_nil, dsmlUnescapeText_nil] at hunescape
  rw [paramTag_name, dsmlAttr_written ⟨_, _, rfl, by decide⟩ (by decide)
    (quote_not_mem_attr a.key), hunescape]

/-- In front of the string attribute its pattern can only be completed by the
quote that ends the key. -/
theorem string_in_key {k : Bytes} (h : str "string=" ++ [0x22] <:+:
      (dsml.paramStart ++ str " name=") ++ 0x22 :: (k ++ [0x22, 0x20]))
    (hk : (0x22 : UInt8) ∉ k) : str "string=" <:+ k := by
  rcases infix_concat_append_cons (by decide) (by decide) h with h | h
  · exact absurd h (by decide)
  · rcases infix_concat_append_cons (by decide) hk h with h | h
    · exact h
    · exact absurd h (by decide)

theorem attr_suffix_string {k : Bytes} (h : str "string=" <:+ appendDsmlAttrEscaped k) :
    str "string=" <:+ k :=
  attr_suffix (forall_of_all (by decide)) h

theorem string_paramTag (h : ¬ str "string=" <:+ a.key) :
    dsmlAttr (paramTag a ++ [0x3e]) (str "string") =
      some (if a.isString then str "true" else str "false") := by
  rw [paramTag_string, dsmlAttr_written ⟨_, _, rfl, by decide⟩]
  · cases a.isString <;> rfl
  · exact fun hin => h (attr_suffix_string (string_in_key hin (quote_not_mem_attr a.key)))
  · cases a.isString <;> decide

/-- A key that ends like the string attribute hides it, and the type read in its
place is not `true`. -/
theorem string_paramTag_hidden {k : Bytes} (h : a.key = k ++ str "string=") :
    dsmlAttr (paramTag a ++ [0x3e]) (str "string") = some (str " string=") := by
  have hkey : appendDsmlAttrEscaped a.key = appendDsmlAttrEscaped k ++ str "string=" := by
    rw [h, appendDsmlAttrEscaped, flatMap_append]
    rfl
  have hsplit : paramTag a ++ [0x3e] =
      ((dsml.paramStart ++ str " name=") ++ 0x22 :: appendDsmlAttrEscaped k) ++
        (str "string" ++ [0x3d, 0x22]) ++
        (str " string=" ++ 0x22 ::
          ((if a.isString then str "true" else str "false") ++ [0x22, 0x3e])) := by
    rw [paramTag_string, hkey]
    simp only [append_assoc, cons_append, nil_append]
    rfl
  have hfront : ¬ str "string" ++ [0x3d, 0x22] <:+:
      (dsml.paramStart ++ str " name=") ++ 0x22 :: appendDsmlAttrEscaped k := by
    intro hin
    rcases infix_concat_append_cons (q := str "string=") (by decide) (by decide) hin with hin | hin
    · exact absurd hin (by decide)
    · exact quote_not_mem_attr k (hin.subset (by decide))
  rw [hsplit, dsmlAttr_written ⟨_, _, rfl, by decide⟩ hfront (by decide)]
  rfl

theorem type_paramTag (ha : Plain a) :
    ∃ type, dsmlAttr (paramTag a ++ [0x3e]) (str "string") = some type ∧
      (type = str "true" ↔ a.isString = true) := by
  by_cases h : str "string=" <:+ a.key
  · obtain ⟨k, hk⟩ := h
    refine ⟨_, string_paramTag_hidden hk.symm, iff_of_false (by decide) fun hs => ?_⟩
    exact (ha hs).2 ⟨k, hk⟩
  · refine ⟨_, string_paramTag h, ?_⟩
    cases a.isString <;> decide

/-! ### One parameter -/

/-- The text between the tags of a rendered pair. -/
def paramRaw (a : JsonArg) : Bytes :=
  if a.isString then appendDsmlParameterText a.value else appendDsmlJsonLiteral a.value

theorem appendDsmlArg_eq (a : JsonArg) (rest : Bytes) :
    appendDsmlArg a ++ rest = paramTag a ++ 0x3e :: (paramRaw a ++ dsml.paramEnd ++ 0x0a :: rest) := by
  rw [appendDsmlArg, paramTag, paramRaw, show str "\">" = [0x22, 0x3e] from rfl,
    show str "\n" = [0x0a] from rfl]
  simp only [append_assoc, cons_append, nil_append]

theorem not_paramEnd_paramRaw (a : JsonArg) : ¬ dsml.paramEnd <:+: paramRaw a := by
  unfold paramRaw
  split
  · exact not_paramEnd_parameterText _
  · exact not_paramEnd_jsonLiteral _

theorem gt_not_mem_paramTag (a : JsonArg) : (0x3e : UInt8) ∉ paramTag a := by
  have hkey : (0x3e : UInt8) ∉ appendDsmlAttrEscaped a.key := fun h => (attr_safe _ h).2.1 rfl
  have hstart : (0x3e : UInt8) ∉ dsml.paramStart ++ str " name=\"" := by decide
  have htype : (0x3e : UInt8) ∉
      str "\" string=\"" ++ (if a.isString then str "true" else str "false") ++ [0x22] := by
    cases a.isString <;> decide
  simp only [paramTag, mem_append, not_or] at hstart htype hkey ⊢
  exact ⟨⟨⟨⟨hstart, hkey⟩, htype.1.1⟩, htype.1.2⟩, htype.2⟩

theorem toolCallJsonArgsAdd_rendered (hread : a.Read) (ha : Plain a) {type : Bytes}
    (htype : type = str "true" ↔ a.isString = true) (args : Bytes) :
    toolCallJsonArgsAdd args a.key (paramValue type (paramRaw a)) type =
      addArg args (renderedArg a) := by
  cases hs : a.isString with
  | true =>
    have ht := htype.mpr hs
    simp only [toolCallJsonArgsAdd, paramValue, paramRaw, addArg, JsonArg.text, renderedArg, ht, hs,
      if_true, dsmlUnescapeText_parameterText (ha hs).1, append_assoc]
  | false =>
    have ht : type ≠ str "true" := fun h => by simp [htype.mp h] at hs
    have hcompact := (renderedArg_read hread).compact hs
    have hvalue : (renderedArg a).value = appendDsmlJsonLiteral a.value := by simp [renderedArg, hs]
    rw [hvalue] at hcompact
    simp only [toolCallJsonArgsAdd, paramValue, paramRaw, addArg, JsonArg.text, renderedArg, ht, hs,
      if_false, Bool.false_eq_true, hcompact.minify, hcompact.ne_nil, append_assoc]

theorem parseParam_rendered (hread : a.Read) (ha : Plain a) (args rest : Bytes) :
    parseParam dsml (appendDsmlArg a ++ rest) args =
      some (0x0a :: rest, addArg args (renderedArg a)) := by
  have hstart : dsml.paramStart <+: paramTag a := by exact prefix_append _ _
  have hcut := @cut_append_headed _ _ dsml.paramEnd _ ⟨_, _, paramEnd_shape, by decide⟩
    (not_paramEnd_paramRaw a) (0x0a :: rest)
  obtain ⟨type, hstring, htype⟩ := type_paramTag ha
  rw [appendDsmlArg_eq, parseParam, openTag_written hstart (gt_not_mem_paramTag a)]
  simp only [name_paramTag, hstring, hcut, getD_some, reduceCtorEq, false_and, if_false]
  rw [toolCallJsonArgsAdd_rendered hread ha htype]

/-! ### Loops -/

theorem not_invokeEnd_appendDsmlArg (a : JsonArg) (rest : Bytes) :
    ¬ dsml.invokeEnd <+: appendDsmlArg a ++ rest := by
  intro h
  have hshape : appendDsmlArg a ++ rest = 0x3c :: 0xef :: ((appendDsmlArg a ++ rest).drop 2) := rfl
  rw [hshape, show dsml.invokeEnd = 0x3c :: 0x2f :: (dsml.invokeEnd.drop 2) from rfl,
    cons_prefix_cons, cons_prefix_cons] at h
  exact absurd h.2.1 (by decide)

theorem skipWs_appendDsmlArg (a : JsonArg) (rest : Bytes) :
    skipWs (appendDsmlArg a ++ rest) = appendDsmlArg a ++ rest :=
  skipWs_of_not_space (c := 0x3c) (by decide) ((appendDsmlArg a ++ rest).drop 1)

theorem skipWs_marker {marker : Bytes} (h : marker.head? = some 0x3c) (rest : Bytes) :
    skipWs (marker ++ rest) = marker ++ rest := by
  cases marker with
  | nil => simp at h
  | cons c m =>
    simp only [head?_cons, some.injEq] at h
    exact skipWs_of_not_space (by rw [h]; decide) _

theorem paramsLoop_rendered {args : List JsonArg} (hread : ∀ a ∈ args, a.Read)
    (hplain : ∀ a ∈ args, Plain a) (rest : Bytes) {fuel : ℕ} (hfuel : args.length < fuel)
    {p : Bytes} (hp : skipWs p = args.flatMap appendDsmlArg ++ (dsml.invokeEnd ++ rest))
    (acc : Bytes) :
    paramsLoop dsml fuel p acc = some (rest, (args.map renderedArg).foldl addArg acc) := by
  induction args generalizing fuel p acc with
  | nil =>
    obtain ⟨fuel, rfl⟩ : ∃ f, fuel = f + 1 := ⟨fuel - 1, by omega⟩
    simp [paramsLoop, hp]
  | cons a args ih =>
    obtain ⟨fuel, rfl⟩ : ∃ f, fuel = f + 1 := ⟨fuel - 1, by omega⟩
    rw [flatMap_cons, append_assoc] at hp
    have hnext : skipWs (0x0a :: (args.flatMap appendDsmlArg ++ (dsml.invokeEnd ++ rest))) =
        args.flatMap appendDsmlArg ++ (dsml.invokeEnd ++ rest) := by
      cases args with
      | nil => exact skipWs_marker rfl rest
      | cons b args =>
        rw [flatMap_cons, append_assoc]
        exact skipWs_appendDsmlArg b _
    have hrest := ih (fun b hb => hread b (by simp [hb])) (fun b hb => hplain b (by simp [hb]))
      (show args.length < fuel by simpa using hfuel) hnext (addArg acc (renderedArg a))
    simp only [paramsLoop, hp, not_invokeEnd_appendDsmlArg, if_false,
      parseParam_rendered (hread a (by simp)) (hplain a (by simp)), hrest, map_cons,
      foldl_cons]

/-- The call the parser returns for a rendered call. -/
def renderedCall (name : Bytes) (args : List JsonArg) : ToolCall :=
  ⟨name, 0x7b :: (args.map renderedArg).foldl addArg [] ++ [0x7d]⟩

/-- The pairs of the arguments of a call. -/
def callArgs (call : ToolCall) : List JsonArg := (jsonArgsParse call.arguments).getD []

/-- A call whose arguments are an object with plain pairs. -/
def PlainCall (call : ToolCall) : Prop :=
  ∃ args, jsonArgsParse call.arguments = some args ∧ ∀ a ∈ args, Plain a

variable {call : ToolCall}

theorem PlainCall.args (h : PlainCall call) :
    jsonArgsParse call.arguments = some (callArgs call) ∧ (∀ a ∈ callArgs call, a.Read) ∧
      ∀ a ∈ callArgs call, Plain a := by
  obtain ⟨args, hargs, hplain⟩ := h
  have hcall : callArgs call = args := by simp [callArgs, hargs]
  rw [hcall]
  exact ⟨hargs, jsonArgsParse_read hargs, hplain⟩

def invokeTag (name : Bytes) : Bytes :=
  dsml.invokeStart ++ str " name=\"" ++ appendDsmlAttrEscaped name ++ [0x22]

theorem appendDsmlInvoke_eq (h : PlainCall call) (rest : Bytes) :
    appendDsmlInvoke call ++ rest =
      invokeTag call.name ++ 0x3e :: (0x0a :: ((callArgs call).flatMap appendDsmlArg ++
        (dsml.invokeEnd ++ 0x0a :: rest))) := by
  obtain ⟨hargs, -⟩ := h.args
  rw [appendDsmlInvoke, appendDsmlArgumentsFromJson, hargs, invokeTag,
    show str "\">\n" = [0x22, 0x3e, 0x0a] from rfl, show str "\n" = [0x0a] from rfl]
  simp [orderArgs]

theorem name_invokeTag (name : Bytes) :
    dsmlAttr (invokeTag name ++ [0x3e]) (str "name") = some name := by
  have hunescape := dsmlUnescapeText_attr name []
  simp only [append_nil, dsmlUnescapeText_nil] at hunescape
  have hsplit : invokeTag name ++ [0x3e] =
      (dsml.invokeStart ++ [0x20]) ++ (str "name" ++ [0x3d, 0x22]) ++
        (appendDsmlAttrEscaped name ++ 0x22 :: [0x3e]) := by
    rw [invokeTag, show str " name=\"" = [0x20] ++ (str "name" ++ [0x3d, 0x22]) from rfl]
    simp only [append_assoc, cons_append, nil_append]
  rw [hsplit, dsmlAttr_written ⟨_, _, rfl, by decide⟩ (by decide) (quote_not_mem_attr name),
    hunescape]

theorem openTag_invokeTag (name rest : Bytes) :
    openTag dsml.invokeStart (invokeTag name ++ 0x3e :: rest) =
      some (invokeTag name ++ [0x3e], rest) := by
  refine openTag_written ?_ ?_ rest
  · simp only [invokeTag, append_assoc]
    exact prefix_append _ _
  · have hname : (0x3e : UInt8) ∉ appendDsmlAttrEscaped name := fun h => (attr_safe _ h).2.1 rfl
    have hstart : (0x3e : UInt8) ∉ dsml.invokeStart ++ str " name=\"" := by decide
    simp only [invokeTag, mem_append, not_or] at hstart ⊢
    exact ⟨⟨hstart, hname⟩, by decide⟩

theorem appendDsmlArg_ne_nil (a : JsonArg) : appendDsmlArg a ≠ [] :=
  cons_ne_nil 0x3c ((appendDsmlArg a).drop 1)

theorem appendDsmlInvoke_ne_nil (c : ToolCall) : appendDsmlInvoke c ≠ [] :=
  cons_ne_nil 0x3c ((appendDsmlInvoke c).drop 1)

theorem not_toolCallsEnd_invoke (name rest : Bytes) :
    ¬ dsml.toolCallsEnd <+: invokeTag name ++ rest := by
  intro h
  have hshape : invokeTag name ++ rest = 0x3c :: 0xef :: ((invokeTag name ++ rest).drop 2) := rfl
  rw [hshape, show dsml.toolCallsEnd = 0x3c :: 0x2f :: (dsml.toolCallsEnd.drop 2) from rfl,
    cons_prefix_cons, cons_prefix_cons] at h
  exact absurd h.2.1 (by decide)

theorem invokesLoop_rendered {calls : List ToolCall} (hplain : ∀ c ∈ calls, PlainCall c)
    (rest : Bytes) {fuel : ℕ} (hfuel : calls.length < fuel) {p : Bytes}
    (hp : skipWs p = calls.flatMap appendDsmlInvoke ++ (dsml.toolCallsEnd ++ rest)) :
    invokesLoop dsml fuel p =
      some (rest, calls.map fun c => renderedCall c.name (callArgs c)) := by
  induction calls generalizing fuel p with
  | nil =>
    obtain ⟨fuel, rfl⟩ : ∃ f, fuel = f + 1 := ⟨fuel - 1, by omega⟩
    simp [invokesLoop, hp]
  | cons c calls ih =>
    obtain ⟨fuel, rfl⟩ : ∃ f, fuel = f + 1 := ⟨fuel - 1, by omega⟩
    have hc := hplain c (by simp)
    obtain ⟨-, hread, hplainArgs⟩ := hc.args
    rw [flatMap_cons, append_assoc, appendDsmlInvoke_eq hc] at hp
    have hnext : skipWs (0x0a :: (calls.flatMap appendDsmlInvoke ++ (dsml.toolCallsEnd ++ rest))) =
        calls.flatMap appendDsmlInvoke ++ (dsml.toolCallsEnd ++ rest) := by
      cases calls with
      | nil => exact skipWs_marker rfl rest
      | cons b calls =>
        exact skipWs_marker rfl _
    have hrest := ih (fun b hb => hplain b (by simp [hb])) 
      (show calls.length < fuel by simpa using hfuel) hnext
    have hargs : skipWs (0x0a :: ((callArgs c).flatMap appendDsmlArg ++ (dsml.invokeEnd ++
        0x0a :: (calls.flatMap appendDsmlInvoke ++ (dsml.toolCallsEnd ++ rest))))) =
        (callArgs c).flatMap appendDsmlArg ++ (dsml.invokeEnd ++
          0x0a :: (calls.flatMap appendDsmlInvoke ++ (dsml.toolCallsEnd ++ rest))) := by
      cases callArgs c with
      | nil => exact @skipWs_marker dsml.invokeEnd rfl _
      | cons a args =>
        rw [flatMap_cons, append_assoc]
        exact skipWs_appendDsmlArg a _
    have hlen := length_le_flatMap appendDsmlArg_ne_nil (callArgs c)
    have hparams := fun n (hn : (callArgs c).length < n) => paramsLoop_rendered hread hplainArgs
      (0x0a :: (calls.flatMap appendDsmlInvoke ++ (dsml.toolCallsEnd ++ rest))) hn hargs []
    simp only [invokesLoop, hp, not_toolCallsEnd_invoke, if_false, openTag_invokeTag,
      name_invokeTag]
    rw [hparams _ (by simp only [length_cons, length_append]; omega)]
    simp only [hrest, map_some, map_cons, renderedCall]

/-! ### The block -/

theorem blockStart_rendered {content : Bytes} (h : ¬ dsml.toolCallsStart <:+: content)
    (rest : Bytes) :
    blockStart dsml (content ++ (str "\n\n" ++ (dsml.toolCallsStart ++ rest))) =
      some content.length := by
  have hsep : ¬ dsml.toolCallsStart <:+: content ++ str "\n\n" :=
    fun hin => h (infix_of_append_disjoint (by decide) (forall_of_all (by decide)) hin)
  have hfirst := @find_append_headed _ _ dsml.toolCallsStart _ ⟨0x3c, _, rfl, by decide⟩ hsep rest
  obtain ⟨-, -, hearlier⟩ := (find_eq_some_iff _ _ _).mp hfirst
  have hfind : find (str "\n\n" ++ dsml.toolCallsStart)
      (content ++ (str "\n\n" ++ (dsml.toolCallsStart ++ rest))) = some content.length := by
    refine (find_eq_some_iff _ _ _).mpr ⟨by simp, ?_, fun j hj hpre => ?_⟩
    · rw [drop_left]
      exact prefix_append _ _
    · -- the marker of an earlier match would stand in front of the block
      have hlen : (str "\n\n").length = 2 := rfl
      refine hearlier (j + 2) (by simp [hlen]; omega) ?_
      obtain ⟨tail, htail⟩ := hpre
      have hdrop := congrArg (drop 2) htail
      rw [append_assoc, drop_left' hlen] at hdrop
      refine ⟨tail, ?_⟩
      simpa [append_assoc, Nat.add_comm] using hdrop
  simp [blockStart, hfind]

theorem parseGeneratedMessageEx_rendered {calls : ToolCalls} (hne : calls.v ≠ [])
    (hraw : calls.rawDsml.getD [] = []) (hplain : ∀ c ∈ calls.v, PlainCall c) {content : Bytes}
    (hcontent : ¬ dsml.toolCallsStart <:+: content) :
    ∃ g, parseGeneratedMessageEx (content ++ appendDsmlToolCallsText calls) false = some g ∧
      g.calls = calls.v.map fun c => renderedCall c.name (callArgs c) := by
  have htext : appendDsmlToolCallsText calls =
      str "\n\n" ++ (dsml.toolCallsStart ++
        (0x0a :: (calls.v.flatMap appendDsmlInvoke ++ dsml.toolCallsEnd))) := by
    unfold appendDsmlToolCallsText
    rw [if_neg hne]
    split
    · rename_i c raw heq
      simp [heq] at hraw
    · rw [show str "\n" = [0x0a] from rfl]
      simp only [append_assoc, cons_append, nil_append]
  have hblock : findBlock (content ++ appendDsmlToolCallsText calls) =
      some (content.length, dsml) := by
    simp only [findBlock, htext, blockStart_rendered hcontent]
  have hcut : cut dsml.toolCallsStart (appendDsmlToolCallsText calls) =
      some (str "\n\n", 0x0a :: (calls.v.flatMap appendDsmlInvoke ++ dsml.toolCallsEnd)) := by
    rw [htext, ← append_assoc]
    exact cut_append_headed ⟨0x3c, _, rfl, by decide⟩ (by decide) _
  have hws : skipWs (0x0a :: (calls.v.flatMap appendDsmlInvoke ++ dsml.toolCallsEnd)) =
      calls.v.flatMap appendDsmlInvoke ++ (dsml.toolCallsEnd ++ []) := by
    obtain ⟨c, v, hv⟩ := exists_cons_of_ne_nil hne
    rw [hv]
    exact skipWs_marker rfl _
  have hlen := length_le_flatMap appendDsmlInvoke_ne_nil calls.v
  have hfuel : calls.v.length <
      (0x0a :: (calls.v.flatMap appendDsmlInvoke ++ dsml.toolCallsEnd)).length + 1 := by
    simp only [length_cons, length_append]
    omega
  have hinvokes := invokesLoop_rendered hplain [] hfuel hws
  simp only [parseGeneratedMessageEx, toolSearch, Bool.false_eq_true, if_false, drop_zero,
    hblock, Nat.zero_add, drop_left, hcut, hinvokes]
  exact ⟨_, rfl, rfl⟩

/-! ### Round trip -/

/-- The names agree and the objects have the same pairs in the same order. -/
def SamePairs (sent got : ToolCall) : Prop :=
  got.name = sent.name ∧ jsonArgsParse got.arguments = jsonArgsParse sent.arguments

/-- The same, up to the JSON escape of closing tags inside values that are no strings. -/
def ReadBack (sent got : ToolCall) : Prop :=
  got.name = sent.name ∧
    ∃ args, jsonArgsParse sent.arguments = some args ∧
      jsonArgsParse got.arguments = some (args.map renderedArg)

theorem readBack_renderedCall (h : PlainCall call) :
    ReadBack call (renderedCall call.name (callArgs call)) := by
  obtain ⟨hargs, hread, -⟩ := h.args
  refine ⟨rfl, callArgs call, hargs, ?_⟩
  refine jsonArgsParse_text (fun a ha => ?_) []
  obtain ⟨b, hb, rfl⟩ := mem_map.mp ha
  exact renderedArg_read (hread b hb)

/-- Rendered calls are parsed back, call by call and pair by pair. -/
theorem toolCalls_roundTrip {calls : ToolCalls} (hne : calls.v ≠ [])
    (hraw : calls.rawDsml.getD [] = []) (hplain : ∀ c ∈ calls.v, PlainCall c) {content : Bytes}
    (hcontent : ¬ dsml.toolCallsStart <:+: content) :
    ∃ g, parseGeneratedMessageEx (content ++ appendDsmlToolCallsText calls) false = some g ∧
      List.Forall₂ ReadBack calls.v g.calls := by
  obtain ⟨g, hg, hcalls⟩ := parseGeneratedMessageEx_rendered hne hraw hplain hcontent
  refine ⟨g, hg, ?_⟩
  rw [hcalls, forall₂_map_right_iff, forall₂_same]
  exact fun c hc => readBack_renderedCall (hplain c hc)

/-- A call with a closing tag in a string and in a list. -/
def tagCall : ToolCall where
  name := str "f<"
  arguments := str "\x7b\"a\": \"x</｜DSML｜parameter>\", \"b\": [1, \"</｜DSML｜parameter>\"]\x7d"

theorem tagCall_plain : PlainCall tagCall :=
  ⟨[⟨str "a", str "x</｜DSML｜parameter>", true⟩,
    ⟨str "b", str "[1,\"</｜DSML｜parameter>\"]", false⟩], by decide, by decide⟩

theorem toolCalls_roundTrip_tagCall :
    ∃ g, parseGeneratedMessageEx (str "ok" ++ appendDsmlToolCallsText ⟨[tagCall], none⟩) false =
        some g ∧ List.Forall₂ ReadBack [tagCall] g.calls := by
  refine @toolCalls_roundTrip ⟨[tagCall], none⟩ (by simp) rfl (fun c hc => ?_) _ (by decide)
  rw [mem_singleton.mp hc]
  exact tagCall_plain

/-- A closing tag inside a list comes back in its JSON spelling. -/
theorem toolCalls_roundTrip_not_inverse :
    ¬ ∃ g, parseGeneratedMessageEx (str "ok" ++ appendDsmlToolCallsText ⟨[tagCall], none⟩) false =
        some g ∧ List.Forall₂ SamePairs [tagCall] g.calls := by
  rintro ⟨g, hg, hpairs⟩
  obtain ⟨g', hg', hcalls⟩ := @parseGeneratedMessageEx_rendered ⟨[tagCall], none⟩
    (by simp) rfl (by simp [tagCall_plain]) (str "ok") (by decide)
  obtain rfl : g = g' := some.inj (hg.symm.trans hg')
  rw [hcalls, map_cons, forall₂_cons] at hpairs
  obtain ⟨-, args, hargs, hread⟩ := readBack_renderedCall tagCall_plain
  rw [hpairs.1.2, hargs] at hread
  have hself : (jsonArgsParse tagCall.arguments).map (map renderedArg) =
      jsonArgsParse tagCall.arguments := by rw [hargs, map_some, ← hread]
  exact absurd hself (by decide)

end Ds4Studio.Dsml

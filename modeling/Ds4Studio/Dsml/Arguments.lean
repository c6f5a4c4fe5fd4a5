import Ds4Studio.Dsml.Parse
import Ds4Studio.Json.Rfc

/-!
The arguments of generated calls as JSON. The parser writes the parameters of an
invocation into an object, strings escaped and other values minified, and what it has
written is read and written again for the client. A value that is no string is the
model's own text: it is JSON when the model wrote JSON.
-/

namespace Ds4Studio.Dsml

open Bytes Json List Option Search

/-! ### Parameters -/

/-- A parameter of an invocation, with its `string` attribute. -/
structure Param where
  name : Bytes
  value : Bytes
  type : Bytes
deriving DecidableEq

/-- The parameter at the front and the text behind it. -/
def readParam (x : Spelling) (p : Bytes) : Option (Bytes × Param) :=
  match openTag x.paramStart p with
  | none => none
  | some (tag, valueStart) =>
    match dsmlAttr tag (str "name") with
    | none => none
    | some name =>
      let isString := dsmlAttr tag (str "string")
      if isString = none ∧ x.paramStart <+: skipWs valueStart then
        match dsmlParseNestedParamsObject x valueStart with
        | none => none
        | some (nestedP, nested) =>
          let p := skipWs nestedP
          some (if x.paramEnd <+: p then p.drop x.paramEnd.length else p,
            ⟨name, nested, str "false"⟩)
      else
        match cut x.paramEnd valueStart with
        | none => none
        | some (raw, rest) =>
          let type := isString.getD (str "true")
          some (rest, ⟨name, paramValue type raw, type⟩)

/-- The parameters of an invocation up to its closing tag. -/
def readParams (x : Spelling) : ℕ → Bytes → Option (Bytes × List Param)
  | 0, _ => none
  | fuel + 1, p =>
      let p := skipWs p
      if x.invokeEnd <+: p then some (p.drop x.invokeEnd.length, [])
      else
        match readParam x p with
        | none => none
        | some (p, a) => (readParams x fuel p).map fun r => (r.1, a :: r.2)

/-- The invocations of a block, each with its parameters. -/
def readInvokes (x : Spelling) : ℕ → Bytes → Option (List (List Param))
  | 0, _ => none
  | fuel + 1, p =>
      let p := skipWs p
      if x.toolCallsEnd <+: p then some []
      else
        match openTag x.invokeStart p with
        | none => none
        | some (tag, p) =>
          match dsmlAttr tag (str "name") with
          | none => none
          | some _ =>
            match readParams x (p.length + 1) p with
            | none => none
            | some (p, params) => (readInvokes x fuel p).map (params :: ·)

/-- The parameters in generated text, one list for each invocation. -/
def generatedParams (text : Bytes) (requireThinkingClosed : Bool) : List (List Param) :=
  match toolSearch text requireThinkingClosed with
  | none => []
  | some offset =>
    match findBlock (text.drop offset) with
    | none => []
    | some (i, x) =>
      match cut x.toolCallsStart (text.drop (offset + i)) with
      | none => []
      | some (_, p) => (readInvokes x (p.length + 1) p).getD []

/-- A parameter is written behind the ones in front of it. -/
def addParam (args : Bytes) (a : Param) : Bytes := toolCallJsonArgsAdd args a.name a.value a.type

def argumentsText (params : List Param) : Bytes := 0x7b :: params.foldl addParam [] ++ [0x7d]

theorem parseParam_eq (x : Spelling) (p args : Bytes) :
    parseParam x p args = (readParam x p).map fun r => (r.1, addParam args r.2) := by
  simp only [parseParam, readParam]
  cases openTag x.paramStart p with
  | none => rfl
  | some r =>
    obtain ⟨tag, valueStart⟩ := r
    cases hname : dsmlAttr tag (str "name") with
    | none => simp only [hname, map_none]
    | some name =>
      simp only [hname]
      by_cases hnested : dsmlAttr tag (str "string") = none ∧ x.paramStart <+: skipWs valueStart
      · rw [if_pos hnested, if_pos hnested]
        cases dsmlParseNestedParamsObject x valueStart <;> rfl
      · rw [if_neg hnested, if_neg hnested]
        cases cut x.paramEnd valueStart <;> rfl

theorem paramsLoop_eq (x : Spelling) (fuel : ℕ) (p args : Bytes) :
    paramsLoop x fuel p args =
      (readParams x fuel p).map fun r => (r.1, r.2.foldl addParam args) := by
  induction fuel generalizing p args with
  | zero => rfl
  | succ fuel ih =>
    simp only [paramsLoop, readParams, parseParam_eq]
    split
    · rfl
    · cases readParam x (skipWs p) with
      | none => rfl
      | some r => simp [ih, Function.comp_def]

theorem invokesLoop_eq (x : Spelling) (fuel : ℕ) (p : Bytes) :
    (invokesLoop x fuel p).map (fun r => r.2.map ToolCall.arguments) =
      (readInvokes x fuel p).map fun l => l.map argumentsText := by
  induction fuel generalizing p with
  | zero => rfl
  | succ fuel ih =>
    simp only [invokesLoop, readInvokes]
    split
    · rfl
    · cases openTag x.invokeStart (skipWs p) with
      | none => rfl
      | some r =>
        obtain ⟨tag, q⟩ := r
        cases hname : dsmlAttr tag (str "name") with
        | none => simp [hname]
        | some name =>
          cases hparams : readParams x (q.length + 1) q with
          | none => simp [hname, paramsLoop_eq, hparams]
          | some r =>
            have hrest := ih r.1
            simp only [hname, paramsLoop_eq, hparams, map_some]
            cases hcalls : invokesLoop x fuel r.1 <;> cases hread : readInvokes x fuel r.1 <;>
              simp_all [argumentsText]

theorem arguments_eq {text : Bytes} {requireThinkingClosed : Bool} {gen : Generated}
    (h : parseGeneratedMessageEx text requireThinkingClosed = some gen) :
    gen.calls.map ToolCall.arguments =
      (generatedParams text requireThinkingClosed).map argumentsText := by
  unfold parseGeneratedMessageEx at h
  unfold generatedParams
  cases hsearch : toolSearch text requireThinkingClosed with
  | none =>
    rw [hsearch] at h
    rw [← some.inj h]
    rfl
  | some offset =>
    rw [hsearch] at h
    simp only at h ⊢
    cases hblock : findBlock (text.drop offset) with
    | none =>
      rw [hblock] at h
      rw [← some.inj h]
      rfl
    | some r =>
      obtain ⟨i, x⟩ := r
      rw [hblock] at h
      simp only at h ⊢
      cases hcut : cut x.toolCallsStart (text.drop (offset + i)) with
      | none => simp [hcut] at h
      | some r =>
        obtain ⟨front, p⟩ := r
        rw [hcut] at h
        simp only at h ⊢
        have heq := invokesLoop_eq x (p.length + 1) p
        cases hcalls : invokesLoop x (p.length + 1) p with
        | none => simp [hcalls] at h
        | some r =>
          rw [hcalls] at h heq
          rw [← some.inj h]
          cases hread : readInvokes x (p.length + 1) p with
          | none => simp [hread] at heq
          | some l =>
            rw [hread] at heq
            simpa using heq

/-! ### What is written -/

/-- The name and the written value of a parameter. -/
def Param.member (a : Param) : Bytes × Bytes :=
  (a.name,
    if a.type = str "true" then jsonEscape a.value
    else
      let min := jsonMinifyRawValue a.value
      if min = [] then str "null" else min)

/-- The scanner accepts the value, which is no string. -/
def Param.Accepted (a : Param) : Prop :=
  a.type = str "true" ∨ a.value = [] ∨ (jsonSkipValue a.value).isSome

instance (a : Param) : Decidable a.Accepted := inferInstanceAs (Decidable (_ ∨ _ ∨ _))

/-- The name and a string are UTF-8. Any other value is empty, or what is kept of it is
JSON and, if that is a string, encodes UTF-8. -/
def Param.Json (a : Param) : Prop :=
  Utf8 a.name ∧
    if a.type = str "true" then Utf8 a.value
    else a.value = [] ∨
      (Rfc .value (jsonMinifyRawValue a.value) ∧
        ∀ text ∈ decoded (jsonMinifyRawValue a.value), Utf8 text)

theorem addParam_nil (a : Param) : addParam [] a = memberText [0x20] a.member := by
  simp [addParam, toolCallJsonArgsAdd, memberText, Param.member, show str ": " = [0x3a, 0x20] from rfl]

theorem addParam_cons {args : Bytes} (h : args ≠ []) (a : Param) :
    addParam args a = args ++ (0x2c :: 0x20 :: memberText [0x20] a.member) := by
  simp [addParam, toolCallJsonArgsAdd, memberText, Param.member, h,
    show str ": " = [0x3a, 0x20] from rfl, show str ", " = [0x2c, 0x20] from rfl]

theorem foldl_addParam {args : Bytes} (h : args ≠ []) (params : List Param) :
    params.foldl addParam args ++ [0x7d] =
      args ++ membersTail [0x20] (params.map Param.member) := by
  induction params generalizing args with
  | nil => rfl
  | cons a params ih =>
    rw [foldl_cons, ih, addParam_cons h]
    · simp [membersTail]
    · rw [addParam_cons h]
      simp

theorem argumentsText_eq (params : List Param) :
    argumentsText params = objectText [0x20] (params.map Param.member) := by
  cases params with
  | nil => rfl
  | cons a params =>
    have hne : memberText [0x20] a.member ≠ [] := by simp [memberText, jsonEscape]
    rw [argumentsText, foldl_cons, addParam_nil, cons_append, foldl_addParam hne]
    rfl

theorem compact_jsonMinifyRawValue {v : Bytes} (h : (jsonSkipValue v).isSome) :
    Compact (jsonMinifyRawValue v) := by
  obtain ⟨rest, hskip⟩ := isSome_iff_exists.mp h
  obtain ⟨t, c, ht, htext⟩ := reads_value _ _ _ hskip
  have hmin : jsonMinifyRawValue v = c := by
    have hloop := minifyLoop_text htext []
    simp only [append_nil, minifyLoop] at hloop
    simp [jsonMinifyRawValue, hskip, ht, hloop]
  rw [hmin]
  exact htext.compact

/-- Minifying is done in one go, and what it makes of a value is cut out whole
again wherever a value may end. -/
theorem jsonMinifyRawValue_settled (v : Bytes) :
    jsonMinifyRawValue (jsonMinifyRawValue v) = jsonMinifyRawValue v ∧
      ((jsonSkipValue v).isSome → ∀ r, Delimited r →
        jsonRawValue (jsonMinifyRawValue v ++ r) = some (jsonMinifyRawValue v, r)) := by
  refine ⟨?_, fun h r hr => (compact_jsonMinifyRawValue h).raw hr⟩
  cases hskip : jsonSkipValue v with
  | none => simp [jsonMinifyRawValue, hskip]
  | some rest => exact (compact_jsonMinifyRawValue (by simp [hskip])).minify

theorem Param.Accepted.compact {a : Param} (h : a.Accepted) : Compact a.member.2 := by
  have hnull : Compact (str "null") := Text.word (by simp [words])
  unfold Param.member
  by_cases hstring : a.type = str "true"
  · simp only [if_pos hstring]
    exact compact_jsonEscape a.value
  · simp only [if_neg hstring]
    rcases h with htype | hempty | haccepted
    · exact absurd htype hstring
    · rw [hempty]
      exact hnull
    · have hcompact := compact_jsonMinifyRawValue haccepted
      rw [if_neg hcompact.ne_nil]
      exact hcompact

theorem Param.Accepted.json_iff {a : Param} (h : a.Accepted) :
    a.Json ↔ Utf8 a.member.1 ∧ Rfc .value a.member.2 ∧ ∀ text ∈ decoded a.member.2, Utf8 text := by
  unfold Param.Json Param.member
  refine and_congr_right fun _ => ?_
  by_cases hstring : a.type = str "true"
  · simp only [if_pos hstring]
    have hread := jsonString_jsonEscape_cstr a.value []
    rw [append_nil] at hread
    have hdecoded : decoded (jsonEscape a.value) = some (cstr a.value) := by
      rw [decoded, hread]
      rfl
    rw [hdecoded]
    constructor
    · intro hvalue
      refine ⟨((isString_jsonEscape_iff a.value).mpr hvalue).1, ?_⟩
      intro text htext
      rw [← some.inj htext]
      exact hvalue.cstr
    · rintro ⟨hvalue, -⟩
      exact (isString_jsonEscape_iff a.value).mp ⟨hvalue, rfl⟩
  · simp only [if_neg hstring]
    rcases h with htype | hempty | haccepted
    · exact absurd htype hstring
    · have hmin : jsonMinifyRawValue [] = [] := by decide
      rw [hempty, hmin]
      refine ⟨fun _ => ⟨.word (by simp [words]), ?_⟩, fun _ => Or.inl rfl⟩
      intro text htext
      cases htext
    · have hne := (compact_jsonMinifyRawValue haccepted).ne_nil
      rw [if_neg hne]
      constructor
      · rintro (hempty | hjson)
        · rw [hempty] at haccepted
          exact absurd haccepted (by decide)
        · exact hjson
      · exact Or.inr

/-- When the scanner accepts all values in a generated text, what the client gets for its
calls is JSON exactly when the model wrote JSON values and UTF-8 strings. -/
theorem arguments_json_iff {text : Bytes} {requireThinkingClosed : Bool} {gen : Generated}
    (h : parseGeneratedMessageEx text requireThinkingClosed = some gen)
    (haccepted : ∀ params ∈ generatedParams text requireThinkingClosed,
      ∀ a ∈ params, a.Accepted) :
    (∀ call ∈ gen.calls, IsObject call.arguments ∧
        IsObject (appendJsonObjectOrEmpty call.arguments) ∧
        IsString (appendJsonObjectString call.arguments)) ↔
      ∀ params ∈ generatedParams text requireThinkingClosed, ∀ a ∈ params, a.Json := by
  have hgap : Ws [0x20] := by
    intro c hc
    exact Or.inl (mem_singleton.mp hc)
  have hcall : ∀ params ∈ generatedParams text requireThinkingClosed,
      (IsObject (argumentsText params) ∧
        IsObject (appendJsonObjectOrEmpty (argumentsText params)) ∧
        IsString (appendJsonObjectString (argumentsText params))) ↔ ∀ a ∈ params, a.Json := by
    intro params hparams
    have hcompact : ∀ m ∈ params.map Param.member, Compact m.2 := by
      intro m hm
      obtain ⟨a, ha, rfl⟩ := mem_map.mp hm
      exact (haccepted params hparams a ha).compact
    rw [argumentsText_eq, response_iff hgap hcompact, List.forall_mem_map]
    exact forall₂_congr fun a ha => (haccepted params hparams a ha).json_iff.symm
  have heq := arguments_eq h
  constructor
  · intro hall params hparams
    apply (hcall params hparams).mp
    have hmem : argumentsText params ∈ gen.calls.map ToolCall.arguments := by
      rw [heq]
      exact mem_map_of_mem hparams
    obtain ⟨call, hmem, harguments⟩ := mem_map.mp hmem
    rw [← harguments]
    exact hall call hmem
  · intro hall call hmem
    have hmem : call.arguments ∈ (generatedParams text requireThinkingClosed).map argumentsText := by
      rw [← heq]
      exact mem_map_of_mem hmem
    obtain ⟨params, hparams, harguments⟩ := mem_map.mp hmem
    rw [← harguments]
    exact (hcall params hparams).mpr (hall params hparams)

/-- A call with a string and a parameter of another type. -/
def sampleCall (value : String) : Bytes :=
  str "<tool_calls><invoke name=\"f\"><parameter name=\"s\" string=\"true\">hi</parameter>" ++
    str "<parameter name=\"n\" string=\"false\">" ++ str value ++
    str "</parameter></invoke></tool_calls>"

def sampleArguments (value : String) : Bytes :=
  str "\x7b\"s\": \"hi\", \"n\": " ++ str value ++ str "\x7d"

def sampleMessage (value : String) : Generated where
  content := []
  reasoning := none
  calls := [⟨str "f", sampleArguments value⟩]
  rawDsml := some (sampleCall value)

theorem arguments_json_iff_number :
    IsObject (sampleArguments "-1.5e+3") ∧
      IsObject (appendJsonObjectOrEmpty (sampleArguments "-1.5e+3")) ∧
      IsString (appendJsonObjectString (sampleArguments "-1.5e+3")) := by
  have hparams : generatedParams (sampleCall "-1.5e+3") false =
      [[⟨str "s", str "hi", str "true"⟩, ⟨str "n", str "-1.5e+3", str "false"⟩]] := by
    decide +kernel
  have hascii : ∀ s : Bytes, s.all (fun c => c < 0x80) = true → Utf8 s := by
    intro s hs
    exact .ascii (by simpa using hs)
  have hnumber : Number (str "-1.5e+3") :=
    ⟨str "-", str "1", str ".5", str "e+3", Or.inr (by decide),
      ⟨⟨by decide, by decide⟩, Or.inr (by decide)⟩,
      Or.inr ⟨str "5", by decide, by decide, by decide⟩,
      Or.inr ⟨0x65, [0x2b], str "3", Or.inl rfl, Or.inr (Or.inl rfl), by decide,
        by decide, by decide⟩, by decide⟩
  have hparse : parseGeneratedMessageEx (sampleCall "-1.5e+3") false =
      some (sampleMessage "-1.5e+3") := by decide +kernel
  have haccepted : ∀ params ∈ generatedParams (sampleCall "-1.5e+3") false,
      ∀ a ∈ params, a.Accepted := by decide +kernel
  refine (arguments_json_iff hparse haccepted).mpr ?_ _ mem_cons_self
  rw [hparams]
  intro params hp a ha
  rw [mem_singleton.mp hp] at ha
  simp only [mem_cons, not_mem_nil, or_false] at ha
  rcases ha with rfl | rfl
  · refine ⟨hascii _ (by decide), ?_⟩
    exact hascii _ (by decide)
  · refine ⟨hascii _ (by decide), ?_⟩
    refine Or.inr ⟨.number hnumber, ?_⟩
    intro text htext
    cases htext

theorem nan_not_json : ¬ Rfc .value (str "nan") := by
  have hnan : str "nan" = [0x6e, 0x61, 0x6e] := by decide
  rw [hnan]
  intro h
  generalize ht : ([0x6e, 0x61, 0x6e] : Bytes) = t at h
  cases h with
  | word hw =>
    subst ht
    revert hw
    decide
  | number hn =>
    obtain ⟨-, c, u, rfl, hc⟩ := hn.form
    obtain ⟨rfl, -⟩ := cons.inj ht
    rcases hc with hc | hc
    · exact absurd hc (by decide)
    · exact absurd hc (by decide)
  | string hb => cases ht
  | emptyArray => cases ht
  | array => cases ht
  | emptyObject => cases ht
  | object => cases ht

/-- A number that only `strtod` reads is sent as it is. -/
theorem arguments_not_json :
    parseGeneratedMessageEx (sampleCall "nan") false = some (sampleMessage "nan") ∧
      ∃ call ∈ (sampleMessage "nan").calls, ¬ IsObject call.arguments ∧
        ¬ IsObject (appendJsonObjectOrEmpty call.arguments) := by
  have hgap : Ws [0x20] := by
    intro c hc
    exact Or.inl (mem_singleton.mp hc)
  have hnil : Ws [] := by
    intro c hc
    cases hc
  have hcompact : ∀ m ∈ [(str "s", jsonEscape (str "hi")), (str "n", str "nan")],
      Compact m.2 := by
    intro m hm
    simp only [mem_cons, not_mem_nil, or_false] at hm
    rcases hm with rfl | rfl
    · exact compact_jsonEscape (str "hi")
    · exact .number (by decide) (by decide)
  have hmem : (str "n", str "nan") ∈ [(str "s", jsonEscape (str "hi")), (str "n", str "nan")] := by
    simp
  refine ⟨by decide +kernel, _, mem_singleton.mpr rfl, ?_, ?_⟩
  · have htext : sampleArguments "nan" =
        objectText [0x20] [(str "s", jsonEscape (str "hi")), (str "n", str "nan")] := by
      decide
    change ¬ IsObject (sampleArguments "nan")
    rw [htext, isObject_objectText_iff hgap hcompact]
    intro h
    exact nan_not_json (h _ hmem).2
  · have htext : appendJsonObjectOrEmpty (sampleArguments "nan") =
        objectText [] [(str "s", jsonEscape (str "hi")), (str "n", str "nan")] := by
      decide
    change ¬ IsObject (appendJsonObjectOrEmpty (sampleArguments "nan"))
    rw [htext, isObject_objectText_iff hnil hcompact]
    intro h
    exact nan_not_json (h _ hmem).2

end Ds4Studio.Dsml

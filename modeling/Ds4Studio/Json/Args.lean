import Ds4Studio.Json.Compact

/-!
Writing and reading argument objects. `json_escape` writes what `json_string`
reads back, and the object reader returns the pairs of an object in their order,
with strings decoded and every other value minified.
-/

namespace Ds4Studio.Json

open Bytes List Option

/-! ### Escaping -/

/-- The lower case digit `%x` prints. -/
def hexDigit (n : UInt8) : UInt8 := if n < 10 then 0x30 + n else 0x57 + n

def jsonEscapeByte (c : UInt8) : Bytes :=
  if c = 0x22 ∨ c = 0x5c then [0x5c, c]
  else if c = 0x0a then [0x5c, 0x6e]
  else if c = 0x0d then [0x5c, 0x72]
  else if c = 0x09 then [0x5c, 0x74]
  else if c < 0x20 then [0x5c, 0x75, 0x30, 0x30, hexDigit (c >>> 4), hexDigit (c &&& 15)]
  else [c]

/-- `json_escape_fragment_n` -/
def jsonEscapeFragment (s : Bytes) : Bytes := s.flatMap jsonEscapeByte

def jsonEscape (s : Bytes) : Bytes := 0x22 :: (jsonEscapeFragment s ++ [0x22])

theorem jsonEscapeFragment_append (s t : Bytes) :
    jsonEscapeFragment (s ++ t) = jsonEscapeFragment s ++ jsonEscapeFragment t := by
  simp [jsonEscapeFragment]

theorem jsonStringUnit_control {c : UInt8} (hlow : c < 0x20) (s : Bytes) :
    jsonStringUnit 0x5c (0x75 :: 0x30 :: 0x30 :: hexDigit (c >>> 4) :: hexDigit (c &&& 15) :: s) =
      some ([c], s) := by
  have hn : c.toNat < 32 := by simpa [UInt8.lt_iff_toNat_lt] using hlow
  rw [← UInt8.ofNat_toNat (x := c)]
  generalize c.toNat = n at hn
  interval_cases n <;> rfl

theorem jsonStringUnit_short {e v : UInt8} (h : jsonShortEscape e = some v) (s : Bytes) :
    jsonStringUnit 0x5c (e :: s) = some ([v], s) := by
  have he : e ≠ 0x75 := by
    rintro rfl
    simp [jsonShortEscape_u] at h
  simp [jsonStringUnit, he, h]

variable {fuel : ℕ}

theorem jsonStringLoop_unit {b : UInt8} {s out behind : Bytes} (hb : b ≠ 0x22)
    (h : jsonStringUnit b s = some (out, behind)) :
    jsonStringLoop (fuel + 1) (b :: s) =
      (jsonStringLoop fuel behind).map fun r => (out ++ r.1, r.2) := by
  simp [jsonStringLoop, hb, h]

theorem jsonStringLoop_escape (fuel : ℕ) (c : UInt8) (s : Bytes) :
    jsonStringLoop (fuel + 1) (jsonEscapeByte c ++ s) =
      (jsonStringLoop fuel s).map fun r => (c :: r.1, r.2) := by
  have hback : (0x5c : UInt8) ≠ 0x22 := by decide
  unfold jsonEscapeByte
  split
  · rename_i h
    rcases h with rfl | rfl
    · exact jsonStringLoop_unit hback (jsonStringUnit_short (by decide) s)
    · exact jsonStringLoop_unit hback (jsonStringUnit_short (by decide) s)
  · rename_i hplain
    rw [not_or] at hplain
    split
    · rename_i h
      subst h
      exact jsonStringLoop_unit hback (jsonStringUnit_short (by decide) s)
    · split
      · rename_i h
        subst h
        exact jsonStringLoop_unit hback (jsonStringUnit_short (by decide) s)
      · split
        · rename_i h
          subst h
          exact jsonStringLoop_unit hback (jsonStringUnit_short (by decide) s)
        · split
          · rename_i h
            exact jsonStringLoop_unit hback (jsonStringUnit_control h s)
          · exact jsonStringLoop_unit hplain.1 (jsonStringUnit_plain hplain.2 s)

theorem jsonStringLoop_fragment (v rest : Bytes) (hfuel : v.length < fuel) :
    jsonStringLoop fuel (jsonEscapeFragment v ++ 0x22 :: rest) = some (v, rest) := by
  induction v generalizing fuel with
  | nil =>
    obtain ⟨fuel, rfl⟩ : ∃ f, fuel = f + 1 := ⟨fuel - 1, by omega⟩
    simp [jsonEscapeFragment, jsonStringLoop]
  | cons c v ih =>
    obtain ⟨fuel, rfl⟩ : ∃ f, fuel = f + 1 := ⟨fuel - 1, by omega⟩
    have hcons : jsonEscapeFragment (c :: v) = jsonEscapeByte c ++ jsonEscapeFragment v := rfl
    rw [hcons, append_assoc, jsonStringLoop_escape, ih (by simpa using hfuel), map_some]

theorem length_le_jsonEscapeFragment (v : Bytes) : v.length ≤ (jsonEscapeFragment v).length := by
  induction v with
  | nil => simp
  | cons c v ih =>
    have hone : 1 ≤ (jsonEscapeByte c).length := by
      unfold jsonEscapeByte
      repeat' split
      all_goals simp
    have hcons : jsonEscapeFragment (c :: v) = jsonEscapeByte c ++ jsonEscapeFragment v := rfl
    rw [hcons, length_append, length_cons]
    omega

theorem jsonString_jsonEscape_cstr (v rest : Bytes) :
    jsonString (jsonEscape v ++ rest) = some (cstr v, rest) := by
  have hlen := length_le_jsonEscapeFragment v
  have hfuel : v.length < (jsonEscapeFragment v ++ 0x22 :: rest).length + 1 := by
    simp only [length_append, length_cons]
    omega
  have hloop := jsonStringLoop_fragment v rest hfuel
  simp only [jsonString, jsonEscape, cons_append, append_assoc, nil_append]
  rw [skipWs_of_not_space (by decide)]
  simp only [if_true, hloop, map_some]

theorem jsonString_jsonEscape {v : Bytes} (hv : (0 : UInt8) ∉ v) (rest : Bytes) :
    jsonString (jsonEscape v ++ rest) = some (v, rest) := by
  rw [jsonString_jsonEscape_cstr, cstr_eq_self hv]

/-! ### Argument objects -/

structure JsonArg where
  key : Bytes
  value : Bytes
  isString : Bool
deriving DecidableEq, Repr

/-- The value of a pair: a decoded string, or the minified text of anything else. -/
def jsonArgValue (s : Bytes) : Option (Bytes × Bool × Bytes) :=
  match s with
  | 0x22 :: _ => (jsonString s).map fun r => (r.1, true, r.2)
  | _ => (jsonRawValue s).map fun r => (jsonMinifyRawValue r.1, false, r.2)

/-- The loop of `json_args_parse`. A missing comma is tolerated. -/
def jsonArgsLoop : ℕ → Bytes → Option (List JsonArg)
  | 0, _ => none
  | _ + 1, [] => none
  | fuel + 1, c :: s =>
      if c = 0x7d then some []
      else
        match jsonString (c :: s) with
        | none => none
        | some (key, rest) =>
          match skipWs rest with
          | [] => none
          | colon :: afterColon =>
            if colon = 0x3a then
              match jsonArgValue (skipWs afterColon) with
              | none => none
              | some (value, isString, rest) =>
                let next := match skipWs rest with
                  | 0x2c :: t => skipWs t
                  | t => t
                (jsonArgsLoop fuel next).map (⟨key, value, isString⟩ :: ·)
            else none

def jsonArgsParse (json : Bytes) : Option (List JsonArg) :=
  match skipWs json with
  | 0x7b :: s => jsonArgsLoop ((skipWs s).length + 1) (skipWs s)
  | _ => none

/-! ### Arguments in a response -/

def appendJsonArgPair (a : JsonArg) : Bytes :=
  jsonEscape a.key ++ 0x3a :: (if a.isString then jsonEscape a.value else a.value)

/-- What cannot be read as an object is sent as the empty one. -/
def appendJsonObjectOrEmpty (json : Bytes) : Bytes :=
  match jsonArgsParse json with
  | none => [0x7b, 0x7d]
  | some args => 0x7b :: (List.intercalate [0x2c] (args.map appendJsonArgPair) ++ [0x7d])

def appendJsonObjectString (json : Bytes) : Bytes := jsonEscape (appendJsonObjectOrEmpty json)

/-- What the reader guarantees of a pair. -/
structure JsonArg.Read (a : JsonArg) : Prop where
  key : (0 : UInt8) ∉ a.key
  string : a.isString = true → (0 : UInt8) ∉ a.value
  compact : a.isString = false → Compact a.value
  unquoted : a.isString = false → a.value.head? ≠ some 0x22

theorem zero_not_mem_jsonString {s out rest : Bytes} (h : jsonString s = some (out, rest)) :
    (0 : UInt8) ∉ out := by
  unfold jsonString at h
  split at h
  · simp at h
  · split at h
    · simp only [map_eq_some_iff, Prod.mk.injEq] at h
      obtain ⟨r, -, rfl, -⟩ := h
      exact zero_not_mem_cstr _
    · simp at h

theorem jsonArgValue_read {s value rest : Bytes} {isString : Bool}
    (h : jsonArgValue s = some (value, isString, rest)) :
    (isString = true → (0 : UInt8) ∉ value) ∧
      (isString = false → Compact value ∧ (skipWs s = s → value.head? ≠ some 0x22)) := by
  unfold jsonArgValue at h
  split at h
  · simp only [map_eq_some_iff, Prod.mk.injEq] at h
    obtain ⟨⟨out, behind⟩, hs, rfl, rfl, -⟩ := h
    exact ⟨fun _ => zero_not_mem_jsonString hs, by simp⟩
  · simp only [map_eq_some_iff, Prod.mk.injEq] at h
    obtain ⟨⟨raw, behind⟩, hs, rfl, rfl, -⟩ := h
    obtain ⟨hc, hhead⟩ := compact_of_jsonRawValue hs
    refine ⟨by simp, fun _ => ⟨hc, fun hws hq => ?_⟩⟩
    rw [hhead, hws] at hq
    cases s with
    | nil => simp at hq
    | cons d t =>
      simp only [head?_cons, some.injEq] at hq
      subst hq
      rename_i hne
      exact hne t rfl

variable {args : List JsonArg}

theorem jsonArgsLoop_read {s : Bytes} (h : jsonArgsLoop fuel s = some args) :
    ∀ a ∈ args, a.Read := by
  induction fuel generalizing s args with
  | zero => simp [jsonArgsLoop] at h
  | succ fuel ih =>
    cases s with
    | nil => simp [jsonArgsLoop] at h
    | cons c s =>
      rw [jsonArgsLoop] at h
      split at h
      · simp only [some.injEq] at h
        simp [← h]
      · split at h
        · simp at h
        · rename_i key rest hkey
          split at h
          · simp at h
          · split at h
            · split at h
              · simp at h
              · rename_i value isString behind hvalue
                simp only [map_eq_some_iff] at h
                obtain ⟨more, hmore, rfl⟩ := h
                obtain ⟨hstring, hcompact⟩ := jsonArgValue_read hvalue
                intro a ha
                rcases mem_cons.mp ha with rfl | ha
                · exact ⟨zero_not_mem_jsonString hkey, hstring, fun hs => (hcompact hs).1,
                    fun hs => (hcompact hs).2 (skipWs_skipWs _)⟩
                · exact ih hmore a ha
            · simp at h

theorem jsonArgsParse_read {json : Bytes} (h : jsonArgsParse json = some args) :
    ∀ a ∈ args, a.Read := by
  unfold jsonArgsParse at h
  split at h
  · exact jsonArgsLoop_read h
  · simp at h

/-! ### Reading back a written object -/

/-- One pair as the generated-text parser writes it into an argument object. -/
def JsonArg.text (a : JsonArg) : Bytes :=
  jsonEscape a.key ++ (str ": " ++ if a.isString then jsonEscape a.value else a.value)

theorem jsonArgValue_text {a : JsonArg} (ha : a.Read) {rest : Bytes} (hrest : Delimited rest) :
    jsonArgValue ((if a.isString then jsonEscape a.value else a.value) ++ rest) =
      some (a.value, a.isString, rest) := by
  cases hs : a.isString with
  | true =>
    have hread := jsonString_jsonEscape (ha.string hs) rest
    simp only [if_true, jsonEscape, cons_append] at hread ⊢
    simp only [jsonArgValue, hread, map_some]
  | false =>
    have hc := ha.compact hs
    have hraw := hc.raw hrest
    have hmin := hc.minify
    simp only [Bool.false_eq_true, if_false]
    unfold jsonArgValue
    split
    · rename_i t hquote
      obtain ⟨d, u, hv⟩ := exists_cons_of_ne_nil hc.ne_nil
      rw [hv, cons_append, cons.injEq] at hquote
      exact absurd (by rw [hv, hquote.1]; rfl) (ha.unquoted hs)
    · simp [hraw, hmin]

/-- `tool_call_json_args_add` for a pair whose value is already in its final form. -/
def addArg (args : Bytes) (a : JsonArg) : Bytes :=
  (if args = [] then [] else args ++ str ", ") ++ a.text

theorem text_ne_nil (a : JsonArg) : a.text ≠ [] := by simp [JsonArg.text, jsonEscape]

theorem foldl_addArg {init : Bytes} (hinit : init ≠ []) (args : List JsonArg) :
    args.foldl addArg init = init ++ args.flatMap fun a => str ", " ++ a.text := by
  induction args generalizing init with
  | nil => simp
  | cons a args ih =>
    rw [foldl_cons, ih (by simp [addArg, hinit, text_ne_nil])]
    simp [addArg, hinit]

theorem skipWs_argValue {a : JsonArg} (ha : a.Read) (rest : Bytes) :
    skipWs (0x20 :: ((if a.isString then jsonEscape a.value else a.value) ++ rest)) =
      (if a.isString then jsonEscape a.value else a.value) ++ rest := by
  rw [skipWs_of_space (by decide)]
  cases hs : a.isString with
  | true => exact skipWs_of_not_space (by decide) _
  | false => exact (ha.compact hs).skipWs rest

theorem jsonArgsLoop_pair {a : JsonArg} (ha : a.Read) {rest : Bytes} (hrest : Delimited rest)
    (fuel : ℕ) :
    jsonArgsLoop (fuel + 1) (a.text ++ rest) =
      (jsonArgsLoop fuel (match skipWs rest with
        | 0x2c :: t => skipWs t
        | t => t)).map (a :: ·) := by
  have hkey := jsonString_jsonEscape ha.key
    (str ": " ++ ((if a.isString then jsonEscape a.value else a.value) ++ rest))
  have hvalue := jsonArgValue_text ha hrest
  have hws := skipWs_argValue ha rest
  simp only [JsonArg.text, append_assoc]
  rw [jsonEscape, cons_append, jsonArgsLoop, if_neg (by decide)]
  rw [jsonEscape, cons_append] at hkey
  simp only [hkey]
  rw [show str ": " = [0x3a, 0x20] from rfl, cons_append, cons_append,
    nil_append, skipWs_of_not_space (by decide)]
  simp only [if_true, hws, hvalue]

theorem jsonArgsLoop_text (a : JsonArg) (args : List JsonArg) (hread : ∀ b ∈ a :: args, b.Read)
    (rest : Bytes) (hfuel : (a :: args).length < fuel) :
    jsonArgsLoop fuel (a.text ++ ((args.flatMap fun b => str ", " ++ b.text) ++ 0x7d :: rest)) =
      some (a :: args) := by
  induction args generalizing a fuel with
  | nil =>
    obtain ⟨fuel, rfl⟩ : ∃ f, fuel = f + 2 := ⟨fuel - 2, by simp at hfuel; omega⟩
    rw [flatMap_nil, nil_append,
      jsonArgsLoop_pair (hread a (by simp)) (delimited_cons (by simp) rest),
      skipWs_of_not_space (by decide)]
    simp [jsonArgsLoop]
  | cons b args ih =>
    obtain ⟨fuel, rfl⟩ : ∃ f, fuel = f + 1 := ⟨fuel - 1, by omega⟩
    have hrest := ih b (fun c hc => hread c (by simp [hc])) 
      (show (b :: args).length < fuel by simpa using hfuel)
    have hb : skipWs (b.text ++ ((args.flatMap fun b => str ", " ++ b.text) ++ 0x7d :: rest)) =
        b.text ++ ((args.flatMap fun b => str ", " ++ b.text) ++ 0x7d :: rest) := by
      exact skipWs_of_not_space (by decide) _
    rw [jsonArgsLoop_pair (hread a (by simp))]
    · rw [flatMap_cons, show str ", " = [0x2c, 0x20] from rfl]
      simp only [cons_append, nil_append, append_assoc]
      rw [skipWs_of_not_space (by decide)]
      simp only [skipWs_of_space (show isSpace 0x20 = true by decide)]
      rw [show str ", " = [0x2c, 0x20] from rfl] at hb hrest
      simp only [cons_append, nil_append] at hb hrest
      rw [hb, hrest, map_some]
    · rw [show str ", " = [0x2c, 0x20] from rfl]
      exact delimited_cons (by simp) _

theorem jsonArgsParse_text (hread : ∀ a ∈ args, a.Read) (rest : Bytes) :
    jsonArgsParse (0x7b :: (args.foldl addArg [] ++ 0x7d :: rest)) = some args := by
  rw [jsonArgsParse, skipWs_of_not_space (by decide)]
  cases args with
  | nil =>
    simp only [foldl_nil, nil_append]
    rw [skipWs_of_not_space (by decide)]
    simp [jsonArgsLoop]
  | cons a args =>
    have hfirst : addArg [] a = a.text := by simp [addArg]
    have hws : skipWs (a.text ++ ((args.flatMap fun b => str ", " ++ b.text) ++ 0x7d :: rest)) =
        a.text ++ ((args.flatMap fun b => str ", " ++ b.text) ++ 0x7d :: rest) := by
      exact skipWs_of_not_space (by decide) _
    have hlen := length_le_flatMap (f := fun b : JsonArg => str ", " ++ b.text)
      (fun b h => text_ne_nil b (append_eq_nil_iff.mp h).2) args
    simp only [foldl_cons, hfirst, foldl_addArg (text_ne_nil a), append_assoc, hws]
    refine jsonArgsLoop_text a args hread rest ?_
    simp only [length_append, length_cons]
    omega

end Ds4Studio.Json

import Ds4Studio.Lib.JsonValue

/-!
The check of a tool's arguments against its schema, whose keys are looked up in plain objects.
-/

namespace Ds4Studio.Web.Arguments

open JsonValue List Option Utf16

/-! ### The schema and the check -/

inductive ScalarType where
  | string
  | number
  | integer
  | boolean

/-- A property of a schema; it may leave each of its parts out. -/
structure PropertySchema where
  type : Option ScalarType
  enum : Option (List JsonValue)
  minimum : Option Num
  maximum : Option Num

structure ToolSchema where
  properties : List (Utf16 × PropertySchema)
  required : List Utf16

structure ErrorDetail where
  path : Utf16
  reason : Utf16

/-- `ToolArgumentValidationError` -/
structure ToolArgumentValidationError where
  message : Utf16
  details : List ErrorDetail

/-- How numbers and lists of values are written into a text. -/
structure Templates where
  number : Num → Utf16
  join : List JsonValue → Utf16

/-- `Number.isFinite` of a number -/
def isFiniteNumber : Num → Bool
  | .fin _ => true
  | _ => false

/-- `Number.isInteger` -/
def isInteger : Num → Bool
  | .fin q => q.den = 1
  | _ => false

/-- The check of the type -/
def typeError : Option ScalarType → JsonValue → Option Utf16
  | some .string, .str _ => none
  | some .string, _ => some (ascii "expected string")
  | some .number, .num x => if isFiniteNumber x then none else some (ascii "expected finite number")
  | some .number, _ => some (ascii "expected finite number")
  | some .integer, .num x => if isInteger x then none else some (ascii "expected integer")
  | some .integer, _ => some (ascii "expected integer")
  | some .boolean, .bool _ => none
  | some .boolean, _ => some (ascii "expected boolean")
  | none, _ => none

def enumError (templates : Templates) (schema : PropertySchema) (value : JsonValue) :
    Option Utf16 :=
  match schema.enum with
  | some allowed =>
      if allowed.any fun v => v.same value then none
      else some (ascii "expected one of " ++ templates.join allowed)
  | none => none

def minimumError (templates : Templates) (schema : PropertySchema) (value : JsonValue) :
    Option Utf16 :=
  match schema.minimum, value with
  | some bound, .num x =>
      if x.lt bound then some (ascii "must be >= " ++ templates.number bound) else none
  | _, _ => none

def maximumError (templates : Templates) (schema : PropertySchema) (value : JsonValue) :
    Option Utf16 :=
  match schema.maximum, value with
  | some bound, .num x =>
      if bound.lt x then some (ascii "must be <= " ++ templates.number bound) else none
  | _, _ => none

def validateScalar (templates : Templates) (schema : PropertySchema) (value : JsonValue)
    (path : Utf16) : List ErrorDetail :=
  match typeError schema.type value with
  | some reason => [⟨path, reason⟩]
  | none =>
      ([enumError templates schema value, minimumError templates schema value,
        maximumError templates schema value].filterMap id).map fun reason => ⟨path, reason⟩

/-- `properties[key]`: an own property, or what the object inherits, which has none of the parts of
a schema. -/
def propertyOf (schema : ToolSchema) (key : Utf16) : Option PropertySchema :=
  match schema.properties.lookup key with
  | some property => some property
  | none => if key ∈ inheritedNames then some ⟨none, none, none, none⟩ else none

/-- `$.key` -/
def memberPath (key : Utf16) : Utf16 := ascii "$." ++ key

def requiredErrors (schema : ToolSchema) (entries : List (Utf16 × JsonValue)) : List ErrorDetail :=
  (schema.required.eraseDups.filter fun key => !has entries key).map fun key =>
    ⟨memberPath key, ascii "required"⟩

def entryErrors (templates : Templates) (schema : ToolSchema) (rejectUnknown : Bool)
    (entry : Utf16 × JsonValue) : List ErrorDetail :=
  match propertyOf schema entry.1 with
  | none => if rejectUnknown then [⟨memberPath entry.1, ascii "unknown property"⟩] else []
  | some property => validateScalar templates property entry.2 (memberPath entry.1)

def argumentErrors (templates : Templates) (schema : ToolSchema) (rejectUnknown : Bool)
    (entries : List (Utf16 × JsonValue)) : List ErrorDetail :=
  requiredErrors schema entries ++ entries.flatMap (entryErrors templates schema rejectUnknown)

/-- The value that is returned is a clone of the argument. -/
def validateToolArguments (templates : Templates) (schema : ToolSchema) (value : JsonValue)
    (rejectUnknown : Bool) : Except ToolArgumentValidationError JsonValue :=
  match value with
  | .obj entries =>
      let errors := argumentErrors templates schema rejectUnknown entries
      if errors = [] then .ok value
      else .error ⟨ascii "tool arguments failed validation", errors⟩
  | _ => .error ⟨ascii "tool arguments must be an object", [⟨ascii "$", ascii "expected object"⟩]⟩

/-! ### What the schema says -/

/-- The value has the type. A number that no double holds is none. -/
def HasType : Option ScalarType → JsonValue → Prop
  | none, _ => True
  | some .string, v => ∃ s, v = .str s
  | some .number, v => ∃ q, v = .num (.fin q)
  | some .integer, v => ∃ n : ℤ, v = .num (.fin n)
  | some .boolean, v => ∃ b, v = .bool b

/-- The value is one of those that are enumerated, and a number is within the bounds. -/
structure Satisfies (schema : PropertySchema) (value : JsonValue) : Prop where
  type : HasType schema.type value
  enum : ∀ allowed ∈ schema.enum, ∃ v ∈ allowed, v.same value = true
  minimum : ∀ bound ∈ schema.minimum, ∀ x, value = .num x → ¬ x.lt bound = true
  maximum : ∀ bound ∈ schema.maximum, ∀ x, value = .num x → ¬ bound.lt x = true

/-- An object whose keys are all properties, which has all that are required, and whose members
satisfy their properties. -/
def Instance (schema : ToolSchema) (value : JsonValue) : Prop :=
  ∃ entries, value = .obj entries ∧
    (∀ entry ∈ entries, ∃ property, schema.properties.lookup entry.1 = some property ∧
      Satisfies property entry.2) ∧
    ∀ key ∈ schema.required, key ∈ keys entries

/-- The key is required and missing, unknown, or that of a member that does not satisfy its
property. -/
def Offends (schema : ToolSchema) (value : JsonValue) (key : Utf16) : Prop :=
  ∃ entries, value = .obj entries ∧
    (key ∈ schema.required ∧ key ∉ keys entries ∨
      ∃ v, (key, v) ∈ entries ∧ ∀ property, schema.properties.lookup key = some property →
        ¬ Satisfies property v)

/-- The check returns the value just for the instances, and else names the members that offend. -/
def Validates (templates : Templates) (schema : ToolSchema) (value : JsonValue) : Prop :=
  (validateToolArguments templates schema value true = .ok value ↔ Instance schema value) ∧
    (¬ Instance schema value → ∃ error,
      validateToolArguments templates schema value true = .error error ∧
        ∀ key, (∃ d ∈ error.details, d.path = memberPath key) ↔ Offends schema value key)

/-! ### One member -/

theorem isInteger_iff {x : Num} : isInteger x = true ↔ ∃ n : ℤ, x = .fin n := by
  constructor
  · intro h
    cases x with
    | fin q => exact ⟨q.num, by rw [Rat.coe_int_num_of_den_eq_one (of_decide_eq_true h)]⟩
    | nan | negInf | posInf => exact Bool.noConfusion h
  · rintro ⟨n, rfl⟩
    exact decide_eq_true (Rat.den_intCast n)

theorem typeError_eq_none_iff (type : Option ScalarType) (value : JsonValue) :
    typeError type value = none ↔ HasType type value := by
  fun_cases typeError type value with
  | case3 x hfinite =>
    cases x with
    | fin q => exact iff_of_true rfl ⟨q, rfl⟩
    | nan | negInf | posInf => exact Bool.noConfusion hfinite
  | case4 x hfinite =>
    refine iff_of_false (some_ne_none _) ?_
    rintro ⟨q, hq⟩
    rw [JsonValue.num.inj hq] at hfinite
    exact hfinite rfl
  | case6 x hinteger =>
    obtain ⟨n, rfl⟩ := isInteger_iff.mp hinteger
    exact iff_of_true rfl ⟨n, rfl⟩
  | case7 x hinteger =>
    refine iff_of_false (some_ne_none _) ?_
    rintro ⟨n, hn⟩
    exact hinteger (isInteger_iff.mpr ⟨n, JsonValue.num.inj hn⟩)
  | _ => simp_all [HasType]

section

variable (templates : Templates)

include templates

section

variable (schema : PropertySchema)

include schema

theorem enumError_eq_none_iff (value : JsonValue) :
    enumError templates schema value = none ↔
      ∀ allowed ∈ schema.enum, ∃ v ∈ allowed, v.same value = true := by
  unfold enumError
  cases schema.enum with
  | none => simp
  | some allowed => simp

theorem minimumError_eq_none_iff (value : JsonValue) :
    minimumError templates schema value = none ↔
      ∀ bound ∈ schema.minimum, ∀ x, value = .num x → ¬ x.lt bound = true := by
  unfold minimumError
  cases schema.minimum with
  | none => simp
  | some bound => cases value <;> simp

theorem maximumError_eq_none_iff (value : JsonValue) :
    maximumError templates schema value = none ↔
      ∀ bound ∈ schema.maximum, ∀ x, value = .num x → ¬ bound.lt x = true := by
  unfold maximumError
  cases schema.maximum with
  | none => simp
  | some bound => cases value <;> simp

theorem validateScalar_eq_nil_iff (value : JsonValue) (path : Utf16) :
    validateScalar templates schema value path = [] ↔ Satisfies schema value := by
  have htype := typeError_eq_none_iff schema.type value
  unfold validateScalar
  cases herror : typeError schema.type value with
  | some reason =>
    refine iff_of_false (cons_ne_nil _ _) fun h => ?_
    rw [htype.mpr h.type] at herror
    exact (some_ne_none reason herror.symm)
  | none =>
    simp only [map_eq_nil_iff, filterMap_eq_nil_iff, forall_mem_cons, id_eq,
      not_mem_nil, false_implies, implies_true, and_true]
    rw [enumError_eq_none_iff, minimumError_eq_none_iff, maximumError_eq_none_iff]
    exact ⟨fun h => ⟨htype.mp herror, h.1, h.2.1, h.2.2⟩, fun h => ⟨h.enum, h.minimum, h.maximum⟩⟩

end

end

variable {templates : Templates} {value : JsonValue}

theorem path_of_validateScalar {schema : PropertySchema} {path : Utf16} :
    ∀ d ∈ validateScalar templates schema value path, d.path = path := by
  intro d hd
  unfold validateScalar at hd
  split at hd
  · rw [mem_singleton.mp hd]
  · obtain ⟨reason, -, rfl⟩ := mem_map.mp hd
    rfl

/-! ### All members -/

theorem memberPath_injective : Function.Injective memberPath :=
  fun _ _ h => append_cancel_left h

/-- What the check finds a member to be: a key that is inherited counts as present and as known. -/
def Reported (schema : ToolSchema) (entries : List (Utf16 × JsonValue)) (key : Utf16) : Prop :=
  (key ∈ schema.required ∧ key ∉ keys entries ∧ key ∉ inheritedNames) ∨
    ∃ v, (key, v) ∈ entries ∧
      (schema.properties.lookup key = none ∧ key ∉ inheritedNames ∨
        ∃ property, schema.properties.lookup key = some property ∧ ¬ Satisfies property v)

theorem satisfies_anything (value : JsonValue) : Satisfies ⟨none, none, none, none⟩ value :=
  ⟨trivial, nofun, nofun, nofun⟩

theorem entryErrors_iff (templates : Templates) (schema : ToolSchema)
    (entry : Utf16 × JsonValue) (key : Utf16) :
    (∃ d ∈ entryErrors templates schema true entry, d.path = memberPath key) ↔
      entry.1 = key ∧ (schema.properties.lookup key = none ∧ key ∉ inheritedNames ∨
        ∃ property, schema.properties.lookup key = some property ∧
          ¬ Satisfies property entry.2) := by
  have hscalar : ∀ property, (∃ d ∈ validateScalar templates property entry.2 (memberPath entry.1),
      d.path = memberPath key) ↔ entry.1 = key ∧ ¬ Satisfies property entry.2 := by
    intro property
    rw [← validateScalar_eq_nil_iff templates property entry.2 (memberPath entry.1)]
    constructor
    · rintro ⟨d, hd, hpath⟩
      rw [path_of_validateScalar d hd] at hpath
      exact ⟨memberPath_injective hpath, ne_nil_of_mem hd⟩
    · rintro ⟨rfl, hne⟩
      obtain ⟨d, hd⟩ := exists_mem_of_ne_nil _ hne
      exact ⟨d, hd, path_of_validateScalar d hd⟩
  unfold entryErrors propertyOf
  cases hlookup : schema.properties.lookup entry.1 with
  | some property =>
    rw [hscalar]
    refine and_congr_right fun hkey => ?_
    rw [← hkey, hlookup]
    simp
  | none =>
    by_cases hinherited : entry.1 ∈ inheritedNames
    · simp only [if_pos hinherited]
      refine iff_of_false (fun h => ((hscalar _).mp h).2 (satisfies_anything _)) ?_
      rintro ⟨rfl, hnone | ⟨property, hsome, -⟩⟩
      · exact hnone.2 hinherited
      · rw [hlookup] at hsome
        exact (some_ne_none _ hsome.symm)
    · simp only [if_neg hinherited, if_true, mem_singleton, exists_eq_left]
      constructor
      · intro hpath
        obtain rfl := memberPath_injective hpath
        exact ⟨rfl, .inl ⟨hlookup, hinherited⟩⟩
      · rintro ⟨rfl, -⟩
        rfl

theorem requiredErrors_iff (schema : ToolSchema) (entries : List (Utf16 × JsonValue))
    (key : Utf16) :
    (∃ d ∈ requiredErrors schema entries, d.path = memberPath key) ↔
      key ∈ schema.required ∧ key ∉ keys entries ∧ key ∉ inheritedNames := by
  have hhas : (!has entries key) = true ↔ key ∉ keys entries ∧ key ∉ inheritedNames := by
    rw [Bool.not_eq_true', ← Bool.not_eq_true, has_iff, not_or]
  constructor
  · rintro ⟨d, hd, hpath⟩
    obtain ⟨other, hother, rfl⟩ := mem_map.mp hd
    obtain rfl := memberPath_injective hpath
    obtain ⟨hmem, hnot⟩ := mem_filter.mp hother
    exact ⟨mem_eraseDups.mp hmem, hhas.mp hnot⟩
  · rintro ⟨hmem, hnot⟩
    exact ⟨_, mem_map_of_mem (mem_filter.mpr ⟨mem_eraseDups.mpr hmem, hhas.mpr hnot⟩), rfl⟩

theorem argumentErrors_iff (templates : Templates) (schema : ToolSchema)
    (entries : List (Utf16 × JsonValue)) (key : Utf16) :
    (∃ d ∈ argumentErrors templates schema true entries, d.path = memberPath key) ↔
      Reported schema entries key := by
  unfold argumentErrors Reported
  simp only [mem_append, or_and_right, exists_or, requiredErrors_iff]
  refine or_congr_right ?_
  constructor
  · rintro ⟨d, hd, hpath⟩
    obtain ⟨entry, hentry, hmem⟩ := mem_flatMap.mp hd
    obtain ⟨rfl, hbad⟩ := (entryErrors_iff templates schema entry key).mp ⟨d, hmem, hpath⟩
    exact ⟨entry.2, hentry, hbad⟩
  · rintro ⟨v, hentry, hbad⟩
    obtain ⟨d, hd, hpath⟩ := (entryErrors_iff templates schema (key, v) key).mpr ⟨rfl, hbad⟩
    exact ⟨d, mem_flatMap.mpr ⟨_, hentry, hd⟩, hpath⟩

/-- The keys with inherited names are properties where the value has them, and the value has them
where they are required. -/
def NamesOwn (schema : ToolSchema) (value : JsonValue) : Prop :=
  ∀ entries, value = .obj entries → ∀ key ∈ inheritedNames,
    (key ∈ keys entries → (schema.properties.lookup key).isSome) ∧
      (key ∈ schema.required → key ∈ keys entries)

variable {schema : ToolSchema}

theorem not_instance_of_offends {key : Utf16} (h : Offends schema value key) :
    ¬ Instance schema value := by
  rintro ⟨entries, rfl, hentries, hrequired⟩
  obtain ⟨entries', heq, hbad⟩ := h
  obtain rfl := JsonValue.obj.inj heq
  rcases hbad with ⟨hmem, hnot⟩ | ⟨v, hv, hbad⟩
  · exact hnot (hrequired key hmem)
  · obtain ⟨property, hlookup, hsat⟩ := hentries _ hv
    exact hbad property hlookup hsat

variable {entries : List (Utf16 × JsonValue)}

theorem instance_of_no_offence (h : ∀ key, ¬ Offends schema (.obj entries) key) :
    Instance schema (.obj entries) := by
  refine ⟨entries, rfl, fun entry hentry => ?_, fun key hkey => ?_⟩
  · by_contra hnone
    refine h entry.1 ⟨entries, rfl, .inr ⟨entry.2, hentry, fun property hlookup hsat => ?_⟩⟩
    exact hnone ⟨property, hlookup, hsat⟩
  · by_contra hnot
    exact h key ⟨entries, rfl, .inl ⟨hkey, hnot⟩⟩

/-- What is found offends; and what offends is found where no name is inherited. -/
theorem reported_iff (h : NamesOwn schema (.obj entries)) (key : Utf16) :
    Reported schema entries key ↔ Offends schema (.obj entries) key := by
  have hown := h entries rfl key
  constructor
  · rintro (⟨hmem, hnot, -⟩ | ⟨v, hv, hbad⟩)
    · exact ⟨entries, rfl, .inl ⟨hmem, hnot⟩⟩
    · refine ⟨entries, rfl, .inr ⟨v, hv, fun property hlookup => ?_⟩⟩
      rcases hbad with ⟨hnone, -⟩ | ⟨property', hlookup', hunsat⟩
      · rw [hnone] at hlookup
        exact absurd hlookup.symm (some_ne_none _)
      · rw [hlookup] at hlookup'
        exact some.inj hlookup' ▸ hunsat
  · rintro ⟨entries', heq, hbad⟩
    obtain rfl := JsonValue.obj.inj heq
    rcases hbad with ⟨hmem, hnot⟩ | ⟨v, hv, hbad⟩
    · exact .inl ⟨hmem, hnot, fun hinherited => hnot ((hown hinherited).2 hmem)⟩
    · refine .inr ⟨v, hv, ?_⟩
      cases hlookup : schema.properties.lookup key with
      | some property => exact .inr ⟨property, rfl, hbad property hlookup⟩
      | none =>
        refine .inl ⟨rfl, fun hinherited => ?_⟩
        have hsome := (hown hinherited).1 (mem_map_of_mem hv)
        rw [hlookup] at hsome
        exact Bool.noConfusion hsome

theorem validate_obj (templates : Templates) (schema : ToolSchema)
    (entries : List (Utf16 × JsonValue)) :
    validateToolArguments templates schema (.obj entries) true =
      if argumentErrors templates schema true entries = [] then .ok (.obj entries)
      else .error ⟨ascii "tool arguments failed validation",
        argumentErrors templates schema true entries⟩ := rfl

theorem path_of_argumentErrors :
    ∀ d ∈ argumentErrors templates schema true entries, ∃ key, d.path = memberPath key := by
  intro d hd
  rcases mem_append.mp hd with hd | hd
  · obtain ⟨key, -, rfl⟩ := mem_map.mp hd
    exact ⟨key, rfl⟩
  · obtain ⟨entry, -, hd⟩ := mem_flatMap.mp hd
    refine ⟨entry.1, ?_⟩
    unfold entryErrors at hd
    split at hd
    · rw [mem_singleton.mp hd]
    · exact path_of_validateScalar d hd

theorem argumentErrors_eq_nil_iff (templates : Templates) (schema : ToolSchema)
    (entries : List (Utf16 × JsonValue)) :
    argumentErrors templates schema true entries = [] ↔ ∀ key, ¬ Reported schema entries key := by
  constructor
  · intro hnil key hfound
    obtain ⟨d, hd, -⟩ := (argumentErrors_iff templates schema entries key).mpr hfound
    rw [hnil] at hd
    exact absurd hd not_mem_nil
  · intro hnone
    by_contra hne
    obtain ⟨d, hd⟩ := exists_mem_of_ne_nil _ hne
    obtain ⟨key, hkey⟩ := path_of_argumentErrors d hd
    exact hnone key ((argumentErrors_iff templates schema entries key).mp ⟨d, hd, hkey⟩)

theorem validates_of_not_object (h : ∀ entries, value ≠ .obj entries) :
    Validates templates schema value := by
  have herror : validateToolArguments templates schema value true =
      .error ⟨ascii "tool arguments must be an object",
        [⟨ascii "$", ascii "expected object"⟩]⟩ := by
    unfold validateToolArguments
    split
    case h_1 entries => exact absurd rfl (h entries)
    case h_2 => rfl
  have hinstance : ¬ Instance schema value := fun ⟨entries, heq, _⟩ => h entries heq
  rw [Validates, herror]
  refine ⟨iff_of_false nofun hinstance, fun _ => ⟨_, rfl, fun key => ?_⟩⟩
  refine iff_of_false ?_ fun ⟨entries, heq, _⟩ => h entries heq
  rintro ⟨d, hd, hpath⟩
  rw [mem_singleton.mp hd] at hpath
  have hlen := congrArg length hpath
  have hprefix : (ascii "$.").length = 2 := rfl
  have hdollar : (ascii "$").length = 1 := rfl
  rw [memberPath, length_append, hdollar] at hlen
  omega

theorem reported_of_offends (h : Validates templates schema (.obj entries)) {key : Utf16}
    (hoffends : Offends schema (.obj entries) key) : Reported schema entries key := by
  obtain ⟨error, herror, hpaths⟩ := h.2 (not_instance_of_offends hoffends)
  rw [validate_obj] at herror
  split at herror
  case isTrue => exact nomatch herror
  case isFalse =>
    rw [← Except.error.inj herror] at hpaths
    exact (argumentErrors_iff templates schema entries key).mp ((hpaths key).mpr hoffends)

theorem namesOwn_of_validates (h : Validates templates schema value) : NamesOwn schema value := by
  rintro entries rfl key hinherited
  constructor
  · intro hkey
    obtain ⟨entry, hentry, rfl⟩ := mem_map.mp hkey
    by_contra hnone
    rw [not_isSome_iff_eq_none] at hnone
    have hoffends : Offends schema (.obj entries) entry.1 :=
      ⟨entries, rfl, .inr ⟨entry.2, hentry, fun property hlookup => by
        rw [hnone] at hlookup
        exact absurd hlookup.symm (some_ne_none _)⟩⟩
    rcases reported_of_offends h hoffends with
      ⟨-, -, hnot⟩ | ⟨v, -, ⟨-, hnot⟩ | ⟨property, hsome, -⟩⟩
    · exact hnot hinherited
    · exact hnot hinherited
    · rw [hnone] at hsome
      exact absurd hsome.symm (some_ne_none _)
  · intro hrequired
    by_contra hmissing
    rcases reported_of_offends h ⟨entries, rfl, .inl ⟨hrequired, hmissing⟩⟩ with
      ⟨-, -, hnot⟩ | ⟨v, hv, -⟩
    · exact hnot hinherited
    · exact hmissing (mem_map_of_mem hv)

theorem validates_of_namesOwn (templates : Templates) (h : NamesOwn schema (.obj entries)) :
    Validates templates schema (.obj entries) := by
  have hnil : argumentErrors templates schema true entries = [] ↔
      Instance schema (.obj entries) := by
    rw [argumentErrors_eq_nil_iff]
    refine ⟨fun hnone => instance_of_no_offence fun key hoffends => ?_, fun hinst key hfound => ?_⟩
    · exact hnone key ((reported_iff h key).mpr hoffends)
    · exact not_instance_of_offends ((reported_iff h key).mp hfound) hinst
  rw [Validates, validate_obj, ← hnil]
  split
  case isTrue herrors => exact ⟨iff_of_true rfl herrors, fun hne => absurd herrors hne⟩
  case isFalse herrors =>
    refine ⟨iff_of_false nofun herrors, fun _ => ⟨_, rfl, fun key => ?_⟩⟩
    rw [← reported_iff h key]
    exact argumentErrors_iff templates schema entries key

/-- The check accepts just the instances of the schema, and names what offends, where no key of an
object has an inherited name that is unknown, or required and missing. -/
theorem validates_iff (templates : Templates) (schema : ToolSchema) (value : JsonValue) :
    Validates templates schema value ↔ NamesOwn schema value := by
  refine ⟨namesOwn_of_validates, fun h => ?_⟩
  by_cases hobject : ∃ entries, value = .obj entries
  · obtain ⟨entries, rfl⟩ := hobject
    exact validates_of_namesOwn templates h
  · exact validates_of_not_object fun entries heq => hobject ⟨entries, heq⟩

/-- A schema with no properties accepts a member `toString`, and takes `constructor` for present. -/
theorem inherited_names_accepted :
    let templates : Templates := ⟨fun _ => [], fun _ => []⟩
    let schema : ToolSchema := ⟨[], [ascii "constructor"]⟩
    let value : JsonValue := .obj [(ascii "toString", .null)]
    validateToolArguments templates schema value true = .ok value ∧ ¬ Instance schema value := by
  intro templates schema value
  have hnone : argumentErrors templates schema true [(ascii "toString", .null)] = [] := by decide
  have hoffends : Offends schema value (ascii "constructor") :=
    ⟨_, rfl, .inl ⟨mem_cons_self, by decide⟩⟩
  exact ⟨(validate_obj templates schema _).trans (if_pos hnone), not_instance_of_offends hoffends⟩

end Ds4Studio.Web.Arguments

import Ds4Studio.Crawl.ManifestParser

/-!
The source that a manifest gives. The contents of its succeeded pages are put behind one another
while the manifest is read, as far as the budget goes.
-/

namespace Ds4Studio.Crawl.Grounding

open Bytes Json List

/-! ### The pages -/

structure Gathered where
  source : Bytes
  foundContent : Bool
  truncated : Bool

namespace Gathered

def empty : Gathered := ⟨[], false, false⟩

/-- `ds4_has_nonspace` -/
def hasNonspace (text : Bytes) : Bool := (cstr text).any fun byte => !Bytes.isSpace byte

def validCodepointLength (text : Bytes) : ℕ :=
  let lead := text.getD 0 0
  let length := if lead < 0x80 then 1 else if lead < 0xe0 then 2 else if lead < 0xf0 then 3 else 4
  if length ≤ text.length then length else 0

def separator : Bytes := str "\n\n--- PAGE BREAK ---\n\n"

/-- The loop of `ds4_append_page` over what is left of the content. -/
def appendCharacters (maxBytes : ℕ) : ℕ → Gathered → Bytes → Gathered
  | 0, g, _ => g
  | fuel + 1, g, content =>
      if content = [] then g
      else
        let length := validCodepointLength content
        if length = 0 ∨ maxBytes - g.source.length < length then { g with truncated := true }
        else
          appendCharacters maxBytes fuel { g with source := g.source ++ content.take length }
            (content.drop length)

def appendPage (maxBytes : ℕ) (g : Gathered) (content : Bytes) : Gathered :=
  if g.truncated then g
  else if 0 < g.source.length then
    let needed := separator.length + validCodepointLength content
    if maxBytes - g.source.length < needed then { g with truncated := true }
    else
      appendCharacters maxBytes content.length { g with source := g.source ++ separator } content
  else appendCharacters maxBytes content.length g content

end Gathered

/-- The members of a page that count. -/
structure PageMembers where
  state : Option DecodedString
  content : Option DecodedString

def PageMembers.setState (page : PageMembers) (replacement : DecodedString) : PageMembers :=
  { page with state := some replacement }

def PageMembers.setContent (page : PageMembers) (replacement : DecodedString) : PageMembers :=
  { page with content := some replacement }

/-- What stands behind the colon of a page's member. -/
def pageValue (depth : ℕ) (key : DecodedString) : Reader PageMembers := fun page s =>
  if key.equals "state" ∧ s.head? = some 0x22 then
    (parseString s).map fun r => (page.setState r.1, r.2)
  else if key.equals "content" ∧ s.head? = some 0x22 then
    (parseString s).map fun r => (page.setContent r.1, r.2)
  else passOver (parseValue (levelsAt (depth + 1))) page s

/-- The end of `ds4_parse_page`; there is none where the content has a zero character. -/
def finishPage (maxBytes : ℕ) (g : Gathered) (page : PageMembers) : Option Gathered :=
  match page.state, page.content with
  | some state, some content =>
      if state.equals "succeeded" then
        if content.containsNul then none
        else if Gathered.hasNonspace content.data then
          some ({ g with foundContent := true }.appendPage maxBytes content.data)
        else some g
      else some g
  | _, _ => some g

def parsePage (maxBytes depth : ℕ) : Reader Gathered := fun g s => do
  let (page, s) ← parseContainer "page object" 0x7d (parseMember "page" (pageValue depth))
    ⟨none, none⟩ s.tail
  match finishPage maxBytes g page with
  | some g => .ok (g, s)
  | none => fail s "NUL is not supported in succeeded page content"

def pagesItem (maxBytes depth : ℕ) : Reader Gathered := fun g s =>
  if s.head? = some 0x7b then parsePage maxBytes (depth + 1) g s
  else passOver (parseValue (levelsAt (depth + 1))) g s

def parsePages (maxBytes depth : ℕ) : Reader Gathered := fun g s =>
  parseContainer "pages array" 0x5d (pagesItem maxBytes depth) g s.tail

/-- What stands behind the colon of a member of the root. -/
def rootValue (maxBytes : ℕ) (key : DecodedString) : Reader Gathered := fun g s =>
  if key.equals "pages" ∧ s.head? = some 0x5b then parsePages maxBytes 1 g s
  else passOver (parseValue (levelsAt 1)) g s

def parseRootObject (maxBytes : ℕ) : Reader Gathered := fun g s =>
  parseContainer "root object" 0x7d (parseMember "root" (rootValue maxBytes)) g s.tail

/-! ### The source -/

inductive CrawlSource where
  | ok (source : Bytes) (truncated : Bool)
  | invalid (err : Bytes)
  | empty

/-- The text of an error, as far as the buffer goes. -/
def ParseError.message (e : ParseError) (manifestLength errLen : ℕ) : Bytes :=
  (str "invalid JSON at byte " ++ str (toString (manifestLength - e.left)) ++ str ": " ++
    str e.text).take (errLen - 1)

/-- `ds4_crawl_extract_source` with places for its results. -/
def crawlExtractSource (manifest : Option Bytes) (maxBytes errLen : ℕ) : CrawlSource :=
  match manifest with
  | none => .empty
  | some manifest =>
      let s := cstr manifest
      let t := skipSpace s
      let parsed :=
        if t.head? = some 0x7b then parseRootObject maxBytes .empty t
        else passOver (parseValue (levelsAt 0)) .empty t
      match parsed with
      | .error e => .invalid (e.message s.length errLen)
      | .ok (g, rest) =>
          let rest := skipSpace rest
          if rest ≠ [] then .invalid (ParseError.message ⟨rest.length, "trailing data"⟩ s.length errLen)
          else if g.foundContent then .ok g.source g.truncated
          else .empty

/-! ### What a manifest says -/

/-- The last text that stands behind a key. -/
def lastText (key : String) (ms : List (Bytes × Doc)) : Option Bytes :=
  (ms.filterMap fun (k, d) =>
    match d with
    | .string text => if k = str key then some text else none
    | _ => none).getLast?

/-- The content of a page that has succeeded. -/
def succeededContent : Doc → Option Bytes
  | .object ms => if lastText "state" ms = some (str "succeeded") then lastText "content" ms else none
  | _ => none

/-- What the root's arrays of pages hold. -/
def rootPages : Doc → List Doc
  | .object ms => ms.flatMap fun (k, d) =>
      match d with
      | .array ds => if k = str "pages" then ds else []
      | _ => []
  | _ => []

def succeededContents (d : Doc) : List Bytes := (rootPages d).filterMap succeededContent

/-- The contents that make up the source. -/
def contents (d : Doc) : List Bytes :=
  (succeededContents d).filter fun text => !text.all Bytes.isSpace

def HasNul (d : Doc) : Prop := ∃ content ∈ succeededContents d, (0 : UInt8) ∈ content

/-! ### Members of a page -/

section Switch

variable {σ : Type} {inside : Doc → Bytes → Prop} {special other : Reader σ}
  {effect : σ → Doc → Option σ} {first : UInt8}

/-- A reader for the values that start with a letter. -/
structure ReadsAt (inside : Doc → Bytes → Prop) (first : UInt8) (special : Reader σ)
    (effect : σ → Doc → Option σ) : Prop where
  sound : ∀ {st t st' s'}, special st (first :: t) = .ok (st', s') →
    ∃ d text, inside d text ∧ first :: t = text ++ s' ∧ effect st d = some st'
  complete : ∀ {st d t st' s'}, inside d (first :: t) → effect st d = some st' →
    special st (first :: t ++ s') = .ok (st', s')

theorem ReadsAt.switch (hspecial : ReadsAt inside first special effect)
    (hother : Reads inside other fun st _ => some st)
    (hplain : ∀ {st d c t}, inside d (c :: t) → c ≠ first → effect st d = some st) :
    Reads inside (fun st s => if s.head? = some first then special st s else other st s) effect where
  head := hother.head
  sound := by
    intro st s st' s' hs hok
    split_ifs at hok with hfirst
    · obtain ⟨t, rfl⟩ := head?_eq_some_iff.mp hfirst
      exact hspecial.sound hok
    · obtain ⟨d, text, hd, rfl, hst⟩ := hother.sound hs hok
      obtain ⟨c, t, rfl, -⟩ := hother.head hd
      refine ⟨d, _, hd, rfl, ?_⟩
      rw [← hst]
      exact hplain hd fun hc => hfirst (by rw [hc]; rfl)
  complete := by
    intro st d text st' s' hd hs' heffect
    obtain ⟨c, t, rfl, -⟩ := hother.head hd
    by_cases hc : c = first
    · subst hc
      rw [if_pos (by rfl)]
      exact hspecial.complete hd heffect
    · rw [hplain hd hc] at heffect
      rw [if_neg (by simpa using hc)]
      exact hother.complete hd hs' heffect

end Switch

theorem reads_passOver {σ : Type} (levels : ℕ) :
    Reads (Written levels) (passOver (σ := σ) (parseValue levels)) fun st _ => some st :=
  (readsOver_parseValue levels).reads

/-- The effect of keeping a string. -/
def keepText {σ : Type} (keep : σ → DecodedString → σ) (st : σ) : Doc → Option σ
  | .string text => some (keep st (ofText text))
  | _ => some st

theorem reads_string {σ : Type} (levels : ℕ) (keep : σ → DecodedString → σ) :
    Reads (Written levels) (fun st s => if s.head? = some 0x22 then
        (parseString s).map fun r => (keep st r.1, r.2)
      else passOver (parseValue levels) st s) (keepText keep) := by
  refine ReadsAt.switch ⟨?_, ?_⟩ (reads_passOver levels) ?_
  · intro st t st' s' hok
    obtain ⟨⟨decoded, rest⟩, hstring, heq⟩ := map_eq_ok.mp hok
    obtain ⟨b, text, hs, hb, rfl⟩ := parseString_sound hstring
    obtain ⟨rfl, rfl⟩ := Prod.mk.inj heq
    refine ⟨.string text, _, written_string_iff.mpr ⟨b, hb, rfl⟩, ?_, rfl⟩
    rw [hs]
    simp
  · intro st d t st' s' hd heffect
    obtain ⟨text, rfl⟩ := hd.head_cons.eq_string
    obtain ⟨b, hb, heq⟩ := written_string_iff.mp hd
    have hstring := parseString_complete hb s'
    refine map_eq_ok.mpr ⟨(ofText text, s'), ?_, ?_⟩
    · rw [heq]
      simpa using hstring
    · rw [← Option.some.inj heffect]
  · intro st d c t hd hc
    cases d with
    | string text => cases hd.head_cons; exact absurd rfl hc
    | atom | array _ | object _ => rfl

/-- What the members of a page leave behind. -/
def pageEffect (page : PageMembers) : Bytes × Doc → Option PageMembers
  | (key, d) =>
      if key = str "state" then keepText PageMembers.setState page d
      else if key = str "content" then keepText PageMembers.setContent page d
      else some page

theorem reads_pageValue (depth : ℕ) (key : Bytes) :
    Reads (Written (levelsAt (depth + 1))) (pageValue depth (ofText key))
      fun page d => pageEffect page (key, d) := by
  have hstate := ofText_equals key "state" (by decide)
  have hcontent := ofText_equals key "content" (by decide)
  have hne : str "content" ≠ str "state" := by decide
  unfold pageValue pageEffect
  by_cases hs : key = str "state"
  · have hc : ¬key = str "content" := fun hc => hne (hc.symm.trans hs)
    simp only [hstate.mpr hs, mt hcontent.mp hc, true_and, Bool.false_eq_true, false_and, if_false,
      if_pos hs]
    exact reads_string _ PageMembers.setState
  · by_cases hc : key = str "content"
    · simp only [mt hstate.mp hs, hcontent.mpr hc, true_and, Bool.false_eq_true, false_and, if_false,
        if_neg hs, if_pos hc]
      exact reads_string _ PageMembers.setContent
    · simp only [mt hstate.mp hs, mt hcontent.mp hc, Bool.false_eq_true, false_and, if_false,
        if_neg hs, if_neg hc]
      exact reads_passOver _

/-! ### Pages -/

theorem lastText_concat (key : String) (ms : List (Bytes × Doc)) (k : Bytes) (d : Doc) :
    lastText key (ms ++ [(k, d)]) = match d with
      | .string text => if k = str key then some text else lastText key ms
      | _ => lastText key ms := by
  unfold lastText
  cases d with
  | string text =>
    by_cases hk : k = str key
    · simp [hk]
    · simp [hk]
  | atom | array _ | object _ => simp

theorem foldlM_pageEffect (ms : List (Bytes × Doc)) :
    ms.foldlM pageEffect ⟨none, none⟩ =
      some ⟨(lastText "state" ms).map ofText, (lastText "content" ms).map ofText⟩ := by
  have hne : str "content" ≠ str "state" := by decide
  induction ms using reverseRecOn with
  | nil => rfl
  | append_singleton ms m ih =>
    obtain ⟨k, d⟩ := m
    rw [foldlM_append, ih]
    simp only [lastText_concat, foldlM_cons, foldlM_nil]
    cases d with
    | string text =>
      by_cases hs : k = str "state"
      · have hc : ¬k = str "content" := fun hc => hne (hc.symm.trans hs)
        simp [pageEffect, keepText, hs, hne.symm, PageMembers.setState]
      · by_cases hc : k = str "content"
        · simp [pageEffect, keepText, hc, hne, PageMembers.setContent]
        · simp [pageEffect, hs, hc]
    | atom | array _ | object _ => simp [pageEffect, keepText]

/-- What a content does to what has been gathered. -/
def gather (maxBytes : ℕ) (g : Gathered) (content : Bytes) : Option Gathered :=
  if 0 ∈ content then none
  else if content.all Bytes.isSpace then some g
  else some ({ g with foundContent := true }.appendPage maxBytes content)

variable {content : Bytes}

theorem ofText_data (h : (0 : UInt8) ∉ content) : (ofText content).data = content := by
  refine filter_eq_self.mpr fun c hc => ?_
  simp only [ne_eq, decide_not, Bool.not_eq_true', decide_eq_false_iff_not]
  rintro rfl
  exact h hc

theorem hasNonspace_eq (h : (0 : UInt8) ∉ content) :
    Gathered.hasNonspace content = !content.all Bytes.isSpace := by
  have hcstr : cstr content = content := by
    refine takeWhile_eq_self_iff.mpr fun c hc => ?_
    simp only [ne_eq, decide_not, Bool.not_eq_true', decide_eq_false_iff_not]
    rintro rfl
    exact h hc
  rw [Gathered.hasNonspace, hcstr, not_all_eq_any_not]

theorem finishPage_eq (maxBytes : ℕ) (g : Gathered) (state content : Option Bytes) :
    finishPage maxBytes g ⟨state.map ofText, content.map ofText⟩ =
      match (if state = some (str "succeeded") then content else none) with
      | some content => gather maxBytes g content
      | none => some g := by
  cases state with
  | none => simp [finishPage]
  | some state =>
    have hsucceeded := ofText_equals state "succeeded" (by decide)
    cases content with
    | none => simp [finishPage]
    | some content =>
      simp only [finishPage, Option.map_some, Option.some.injEq]
      by_cases hstate : state = str "succeeded"
      · rw [if_pos (hsucceeded.mpr hstate), if_pos hstate]
        unfold gather
        by_cases hzero : (0 : UInt8) ∈ content
        · simp [ofText, DecodedString.put, hzero]
        · have hnul : (ofText content).containsNul = false := by
            simpa [ofText, DecodedString.put] using hzero
          simp only [ofText_data hzero, hasNonspace_eq hzero, if_neg hzero, hnul]
          by_cases hall : content.all Bytes.isSpace = true
          · simp [hall]
          · simp [hall]
      · rw [if_neg (mt hsucceeded.mp hstate), if_neg hstate]

/-- What a page does. -/
def pageStep (maxBytes : ℕ) (g : Gathered) (d : Doc) : Option Gathered :=
  match succeededContent d with
  | some content => gather maxBytes g content
  | none => some g

theorem reads_pagesItem (maxBytes : ℕ) :
    Reads (Written (levelsAt 2)) (pagesItem maxBytes 1) (pageStep maxBytes) := by
  have hpage := reads_parseMember (reads_pageValue 2) "page"
  have hlevels : levelsAt 2 = levelsAt 3 + 1 := rfl
  refine ReadsAt.switch ⟨?_, ?_⟩ (reads_passOver (levelsAt 2)) ?_
  · intro g t g' s' hok
    obtain ⟨⟨page, rest⟩, hcontainer, hfinish⟩ := bind_eq_ok.mp hok
    obtain ⟨ms, text, hms, ht, hfold⟩ := hpage.parseContainer_sound hcontainer
    rw [foldlM_pageEffect, Option.some.injEq] at hfold
    simp only [← hfold, finishPage_eq] at hfinish
    split at hfinish
    · rename_i g₁ heq
      obtain ⟨rfl, rfl⟩ := hfinish
      refine ⟨.object ms, 0x7b :: text, ?_, ?_, heq⟩
      · rw [hlevels]
        exact written_object_iff.mpr ⟨text, rfl, hms⟩
      · rw [cons_append, ← ht]
        rfl
    · cases hfinish
  · intro g d t g' s' hd heffect
    obtain ⟨ms, rfl⟩ := hd.head_cons.eq_object
    obtain ⟨t', ht', hms⟩ := written_object_iff.mp hd
    obtain ⟨rfl⟩ := (cons.inj ht').2
    have hcontainer := hpage.parseContainer_complete "page object" (.inr rfl) hms
      (foldlM_pageEffect ms) s'
    refine bind_eq_ok.mpr ⟨_, hcontainer, ?_⟩
    simp only [finishPage_eq]
    change (match pageStep maxBytes g (.object ms) with | some g => _ | none => _) = _
    rw [heffect]
  · intro g d c t hd hc
    cases d with
    | object ms => cases hd.head_cons; exact absurd rfl hc
    | atom | array _ | string _ => rfl

/-- What a member of the root does. -/
def rootStep (maxBytes : ℕ) (g : Gathered) : Bytes × Doc → Option Gathered
  | (key, .array ds) => if key = str "pages" then ds.foldlM (pageStep maxBytes) g else some g
  | _ => some g

theorem reads_rootValue (maxBytes : ℕ) (key : Bytes) :
    Reads (Written (levelsAt 1)) (rootValue maxBytes (ofText key))
      fun g d => rootStep maxBytes g (key, d) := by
  have hpages := ofText_equals key "pages" (by decide)
  have hlevels : levelsAt 1 = levelsAt 2 + 1 := rfl
  unfold rootValue
  by_cases hkey : key = str "pages"
  · simp only [hpages.mpr hkey, true_and]
    refine ReadsAt.switch ⟨?_, ?_⟩ (reads_passOver (levelsAt 1)) ?_
    · intro g t g' s' hok
      obtain ⟨ds, text, hds, ht, hfold⟩ := (reads_pagesItem maxBytes).parseContainer_sound hok
      refine ⟨.array ds, 0x5b :: text, ?_, ?_, ?_⟩
      · rw [hlevels]
        exact written_array_iff.mpr ⟨text, rfl, hds⟩
      · rw [cons_append, ← ht]
        rfl
      · simpa [rootStep, hkey] using hfold
    · intro g d t g' s' hd heffect
      obtain ⟨ds, rfl⟩ := hd.head_cons.eq_array
      obtain ⟨t', ht', hds⟩ := written_array_iff.mp hd
      obtain ⟨rfl⟩ := (cons.inj ht').2
      simp only [rootStep, if_pos hkey] at heffect
      exact (reads_pagesItem maxBytes).parseContainer_complete _ (.inl rfl) hds heffect s'
    · intro g d c t hd hc
      cases d with
      | array ds => cases hd.head_cons; exact absurd rfl hc
      | atom | object _ | string _ => rfl
  · have hplain : (fun (g : Gathered) d => rootStep maxBytes g (key, d)) = fun g _ => some g := by
      funext g d
      cases d with
      | array ds => simp [rootStep, hkey]
      | atom | object _ | string _ => rfl
    simp only [mt hpages.mp hkey, Bool.false_eq_true, false_and, if_false]
    rw [hplain]
    exact reads_passOver _

/-! ### The root -/

theorem foldlM_pageStep (maxBytes : ℕ) (ds : List Doc) (g : Gathered) :
    ds.foldlM (pageStep maxBytes) g = (ds.filterMap succeededContent).foldlM (gather maxBytes) g := by
  induction ds generalizing g with
  | nil => rfl
  | cons d ds ih =>
    rw [foldlM_cons, filterMap_cons]
    unfold pageStep
    cases succeededContent d with
    | none => exact ih g
    | some content => exact bind_congr fun g => ih g

theorem foldlM_rootStep (maxBytes : ℕ) (ms : List (Bytes × Doc)) (g : Gathered) :
    ms.foldlM (rootStep maxBytes) g =
      (succeededContents (.object ms)).foldlM (gather maxBytes) g := by
  rw [succeededContents, ← foldlM_pageStep]
  induction ms generalizing g with
  | nil => rfl
  | cons m ms ih =>
    obtain ⟨key, d⟩ := m
    have hpages : rootPages (.object ((key, d) :: ms)) = (match d with
        | .array ds => if key = str "pages" then ds else []
        | _ => []) ++ rootPages (.object ms) := by
      simp only [rootPages, flatMap_cons]
    rw [foldlM_cons, hpages, foldlM_append]
    cases d with
    | array ds =>
      by_cases hkey : key = str "pages"
      · simp only [rootStep, if_pos hkey]
        exact bind_congr fun g => ih g
      · simp only [rootStep, if_neg hkey]
        exact ih g
    | atom | object _ | string _ => exact ih g

/-- What a value at the root does. -/
def rootEffect (maxBytes : ℕ) (g : Gathered) (d : Doc) : Option Gathered :=
  (succeededContents d).foldlM (gather maxBytes) g

theorem reads_root (maxBytes : ℕ) : Reads (Written (levelsAt 0))
    (fun g s => if s.head? = some 0x7b then parseRootObject maxBytes g s
      else passOver (parseValue (levelsAt 0)) g s) (rootEffect maxBytes) := by
  have hmembers := reads_parseMember (reads_rootValue maxBytes) "root"
  have hlevels : levelsAt 0 = levelsAt 1 + 1 := rfl
  refine ReadsAt.switch ⟨?_, ?_⟩ (reads_passOver (levelsAt 0)) ?_
  · intro g t g' s' hok
    obtain ⟨ms, text, hms, ht, hfold⟩ := hmembers.parseContainer_sound hok
    refine ⟨.object ms, 0x7b :: text, ?_, ?_, ?_⟩
    · rw [hlevels]
      exact written_object_iff.mpr ⟨text, rfl, hms⟩
    · rw [cons_append, ← ht]
      rfl
    · rw [rootEffect, ← foldlM_rootStep]
      exact hfold
  · intro g d t g' s' hd heffect
    obtain ⟨ms, rfl⟩ := hd.head_cons.eq_object
    obtain ⟨t', ht', hms⟩ := written_object_iff.mp hd
    obtain ⟨rfl⟩ := (cons.inj ht').2
    rw [rootEffect, ← foldlM_rootStep] at heffect
    exact hmembers.parseContainer_complete _ (.inr rfl) hms heffect s'
  · intro g d c t hd hc
    cases d with
    | object ms => cases hd.head_cons; exact absurd rfl hc
    | atom | array _ | string _ => rfl

variable {maxBytes : ℕ} {g : Gathered} {s : Bytes} {d : Doc}

theorem parsed_complete (htext : IsText (levelsAt 0) d s)
    (heffect : rootEffect maxBytes .empty d = some g) :
    ∃ rest, Ws rest ∧ (if (skipSpace s).head? = some 0x7b then
      parseRootObject maxBytes .empty (skipSpace s)
      else passOver (parseValue (levelsAt 0)) .empty (skipSpace s)) = .ok (g, rest) := by
  obtain ⟨ws, value, rest, hws, hrest, hvalue, rfl⟩ := htext
  obtain ⟨c, t, rfl, hc⟩ := hvalue.head
  have hskip : skipSpace (ws ++ (c :: t ++ rest)) = c :: t ++ rest := skipSpace_cons hws hc.opens.1 _
  have hdelimited : Delimited rest := fun x hx => .inl (hrest.spaces x (mem_of_mem_head? hx))
  rw [hskip]
  exact ⟨rest, hrest, (reads_root maxBytes).complete hvalue hdelimited heffect⟩

theorem crawlExtractSource_complete {manifest : Bytes}
    (htext : IsText (levelsAt 0) d (cstr manifest))
    (heffect : rootEffect maxBytes .empty d = some g) (errLen : ℕ) :
    crawlExtractSource (some manifest) maxBytes errLen =
      if g.foundContent then .ok g.source g.truncated else .empty := by
  obtain ⟨rest, hrest, hparsed⟩ := parsed_complete htext heffect
  have hskip := skipSpace_append hrest (s := []) (by simp)
  rw [append_nil] at hskip
  unfold crawlExtractSource
  simp only [hparsed, hskip]
  rfl

theorem crawlExtractSource_sound {manifest : Bytes} {maxBytes errLen : ℕ}
    (h : ¬∃ err, crawlExtractSource (some manifest) maxBytes errLen = .invalid err) :
    ∃ d g, IsText (levelsAt 0) d (cstr manifest) ∧ rootEffect maxBytes .empty d = some g := by
  obtain ⟨ws, hws, hs⟩ := ws_skipSpace (cstr manifest)
  unfold crawlExtractSource at h
  simp only at h
  cases hparsed : (if (skipSpace (cstr manifest)).head? = some 0x7b then
      parseRootObject maxBytes .empty (skipSpace (cstr manifest))
      else passOver (parseValue (levelsAt 0)) .empty (skipSpace (cstr manifest))) with
  | error e =>
    rw [hparsed] at h
    exact absurd ⟨_, rfl⟩ h
  | ok r =>
    obtain ⟨g, rest⟩ := r
    rw [hparsed] at h
    obtain ⟨d, value, hvalue, ht, heffect⟩ := (reads_root maxBytes).sound (skipSpace_head _) hparsed
    obtain ⟨ws', hws', hrest⟩ := ws_skipSpace rest
    by_cases hbehind : skipSpace rest = []
    · rw [hbehind, append_nil] at hrest
      refine ⟨d, g, ⟨ws, value, rest, hws, hrest ▸ hws', hvalue, ?_⟩, heffect⟩
      rw [← ht]
      exact hs
    · exact absurd ⟨_, if_pos hbehind⟩ h

/-! ### The cut -/

/-- The contents with the separator between them. -/
def joined (cs : List Bytes) : Bytes := intercalate Gathered.separator cs

/-- Where the source may be cut: in front of everything, and behind a character of a content. -/
def Fronts (cs : List Bytes) : Set Bytes :=
  { p | p = [] ∨ ∃ done front behind rest, cs = done ++ (front ++ behind) :: rest ∧ front ≠ [] ∧
    Utf8 front ∧ p = joined (done ++ [front]) }

/-- The longest front within the budget. -/
structure IsCut (maxBytes : ℕ) (cs : List Bytes) (source : Bytes) : Prop where
  front : source ∈ Fronts cs
  fits : source.length ≤ maxBytes
  longest : ∀ p ∈ Fronts cs, p.length ≤ maxBytes → p <+: source

variable {cs : List Bytes}

theorem joined_concat (h : cs ≠ []) (c : Bytes) :
    joined (cs ++ [c]) = joined cs ++ (Gathered.separator ++ c) := by
  induction cs with
  | nil => exact absurd rfl h
  | cons x cs ih =>
    cases cs with
    | nil => simp [joined, intercalate]
    | cons y cs =>
      have hrest := ih (by simp)
      simp only [joined, intercalate, cons_append, intersperse, flatten_cons,
        append_assoc] at hrest ⊢
      rw [hrest]

theorem joined_singleton (c : Bytes) : joined [c] = c := by simp [joined, intercalate]

theorem prefix_joined (cs rest : List Bytes) : joined cs <+: joined (cs ++ rest) := by
  induction rest generalizing cs with
  | nil => rw [append_nil]
  | cons c rest ih =>
    have hnext := ih (cs ++ [c])
    rw [append_assoc] at hnext
    refine List.IsPrefix.trans ?_ hnext
    by_cases hcs : cs = []
    · rw [hcs]
      exact nil_prefix
    · rw [joined_concat hcs]
      exact prefix_append _ _

theorem joined_front {done : List Bytes} {front behind : Bytes} :
    joined (done ++ [front]) <+: joined (done ++ [front ++ behind]) := by
  by_cases hdone : done = []
  · rw [hdone, nil_append, nil_append, joined_singleton, joined_singleton]
    exact prefix_append _ _
  · rw [joined_concat hdone, joined_concat hdone, ← append_assoc, ← append_assoc]
    rw [← append_assoc (joined done ++ Gathered.separator)]
    exact prefix_append _ _

theorem prefix_of_mem_fronts {p : Bytes} (h : p ∈ Fronts cs) : p <+: joined cs := by
  rcases h with rfl | ⟨done, front, behind, rest, rfl, -, -, rfl⟩
  · exact nil_prefix
  · have hrest := prefix_joined (done ++ [front ++ behind]) rest
    rw [append_assoc] at hrest
    exact joined_front.trans hrest

theorem joined_mem_fronts (hutf8 : ∀ c ∈ cs, Utf8 c) (hne : ∀ c ∈ cs, c ≠ []) :
    joined cs ∈ Fronts cs := by
  rcases eq_nil_or_concat cs with rfl | ⟨done, c, rfl⟩
  · exact .inl rfl
  · have hc : c ∈ done.concat c := by simp
    refine .inr ⟨done, c, [], [], by simp, hne c hc, hutf8 c hc, ?_⟩
    rw [concat_eq_append]

theorem utf8_joined (h : ∀ c ∈ cs, Utf8 c) : Utf8 (joined cs) := by
  have hseparator : Utf8 Gathered.separator := Utf8.ascii (forall_of_all (by decide))
  induction cs using reverseRecOn with
  | nil => exact .nil
  | append_singleton cs c ih =>
    have hcs := ih fun x hx => h x (mem_append_left _ hx)
    have hc := h c (by simp)
    by_cases hnil : cs = []
    · rw [hnil, nil_append, joined_singleton]
      exact hc
    · rw [joined_concat hnil]
      exact hcs.append (hseparator.append hc)

theorem utf8_of_mem_fronts (h : ∀ c ∈ cs, Utf8 c) {p : Bytes} (hp : p ∈ Fronts cs) : Utf8 p := by
  rcases hp with rfl | ⟨done, front, behind, rest, rfl, -, hfront, rfl⟩
  · exact .nil
  · refine utf8_joined fun c hc => ?_
    rcases mem_append.mp hc with hc | hc
    · exact h c (mem_append_left _ hc)
    · rw [mem_singleton.mp hc]
      exact hfront

theorem mem_fronts_concat {c p : Bytes} : p ∈ Fronts (cs ++ [c]) ↔
    p ∈ Fronts cs ∨ ∃ front behind, c = front ++ behind ∧ front ≠ [] ∧ Utf8 front ∧
      p = joined (cs ++ [front]) := by
  constructor
  · rintro (rfl | ⟨done, front, behind, rest, hcs, hne, hutf8, rfl⟩)
    · exact .inl (.inl rfl)
    · rcases eq_nil_or_concat rest with rfl | ⟨rest, x, rfl⟩
      · obtain ⟨rfl, hc⟩ := append_inj' hcs rfl
        exact .inr ⟨front, behind, singleton_inj.mp hc, hne, hutf8, rfl⟩
      · rw [concat_eq_append, ← cons_append, ← append_assoc] at hcs
        obtain ⟨rfl, -⟩ := append_inj' hcs rfl
        exact .inl (.inr ⟨done, front, behind, rest, rfl, hne, hutf8, rfl⟩)
  · rintro ((rfl | ⟨done, front, behind, rest, rfl, hne, hutf8, rfl⟩) | ⟨front, behind, rfl, hne, hutf8, rfl⟩)
    · exact .inl rfl
    · exact .inr ⟨done, front, behind, rest ++ [c], by simp, hne, hutf8, rfl⟩
    · exact .inr ⟨cs, front, behind, [], rfl, hne, hutf8, rfl⟩

/-! ### Characters of a content -/

theorem validCodepointLength_put {cp : ℕ} (h : Scalar cp) (s : Bytes) :
    Gathered.validCodepointLength (utf8Put cp ++ s) = (utf8Put cp).length := by
  have hlength : ∀ (a : UInt8) (u : Bytes), (if a < 0x80 then 1 else if a < 0xe0 then 2
      else if a < 0xf0 then 3 else 4) = (a :: u).length →
      Gathered.validCodepointLength (a :: u ++ s) = (a :: u).length := by
    intro a u heq
    simp only [Gathered.validCodepointLength, cons_append, getD_cons_zero]
    rw [heq, if_pos (by simp)]
  by_cases hhigh : 0x80 ≤ cp
  · obtain ⟨a, u, hput, hu⟩ := completes_of_utf8Put h hhigh
    rw [hput]
    refine hlength a u ?_
    simp only [UInt8.lt_iff_toNat_lt, UInt8.reduceToNat]
    unfold Completes at hu
    split at hu
    · rw [if_neg (by omega), if_pos (by omega)]
      rfl
    · rw [if_neg (by omega), if_neg (by omega), if_pos (by omega)]
      rfl
    · rw [if_neg (by omega), if_neg (by omega), if_neg (by omega)]
      rfl
    · exact hu.elim
  · rw [utf8Put_ascii (by omega)]
    refine hlength _ [] (if_pos ?_)
    rw [UInt8.lt_iff_toNat_lt, toNat_of_ascii (by omega)]
    exact Nat.not_le.mp hhigh

theorem utf8_front_cases {cp : ℕ} (h : Scalar cp) {front behind : Bytes}
    (hs : utf8Put cp ++ s = front ++ behind) (hfront : Utf8 front) :
    front = [] ∨ ∃ front', front = utf8Put cp ++ front' ∧ Utf8 front' ∧ s = front' ++ behind := by
  cases hfront with
  | nil => exact .inl rfl
  | char cp' front' hcp' hfront' =>
    rw [append_assoc] at hs
    have hmax := h.le
    have hmax' := hcp'.le
    obtain ⟨rfl, hrest⟩ := utf8Put_append (by omega) (by omega) hs
    exact .inr ⟨front', rfl, hfront', hrest⟩

theorem utf8Put_ne_nil {cp : ℕ} (h : Scalar cp) : utf8Put cp ≠ [] := by
  rcases utf8Put_cases h with ⟨-, hput⟩ | ⟨-, hne, -⟩
  · simp [hput]
  · exact hne

theorem appendCharacters_spec (maxBytes : ℕ) (hcontent : Utf8 content) {fuel : ℕ}
    (hfuel : content.length ≤ fuel) (hroom : g.source.length ≤ maxBytes)
    (htruncated : g.truncated = false) :
    ∃ front behind, content = front ++ behind ∧ Utf8 front ∧
      g.appendCharacters maxBytes fuel content =
        { g with source := g.source ++ front, truncated := !behind.isEmpty } ∧
      (g.source ++ front).length ≤ maxBytes ∧
      ∀ front' behind', content = front' ++ behind' → Utf8 front' →
        (g.source ++ front').length ≤ maxBytes → front' <+: front := by
  induction hcontent generalizing fuel g with
  | nil =>
    refine ⟨[], [], rfl, .nil, ?_, by simpa using hroom, ?_⟩
    · cases fuel with
      | zero => simp [Gathered.appendCharacters, ← htruncated]
      | succ fuel => simp [Gathered.appendCharacters, ← htruncated]
    · intro front' behind' heq _ _
      rw [(append_eq_nil_iff.mp heq.symm).1]
  | char cp s hcp hs ih =>
    have hne := length_pos_of_ne_nil (utf8Put_ne_nil hcp)
    rw [length_append] at hfuel
    obtain ⟨fuel, rfl⟩ : ∃ f, fuel = f + 1 := ⟨fuel - 1, by omega⟩
    have hrest : s.length ≤ fuel := by omega
    rw [Gathered.appendCharacters, if_neg (by simp [utf8Put_ne_nil hcp])]
    simp only [validCodepointLength_put hcp]
    by_cases hfits : maxBytes - g.source.length < (utf8Put cp).length
    · rw [if_pos (.inr hfits)]
      refine ⟨[], utf8Put cp ++ s, rfl, .nil, ?_, by simpa using hroom, ?_⟩
      · simp [utf8Put_ne_nil hcp]
      · intro front' behind' heq hfront' hlength
        rcases utf8_front_cases hcp heq hfront' with rfl | ⟨front'', rfl, -, -⟩
        · exact nil_prefix
        · simp only [length_append] at hlength
          omega
    · rw [if_neg (by omega), take_left, drop_left]
      obtain ⟨front, behind, rfl, hfront, heq, hlength, hlongest⟩ := ih hrest
        (g := { g with source := g.source ++ utf8Put cp })
        (by simp only [length_append]; omega) htruncated
      simp only [append_assoc] at heq hlength hlongest
      refine ⟨utf8Put cp ++ front, behind, by simp, .char cp front hcp hfront, heq, hlength, ?_⟩
      intro front' behind' hsplit hfront' hlength'
      rcases utf8_front_cases hcp hsplit hfront' with rfl | ⟨front'', rfl, hfront'', hrest⟩
      · exact nil_prefix
      · exact (prefix_append_right_inj _).mpr (hlongest front'' behind' hrest hfront'' hlength')

/-! ### The budget -/

theorem isCut_nil (maxBytes : ℕ) : IsCut maxBytes [] [] := by
  refine ⟨.inl rfl, Nat.zero_le _, ?_⟩
  rintro p (rfl | ⟨_, _, _, _, hcs, -⟩) _
  · exact prefix_rfl
  · simp at hcs

/-- What has been gathered of some contents. -/
structure Holds (maxBytes : ℕ) (cs : List Bytes) (g : Gathered) : Prop where
  cut : IsCut maxBytes cs g.source
  truncated : g.truncated = true ↔ g.source ≠ joined cs
  found : g.foundContent = true ↔ cs ≠ []

theorem length_lt_joined (cs : List Bytes) {c : Bytes} (hc : c ≠ []) :
    (joined cs).length < (joined (cs ++ [c])).length := by
  have hpos := length_pos_of_ne_nil hc
  by_cases hcs : cs = []
  · rw [hcs, nil_append, joined_singleton]
    exact hpos
  · rw [joined_concat hcs]
    simp only [length_append]
    omega

theorem IsCut.concat {source c : Bytes} (h : IsCut maxBytes cs source)
    (hfull : ∀ front behind, c = front ++ behind → front ≠ [] → Utf8 front →
      maxBytes < (joined (cs ++ [front])).length) : IsCut maxBytes (cs ++ [c]) source := by
  refine ⟨mem_fronts_concat.mpr (.inl h.front), h.fits, fun p hp hlength => ?_⟩
  rcases mem_fronts_concat.mp hp with hp | ⟨front, behind, hc, hne, hfront, rfl⟩
  · exact h.longest p hp hlength
  · exact absurd hlength (Nat.not_le.mpr (hfull front behind hc hne hfront))

theorem IsCut.extend {front behind : Bytes}
    (h : IsCut maxBytes cs (joined cs)) (hne : front ≠ []) (hfront : Utf8 front)
    (hfits : (joined (cs ++ [front])).length ≤ maxBytes)
    (hlongest : ∀ front' behind', front ++ behind = front' ++ behind' → Utf8 front' →
      (joined (cs ++ [front'])).length ≤ maxBytes → front' <+: front) :
    IsCut maxBytes (cs ++ [front ++ behind]) (joined (cs ++ [front])) := by
  refine ⟨mem_fronts_concat.mpr (.inr ⟨front, behind, rfl, hne, hfront, rfl⟩), hfits, ?_⟩
  intro p hp hlength
  rcases mem_fronts_concat.mp hp with hp | ⟨front', behind', hc, -, hfront', rfl⟩
  · exact (h.longest p hp hlength).trans (prefix_joined cs [front])
  · obtain ⟨t, rfl⟩ := hlongest front' behind' hc hfront' hlength
    exact joined_front

theorem holds_appendCharacters {c : Bytes} (gap : Bytes)
    (hutf8 : Utf8 c) (hcut : IsCut maxBytes cs (joined cs)) (hflag : g.truncated = false)
    (hfound : g.foundContent = true) (hsource : g.source = joined cs ++ gap)
    (hgap : ∀ x, joined (cs ++ [x]) = joined cs ++ (gap ++ x)) (hroom : g.source.length ≤ maxBytes)
    (hsome : gap ≠ [] → ∃ front behind, c = front ++ behind ∧ front ≠ [] ∧ Utf8 front ∧
      (joined (cs ++ [front])).length ≤ maxBytes) :
    Holds maxBytes (cs ++ [c]) (g.appendCharacters maxBytes c.length c) := by
  obtain ⟨front, behind, rfl, hfront, heq, hfits, hlongest⟩ :=
    appendCharacters_spec maxBytes hutf8 (le_refl _) hroom hflag
  have hjoin : ∀ x, g.source ++ x = joined (cs ++ [x]) := by
    intro x
    rw [hsource, hgap, append_assoc]
  simp only [hjoin] at heq hfits hlongest
  rw [heq]
  have hflag' : (!behind.isEmpty) = true ↔ joined (cs ++ [front]) ≠ joined (cs ++ [front ++ behind]) := by
    rw [hgap, hgap]
    simp
  by_cases hne : front = []
  · subst hne
    have hnogap : gap = [] := by
      by_contra hgap'
      obtain ⟨front', behind', hc, hne', hfront', hfits'⟩ := hsome hgap'
      exact hne' (prefix_nil.mp (hlongest front' behind' hc hfront' hfits'))
    have hsame : joined (cs ++ [[]]) = joined cs := by
      rw [hgap, hnogap]
      simp
    rw [hsame] at hflag' ⊢
    refine ⟨hcut.concat ?_, hflag', by simp [hfound]⟩
    intro front' behind' hc hne' hfront'
    by_contra hfits'
    exact hne' (prefix_nil.mp (hlongest front' behind' hc hfront' (Nat.not_lt.mp hfits')))
  · exact ⟨hcut.extend hne hfront hfits hlongest, hflag', by simp [hfound]⟩

theorem Holds.appendPage {c : Bytes} (h : Holds maxBytes cs g) (hutf8 : ∀ x ∈ cs ++ [c], Utf8 x)
    (hne : ∀ x ∈ cs ++ [c], x ≠ []) :
    Holds maxBytes (cs ++ [c]) (Gathered.appendPage maxBytes { g with foundContent := true } c) := by
  have hc : c ∈ cs ++ [c] := by simp
  have hfront := prefix_of_mem_fronts h.cut.front
  have hjoined : joined cs ∈ Fronts cs :=
    joined_mem_fronts (fun x hx => hutf8 x (mem_append_left _ hx))
      fun x hx => hne x (mem_append_left _ hx)
  have hnew : ∀ front, (joined cs).length ≤ (joined (cs ++ [front])).length :=
    fun front => (prefix_joined cs [front]).length_le
  have hdifferent : g.source ≠ joined (cs ++ [c]) := by
    intro heq
    have hlt := length_lt_joined cs (hne c hc)
    have hle := hfront.length_le
    rw [heq] at hle
    omega
  cases hflag : g.truncated with
  | true =>
    simp only [Gathered.appendPage, if_true]
    refine ⟨h.cut.concat ?_, by simpa using hdifferent, by simp⟩
    intro front behind _ _ _
    by_contra hfits
    have hbound := hnew front
    have hback := h.cut.longest _ hjoined (by omega)
    exact h.truncated.mp hflag (hfront.eq_of_length_le hback.length_le)
  | false =>
    have hsource : g.source = joined cs := by
      by_contra hne
      rw [h.truncated.mpr hne] at hflag
      cases hflag
    have hcut : IsCut maxBytes cs (joined cs) := hsource ▸ h.cut
    simp only [Gathered.appendPage, Bool.false_eq_true, if_false]
    by_cases hnil : cs = []
    · have hempty : g.source = [] := by
        rw [hsource, hnil]
        rfl
      rw [if_neg (by simp [hempty])]
      refine holds_appendCharacters [] (hutf8 c hc) hcut rfl rfl ?_ ?_ h.cut.fits
        fun hgap => absurd rfl hgap
      · rw [append_nil]
        exact hsource
      · intro x
        rw [hnil, nil_append, joined_singleton]
        rfl
    · have hroom := h.cut.fits
      have hpos : 0 < g.source.length := by
        obtain ⟨rest, y, rfl⟩ := eq_nil_or_concat cs |>.resolve_left hnil
        rw [hsource, concat_eq_append]
        exact Nat.lt_of_le_of_lt (Nat.zero_le _) (length_lt_joined _ (hne y (by simp)))
      obtain ⟨cp, s, hcp, hs, hcs⟩ : ∃ cp s, Scalar cp ∧ Utf8 s ∧ c = utf8Put cp ++ s := by
        have hutf8c := hutf8 c hc
        have hnec := hne c hc
        cases hutf8c with
        | nil => exact absurd rfl hnec
        | char cp s hcp hs => exact ⟨cp, s, hcp, hs, rfl⟩
      have hfirst : Gathered.validCodepointLength c = (utf8Put cp).length := by
        rw [hcs, validCodepointLength_put hcp]
      split_ifs with hlittle
      · refine ⟨h.cut.concat ?_, by simpa using hdifferent, by simp⟩
        intro front behind hsplit hnefront hfront
        rw [hcs] at hsplit
        rcases utf8_front_cases hcp hsplit hfront with rfl | ⟨front', rfl, -, -⟩
        · exact absurd rfl hnefront
        · rw [joined_concat hnil, ← hsource]
          simp only [length_append]
          omega
      · refine holds_appendCharacters Gathered.separator (hutf8 c hc) hcut rfl rfl ?_ ?_ ?_
          fun _ => ⟨utf8Put cp, s, hcs, utf8Put_ne_nil hcp, ?_, ?_⟩
        · rw [hsource]
        · exact fun x => joined_concat hnil x
        · simp only [length_append]
          omega
        · have hchar := Utf8.char cp [] hcp .nil
          rwa [append_nil] at hchar
        · rw [joined_concat hnil, ← hsource]
          simp only [length_append]
          omega

theorem gather_eq {all cs : List Bytes} (hutf8 : ∀ c ∈ cs ++ all, Utf8 c) (hne : ∀ c ∈ cs, c ≠ [])
    (h : Holds maxBytes cs g) :
    ((∃ content ∈ all, (0 : UInt8) ∈ content) → all.foldlM (gather maxBytes) g = none) ∧
      ((∀ content ∈ all, (0 : UInt8) ∉ content) → ∃ g', all.foldlM (gather maxBytes) g = some g' ∧
        Holds maxBytes (cs ++ all.filter fun text => !text.all Bytes.isSpace) g') := by
  induction all generalizing cs g with
  | nil => exact ⟨fun ⟨_, hmem, _⟩ => (nomatch hmem), fun _ => ⟨g, rfl, by simpa using h⟩⟩
  | cons content all ih =>
    rw [foldlM_cons]
    unfold gather
    by_cases hzero : (0 : UInt8) ∈ content
    · rw [if_pos hzero]
      exact ⟨fun _ => rfl, fun hall => absurd hzero (hall content mem_cons_self)⟩
    · rw [if_neg hzero]
      by_cases hblank : content.all Bytes.isSpace = true
      · obtain ⟨hbad, hgood⟩ := ih
          (fun c hc => hutf8 c (by rcases mem_append.mp hc with hc | hc <;> simp [hc])) hne h
        rw [if_pos hblank, filter_cons, if_neg (by simp [hblank])]
        refine ⟨fun ⟨x, hx, hx0⟩ => hbad ?_, fun hall => hgood ?_⟩
        · rcases mem_cons.mp hx with rfl | hx
          · exact absurd hx0 hzero
          · exact ⟨x, hx, hx0⟩
        · exact fun x hx => hall x (mem_cons_of_mem content hx)
      · have hnonempty : content ≠ [] := by
          rintro rfl
          exact hblank rfl
        have hne' : ∀ c ∈ cs ++ [content], c ≠ [] := by
          intro c hc
          rcases mem_append.mp hc with hc | hc
          · exact hne c hc
          · rwa [mem_singleton.mp hc]
        have hpage := h.appendPage (c := content) (fun c hc => hutf8 c (by
          rcases mem_append.mp hc with hc | hc
          · simp [hc]
          · simp [mem_singleton.mp hc])) hne'
        obtain ⟨hbad, hgood⟩ := ih (fun c hc => hutf8 c (by simpa [or_assoc] using hc)) hne' hpage
        rw [if_neg hblank, filter_cons, if_pos (by simp [hblank])]
        refine ⟨fun ⟨x, hx, hx0⟩ => hbad ?_, fun hall => ?_⟩
        · rcases mem_cons.mp hx with rfl | hx
          · exact absurd hx0 hzero
          · exact ⟨x, hx, hx0⟩
        · have hrest := hgood fun x hx => hall x (mem_cons_of_mem content hx)
          rwa [append_assoc] at hrest

/-! ### Strings of a value -/

theorem lastText_mem {key : String} {ms : List (Bytes × Doc)} {text : Bytes}
    (h : lastText key ms = some text) : ∃ k, (k, Doc.string text) ∈ ms := by
  have hmem := mem_of_getLast? h
  obtain ⟨⟨k, d⟩, hm, hd⟩ := mem_filterMap.mp hmem
  simp only at hd
  split at hd
  · split_ifs at hd with hk
    cases hd
    exact ⟨k, hm⟩
  · cases hd

theorem utf8_succeededContents {levels : ℕ} (h : Written (levels + 3) d s) :
    ∀ content ∈ succeededContents d, Utf8 content := by
  intro content hcontent
  obtain ⟨page, hpage, hsucceeded⟩ := mem_filterMap.mp hcontent
  unfold rootPages at hpage
  split at hpage
  · rename_i ms
    obtain ⟨⟨key, v⟩, hm, hpage⟩ := mem_flatMap.mp hpage
    obtain ⟨t, -, hms⟩ := written_object_iff.mp h
    obtain ⟨u, hmember⟩ := hms.written _ hm
    simp only at hpage
    split at hpage
    · rename_i ds
      split_ifs at hpage
      · cases hmember with
        | mk _ _ _ hds =>
          obtain ⟨t, -, hds⟩ := written_array_iff.mp hds
          obtain ⟨u, hpagetext⟩ := hds.written _ hpage
          unfold succeededContent at hsucceeded
          split at hsucceeded
          · split_ifs at hsucceeded
            obtain ⟨k, hk⟩ := lastText_mem hsucceeded
            obtain ⟨t, -, hms⟩ := written_object_iff.mp hpagetext
            obtain ⟨u, hmember⟩ := hms.written _ hk
            cases hmember with
            | mk _ _ _ hstring =>
              obtain ⟨b, hb, -⟩ := written_string_iff.mp hstring
              exact hb.utf8
          · cases hsucceeded
      · cases hpage
    · cases hpage
  · cases hpage

/-! ### The whole -/

theorem holds_empty (maxBytes : ℕ) : Holds maxBytes [] .empty :=
  ⟨isCut_nil maxBytes, by decide, by decide⟩

theorem rootEffect_eq (h : IsText (levelsAt 0) d s) :
    (HasNul d → rootEffect maxBytes .empty d = none) ∧
      (¬HasNul d → ∃ g, rootEffect maxBytes .empty d = some g ∧ Holds maxBytes (contents d) g) := by
  obtain ⟨ws, value, ws', -, -, hvalue, -⟩ := h
  have hutf8 := utf8_succeededContents hvalue
  obtain ⟨hbad, hgood⟩ := gather_eq (by simpa using hutf8) (by simp) (holds_empty maxBytes)
  exact ⟨hbad, fun hnul => hgood fun content hcontent hzero => hnul ⟨content, hcontent, hzero⟩⟩

/-- A manifest is refused exactly where it has no reading without a zero character in a succeeded
page; what is made of one is decided by the pages that it has, and by the budget. -/
theorem crawlExtractSource_exact (manifest : Bytes) (maxBytes errLen : ℕ) :
    ((∃ err, crawlExtractSource (some manifest) maxBytes errLen = .invalid err) ↔
      ∀ d, IsText (levelsAt 0) d (cstr manifest) → HasNul d) ∧
    ∀ d, IsText (levelsAt 0) d (cstr manifest) → ¬HasNul d →
      (contents d = [] → crawlExtractSource (some manifest) maxBytes errLen = .empty) ∧
      (contents d ≠ [] → ∃ source truncated,
        crawlExtractSource (some manifest) maxBytes errLen = .ok source truncated ∧
          IsCut maxBytes (contents d) source ∧
          (truncated = true ↔ source ≠ joined (contents d)) ∧ Utf8 source) := by
  have hgood : ∀ d, IsText (levelsAt 0) d (cstr manifest) → ¬HasNul d →
      ∃ g, Holds maxBytes (contents d) g ∧ crawlExtractSource (some manifest) maxBytes errLen =
        if g.foundContent then .ok g.source g.truncated else .empty := by
    intro d htext hnul
    obtain ⟨g, heffect, hholds⟩ := (rootEffect_eq htext).2 hnul
    exact ⟨g, hholds, crawlExtractSource_complete htext heffect errLen⟩
  constructor
  · constructor
    · rintro ⟨err, herr⟩ d htext
      by_contra hnul
      obtain ⟨g, -, heq⟩ := hgood d htext hnul
      rw [herr] at heq
      split_ifs at heq
    · intro hall
      by_contra hvalid
      obtain ⟨d, g, htext, heffect⟩ := crawlExtractSource_sound hvalid
      rw [(rootEffect_eq htext).1 (hall d htext)] at heffect
      cases heffect
  · intro d htext hnul
    obtain ⟨g, hholds, heq⟩ := hgood d htext hnul
    have hutf8 : ∀ c ∈ contents d, Utf8 c := by
      obtain ⟨_, _, _, -, -, hvalue, -⟩ := htext
      exact fun c hc => utf8_succeededContents hvalue c (mem_filter.mp hc).1
    constructor
    · intro hnone
      rw [heq, if_neg fun hfound => hholds.found.mp hfound hnone]
    · intro hsome
      refine ⟨g.source, g.truncated, ?_, hholds.cut, hholds.truncated,
        utf8_of_mem_fronts hutf8 hholds.cut.front⟩
      rw [heq, if_pos (hholds.found.mpr hsome)]

/-- One page that the budget does not hold. -/
theorem crawlExtractSource_exact_cut : ∃ d, IsText (levelsAt 0) d
      (str "\x7b\"pages\":[\x7b\"state\":\"succeeded\",\"content\":\"ab\"\x7d]\x7d") ∧
    IsCut 1 (contents d) (str "a") ∧ str "a" ≠ joined (contents d) := by
  obtain ⟨hinvalid, hexact⟩ := crawlExtractSource_exact
    (str "\x7b\"pages\":[\x7b\"state\":\"succeeded\",\"content\":\"ab\"\x7d]\x7d") 1 0
  obtain ⟨d, htext, hnul⟩ : ∃ d, IsText (levelsAt 0) d (cstr
      (str "\x7b\"pages\":[\x7b\"state\":\"succeeded\",\"content\":\"ab\"\x7d]\x7d")) ∧ ¬HasNul d := by
    by_contra hnone
    obtain ⟨err, herr⟩ := hinvalid.mpr fun d htext => by_contra fun hnul => hnone ⟨d, htext, hnul⟩
    cases herr
  obtain ⟨hempty, hsome⟩ := hexact d htext hnul
  have hcontents : contents d ≠ [] := by
    intro hnil
    have hnothing := hempty hnil
    cases hnothing
  obtain ⟨source, truncated, hsource, hcut, htruncated, -⟩ := hsome hcontents
  obtain ⟨rfl, rfl⟩ := hsource
  exact ⟨d, htext, hcut, htruncated.mp rfl⟩

end Ds4Studio.Crawl.Grounding

import Ds4Studio.Lib.Paths
import Ds4Studio.Web.Capture
import Ds4Studio.Web.EditTool
import Ds4Studio.Web.ReadTool

/-!
The file tools and the workspace. Reading, writing, editing and listing resolve their path and
compare it with the root. A search does so for an absolute path only; a relative one is handed on,
and `grep` reads it from the root.
-/

namespace Ds4Studio.Web.Sandbox

open List Paths Paths.Letters Utf16

/-- Texts of which the model of a tool is made. -/
class Script (α : Type) extends Letters α where
  text : String → List α

instance : Script Char where
  slash := '/'
  dot := '.'
  apart := by decide
  text := String.toList

instance : Script UInt16 where
  slash := 0x2f
  dot := 0x2e
  apart := by decide
  text := ascii

open Script

/-! ### Paths -/

/-- Where the server runs, and what it has been told of the workspace. -/
structure Surroundings (α : Type) [Script α] where
  processCwd : Place α
  clean : Clean processCwd
  cwd : Option (List α)
  agentWorkspace : Option (List α)
  defaultWorkspaceRoot : List α
  agentSandbox : Option String

/-- What a tool says, whether that is an error, and the places that it opens, creates or hands to
`grep`. -/
structure Outcome (α : Type) where
  content : List α
  isError : Bool
  touched : List (Place α)

section Resolvers

variable {α : Type} [DecidableEq α] [Script α]

namespace Surroundings

variable (here : Surroundings α)

def sandboxEnabled : Bool := here.agentSandbox ≠ some "0"

/-- `path.resolve(options.cwd || process.env.DS4_AGENT_WORKSPACE || DEFAULT_WORKSPACE_ROOT)` -/
def workspaceRoot : List α :=
  let given := (here.cwd.filter (· ≠ [])).or (here.agentWorkspace.filter (· ≠ []))
  render (resolve here.processCwd (given.getD here.defaultWorkspaceRoot))

/-- `path.relative(from, to)` -/
def relativePath (start goal : List α) : List α :=
  Paths.join (relative (resolve here.processCwd start) (resolve here.processCwd goal))

def resolveToolPath (filePath : List α) : Except (List α) (List α) :=
  let root := here.workspaceRoot
  let raw := if filePath = [] then [dot] else filePath
  let resolved :=
    if isAbsolute raw then render (resolve here.processCwd raw)
    else render (resolve (resolve here.processCwd root) raw)
  if here.sandboxEnabled && leavesText (here.relativePath root resolved) then
    .error (text "path outside workspace: " ++ raw)
  else .ok resolved

def searchPathArg (filePath : List α) : Except (List α) (List α) :=
  if filePath = [] then .ok [dot]
  else if isAbsolute filePath then here.resolveToolPath filePath
  else .ok filePath

/-- The root as a place. -/
def root : Place α := resolve here.processCwd here.workspaceRoot

/-- The place that a resolved path has for the system. -/
def placeOf (resolved : List α) : Place α := resolve here.processCwd resolved

end Surroundings

/-- `path.dirname`, of a path that does not end in a slash. -/
def dirname (path : List α) : List α :=
  match (path.splitOn slash).dropLast with
  | [] => [dot]
  | [[]] => [slash]
  | names => Paths.join names

end Resolvers

/-! ### The tools -/

inductive Kind where
  | file
  | directory

structure Entry where
  name : Utf16
  isDirectory : Bool

/-- The files, and what calls that change or list them come to. The workspace is there. -/
structure Disk (here : Surroundings UInt16) where
  kind : Place UInt16 → Option Kind
  workspace : ∀ place, place <+: here.root → kind place = some .directory
  mkdir : Utf16 → Except Utf16 Unit
  writeFile : Utf16 → Utf16 → Except Utf16 Unit
  readdir : Utf16 → Except Utf16 (List Entry)
  localeLe : Utf16 → Utf16 → Bool

/-- The directories that `mkdir` with `recursive` makes. -/
def Disk.made {here : Surroundings UInt16} (disk : Disk here) (path : Utf16) :
    List (Place UInt16) :=
  (here.placeOf path).inits.filter fun place => disk.kind place = none

/-- `grep`, with its working directory and arguments. There is no output if it does not start. -/
structure GrepHost where
  digits : Num → Utf16
  aborted : Bool
  nulMessage : Utf16
  grep : Utf16 → List Utf16 → Option (List Bytes)

structure WriteArgs where
  path : Utf16
  content : Option Utf16

structure SearchArgs where
  query : Utf16
  path : Utf16
  glob : Utf16
  caseSensitive : Bool
  maxResults : Num

/-- What `executeTool` makes of an exception. -/
def thrown {α : Type} [Script α] (tool : String) (message : List α)
    (touched : List (Place α)) : Outcome α :=
  ⟨text ("Tool " ++ tool ++ " error: ") ++ message, true, touched⟩

/-- The place that a tool opens behind the first test of its path. -/
def opened {α : Type} [DecidableEq α] [Script α] (here : Surroundings α) (path : List α) :
    List (Place α) :=
  if path = [] then []
  else
    match here.resolveToolPath path with
    | .error _ => []
    | .ok resolved => [here.placeOf resolved]

def toolRead (here : Surroundings Char) (host : Host) (args : ReadArgs) : Outcome Char :=
  match Web.toolRead { host with resolveToolPath := here.resolveToolPath } args with
  | .error message => ⟨message, true, opened here args.path⟩
  | .ok page => ⟨page.content host.digits, false, opened here args.path⟩

def toolEdit (here : Surroundings UInt16) (host : EditHost) (args : EditArgs) : Outcome UInt16 :=
  let result := Web.toolEdit { host with resolveToolPath := here.resolveToolPath } args
  ⟨result.content, result.isError, opened here args.path⟩

def toolWrite (here : Surroundings UInt16) (disk : Disk here) (args : WriteArgs) : Outcome UInt16 :=
  if args.path = [] then ⟨ascii "write: path is required", true, []⟩
  else
    match args.content with
    | none => ⟨ascii "write: content is required", true, []⟩
    | some content =>
        match here.resolveToolPath args.path with
        | .error message => thrown "write" message []
        | .ok resolved =>
            let made := disk.made (dirname resolved)
            match disk.mkdir (dirname resolved) with
            | .error message => thrown "write" message made
            | .ok () =>
                let touched := made ++ [here.placeOf resolved]
                match disk.writeFile resolved content with
                | .error message => thrown "write" message touched
                | .ok () =>
                    ⟨ascii ("Wrote " ++ (content.splitOn newline).length.repr ++ " lines to ") ++
                      resolved, false, touched⟩

/-- The directories come first, and then a name by the locale. -/
def listedBefore {here : Surroundings UInt16} (disk : Disk here) (a b : Entry) : Bool :=
  if a.isDirectory && !b.isDirectory then true
  else if !a.isDirectory && b.isDirectory then false
  else disk.localeLe a.name b.name

def toolList (here : Surroundings UInt16) (disk : Disk here) (path : Utf16) : Outcome UInt16 :=
  match here.resolveToolPath path with
  | .error message => thrown "list" message []
  | .ok resolved =>
      match disk.readdir resolved with
      | .error message => ⟨ascii "list: " ++ message, true, [here.placeOf resolved]⟩
      | .ok entries =>
          let lines := (entries.mergeSort (listedBefore disk)).map fun entry =>
            entry.name ++ if entry.isDirectory then ascii "/" else []
          ⟨resolved ++ ascii "/\n" ++ [newline].intercalate lines, false, [here.placeOf resolved]⟩

def grepArgs (args : SearchArgs) (searchPath : Utf16) : List Utf16 :=
  [ascii "-rn", ascii "--color=never"] ++ (if args.caseSensitive then [] else [ascii "-i"]) ++
    (if args.glob = [] then [] else [ascii "--include=" ++ args.glob]) ++
    [ascii "--", args.query, searchPath]

/-- The arguments can be handed to a child process. -/
def Sendable (here : Surroundings UInt16) (grepArgs : List Utf16) : Prop :=
  0 ∉ here.workspaceRoot ∧ ∀ arg ∈ grepArgs, 0 ∉ arg

instance (here : Surroundings UInt16) (grepArgs : List Utf16) :
    Decidable (Sendable here grepArgs) := inferInstanceAs (Decidable (_ ∧ _))

def toolSearch (here : Surroundings UInt16) (host : GrepHost) (args : SearchArgs) :
    Outcome UInt16 :=
  if args.query = [] then ⟨ascii "search: query is required", true, []⟩
  else
    match here.searchPathArg args.path with
    | .error message => thrown "search" message []
    | .ok searchPath =>
        if host.aborted then ⟨ascii "search: aborted", true, []⟩
        else if ¬ Sendable here (grepArgs args searchPath) then thrown "search" host.nulMessage []
        else
          match host.grep here.workspaceRoot (grepArgs args searchPath) with
          | none => ⟨ascii "search: no results", false, []⟩
          | some chunks =>
              ⟨Web.toolSearch host.digits args.maxResults chunks, false,
                [resolve here.root searchPath]⟩

/-! ### Calls -/

inductive Call where
  | read (args : ReadArgs)
  | write (args : WriteArgs)
  | edit (args : EditArgs)
  | search (args : SearchArgs)
  | list (path : Utf16)

/-- What the tools take from outside. The surroundings are there as both kinds of text; that they
agree is not used. -/
structure Server where
  characters : Surroundings Char
  units : Surroundings UInt16
  readHost : Host
  editHost : EditHost
  disk : Disk units
  grepHost : GrepHost

/-- What is touched lies in the workspace, and nothing is if the path leads out of it. -/
def Kept {α : Type} [DecidableEq α] [Script α] (here : Surroundings α) (path : List α)
    (outcome : Outcome α) : Prop :=
  (∀ place ∈ outcome.touched, here.root <+: place) ∧
    (¬ here.root <+: resolve here.root path → outcome.isError = true ∧ outcome.touched = [])

namespace Server

variable (server : Server)

def Sandboxed : Prop := server.characters.sandboxEnabled = true ∧ server.units.sandboxEnabled = true

def Contained : Call → Prop
  | .read args =>
      Kept server.characters args.path (toolRead server.characters server.readHost args)
  | .write args => Kept server.units args.path (toolWrite server.units server.disk args)
  | .edit args => Kept server.units args.path (toolEdit server.units server.editHost args)
  | .search args => Kept server.units args.path (toolSearch server.units server.grepHost args)
  | .list path => Kept server.units path (toolList server.units server.disk path)

/-- The call is a search that gets to `grep`, and its relative path leads out of the workspace. -/
def SearchesOut : Call → Prop
  | .search args =>
      args.query ≠ [] ∧ server.grepHost.aborted = false ∧
        Sendable server.units (grepArgs args args.path) ∧ isAbsolute args.path = false ∧
        ¬ server.units.root <+: resolve server.units.root args.path
  | _ => False

end Server

/-! ### Resolving -/

section

variable {α : Type} [DecidableEq α] [Script α] (here : Surroundings α)

theorem resolve_nil (place : Place α) : resolve place [] = place := by
  have hsplit : ([] : List α).splitOn slash = [[]] := rfl
  rw [resolve, if_neg (by simp [isAbsolute]), hsplit, foldl_cons, foldl_nil, enter,
    if_pos (.inl rfl)]

theorem resolve_dot (place : Place α) : resolve place [dot] = place := by
  have hapart : (slash : α) ∉ [(dot : α)] := by simp [Letters.apart]
  have hrelative : isAbsolute [(dot : α)] = false := by simpa [isAbsolute] using Letters.apart.symm
  rw [resolve, hrelative, splitOn_eq_singleton hapart, foldl_cons, foldl_nil, enter,
    if_pos (.inr rfl), if_neg Bool.false_ne_true]

theorem clean_root : Clean here.root := clean_resolve here.clean _

/-- With the sandbox on, a path is resolved just if it does not lead out, and to its place. -/
theorem resolveToolPath_eq (hon : here.sandboxEnabled = true) (path : List α) :
    (here.root <+: resolve here.root path ∧
        here.resolveToolPath path = .ok (render (resolve here.root path))) ∨
      (¬ here.root <+: resolve here.root path ∧
        ∃ message, here.resolveToolPath path = .error message) := by
  have hraw : ∀ cwd, resolve cwd (if path = [] then [dot] else path) = resolve cwd path := by
    intro cwd
    split_ifs with hpath
    · rw [hpath, resolve_dot, resolve_nil]
    · rfl
  have hresolved : (if isAbsolute (if path = [] then [dot] else path) then
      render (resolve here.processCwd (if path = [] then [dot] else path))
      else render (resolve here.root (if path = [] then [dot] else path))) =
        render (resolve here.root path) := by
    rw [hraw, hraw]
    split_ifs with hnil habsolute habsolute
    · simp [isAbsolute, Letters.apart.symm] at habsolute
    · rfl
    · rw [resolve_of_absolute habsolute here.processCwd here.root]
    · rfl
  have hclean := clean_resolve (clean_root here) path
  have hrelative : here.relativePath here.workspaceRoot (render (resolve here.root path)) =
      Paths.join (relative here.root (resolve here.root path)) := by
    rw [Surroundings.relativePath, resolve_render _ hclean]
    rfl
  have htest := leavesText_relative here.root hclean
  have hroot : resolve here.processCwd here.workspaceRoot = here.root := rfl
  unfold Surroundings.resolveToolPath
  dsimp only
  rw [hroot, hresolved, hon, Bool.true_and, hrelative]
  by_cases hinside : here.root <+: resolve here.root path
  · rw [if_neg fun hleaves => htest.mp hleaves hinside]
    exact .inl ⟨hinside, rfl⟩
  · rw [if_pos (htest.mpr hinside)]
    exact .inr ⟨hinside, _, rfl⟩

theorem placeOf_render {place : Place α} (h : Clean place) : here.placeOf (render place) = place :=
  resolve_render _ h

theorem placeOf_dirname {place : Place α} (h : Clean place) :
    here.placeOf (dirname (render place)) = place.dropLast := by
  have hsplit : (render place).splitOn slash = [] :: (Paths.join place).splitOn slash :=
    splitOn_append_cons_self [] (Paths.join place)
  have htop : here.placeOf [slash] = [] := by
    have hrender : ([slash] : List α) = render [] := rfl
    rw [hrender, placeOf_render here fun name hname => absurd hname not_mem_nil]
  by_cases hplace : place = []
  · subst hplace
    have hdir : dirname (render ([] : Place α)) = [slash] := by
      rw [dirname, hsplit]
      rfl
    rw [hdir, htop, dropLast_nil]
  · have hfront : Clean place.dropLast :=
      fun name hname => h name (dropLast_subset place hname)
    have hnames : (Paths.join place).splitOn slash = place :=
      splitOn_intercalate slash (fun name hname => (h name hname).2.2.2) hplace
    rw [hnames] at hsplit
    rw [dirname, hsplit, dropLast_cons_of_ne_nil hplace]
    cases hdrop : place.dropLast with
    | nil => exact htop
    | cons first rest =>
      have hjoin : Paths.join ([] :: first :: rest) = render (first :: rest) := by
        simp [Paths.join, render]
      change here.placeOf (Paths.join ([] :: first :: rest)) = _
      rw [hjoin, placeOf_render here (hdrop ▸ hfront)]

/-- A tool that opens the resolved path, if there is one, and fails if there is none. -/
theorem kept_opened (hon : here.sandboxEnabled = true) (path : List α) {outcome : Outcome α}
    (htouched : outcome.touched = opened here path)
    (herror : ∀ message, path ≠ [] → here.resolveToolPath path = .error message →
      outcome.isError = true) : Kept here path outcome := by
  have hclean := clean_resolve (clean_root here) path
  rw [Kept, htouched, opened]
  by_cases hpath : path = []
  · rw [if_pos hpath]
    refine ⟨fun place hplace => absurd hplace not_mem_nil, fun hout => absurd ?_ hout⟩
    rw [hpath, resolve_nil]
  · rw [if_neg hpath]
    rcases resolveToolPath_eq here hon path with ⟨hinside, hok⟩ | ⟨-, message, hmessage⟩
    · rw [hok]
      refine ⟨fun place hplace => ?_, fun hout => absurd hinside hout⟩
      rw [mem_singleton.mp hplace, placeOf_render here hclean]
      exact hinside
    · rw [hmessage]
      exact ⟨fun place hplace => absurd hplace not_mem_nil,
        fun _ => ⟨herror message hpath hmessage, rfl⟩⟩

end

/-! ### Tools -/

theorem kept_read {here : Surroundings Char} (hon : here.sandboxEnabled = true) (host : Host)
    (args : ReadArgs) : Kept here args.path (toolRead here host args) := by
  refine kept_opened here hon args.path ?_ fun message hpath hmessage => ?_
  · unfold toolRead
    split <;> rfl
  · unfold toolRead Web.toolRead
    simp only
    rw [if_neg hpath, hmessage]

variable {here : Surroundings UInt16}

theorem kept_edit (hon : here.sandboxEnabled = true) (host : EditHost) (args : EditArgs) :
    Kept here args.path (toolEdit here host args) := by
  refine kept_opened here hon args.path rfl fun message hpath hmessage => ?_
  unfold toolEdit Web.toolEdit
  simp only
  rw [if_neg hpath, hmessage]
  rfl

theorem Kept.nothing {α : Type} [DecidableEq α] [Script α] {here : Surroundings α}
    {path : List α} {outcome : Outcome α} (hnone : outcome.touched = [])
    (herror : ¬ here.root <+: resolve here.root path → outcome.isError = true) :
    Kept here path outcome :=
  ⟨fun _ hplace => absurd (hnone ▸ hplace) not_mem_nil, fun hout => ⟨herror hout, hnone⟩⟩

/-- Behind the test of a path, what is touched is to be in the workspace. -/
theorem Kept.inside {α : Type} [DecidableEq α] [Script α] {here : Surroundings α}
    {path : List α} {outcome : Outcome α} (h : here.root <+: resolve here.root path)
    (htouched : ∀ place ∈ outcome.touched, here.root <+: place) : Kept here path outcome :=
  ⟨htouched, fun hout => absurd h hout⟩

/-- A directory that is made on the way to a place of the workspace lies in it, for the workspace
is there. -/
theorem made_inside (disk : Disk here) {place : Place UInt16} (hclean : Clean place)
    (hinside : here.root <+: place) :
    ∀ directory ∈ disk.made (dirname (render place)), here.root <+: directory := by
  intro directory hmade
  rw [Disk.made, placeOf_dirname here hclean, mem_filter, mem_inits] at hmade
  obtain ⟨ hprefix, habsent⟩ := hmade
  have hfront := hprefix.trans ( dropLast_prefix place)
  rcases le_total here.root.length directory.length with hle | hle
  · exact prefix_of_prefix_length_le hinside hfront hle
  · have habove := prefix_of_prefix_length_le hfront hinside hle
    rw [disk.workspace directory habove] at habsent
    exact absurd habsent (by decide)

section

variable (hon : here.sandboxEnabled = true)

include hon

theorem kept_write (disk : Disk here) (args : WriteArgs) :
    Kept here args.path (toolWrite here disk args) := by
  have hclean := clean_resolve (clean_root here) args.path
  unfold toolWrite
  split_ifs with hpath
  · exact .nothing rfl fun _ => rfl
  rcases args.content with _ | content
  · exact .nothing rfl fun _ => rfl
  rcases resolveToolPath_eq here hon args.path with ⟨hinside, hok⟩ | ⟨-, message, hmessage⟩
  · have hmade := made_inside disk hclean hinside
    have hall : ∀ place ∈ disk.made (dirname (render (resolve here.root args.path))) ++
        [here.placeOf (render (resolve here.root args.path))], here.root <+: place := by
      intro place hplace
      rcases mem_append.mp hplace with hdirectory | hfile
      · exact hmade place hdirectory
      · rw [mem_singleton.mp hfile, placeOf_render here hclean]
        exact hinside
    rw [hok]
    dsimp only
    refine .inside hinside ?_
    split
    · exact hmade
    · split <;> exact hall
  · rw [hmessage]
    exact .nothing rfl fun _ => rfl

theorem kept_list (disk : Disk here) (path : Utf16) : Kept here path (toolList here disk path) := by
  have hclean := clean_resolve (clean_root here) path
  unfold toolList
  rcases resolveToolPath_eq here hon path with ⟨hinside, hok⟩ | ⟨-, message, hmessage⟩
  · have hplace : ∀ place ∈ [here.placeOf (render (resolve here.root path))],
        here.root <+: place := by
      intro place hplace
      rw [mem_singleton.mp hplace, placeOf_render here hclean]
      exact hinside
    rw [hok]
    dsimp only
    refine .inside hinside ?_
    split <;> exact hplace
  · rw [hmessage]
    exact .nothing rfl fun _ => rfl

/-! ### The search -/

/-- What is handed to `grep`: the resolved path, or a relative one as it is. -/
theorem searchPathArg_eq (path : Utf16) :
    (∃ searchPath, here.searchPathArg path = .ok searchPath ∧
        resolve here.root searchPath = resolve here.root path ∧
        (here.root <+: resolve here.root path ∨ isAbsolute path = false ∧ searchPath = path)) ∨
      (¬ here.root <+: resolve here.root path ∧ isAbsolute path = true ∧
        ∃ message, here.searchPathArg path = .error message) := by
  unfold Surroundings.searchPathArg
  split_ifs with hnil habsolute
  · refine .inl ⟨_, rfl, ?_, .inl ?_⟩
    · rw [hnil, resolve_dot, resolve_nil]
    · rw [hnil, resolve_nil]
  · rcases resolveToolPath_eq here hon path with ⟨hinside, hok⟩ | ⟨hout, message, hmessage⟩
    · refine .inl ⟨_, hok, ?_, .inl hinside⟩
      exact resolve_render _ (clean_resolve (clean_root here) path)
    · exact .inr ⟨hout, habsolute, message, hmessage⟩
  · exact .inl ⟨path, rfl, rfl, .inr ⟨Bool.eq_false_iff.mpr habsolute, rfl⟩⟩

end

theorem kept_search {server : Server} (hon : server.units.sandboxEnabled = true)
    (args : SearchArgs) :
    server.Contained (.search args) ↔ ¬ server.SearchesOut (.search args) := by
  simp only [Server.Contained, Server.SearchesOut, toolSearch]
  by_cases hquery : args.query = []
  · rw [if_pos hquery]
    exact iff_of_true (.nothing rfl fun _ => rfl) fun hout => hout.1 hquery
  rw [if_neg hquery]
  rcases searchPathArg_eq hon args.path with
    ⟨searchPath, hok, hplace, hhanded⟩ | ⟨-, habsolute, message, hmessage⟩
  · rw [hok]
    dsimp only
    by_cases haborted : server.grepHost.aborted = true
    · rw [if_pos haborted]
      refine iff_of_true (.nothing rfl fun _ => rfl) fun hout => ?_
      exact Bool.false_ne_true (hout.2.1.symm.trans haborted)
    rw [if_neg haborted]
    by_cases hsendable : Sendable server.units (grepArgs args searchPath)
    · rw [if_neg (not_not_intro hsendable)]
      by_cases hinside : server.units.root <+: resolve server.units.root args.path
      · refine iff_of_true (.inside hinside ?_) fun hout => hout.2.2.2.2 hinside
        split
        · exact fun place hnone => absurd hnone not_mem_nil
        · intro place hmem
          rw [mem_singleton.mp hmem, hplace]
          exact hinside
      · obtain ⟨hrelative, rfl⟩ := hhanded.resolve_left hinside
        refine iff_of_false (fun hkept => ?_) (not_not_intro
          ⟨hquery, Bool.eq_false_iff.mpr haborted, hsendable, hrelative, hinside⟩)
        have herror := (hkept.2 hinside).1
        split at herror <;> exact Bool.false_ne_true herror
    · rw [if_pos hsendable]
      refine iff_of_true (.nothing rfl fun _ => rfl) fun hout => ?_
      rcases hhanded with hinside | ⟨-, rfl⟩
      · exact hout.2.2.2.2 hinside
      · exact hsendable hout.2.2.1
  · rw [hmessage]
    refine iff_of_true (.nothing rfl fun _ => rfl) fun hout => ?_
    exact Bool.false_ne_true (hout.2.2.2.1.symm.trans habsolute)

/-! ### Every call -/

/-- With the sandbox on, a call stays in the workspace just if it is no search with a relative path
that leads out. -/
theorem sandbox_contains_iff {server : Server} (hon : server.Sandboxed) (call : Call) :
    server.Contained call ↔ ¬ server.SearchesOut call := by
  cases call with
  | read args => exact iff_of_true (kept_read hon.1 server.readHost args) id
  | write args => exact iff_of_true (kept_write hon.2 server.disk args) id
  | edit args => exact iff_of_true (kept_edit hon.2 server.editHost args) id
  | search args => exact kept_search hon.2 args
  | list path => exact iff_of_true (kept_list hon.2 server.disk path) id

def atWorkspace (α : Type) [DecidableEq α] [Script α] : Surroundings α where
  processCwd := []
  clean := fun _ hname => absurd hname List.not_mem_nil
  cwd := some (text "/w")
  agentWorkspace := none
  defaultWorkspaceRoot := text "/"
  agentSandbox := none

/-- A workspace `/w` with nothing in it. -/
def emptyWorkspace : Server where
  characters := atWorkspace Char
  units := atWorkspace UInt16
  readHost := ⟨⟨default, fun _ => []⟩, .ok, fun _ => false, fun _ => .error []⟩
  editHost := ⟨default, fun _ => [], .ok, fun _ => none⟩
  disk := {
    kind := fun place => if place <+: [[0x77]] then some .directory else none
    workspace := by
      have hroot : (atWorkspace UInt16).root = [[0x77]] := by decide
      intro place hplace
      exact if_pos (hroot ▸ hplace)
    mkdir := fun _ => .ok ()
    writeFile := fun _ _ => .ok ()
    readdir := fun _ => .ok []
    localeLe := fun _ _ => true }
  grepHost := ⟨fun _ => [], false, [], fun _ _ => some []⟩

def searchFor (path : String) : Call := .search ⟨ascii "x", ascii path, [], true, .nan⟩

theorem sandbox_contains_absolute :
    emptyWorkspace.Sandboxed ∧ emptyWorkspace.Contained (searchFor "/w/../etc") := by
  have hon : emptyWorkspace.Sandboxed := ⟨rfl, rfl⟩
  refine ⟨hon, (sandbox_contains_iff hon _).mpr fun hout => ?_⟩
  have habsolute : isAbsolute (ascii "/w/../etc") = true := by decide
  exact Bool.false_ne_true (hout.2.2.2.1.symm.trans habsolute)

/-- The parent of the workspace is searched. -/
theorem sandbox_left : ¬ ∀ server : Server, server.Sandboxed → ∀ call, server.Contained call := by
  intro hclaim
  have hon : emptyWorkspace.Sandboxed := ⟨rfl, rfl⟩
  have hkept := (kept_search hon.2 ⟨ascii "x", ascii "..", [], true, .nan⟩).mp
    (hclaim emptyWorkspace hon (searchFor ".."))
  have hsendable : Sendable emptyWorkspace.units
      (grepArgs ⟨ascii "x", ascii "..", [], true, .nan⟩ (ascii "..")) := by decide
  have houtside : ¬ emptyWorkspace.units.root <+:
      resolve emptyWorkspace.units.root (ascii "..") := by decide
  exact hkept ⟨by decide, rfl, hsendable, by decide, houtside⟩

end Ds4Studio.Web.Sandbox

import Ds4Studio.Lib.Splits

/-!
Paths, as texts and as places. A place is the list of the names on the way from the top. A path is
walked name by name: `.` stays and `..` goes up, at the top it stays. Where there are no links, this
is where the system ends up with the path.
-/

namespace Ds4Studio.Paths

open List

/-- The characters that a path is read by. -/
class Letters (α : Type) where
  slash : α
  dot : α
  apart : slash ≠ dot

open Letters

abbrev Place (α : Type) := List (List α)

variable {α : Type} [Letters α]

def up : List α := [dot, dot]

variable [DecidableEq α]

def enter (place : Place α) (name : List α) : Place α :=
  if name = [] ∨ name = [dot] then place
  else if name = up then place.dropLast
  else place ++ [name]

def isAbsolute (path : List α) : Bool := path.head? = some slash

/-- The place of a path, with the place it is relative to. -/
def resolve (cwd : Place α) (path : List α) : Place α :=
  (path.splitOn slash).foldl enter (if isAbsolute path then [] else cwd)

omit [DecidableEq α] in
def join (names : List (List α)) : List α := [slash].intercalate names

omit [DecidableEq α] in
/-- The absolute path of a place. -/
def render (place : Place α) : List α := slash :: join place

/-- The names on the way from one place to another. -/
def relative : Place α → Place α → List (List α)
  | name :: start, name' :: goal =>
      if name = name' then relative start goal
      else replicate (start.length + 1) up ++ name' :: goal
  | start, goal => replicate start.length up ++ goal

omit [DecidableEq α] in
/-- What the names of a place are. -/
def Proper (name : List α) : Prop := name ≠ [] ∧ name ≠ [dot] ∧ name ≠ up ∧ slash ∉ name

omit [DecidableEq α] in
def Clean (place : Place α) : Prop := ∀ name ∈ place, Proper name

instance (place : Place α) : Decidable (Clean place) := by
  unfold Clean Proper
  infer_instance

/-! ### Places -/

variable {place : Place α}

theorem clean_enter (h : Clean place) {name : List α} (hname : slash ∉ name) :
    Clean (enter place name) := by
  unfold enter
  split_ifs with hstay hup
  · exact h
  · exact fun part hpart => h part (dropLast_subset place hpart)
  · intro part hpart
    rcases mem_append.mp hpart with hold | hnew
    · exact h part hold
    · rw [mem_singleton.mp hnew]
      exact ⟨fun hnil => hstay (.inl hnil), fun hdot => hstay (.inr hdot), hup, hname⟩

theorem clean_foldl (h : Clean place) {names : List (List α)}
    (hnames : ∀ name ∈ names, slash ∉ name) : Clean (names.foldl enter place) := by
  induction names generalizing place with
  | nil => exact h
  | cons name names ih =>
    exact ih (clean_enter h (hnames name mem_cons_self))
      fun part hpart => hnames part (mem_cons_of_mem _ hpart)

theorem clean_resolve {cwd : Place α} (h : Clean cwd) (path : List α) :
    Clean (resolve cwd path) := by
  refine clean_foldl ?_ (Splits.not_mem_of_mem_splitOn slash path)
  split
  · exact fun name hname => absurd hname not_mem_nil
  · exact h

variable (start : Place α)

theorem foldl_enter_clean (h : Clean place) : place.foldl enter start = start ++ place := by
  induction place generalizing start with
  | nil => rw [foldl_nil, append_nil]
  | cons name place ih =>
    obtain ⟨hnil, hdot, hup, -⟩ := h name mem_cons_self
    have henter : enter start name = start ++ [name] := by
      rw [enter, if_neg (by simp [hnil, hdot]), if_neg hup]
    rw [foldl_cons, henter, ih _ fun part hpart => h part (mem_cons_of_mem _ hpart),
      append_assoc, singleton_append]

theorem resolve_of_absolute {path : List α} (h : isAbsolute path = true) (cwd cwd' : Place α) :
    resolve cwd path = resolve cwd' path := by
  rw [resolve, resolve, if_pos h, if_pos h]

theorem resolve_render (cwd : Place α) (h : Clean place) : resolve cwd (render place) = place := by
  have habsolute : isAbsolute (render place) = true := by simp [isAbsolute, render]
  have hsplit : (render place).splitOn slash = [] :: (join place).splitOn slash :=
    splitOn_append_cons_self [] (join place)
  rw [resolve, if_pos habsolute, hsplit, foldl_cons]
  have hstay : enter ([] : Place α) [] = [] := by rw [enter, if_pos (.inl rfl)]
  rw [hstay]
  by_cases hplace : place = []
  · subst hplace
    have hnone : (join ([] : Place α)).splitOn slash = [[]] := rfl
    rw [hnone, foldl_cons, hstay, foldl_nil]
  · rw [join, splitOn_intercalate slash (fun name hname => (h name hname).2.2.2) hplace,
      foldl_enter_clean [] h, nil_append]

/-! ### Relative paths -/

variable {goal : Place α}

theorem head_relative (h : Clean goal) :
    (relative start goal).head? = some up ↔ ¬ start <+: goal := by
  induction start generalizing goal with
  | nil =>
    refine iff_of_false (fun hhead => ?_) (not_not_intro nil_prefix)
    exact (h up (mem_of_head? hhead)).2.2.1 rfl
  | cons name start ih =>
    cases goal with
    | nil =>
      refine iff_of_true rfl fun hprefix => ?_
      cases prefix_nil.mp hprefix
    | cons name' goal =>
      rw [relative, cons_prefix_cons]
      split_ifs with hname
      · rw [ih fun part hpart => h part (mem_cons_of_mem _ hpart)]
        exact ⟨fun hnot hboth => hnot hboth.2, fun hnot hrest => hnot ⟨hname, hrest⟩⟩
      · exact iff_of_true rfl fun hboth => hname hboth.1

theorem not_mem_relative (h : Clean goal) :
    ∀ name ∈ relative start goal, name ≠ [] ∧ slash ∉ name := by
  have hup : ∀ n, ∀ name ∈ replicate n (up : List α), name ≠ [] ∧ slash ∉ name := by
    intro n name hname
    rw [eq_of_mem_replicate hname]
    exact ⟨nofun, by simp [up, Letters.apart]⟩
  induction start generalizing goal with
  | nil =>
    exact fun name hname => ⟨(h name hname).1, (h name hname).2.2.2⟩
  | cons first start ih =>
    cases goal with
    | nil =>
      intro name hname
      exact hup (start.length + 1) name (by simpa [relative] using hname)
    | cons name' goal =>
      rw [relative]
      split_ifs with hsame
      · exact ih fun part hpart => h part (mem_cons_of_mem _ hpart)
      · intro name hname
        rcases mem_append.mp hname with hback | hforth
        · exact hup _ name hback
        · exact ⟨(h name hforth).1, (h name hforth).2.2.2⟩

/-- The test of a path for leading up, on its text. -/
def leavesText (rel : List α) : Bool := rel = up || (up ++ [slash]).isPrefixOf rel || isAbsolute rel

theorem leavesText_join {names : List (List α)} (h : ∀ name ∈ names, name ≠ [] ∧ slash ∉ name) :
    leavesText (join names) = true ↔ names.head? = some up := by
  have hslash : (slash : α) ∉ (up : List α) := by simp [up, Letters.apart]
  cases names with
  | nil => simp [leavesText, join, up, isAbsolute]
  | cons name names =>
    obtain ⟨hne, hfree⟩ := h name mem_cons_self
    obtain ⟨c, rest, rfl⟩ := exists_cons_of_ne_nil hne
    have habsolute : ∀ more, isAbsolute (c :: rest ++ more) = false := by
      intro more
      have hc : c ≠ slash := fun hc => hfree (hc ▸ mem_cons_self)
      simp [isAbsolute, hc]
    cases names with
    | nil =>
      have hjoin : join [c :: rest] = c :: rest ++ [] := by simp [join]
      rw [hjoin, leavesText, habsolute, append_nil, head?_cons, Option.some_inj]
      simp only [Bool.or_false, Bool.or_eq_true, decide_eq_true_eq, isPrefixOf_iff_prefix]
      refine or_iff_left fun hprefix => hfree ?_
      exact hprefix.subset (mem_append_right _ (mem_singleton_self _))
    | cons second names =>
      have hjoin : join ((c :: rest) :: second :: names) =
          c :: rest ++ slash :: join (second :: names) := by
        simp [join]
      rw [hjoin, leavesText, habsolute, head?_cons, Option.some_inj]
      simp only [Bool.or_false, Bool.or_eq_true, decide_eq_true_eq, isPrefixOf_iff_prefix]
      constructor
      · rintro (hup | ⟨more, hmore⟩)
        · exact absurd (hup ▸ by simp) hslash
        · rw [append_assoc, singleton_append] at hmore
          have hsplit := congrArg (splitOn slash) hmore
          rw [splitOn_append_cons_self_of_not_mem hslash,
            splitOn_append_cons_self_of_not_mem hfree] at hsplit
          exact (cons.inj hsplit).1.symm
      · intro hup
        rw [hup]
        exact .inr ⟨join (second :: names), by simp⟩

theorem leavesText_relative (h : Clean goal) :
    leavesText (join (relative start goal)) = true ↔ ¬ start <+: goal :=
  (leavesText_join (not_mem_relative start h)).trans (head_relative start h)

end Ds4Studio.Paths

import Ds4Studio.Lib.Bytes

/-!
The reader of an event stream: lines end in a line feed, a carriage return or both, the
fields of an event are one a line, and an empty line ends the event. A line or an event that
is not ended is not read.
-/

namespace Ds4Studio.EventStream

open Bytes List

structure Event where
  name : Bytes
  data : Bytes
  deriving DecidableEq

/-- The lines that are ended, behind the part of one that is read. -/
def lines (part : Bytes) : Bytes → List Bytes
  | [] => []
  | 0x0d :: 0x0a :: rest => part :: lines [] rest
  | c :: rest => if c = 0x0a ∨ c = 0x0d then part :: lines [] rest else lines (part ++ [c]) rest

/-- A field and its value, without the space that may stand in front of it. -/
def field (line : Bytes) : Bytes × Bytes :=
  match line.dropWhile (· ≠ 0x3a) with
  | [] => (line, [])
  | _ :: 0x20 :: value => (line.takeWhile (· ≠ 0x3a), value)
  | _ :: value => (line.takeWhile (· ≠ 0x3a), value)

/-- The events of some lines, behind the fields `name` and `data`. -/
def read (name : Bytes) (data : List Bytes) : List Bytes → List Event
  | [] => []
  | [] :: rest =>
      if data = [] then read [] [] rest
      else ⟨if name = [] then str "message" else name, [0x0a].intercalate data⟩ :: read [] [] rest
  | line :: rest =>
      let (key, value) := field line
      if key = str "event" then read value data rest
      else if key = str "data" then read name (data ++ [value]) rest
      else read name data rest

def events (stream : Bytes) : List Event := read [] [] (lines [] stream)

/-- A text that stands in one line. -/
def OneLine (text : Bytes) : Prop := ∀ c ∈ text, c ≠ 0x0a ∧ c ≠ 0x0d

theorem lines_oneLine {text : Bytes} (h : OneLine text) (part rest : Bytes) :
    lines part (text ++ 0x0a :: rest) = (part ++ text) :: lines [] rest := by
  induction text generalizing part with
  | nil => simp [lines]
  | cons c text ih =>
    obtain ⟨hfeed, hreturn⟩ := h c mem_cons_self
    have hrest : OneLine text := fun d hd => h d (mem_cons_of_mem c hd)
    rw [cons_append, lines]
    · rw [if_neg (by simp [hfeed, hreturn]), ih hrest]
      simp
    · rintro rest' rfl
      exact absurd rfl hreturn

theorem field_spaced (key : Bytes) (h : (0x3a : UInt8) ∉ key) (value : Bytes) :
    field (key ++ 0x3a :: 0x20 :: value) = (key, value) := by
  have hkey : ∀ c ∈ key, decide (c ≠ 0x3a) = true := by
    intro c hc
    simp only [decide_eq_true_eq]
    rintro rfl
    exact h hc
  have hdrop : (key ++ 0x3a :: 0x20 :: value).dropWhile (· ≠ 0x3a) = 0x3a :: 0x20 :: value := by
    rw [dropWhile_append_of_pos hkey]
    simp
  have htake : (key ++ 0x3a :: 0x20 :: value).takeWhile (· ≠ 0x3a) = key := by
    rw [takeWhile_append_of_pos hkey]
    simp
  rw [field, hdrop]
  simp only [htake]

/-- An event that is written on two lines is read, and what follows it is read as before. -/
theorem events_written {name data : Bytes} (hname : OneLine name) (hne : name ≠ [])
    (hdata : OneLine data) (rest : Bytes) :
    events (str "event: " ++ name ++ str "\ndata: " ++ data ++ str "\n\n" ++ rest) =
      ⟨name, data⟩ :: events rest := by
  have hfirst : OneLine (str "event: " ++ name) := by
    intro c hc
    rcases mem_append.mp hc with hc | hc
    · exact forall_of_all (P := fun c => c ≠ 0x0a ∧ c ≠ 0x0d) (by decide) c hc
    · exact hname c hc
  have hsecond : OneLine (str "data: " ++ data) := by
    intro c hc
    rcases mem_append.mp hc with hc | hc
    · exact forall_of_all (P := fun c => c ≠ 0x0a ∧ c ≠ 0x0d) (by decide) c hc
    · exact hdata c hc
  have htext : str "event: " ++ name ++ str "\ndata: " ++ data ++ str "\n\n" ++ rest =
      (str "event: " ++ name) ++ 0x0a :: ((str "data: " ++ data) ++ 0x0a :: ([] ++ 0x0a :: rest)) := by
    simp [show str "\ndata: " = 0x0a :: str "data: " by decide,
      show str "\n\n" = [0x0a, 0x0a] by decide]
  have hevent : field (str "event: " ++ name) = (str "event", name) := by
    simpa [show str "event: " = str "event" ++ [0x3a, 0x20] by decide] using
      field_spaced (str "event") (by decide) name
  have hempty : OneLine [] := by
    intro c hc
    cases hc
  rw [htext, events, lines_oneLine hfirst, lines_oneLine hsecond, lines_oneLine hempty]
  simp only [nil_append]
  rw [read, hevent]
  · simp only [if_true]
    rw [read]
    · simp only [if_false, if_true, nil_append, read, reduceCtorEq, hne, intercalate_singleton]
      rfl
    · intro h
      exact absurd (congrArg List.length h) (by simp [str])
  · intro h
    exact absurd (congrArg List.length h) (by simp [str])

end Ds4Studio.EventStream

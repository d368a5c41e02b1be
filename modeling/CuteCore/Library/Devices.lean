import Mathlib

/-!
# Programs over a device of cells

A program asks a device for the contents of cells and gives it new ones, one request after
the other. A device that answers as a map of cells would makes the program compute what it
computes over the map.
-/

namespace Devices

section

variable {κ α β γ : Type}

/-- A request with what was read or written. -/
inductive Request (κ α : Type) where
  | read (cell : κ) (got : α)
  | write (cell : κ) (data : α)

inductive Code (κ α β : Type) where
  | done (value : β)
  | read (cell : κ) (next : α → Code κ α β)
  | write (cell : κ) (data : α) (next : Code κ α β)

/-- A run over a device that answers anything, with its requests and its value. -/
inductive Ran : Code κ α β → List (Request κ α) → β → Prop where
  | done {value : β} : Ran (.done value) [] value
  | read {cell : κ} {got : α} {next : α → Code κ α β} {requests : List (Request κ α)} {value : β}
      (later : Ran (next got) requests value) :
      Ran (.read cell next) (.read cell got :: requests) value
  | write {cell : κ} {data : α} {next : Code κ α β} {requests : List (Request κ α)} {value : β}
      (later : Ran next requests value) :
      Ran (.write cell data next) (.write cell data :: requests) value

def Code.map (f : β → γ) : Code κ α β → Code κ α γ
  | .done value => .done (f value)
  | .read cell next => .read cell fun got => (next got).map f
  | .write cell data next => .write cell data (next.map f)

variable [DecidableEq κ]

/-- The run over a map of cells. -/
def Code.onMap (cells : κ → α) : Code κ α β → (κ → α) × β
  | .done value => (cells, value)
  | .read cell next => (next (cells cell)).onMap cells
  | .write cell data next => next.onMap (Function.update cells cell data)

theorem Code.onMap_map (f : β → γ) (cells : κ → α) (code : Code κ α β) :
    (code.map f).onMap cells = ((code.onMap cells).1, f (code.onMap cells).2) := by
  induction code generalizing cells with
  | done value => rfl
  | read cell next inductionHypothesis => exact inductionHypothesis (cells cell) cells
  | write cell data next inductionHypothesis => exact inductionHypothesis _

def Request.apply (cells : κ → α) : Request κ α → κ → α
  | .read _ _ => cells
  | .write cell data => Function.update cells cell data

/-- The cells after these requests. -/
def mapAfter (cells : κ → α) (requests : List (Request κ α)) : κ → α :=
  requests.foldl Request.apply cells

theorem mapAfter_append (cells : κ → α) (first second : List (Request κ α)) :
    mapAfter cells (first ++ second) = mapAfter (mapAfter cells first) second :=
  List.foldl_append

/-- Every answer is the content of the cell at that time. -/
def Truthful (cells : κ → α) (requests : List (Request κ α)) : Prop :=
  ∀ earlier cell got later, requests = earlier ++ .read cell got :: later →
    got = mapAfter cells earlier cell

theorem Truthful.front {cells : κ → α} {first second : List (Request κ α)}
    (truthful : Truthful cells (first ++ second)) : Truthful cells first := by
  intro earlier cell got later split
  apply truthful earlier cell got (later ++ second)
  rw [split, List.append_assoc, List.cons_append]

theorem Truthful.back {cells : κ → α} {first second : List (Request κ α)}
    (truthful : Truthful cells (first ++ second)) : Truthful (mapAfter cells first) second := by
  intro earlier cell got later split
  rw [← mapAfter_append]
  apply truthful (first ++ earlier) cell got later
  rw [split, List.append_assoc]

/-- The run is the one over the map. -/
theorem Ran.onMap {code : Code κ α β} {requests : List (Request κ α)} {value : β}
    (ran : Ran code requests value) {cells : κ → α} (truthful : Truthful cells requests) :
    code.onMap cells = (mapAfter cells requests, value) := by
  induction ran generalizing cells with
  | done => rfl
  | @read cell got next requests value later inductionHypothesis =>
    have isGot : got = cells cell := truthful [] cell got requests rfl
    rw [Code.onMap, ← isGot]
    exact inductionHypothesis (@Truthful.back _ _ _ _ [.read cell got] _ truthful)
  | @write cell data next requests value later inductionHypothesis =>
    exact inductionHypothesis (@Truthful.back _ _ _ _ [.write cell data] _ truthful)

end

end Devices

import Mathlib

/-!
# Bags of keyed values

Bags of pairs, in which a key can stand several times. A call looks a key up, enters a pair
or takes one out. Nothing is lost and nothing appears: what was there and what was entered
is what was taken out and what is left.
-/

namespace Bags

section

variable {ι κ ν : Type}

/-- A pair that is entered may be refused, for lack of room. -/
inductive Call (ι κ ν : Type) where
  | find (bag : ι) (key : κ)
  | enter (bag : ι) (key : κ) (value : ν)
  | remove (bag : ι) (key : κ)
  /-- Of something that is no bag. -/
  | other

inductive Answer (ν : Type) where
  | value (found : Option ν)
  | entered (done : Bool)
  | other

variable [DecidableEq ι] [DecidableEq κ] [DecidableEq ν]

inductive Step (bags : ι → Multiset (κ × ν)) :
    Call ι κ ν → Answer ν → (ι → Multiset (κ × ν)) → Prop where
  | found {i : ι} {key : κ} {value : ν} (member : (key, value) ∈ bags i) :
      Step bags (.find i key) (.value (some value)) bags
  | absent {i : ι} {key : κ} (missing : ∀ value, (key, value) ∉ bags i) :
      Step bags (.find i key) (.value none) bags
  | entered {i : ι} {key : κ} {value : ν} : Step bags (.enter i key value) (.entered true)
      (Function.update bags i ((key, value) ::ₘ bags i))
  | refused {i : ι} {key : κ} {value : ν} : Step bags (.enter i key value) (.entered false) bags
  | removed {i : ι} {key : κ} {value : ν} (member : (key, value) ∈ bags i) :
      Step bags (.remove i key) (.value (some value))
        (Function.update bags i ((bags i).erase (key, value)))
  | nothing {i : ι} {key : κ} (missing : ∀ value, (key, value) ∉ bags i) :
      Step bags (.remove i key) (.value none) bags
  | other : Step bags .other .other bags

inductive Runs : (ι → Multiset (κ × ν)) → List (Call ι κ ν × Answer ν) →
    (ι → Multiset (κ × ν)) → Prop where
  | nil {bags : ι → Multiset (κ × ν)} : Runs bags [] bags
  | cons {bags mid after : ι → Multiset (κ × ν)} {call : Call ι κ ν} {answer : Answer ν}
      {rest : List (Call ι κ ν × Answer ν)} (first : Step bags call answer mid)
      (later : Runs mid rest after) : Runs bags ((call, answer) :: rest) after

/-- What a call put into a bag. -/
def enteredIn (i : ι) : Call ι κ ν × Answer ν → Multiset (κ × ν)
  | (.enter j key value, .entered true) => if j = i then {(key, value)} else 0
  | _ => 0

/-- What a call took out of it. -/
def removedFrom (i : ι) : Call ι κ ν × Answer ν → Multiset (κ × ν)
  | (.remove j key, .value (some value)) => if j = i then {(key, value)} else 0
  | (.remove _ _, .value none) => 0
  | _ => 0

/-- One call takes out of a bag what it hands out and puts in what it was given. -/
theorem Step.conserve {bags after : ι → Multiset (κ × ν)} {call : Call ι κ ν} {answer : Answer ν}
    (step : Step bags call answer after) (i : ι) :
    after i + removedFrom i (call, answer) = bags i + enteredIn i (call, answer) := by
  cases step with
  | found _ | absent _ | refused | nothing _ | other => rfl
  | @entered j key value =>
    rw [removedFrom, enteredIn, add_zero]
    · by_cases same : j = i
      · subst same
        rw [Function.update_self, if_pos rfl, ← Multiset.singleton_add, add_comm]
      · rw [Function.update_of_ne fun isSame => same isSame.symm, if_neg same, add_zero]
    · rintro _ _ _ isRemove
      cases isRemove
    · rintro _ _ isRemove
      cases isRemove
  | @removed j key value member =>
    rw [removedFrom, enteredIn, add_zero]
    · by_cases same : j = i
      · subst same
        rw [Function.update_self, if_pos rfl, add_comm, Multiset.singleton_add,
          Multiset.cons_erase member]
      · rw [Function.update_of_ne fun isSame => same isSame.symm, if_neg same, add_zero]
    · rintro _ _ _ isEnter
      cases isEnter

/-- Over any run the pairs are conserved. -/
theorem Runs.conserve {bags after : ι → Multiset (κ × ν)} {calls : List (Call ι κ ν × Answer ν)}
    (runs : Runs bags calls after) (i : ι) :
    after i + (calls.map (removedFrom i)).sum = bags i + (calls.map (enteredIn i)).sum := by
  induction runs with
  | nil => rfl
  | @cons bags mid after call answer rest first _ inductionHypothesis =>
    rw [List.map_cons, List.map_cons, List.sum_cons, List.sum_cons]
    calc after i + (removedFrom i (call, answer) + (rest.map (removedFrom i)).sum)
        = after i + (rest.map (removedFrom i)).sum + removedFrom i (call, answer) := by
          rw [add_comm (removedFrom i _), ← add_assoc]
      _ = mid i + (rest.map (enteredIn i)).sum + removedFrom i (call, answer) := by
          rw [inductionHypothesis]
      _ = mid i + removedFrom i (call, answer) + (rest.map (enteredIn i)).sum :=
          add_right_comm ..
      _ = bags i + (enteredIn i (call, answer) + (rest.map (enteredIn i)).sum) := by
          rw [first.conserve i, add_assoc]

end

end Bags

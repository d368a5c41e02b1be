import Mathlib

/-!
# Doubly linked lists

Lists of nodes threaded through a `next` and a `prev` map with a null node.
Insertion at the head and removal of any node are stated pointwise: the new maps
need to be right on the nodes of the list only, so that a memory which stores
the links beside other fields can use them.
-/

namespace DoublyLinked

variable {ν : Type} {null : ν} {next prev next' prev' : ν → ν}

/-- From `head` on, `next` leads through exactly these nodes to null, and `prev`
leads back from each to the one before it. -/
def Linked (null : ν) (next prev : ν → ν) : ν → ν → List ν → Prop
  | _, head, [] => head = null
  | before, head, node :: rest =>
    head = node ∧ node ≠ null ∧ prev node = before ∧ Linked null next prev node (next node) rest

namespace Linked

/-- A list depends on the links of its nodes alone. -/
theorem congr {before head : ν} {nodes : List ν} (linked : Linked null next prev before head nodes)
    (same : ∀ node ∈ nodes, next' node = next node ∧ prev' node = prev node) :
    Linked null next' prev' before head nodes := by
  induction nodes generalizing before head with
  | nil => exact linked
  | cons node rest inductionHypothesis =>
    obtain ⟨atHead, nonnull, back, tail⟩ := linked
    obtain ⟨sameNext, samePrev⟩ := same node (List.mem_cons_self ..)
    refine ⟨atHead, nonnull, samePrev.trans back, ?_⟩
    rw [sameNext]
    exact inductionHypothesis tail fun other member => same other (List.mem_cons_of_mem _ member)

theorem ne_null {before head : ν} {nodes : List ν}
    (linked : Linked null next prev before head nodes)
    (node : ν) (member : node ∈ nodes) : node ≠ null := by
  induction nodes generalizing before head with
  | nil => cases member
  | cons first rest inductionHypothesis =>
    obtain ⟨-, nonnull, -, tail⟩ := linked
    rcases List.mem_cons.mp member with rfl | inRest
    · exact nonnull
    · exact inductionHypothesis tail inRest

theorem head_eq {before head : ν} {nodes : List ν}
    (linked : Linked null next prev before head nodes) :
    head = nodes.headD null := by
  cases nodes with
  | nil => exact linked
  | cons node rest => exact linked.1

/-- The links decide the nodes. -/
theorem unique {before head : ν} {nodes other : List ν}
    (linked : Linked null next prev before head nodes)
    (also : Linked null next prev before head other) : nodes = other := by
  induction nodes generalizing before head other with
  | nil =>
    cases other with
    | nil => rfl
    | cons node rest => exact absurd (also.1.symm.trans linked) also.2.1
  | cons node rest inductionHypothesis =>
    obtain ⟨rfl, nonnull, -, tail⟩ := linked
    cases other with
    | nil => exact absurd also nonnull
    | cons first more =>
      obtain ⟨rfl, -, -, alsoTail⟩ := also
      rw [inductionHypothesis tail alsoTail]

/-- The links of a node name its neighbours. -/
theorem neighbours {before head node : ν} {front back : List ν}
    (linked : Linked null next prev before head (front ++ node :: back)) :
    prev node = front.getLastD before ∧ next node = back.headD null := by
  induction front generalizing before head with
  | nil =>
    obtain ⟨-, -, prevNode, tail⟩ := linked
    exact ⟨prevNode, head_eq tail⟩
  | cons first rest inductionHypothesis =>
    obtain ⟨-, -, -, tail⟩ := linked
    have found := inductionHypothesis tail
    rw [List.getLastD_cons]
    exact found

/-- A new node in front of the list. Only the old head changes its `prev`. -/
theorem insert [DecidableEq ν] {head node : ν} {nodes : List ν}
    (linked : Linked null next prev null head nodes) (distinct : nodes.Nodup)
    (nonnull : node ≠ null)
    (nodeNext : next' node = head) (nodePrev : prev' node = null)
    (sameNext : ∀ other ∈ nodes, next' other = next other)
    (samePrev : ∀ other ∈ nodes, prev' other = if other = head then node else prev other) :
    Linked null next' prev' null node (node :: nodes) := by
  refine ⟨rfl, nonnull, nodePrev, ?_⟩
  rw [nodeNext]
  cases nodes with
  | nil => exact linked
  | cons first rest =>
    obtain ⟨rfl, firstNonnull, -, tail⟩ := linked
    refine ⟨rfl, firstNonnull, by simpa using samePrev head (List.mem_cons_self ..), ?_⟩
    rw [sameNext head (List.mem_cons_self ..)]
    apply congr tail
    intro other member
    have differs : other ≠ head := by
      rintro rfl
      exact (List.nodup_cons.mp distinct).1 member
    refine ⟨sameNext other (List.mem_cons_of_mem _ member), ?_⟩
    rw [samePrev other (List.mem_cons_of_mem _ member), if_neg differs]

/-- Removing a node: its neighbours are linked to each other. -/
theorem remove [DecidableEq ν] {before head node : ν} {front back : List ν}
    (linked : Linked null next prev before head (front ++ node :: back))
    (distinct : (front ++ node :: back).Nodup) (outside : before ∉ front ++ node :: back)
    (newNext : ∀ other ∈ front ++ back,
      next' other = if other = prev node then next node else next other)
    (newPrev : ∀ other ∈ front ++ back,
      prev' other = if other = next node then prev node else prev other) :
    Linked null next' prev' before (if front = [] then next node else head) (front ++ back) := by
  induction front generalizing before head with
  | nil =>
    obtain ⟨-, -, prevNode, tail⟩ := linked
    rw [if_pos rfl]
    cases back with
    | nil => exact tail
    | cons first rest =>
      obtain ⟨nextNode, firstNonnull, -, tail⟩ := tail
      have firstPrev := newPrev first (by simp)
      rw [if_pos nextNode.symm, prevNode] at firstPrev
      have firstNext := newNext first (by simp)
      rw [prevNode, if_neg (by rintro rfl; exact outside (by simp))] at firstNext
      refine ⟨nextNode, firstNonnull, firstPrev, ?_⟩
      rw [firstNext]
      apply congr tail
      intro other member
      have otherNext := newNext other (by simp [member])
      have otherPrev := newPrev other (by simp [member])
      rw [prevNode, if_neg (by rintro rfl; exact outside (by simp [member]))] at otherNext
      have differs : other ≠ first := by
        rintro rfl
        simp [member] at distinct
      rw [nextNode, if_neg differs] at otherPrev
      exact ⟨otherNext, otherPrev⟩
  | cons first rest inductionHypothesis =>
    obtain ⟨atHead, firstNonnull, firstPrev, tail⟩ := linked
    have names := neighbours tail
    rw [List.cons_append, List.nodup_cons] at distinct
    have later := inductionHypothesis tail distinct.2 distinct.1
      (fun other member => newNext other (by simp at member ⊢; tauto))
      (fun other member => newPrev other (by simp at member ⊢; tauto))
    rw [if_neg (List.cons_ne_nil _ _)]
    refine ⟨atHead, firstNonnull, ?_, ?_⟩
    · have notNext : first ≠ next node := by
        rw [names.2]
        cases back with
        | nil => exact firstNonnull
        | cons b bs =>
          rintro rfl
          exact distinct.1 (by simp)
      rw [newPrev first (by simp), if_neg notNext, firstPrev]
    · rw [newNext first (by simp)]
      by_cases isLast : rest = []
      · subst isLast
        have isPrev : first = prev node := names.1.symm
        rw [if_pos isPrev]
        rw [if_pos rfl] at later
        exact later
      · have notPrev : first ≠ prev node := by
          rw [names.1]
          have inRest : rest.getLastD first ∈ rest := by
            rw [List.getLastD_eq_getLast?, List.getLast?_eq_some_getLast isLast]
            exact List.getLast_mem isLast
          intro same
          exact distinct.1 (by rw [same]; exact List.mem_append_left _ inRest)
        rw [if_neg notPrev]
        rw [if_neg isLast] at later
        exact later

end Linked

end DoublyLinked

import Mathlib

/-!
# Circular lists

Lists of nodes threaded through two links, closed by a head that holds no element.
Insertion before the head and removal of any node are the only edits. A path of
nodes linked both ways makes both of them local: an edit changes the seam of two paths.
-/

namespace CircularList

variable {ν : Type} [DecidableEq ν]

structure Links (ν : Type) where
  next : ν → ν
  prev : ν → ν

def Links.setNext (links : Links ν) (node value : ν) : Links ν :=
  { links with next := Function.update links.next node value }

def Links.setPrev (links : Links ν) (node value : ν) : Links ν :=
  { links with prev := Function.update links.prev node value }

def init (node : ν) (links : Links ν) : Links ν := (links.setNext node node).setPrev node node

def addTail (node head : ν) (links : Links ν) : Links ν :=
  let links := links.setNext (links.prev head) node
  let links := links.setNext node head
  let links := links.setPrev node (links.prev head)
  links.setPrev head node

def del (node : ν) (links : Links ν) : Links ν :=
  let links := links.setPrev (links.next node) (links.prev node)
  links.setNext (links.prev node) (links.next node)

/-- From `first`, through these nodes, to `last`. -/
def Path (links : Links ν) : ν → List ν → ν → Prop
  | first, [], last => first = last
  | first, node :: rest, last =>
    links.next first = node ∧ links.prev node = first ∧ Path links node rest last

/-- The list with this head has exactly these elements, each once. -/
structure Ring (links : Links ν) (head : ν) (nodes : List ν) : Prop where
  once : (head :: nodes).Nodup
  closed : ∃ last, Path links head nodes last ∧ links.next last = head ∧ links.prev head = last

omit [DecidableEq ν] in
theorem Path.last_mem {links : Links ν} {first last : ν} {nodes : List ν}
    (path : Path links first nodes last) : last ∈ first :: nodes := by
  induction nodes generalizing first with
  | nil =>
    obtain rfl : first = last := path
    exact List.mem_singleton_self first
  | cons node rest inductionHypothesis => exact List.mem_cons_of_mem _ (inductionHypothesis path.2.2)

omit [DecidableEq ν] in
/-- A path is the path to any of its nodes and the path on from there. -/
theorem path_append {links : Links ν} {first last : ν} {front back : List ν} :
    Path links first (front ++ back) last ↔
      ∃ mid, Path links first front mid ∧ Path links mid back last := by
  induction front generalizing first with
  | nil =>
    constructor
    · intro path
      exact ⟨first, rfl, path⟩
    · rintro ⟨mid, rfl, path⟩
      exact path
  | cons node rest inductionHypothesis =>
    rw [List.cons_append]
    simp only [Path, inductionHypothesis]
    constructor
    · rintro ⟨forth, back, mid, path, tail⟩
      exact ⟨mid, ⟨forth, back, path⟩, tail⟩
    · rintro ⟨mid, ⟨forth, back, path⟩, tail⟩
      exact ⟨forth, back, mid, path, tail⟩

omit [DecidableEq ν] in
/-- A path depends on the forward links of all its nodes but the last and on the backward
links of all but the first. -/
theorem Path.congr {links other : Links ν} {first last : ν} {nodes : List ν}
    (path : Path links first nodes last) (once : (first :: nodes).Nodup)
    (forth : ∀ node ∈ first :: nodes, node ≠ last → other.next node = links.next node)
    (back : ∀ node ∈ nodes, other.prev node = links.prev node) : Path other first nodes last := by
  induction nodes generalizing first with
  | nil => exact path
  | cons node rest inductionHypothesis =>
    obtain ⟨toNode, fromNode, tail⟩ := path
    obtain ⟨notLater, later⟩ := List.nodup_cons.mp once
    have notLast : first ≠ last := by
      rintro rfl
      exact notLater tail.last_mem
    refine ⟨?_, ?_, ?_⟩
    · rw [forth first (List.mem_cons_self ..) notLast, toNode]
    · rw [back node (List.mem_cons_self ..), fromNode]
    · exact inductionHypothesis tail later
        (fun other member => forth other (List.mem_cons_of_mem _ member))
        fun other member => back other (List.mem_cons_of_mem _ member)

theorem ring_init (head : ν) (links : Links ν) : Ring (init head links) head [] := by
  refine ⟨List.nodup_singleton head, head, rfl, ?_, ?_⟩
  · simp [init, Links.setNext, Links.setPrev]
  · simp [init, Links.setNext, Links.setPrev]

/-- Changing the links of a node outside of the list. -/
theorem Ring.init {links : Links ν} {head node : ν} {nodes : List ν} (ring : Ring links head nodes)
    (fresh : node ∉ head :: nodes) : Ring (init node links) head nodes := by
  obtain ⟨once, last, path, forth, back⟩ := ring
  have other : ∀ n ∈ head :: nodes, n ≠ node := by
    rintro n member rfl
    exact fresh member
  have next : ∀ n ∈ head :: nodes, (CircularList.init node links).next n = links.next n := by
    intro n member
    simp [CircularList.init, Links.setNext, Links.setPrev, other n member]
  have prev : ∀ n ∈ head :: nodes, (CircularList.init node links).prev n = links.prev n := by
    intro n member
    simp [CircularList.init, Links.setNext, Links.setPrev, other n member]
  refine ⟨once, last, path.congr once (fun n member _ => next n member)
    fun n member => prev n (List.mem_cons_of_mem _ member), ?_, ?_⟩
  · rw [next last path.last_mem, forth]
  · rw [prev head (List.mem_cons_self ..), back]

/-- `list_add_tail` puts a fresh node behind the last one. -/
theorem Ring.addTail {links : Links ν} {head node : ν} {nodes : List ν}
    (ring : Ring links head nodes) (fresh : node ∉ head :: nodes) :
    Ring (addTail node head links) head (nodes ++ [node]) := by
  obtain ⟨once, last, path, forth, back⟩ := ring
  have notHead : node ≠ head := fun same => fresh (same ▸ List.mem_cons_self ..)
  have notLast : last ≠ node := fun same => fresh (same ▸ path.last_mem)
  have next : ∀ n, (CircularList.addTail node head links).next n =
      if n = node then head else if n = last then node else links.next n := by
    intro n
    simp only [CircularList.addTail, Links.setNext, Links.setPrev, Function.update_apply, back]
  have prev : ∀ n, (CircularList.addTail node head links).prev n =
      if n = head then node else if n = node then last else links.prev n := by
    intro n
    simp only [CircularList.addTail, Links.setNext, Links.setPrev, Function.update_apply, back]
  have grown : (head :: (nodes ++ [node])).Nodup := by
    rw [← List.cons_append, List.nodup_append]
    refine ⟨once, List.nodup_singleton node, ?_⟩
    rintro n member m isNode rfl
    exact fresh (List.mem_singleton.mp isNode ▸ member)
  refine ⟨grown, node, path_append.mpr ⟨last, ?_, ?_, ?_, rfl⟩, ?_, ?_⟩
  · refine path.congr once (fun n member differs => ?_) fun n member => ?_
    · have other : n ≠ node := fun same => fresh (same ▸ member)
      rw [next, if_neg other, if_neg differs]
    · have other : n ≠ node := fun same => fresh (same ▸ List.mem_cons_of_mem _ member)
      have inside : n ≠ head := fun same => (List.nodup_cons.mp once).1 (same ▸ member)
      rw [prev, if_neg inside, if_neg other]
  · rw [next, if_neg notLast, if_pos rfl]
  · rw [prev, if_neg notHead, if_pos rfl]
  · rw [next, if_pos rfl]
  · rw [prev, if_pos rfl]

/-- `list_del` takes one node out. -/
theorem Ring.del {links : Links ν} {head node : ν} {front rest : List ν}
    (ring : Ring links head (front ++ node :: rest)) : Ring (del node links) head (front ++ rest) := by
  obtain ⟨once, last, path, forth, back⟩ := ring
  obtain ⟨mid, first, toNode, fromNode, tail⟩ := path_append.mp path
  have shrunk : (head :: (front ++ rest)).Nodup :=
    once.sublist (.cons_cons _ ((List.sublist_cons_self node rest).append_left front))
  have apart : ∀ n ∈ head :: front, n ∉ node :: rest := by
    intro n member later
    rw [← List.cons_append] at once
    exact (List.nodup_append.mp once).2.2 n member n later rfl
  have onceFront : (head :: front).Nodup := by
    rw [← List.cons_append] at once
    exact (List.nodup_append.mp once).1
  have onceRest : (node :: rest).Nodup := by
    rw [← List.cons_append] at once
    exact (List.nodup_append.mp once).2.1
  have midBefore := first.last_mem
  have notMid : node ≠ mid := fun same => apart mid midBefore (same ▸ List.mem_cons_self ..)
  have next : ∀ n, (CircularList.del node links).next n =
      if n = mid then links.next node else links.next n := by
    intro n
    have seam : (Function.update links.prev (links.next node) (links.prev node)) node = mid := by
      rw [Function.update_apply, fromNode, ite_self]
    simp only [CircularList.del, Links.setNext, Links.setPrev, seam, Function.update_apply]
  have prev : ∀ n, (CircularList.del node links).prev n =
      if n = links.next node then mid else links.prev n := by
    intro n
    simp only [CircularList.del, Links.setNext, Links.setPrev, Function.update_apply, fromNode]
  have follower : links.next node ∉ front := by
    intro inside
    cases rest with
    | nil =>
      obtain rfl : node = last := tail
      rw [forth] at inside
      exact (List.nodup_cons.mp onceFront).1 inside
    | cons follower rest =>
      rw [tail.1] at inside
      exact apart follower (List.mem_cons_of_mem _ inside) (by simp)
  have firstKept : Path (CircularList.del node links) head front mid := by
    refine first.congr onceFront (fun n member differs => ?_) fun n member => ?_
    · rw [next, if_neg differs]
    · have other : n ≠ links.next node := by
        rintro rfl
        exact follower member
      rw [prev, if_neg other]
  cases rest with
  | nil =>
    obtain rfl : node = last := tail
    rw [List.append_nil] at shrunk ⊢
    refine ⟨shrunk, mid, firstKept, ?_, ?_⟩
    · rw [next, if_pos rfl, forth]
    · rw [prev, if_pos forth.symm]
  | cons follower rest =>
    obtain ⟨toFollower, fromFollower, tail⟩ := tail
    have onceTail := (List.nodup_cons.mp onceRest).2
    have notMidLater : ∀ n ∈ follower :: rest, n ≠ mid := by
      rintro n member rfl
      exact apart n midBefore (List.mem_cons_of_mem _ member)
    refine ⟨shrunk, last, path_append.mpr ⟨mid, firstKept, ?_, ?_, ?_⟩, ?_, ?_⟩
    · rw [next, if_pos rfl, toFollower]
    · rw [prev, if_pos toFollower.symm]
    · refine tail.congr onceTail (fun n member _ => ?_) fun n member => ?_
      · rw [next, if_neg (notMidLater n member)]
      · rw [prev, if_neg]
        rintro rfl
        rw [toFollower] at member
        exact (List.nodup_cons.mp onceTail).1 member
    · rw [next, if_neg (notMidLater last tail.last_mem), forth]
    · rw [prev, if_neg, back]
      rintro rfl
      exact apart _ (List.mem_cons_self ..) (by rw [toFollower]; simp)

end CircularList

import CuteCore.Fs.Truncate

/-!
# The block map of a file

The pointers of an inode form a tree whose nodes are named by a slot and the indices
below it. A file owns the blocks of its nodes alone. A new block hangs off one node and
leaves the others where they were.
-/

namespace CuteCore.Fs

open Hoare Bytes BlkCache

/-- A place in the block map of a file with blocks of this size: a direct, single or double
indirect pointer. -/
structure IsNode (size : Nat) (slot : Fin nBlocks) (path : List Nat) : Prop where
  shallow : slot.val < 14
  depth : path.length ≤ levelOf slot
  indices : ∀ i ∈ path, i < size / 4

/-- The pointer at a node. -/
def ptrAt (view : Nat → ByteMap) (inode : Inode) (slot : Fin nBlocks) (path : List Nat) : Nat :=
  treePtr view (inode.iBlock slot) path

/-- Pointer `i` of a block. -/
def childAt (view : Nat → ByteMap) (no i : Nat) : Nat :=
  if no = 0 then 0 else load (view no) (4 * i) 4

theorem treePtr_append (view : Nat → ByteMap) (no : Nat) (path : List Nat) (i : Nat) :
    treePtr view no (path ++ [i]) = childAt view (treePtr view no path) i := by
  induction path generalizing no with
  | nil => rfl
  | cons j rest inductionHypothesis =>
    rw [List.cons_append, treePtr, treePtr]
    split
    · rw [childAt, if_pos rfl]
    · exact inductionHypothesis _

theorem ptrAt_append (view : Nat → ByteMap) (inode : Inode) (slot : Fin nBlocks)
    (path : List Nat) (i : Nat) :
    ptrAt view inode slot (path ++ [i]) = childAt view (ptrAt view inode slot path) i :=
  treePtr_append view _ path i

/-- Below a hole there are holes. -/
theorem ptrAt_below (view : Nat → ByteMap) (inode : Inode) (slot : Fin nBlocks)
    (path more : List Nat) (isHole : ptrAt view inode slot path = 0) :
    ptrAt view inode slot (path ++ more) = 0 := by
  induction more using List.reverseRecOn with
  | nil => rwa [List.append_nil]
  | append_singleton more i inductionHypothesis =>
    rw [← List.append_assoc, ptrAt_append, inductionHypothesis, childAt, if_pos rfl]

theorem IsNode.parent {size : Nat} {slot : Fin nBlocks} {path : List Nat} {i : Nat}
    (isNode : IsNode size slot (path ++ [i])) : IsNode size slot path := by
  have depth := isNode.depth
  rw [List.length_append, List.length_singleton] at depth
  exact ⟨isNode.shallow, by omega, fun j member => isNode.indices j (List.mem_append_left _ member)⟩

/-- Distinct nodes with a block have distinct blocks. -/
def DistinctNodes (size : Nat) (view : Nat → ByteMap) (inode : Inode) : Prop :=
  ∀ slot path slot' path', IsNode size slot path → IsNode size slot' path' →
    ptrAt view inode slot path ≠ 0 → ptrAt view inode slot path = ptrAt view inode slot' path' →
    slot = slot' ∧ path = path'

/-- A block was hung off the node `(slot, path)`, which had none. -/
structure Hung (size : Nat) (view : Nat → ByteMap) (inode : Inode) (view' : Nat → ByteMap) (inode' : Inode)
    (slot : Fin nBlocks) (path : List Nat) (nb : Nat) : Prop where
  isNode : IsNode size slot path
  wasHole : ptrAt view inode slot path = 0
  positive : nb ≠ 0
  fresh : ∀ slot' path', IsNode size slot' path' → ptrAt view inode slot' path' ≠ nb
  top : inode'.iBlock = if path = [] then Function.update inode.iBlock slot nb else inode.iBlock
  parent : ∀ front i, path = front ++ [i] → childAt view' (ptrAt view inode slot front) i = nb
  others : ∀ slot' path' i, IsNode size slot' (path' ++ [i]) → ptrAt view inode slot' path' ≠ 0 →
    ¬ (slot' = slot ∧ path' ++ [i] = path) →
    childAt view' (ptrAt view inode slot' path') i = childAt view (ptrAt view inode slot' path') i
  empty : ∀ i < size / 4, path.length < levelOf slot → childAt view' nb i = 0

namespace Hung

variable {size : Nat} {view view' : Nat → ByteMap} {inode inode' : Inode} {slot : Fin nBlocks}
  {path : List Nat} {nb : Nat}

/-- The pointers afterwards. -/
theorem ptrAt_eq (hung : Hung size view inode view' inode' slot path nb) (slot' : Fin nBlocks)
    (path' : List Nat) (isNode : IsNode size slot' path') : ptrAt view' inode' slot' path' =
      if slot' = slot ∧ path' = path then nb else ptrAt view inode slot' path' := by
  induction path' using List.reverseRecOn with
  | nil =>
    change inode'.iBlock slot' = if slot' = slot ∧ [] = path then nb else inode.iBlock slot'
    rw [hung.top]
    by_cases isTop : path = []
    · subst isTop
      rw [if_pos rfl, Function.update_apply]
      simp only [and_true]
    · rw [if_neg isTop, if_neg fun both => isTop both.2.symm]
  | append_singleton front i inductionHypothesis =>
    have before := inductionHypothesis isNode.parent
    rw [ptrAt_append, before]
    have small : i < size / 4 := isNode.indices i (List.mem_append_right _ (List.mem_singleton_self i))
    by_cases atNew : slot' = slot ∧ front = path
    · -- The children of the new block are holes, as they were.
      obtain ⟨rfl, rfl⟩ := atNew
      have depth := isNode.depth
      rw [List.length_append, List.length_singleton] at depth
      rw [if_pos ⟨rfl, rfl⟩, hung.empty i small (by omega), if_neg (by simp),
        ptrAt_below view inode slot' front [i] hung.wasHole]
    · rw [if_neg atNew]
      by_cases isHole : ptrAt view inode slot' front = 0
      · have notNew : ¬ (slot' = slot ∧ front ++ [i] = path) := by
          rintro ⟨rfl, isPath⟩
          have child := hung.parent front i isPath.symm
          rw [isHole, childAt, if_pos rfl] at child
          exact hung.positive child.symm
        rw [if_neg notNew, isHole, childAt, if_pos rfl, ptrAt_below view inode slot' front [i] isHole]
      · by_cases isNew : slot' = slot ∧ front ++ [i] = path
        · rw [if_pos isNew, isNew.1]
          exact hung.parent front i isNew.2.symm
        · rw [if_neg isNew, hung.others slot' front i isNode isHole isNew, ptrAt_append]

/-- A tree without shared blocks has none after a new block was hung into it. -/
theorem distinct (hung : Hung size view inode view' inode' slot path nb)
    (before : DistinctNodes size view inode) : DistinctNodes size view' inode' := by
  intro slot₁ path₁ slot₂ path₂ isNode₁ isNode₂ some same
  rw [hung.ptrAt_eq _ _ isNode₁] at some same
  rw [hung.ptrAt_eq _ _ isNode₂] at same
  by_cases first : slot₁ = slot ∧ path₁ = path
  · rw [if_pos first] at same
    by_cases second : slot₂ = slot ∧ path₂ = path
    · exact ⟨first.1.trans second.1.symm, first.2.trans second.2.symm⟩
    · rw [if_neg second] at same
      exact absurd same.symm (hung.fresh _ _ isNode₂)
  · rw [if_neg first] at some same
    by_cases second : slot₂ = slot ∧ path₂ = path
    · rw [if_pos second] at same
      exact absurd same (hung.fresh _ _ isNode₁)
    · rw [if_neg second] at same
      exact before _ _ _ _ isNode₁ isNode₂ some same

end Hung

section

variable {size lbk : Nat} {slot : Fin nBlocks} {path : List Nat}

/-- The path of a logical block leads to a data node. -/
theorem blockPath_isNode (found : blockPath size lbk = some (slot, path)) :
    IsNode size slot path ∧ path.length = levelOf slot := by
  have indices : ∀ i ∈ path, i < size / 4 := by
    intro i member
    have inside := blockPath_index found i member
    omega
  simp only [blockPath] at found
  split at found
  · rename_i direct
    cases found
    have isSlot : (Fin.ofNat nBlocks lbk).val = lbk := Nat.mod_eq_of_lt (by omega : lbk < 15)
    have level : levelOf (Fin.ofNat nBlocks lbk) = 0 := by
      rw [levelOf, isSlot]
      omega
    exact ⟨⟨by omega, by rw [level]; exact Nat.le_refl 0, indices⟩, level.symm⟩
  · split at found
    · cases found
      exact ⟨⟨by decide, Nat.le_refl 1, indices⟩, rfl⟩
    · split at found
      · cases found
        exact ⟨⟨by decide, Nat.le_refl 2, indices⟩, rfl⟩
      · cases found

/-- The logical block of a data node. -/
def lbkOf (size : Nat) (slot : Fin nBlocks) (path : List Nat) : Nat :=
  if slot.val < 12 then slot.val
  else if slot.val = 12 then 12 + path.headD 0
  else 12 + size / 4 + (size / 4 * path.headD 0 + path.getD 1 0)

/-- The place of a logical block in the tree gives the logical block back. -/
theorem lbkOf_blockPath (found : blockPath size lbk = some (slot, path)) :
    lbkOf size slot path = lbk := by
  simp only [blockPath] at found
  split at found
  · rename_i direct
    obtain ⟨rfl, rfl⟩ := Prod.mk.inj (Option.some.inj found)
    have isSlot : (Fin.ofNat nBlocks lbk).val = lbk := Nat.mod_eq_of_lt (by omega : lbk < 15)
    rw [lbkOf, isSlot, if_pos direct]
  · split at found
    · obtain ⟨rfl, rfl⟩ := Prod.mk.inj (Option.some.inj found)
      have isSlot : (Fin.ofNat nBlocks 12).val = 12 := by decide
      rw [lbkOf, isSlot, if_neg (by decide), if_pos rfl, List.headD_cons]
      omega
    · split at found
      · obtain ⟨rfl, rfl⟩ := Prod.mk.inj (Option.some.inj found)
        have isSlot : (Fin.ofNat nBlocks 13).val = 13 := by decide
        rw [lbkOf, isSlot, if_neg (by decide), if_neg (by decide), List.headD_cons,
          List.getD_cons_succ, List.getD_cons_zero, Nat.div_add_mod]
        omega
      · cases found

/-- A data node belongs to one logical block. -/
theorem blockPath_injective {lbk' : Nat} (found : blockPath size lbk = some (slot, path))
    (found' : blockPath size lbk' = some (slot, path)) : lbk = lbk' :=
  (lbkOf_blockPath found).symm.trans (lbkOf_blockPath found')

end

end CuteCore.Fs

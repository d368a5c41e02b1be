import CuteCore.Fs.Removal

/-!
# The records of a directory block

A split adds one record and leaves the others, and a new block has one. Together with
the removal of a record, what the live records say is changed one record at a time.

The live records of a block are those whose inode number is not 0. Each operation on a
block is given by the list of its records before and after, so that the bag of a directory
can be followed without a look at offsets.
-/

namespace CuteCore.Fs

open Hoare Bytes BlkCache

/-- The bytes of a record have one name. -/
theorem NameAt.unique {buf : ByteMap} {pos : Nat} {name other : List Byte}
    (named : NameAt buf pos name) (named' : NameAt buf pos other) : other = name := by
  have length : other.length = name.length := named'.length.symm.trans named.length
  apply List.ext_getElem length
  intro i inside inside'
  have left := named'.bytes i inside
  have right := named.bytes i inside'
  rw [List.getD_eq_getElem _ _ inside] at left
  rw [List.getD_eq_getElem _ _ inside'] at right
  exact left.symm.trans right

section

variable {size : Nat} {buf : ByteMap} {pos ino fileType : Nat} {name : List Byte} {recs : List Nat}

/-- The record that a split puts behind the old one is the only new one. -/
theorem Chain.split_mem {start : Nat}
    (chain : Chain buf size start recs)
    (member : pos ∈ recs) (enough : actualLen name.length ≤ slackOf buf pos)
    (short : name.length < 2 ^ 31) {recs' : List Nat}
    (chain' : Chain (splitEntry buf pos ino fileType name) size start recs') (q : Nat) :
    q ∈ recs' ↔ q ∈ recs ∨ q = pos + actualLen (deNameLen buf pos) := by
  have headers := fun other => @splitEntry_header buf pos ino fileType name recs size start chain
    member enough short other
  induction chain generalizing recs' with
  | done => cases member
  | @record first rest covers next inductionHypothesis =>
    by_cases isFirst : pos = first
    · subst isFirst
      obtain ⟨exact, fits, atLeast⟩ := slack_exact enough covers short
      have itself := actualLen_covers buf pos
      have recSmall := deRecLen_lt buf pos
      have recLen : deRecLen (splitEntry buf pos ino fileType name) pos =
          actualLen (deNameLen buf pos) := by
        have apartNew : load (putEntry (store buf (pos + 4) 2 (actualLen (deNameLen buf pos)))
            (pos + actualLen (deNameLen buf pos)) ino (slackOf buf pos) fileType name) (pos + 4) 2 =
            load (store buf (pos + 4) 2 (actualLen (deNameLen buf pos))) (pos + 4) 2 :=
          load_congr fun x low high => putEntry_outside (by omega)
        rw [deRecLen, splitEntry, apartNew, load_store_same]
        exact Nat.mod_eq_of_lt (by omega)
      have newRecLen : deRecLen (splitEntry buf pos ino fileType name)
          (pos + actualLen (deNameLen buf pos)) = slackOf buf pos := by
        rw [splitEntry, putEntry_recLen]
        exact Nat.mod_eq_of_lt (by omega)
      have behind : Chain (splitEntry buf pos ino fileType name) size
          (pos + deRecLen buf pos) rest := by
        apply next.congr
        intro other later
        have low := (next.bounds later).1
        exact headers other (List.mem_cons_of_mem _ later) (by omega)
      have high := next.le
      cases chain' with
      | done => omega
      | record _ nextNew =>
        rw [recLen] at nextNew
        cases nextNew with
        | done => omega
        | record _ nextOld =>
          rw [newRecLen, Nat.add_assoc, exact] at nextOld
          rw [behind.unique nextOld]
          simp only [List.mem_cons]
          tauto
    · have later : pos ∈ rest := (List.mem_cons.mp member).resolve_left isFirst
      obtain ⟨recLen, -⟩ := headers first (List.mem_cons_self ..) fun same => isFirst same.symm
      have low := (next.bounds later).1
      have inside := (next.bounds later).2.1
      have covers' := (next.bounds later).2.2
      have least := actualLen_covers buf pos
      have leastFirst := actualLen_covers buf first
      cases chain' with
      | done => omega
      | record _ nextNew =>
        rw [recLen] at nextNew
        have members := inductionHypothesis later nextNew
          fun other member' => headers other (List.mem_cons_of_mem _ member')
        simp only [List.mem_cons, members]
        tauto

/-- A split adds one live record to the block. -/
theorem splitEntry_record (chain : Chain buf size 0 recs) (member : pos ∈ recs)
    (enough : actualLen name.length ≤ slackOf buf pos) (short : name.length ≤ 255)
    (used : ino ≠ 0) (small : ino < 2 ^ 32) (q i : Nat) (other : List Byte) :
    Record size (splitEntry buf pos ino fileType name) q i other ↔
      Record size buf q i other ∨ q = pos + actualLen (deNameLen buf pos) ∧ i = ino ∧ other = name := by
  have bounded : name.length < 2 ^ 31 := by omega
  obtain ⟨-, high, covers⟩ := chain.bounds member
  obtain ⟨exact, fits, -⟩ := slack_exact enough covers bounded
  have least := actualLen_covers buf pos
  obtain ⟨recs', chain', kept, isNew⟩ := @Chain.split buf pos ino fileType name recs size 0 chain
    member enough bounded
  have members := @Chain.split_mem size buf pos ino fileType name recs 0 chain member enough
    bounded recs' chain'
  -- The records that were there keep their numbers and names.
  have old : ∀ r ∈ recs, deInode (splitEntry buf pos ino fileType name) r = deInode buf r ∧
      (NameAt (splitEntry buf pos ino fileType name) r other ↔ NameAt buf r other) := by
    intro r isRecord
    obtain ⟨-, -, coversR⟩ := chain.bounds isRecord
    have leastR := actualLen_covers buf r
    have apart := chain.apart member isRecord
    have outside : ∀ x, r ≤ x → x < r + 8 + deNameLen buf r → (x < r + 4 ∨ r + 6 ≤ x) →
        splitEntry buf pos ino fileType name x = buf x := by
      intro x low below notLength
      by_cases same : pos = r
      · subst same
        exact splitEntry_outside (by omega) (by omega)
      · exact splitEntry_outside (by omega) (by omega)
    have nameLen : deNameLen (splitEntry buf pos ino fileType name) r = deNameLen buf r :=
      load_congr fun x low below => outside x (by omega) (by omega) (by omega)
    refine ⟨load_congr fun x low below => outside x low (by omega) (by omega), ?_, ?_⟩
    · rintro ⟨length, bytes⟩
      rw [nameLen] at length
      refine ⟨length, fun j inside => ?_⟩
      rw [← bytes j inside, outside _ (by omega) (by omega) (by omega)]
    · rintro ⟨length, bytes⟩
      refine ⟨nameLen.trans length, fun j inside => ?_⟩
      rw [outside _ (by omega) (by omega) (by omega), bytes j inside]
  have new := @splitEntry_newRecord size buf pos ino fileType name recs chain member enough bounded small
  have newName : NameAt (splitEntry buf pos ino fileType name)
      (pos + actualLen (deNameLen buf pos)) name := by
    refine ⟨?_, new.bytes⟩
    rw [new.length]
    exact Nat.mod_eq_of_lt (by omega)
  constructor
  · rintro ⟨⟨recs'', chain'', isRecord⟩, number, live, named⟩
    rw [chain'.unique chain''] at isRecord
    rcases (members q).mp isRecord with isOld | isSplit
    · obtain ⟨sameNumber, sameName⟩ := old q isOld
      exact Or.inl ⟨⟨recs, chain, isOld⟩, sameNumber ▸ number, live, sameName.mp named⟩
    · subst isSplit
      exact Or.inr ⟨rfl, number.symm.trans new.number, newName.unique named⟩
  · rintro (⟨⟨recs'', chain'', isRecord⟩, number, live, named⟩ | ⟨rfl, rfl, rfl⟩)
    · rw [chain.unique chain''] at isRecord
      obtain ⟨sameNumber, sameName⟩ := old q isRecord
      exact ⟨⟨recs', chain', kept q isRecord⟩, sameNumber.trans number, live, sameName.mpr named⟩
    · exact ⟨⟨recs', chain', isNew⟩, new.number, used, newName⟩

/-- A block without one of its records is a chain. -/
theorem Chain.without {before : Option Nat} (chain : Chain buf size 0 recs) (small : size ≤ blkSz)
    (member : pos ∈ recs) (place : Place buf recs before pos) :
    ∃ recs', Chain (removeEntry buf before pos) size 0 recs' := by
  rcases place with ⟨isStart, isNone⟩ | ⟨b, isRecord, isSome, isNext, -⟩
  · subst isNone
    refine ⟨recs, chain.congr fun q isRecord => ?_⟩
    by_cases isPos : q = pos
    · subst isPos
      exact ⟨load_store_apart _ _ _ _ _ _ (by omega), load_store_apart _ _ _ _ _ _ (by omega)⟩
    · obtain ⟨-, named, lengths⟩ := removeEntry_others chain member (Or.inl ⟨isStart, rfl⟩) isRecord
        isPos
      refine ⟨lengths fun same => ?_, load_congr fun x low high => named x low (by omega)⟩
      cases same
  · subst isSome
    obtain ⟨recs', chain', -⟩ := chain.merged small member isRecord isNext (fun _ => id) chain isRecord
    exact ⟨recs', chain'⟩

/-- The record of a new block. -/
theorem freshEntry_record (sized : MountedSize size) (short : name.length ≤ 255) (used : ino ≠ 0)
    (small : ino < 2 ^ 32) (q i : Nat) (other : List Byte) :
    Record size (putEntry buf 0 ino size fileType name) q i other ↔
      q = 0 ∧ i = ino ∧ other = name := by
  have blkSize : blkSz = 4096 := rfl
  have fits : 1024 ≤ size ∧ size ≤ blkSz := by
    rcases sized.cases with same | same | same <;> omega
  have new := @freshEntry_newRecord size buf ino fileType name (by omega) sized small
  have recLen : deRecLen (putEntry buf 0 ino size fileType name) 0 = size := by
    rw [putEntry_recLen]
    exact Nat.mod_eq_of_lt (by omega)
  have newName : NameAt (putEntry buf 0 ino size fileType name) 0 name := by
    refine ⟨?_, new.bytes⟩
    rw [new.length]
    exact Nat.mod_eq_of_lt (by omega)
  constructor
  · rintro ⟨⟨recs, chain, isRecord⟩, number, live, named⟩
    have isFirst : q = 0 := by
      have notEmpty := (chain.bounds isRecord).2.1
      cases chain with
      | done => omega
      | record covers next =>
        rcases List.mem_cons.mp isRecord with isZero | later
        · exact isZero
        · rw [recLen] at next
          obtain ⟨low, high, itsCovers⟩ := next.bounds later
          have least := actualLen_covers (putEntry buf 0 ino size fileType name) q
          omega
    subst isFirst
    exact ⟨rfl, number.symm.trans new.number, newName.unique named⟩
  · rintro ⟨rfl, rfl, rfl⟩
    exact ⟨new.chain, new.number, used, newName⟩

end

end CuteCore.Fs

import CuteCore.Fs.FileWrites

/-!
# Freeing whatever the pointers name

`ext2_free_block` takes any number and passes over those of no block. So truncation may be
followed for every inode whose index blocks are ordinary blocks: it clears the bits of the
blocks that the pointers name, and no others.

The blocks behind an index block are read before it is freed, so it matters that clearing
bits does not change the index blocks that are still to be read. They are blocks outside
of the bitmaps, and the order in which the three trees are freed does not matter then.
-/

namespace CuteCore.Fs

open Hoare Bytes BlkCache

/-- The bits of the listed blocks are cleared, and the bits of the other blocks stay. -/
def Cleared (groups : Groups) (view view' : Nat → ByteMap) (freed : List Nat) : Prop :=
  ∀ g < groups.count, ∀ c < groups.limit .block g, bitAt (view' (groups.bitmap .block g)) c =
    (bitAt (view (groups.bitmap .block g)) c && !decide (groups.number .block g c ∈ freed))

/-- What freeing does to the bits of blocks and to the metadata. Numbers of no block are
passed over. -/
structure Marked (groups : Groups) (s : Vfs) (view : Nat → ByteMap) (after : Vfs)
    (view' : Nat → ByteMap) (freed : List Nat) : Prop where
  fits : Fits groups after view'
  inodeSize : after.inodeSize = s.inodeSize
  tables : ∀ g, after.groupField g 8 4 = s.groupField g 8 4
  bits : Cleared groups view view' freed
  others : ∀ no, ¬ groups.Metadata no → view' no = view no

theorem Cleared.none (groups : Groups) (view : Nat → ByteMap) {freed : List Nat}
    (foreign : ∀ g < groups.count, ∀ c < groups.limit .block g, groups.number .block g c ∉ freed) :
    Cleared groups view view freed := by
  intro g inside c below
  rw [decide_eq_false (foreign g inside c below), Bool.not_false, Bool.and_true]

theorem Cleared.append {groups : Groups} {view view' view'' : Nat → ByteMap}
    {freed more : List Nat} (first : Cleared groups view view' freed)
    (second : Cleared groups view' view'' more) : Cleared groups view view'' (freed ++ more) := by
  intro g inside c below
  rw [second g inside c below, first g inside c below]
  simp only [List.mem_append, Bool.decide_or, Bool.not_or, Bool.and_assoc]

/-- Equal bitmaps have equal bits. -/
theorem Cleared.congr {groups : Groups} {view view' first last : Nat → ByteMap} {freed : List Nat}
    (cleared : Cleared groups view view' freed)
    (before : ∀ g < groups.count, first (groups.bitmap .block g) = view (groups.bitmap .block g))
    (behind : ∀ g < groups.count, last (groups.bitmap .block g) = view' (groups.bitmap .block g)) :
    Cleared groups first last freed := by
  intro g inside c below
  rw [before g inside, behind g inside]
  exact cleared g inside c below

section

variable {groups : Groups} {loose : Nat → Nat → Prop} {s : Vfs} {view : Nat → ByteMap}
  {held : Multiset Nat}

theorem Freed.marked {after : Vfs} {view' : Nat → ByteMap} {freed : List Nat}
    (all : Freed groups s view after view' freed) : Marked groups s view after view' freed := by
  constructor
  · exact all.fits
  · exact all.inodeSize
  · exact all.tables
  · intro g inside c below
    rw [all.bits .block g inside c]
    simp only [true_and, below]
  · exact all.others

theorem Marked.unchanged (fits : Fits groups s view) {freed : List Nat}
    (foreign : ∀ g < groups.count, ∀ c < groups.limit .block g, groups.number .block g c ∉ freed) :
    Marked groups s view s view freed :=
  ⟨fits, rfl, fun _ => rfl, .none groups view foreign, fun _ _ => rfl⟩

theorem Marked.append {mid after : Vfs} {view' view'' : Nat → ByteMap} {freed more : List Nat}
    (first : Marked groups s view mid view' freed)
    (second : Marked groups mid view' after view'' more) :
    Marked groups s view after view'' (freed ++ more) := by
  constructor
  · exact second.fits
  · exact second.inodeSize.trans first.inodeSize
  · exact fun g => (second.tables g).trans (first.tables g)
  · exact first.bits.append second.bits
  · exact fun no plain => (second.others no plain).trans (first.others no plain)

theorem Marked.setInode {after : Vfs} {view' : Nat → ByteMap} {freed : List Nat}
    (all : Marked groups s view after view' freed) (p : Nat) (inode : Inode) :
    Marked groups s view (after.setInode p inode) view' freed := by
  have fits := all.fits
  exact ⟨{ fits with }, all.inodeSize, all.tables, all.bits, all.others⟩

theorem Marked.slotOf {after : Vfs} {view' : Nat → ByteMap} {freed : List Nat}
    (all : Marked groups s view after view' freed) (fits : Fits groups s view) (ino : Nat) :
    after.slotOf ino = s.slotOf ino := by
  simp only [Vfs.slotOf, all.tables, all.inodeSize, all.fits.inodePerGroup, fits.inodePerGroup,
    all.fits.blockSize, fits.blockSize]

/-- Any number may be given to `ext2_free_block`. -/
theorem freeBlock_marks (io : Io loose s view (fun _ => False) held) (tight : Tight groups loose)
    (fits : Fits groups s view) (room : Multiset.card held < nBlkNum) {no : Nat} (some : no ≠ 0) :
    wp (ext2FreeBlock no) (fun _ after => ∃ view', Io loose after view' (fun _ => False) held ∧
      Marked groups s view after view' [no] ∧ after.inodes = s.inodes) s := by
  -- A block of a group names the group.
  have own : ∀ g c, c < groups.limit .block g → groups.number .block g c ∈ [no] →
      groups.first ≤ no ∧ (no - groups.first) / groups.perGroup = g := by
    intro g c below member
    obtain rfl := List.mem_singleton.mp member
    refine ⟨?_, (groups.number_block below).1⟩
    change groups.first ≤ groups.first + g * groups.perGroup + c
    omega
  rw [ext2FreeBlock]
  apply wp_seq (io.loadSuper_spec (by decide) tight.super)
  intro first mid loaded
  rw [loaded.1, loaded.2]
  apply wp_seq (io.loadSuper_spec (by decide) tight.super)
  intro perGroup mid' loaded'
  rw [loaded'.1, loaded'.2, wp_onlyIf, fits.first, fits.perGroup]
  split
  · rename_i inRange
    obtain ⟨g, isG⟩ : ∃ g, g = (no - groups.first) / groups.perGroup := ⟨_, rfl⟩
    obtain ⟨c, isC⟩ : ∃ c, c = (no - groups.first) % groups.perGroup := ⟨_, rfl⟩
    rw [← isG, ← isC]
    have few : c < groups.perGroup := isC ▸ Nat.mod_lt _ groups.perGroupPositive
    have most := groups.perGroupFits
    by_cases inside : g < groups.count
    · apply wp_mono (freeBit_spec io tight fits room .block g c inside (by omega))
      rintro - after ⟨same, ioAfter⟩
      have isTable : after.gbTable = countedTable s.gbTable blocks g 1 := by
        unfold SameButTable at same
        rw [← same]
        rfl
      refine ⟨_, ioAfter, ⟨fits.moved inside same, ?_, ?_, ?_, ?_⟩, ?_⟩
      · unfold SameButTable at same
        rw [← same]
      · intro g'
        rw [Vfs.groupField, isTable, countedTable]
        exact load_store_apart _ _ _ _ _ _ (by simp only [blocks]; omega)
      · intro g' inside' c' below'
        rw [givenBlocks, moved_bitmap fits inside .block g' inside']
        by_cases isGroup : g' = g
        · subst isGroup
          rw [if_pos ⟨rfl, rfl⟩, bitAt_clearBit]
          have isBit : c' = c ↔ groups.number .block g' c' ∈ [no] := by
            have divided := Nat.div_add_mod (no - groups.first) groups.perGroup
            rw [← isG, ← isC, Nat.mul_comm] at divided
            rw [List.mem_singleton]
            change c' = c ↔ groups.first + g' * groups.perGroup + c' = no
            omega
          rw [decide_eq_decide.mpr isBit, Bool.and_comm]
        · have foreign : groups.number .block g' c' ∉ [no] := fun member =>
            isGroup ((own g' c' below' member).2.symm.trans isG.symm)
          rw [if_neg fun both => isGroup both.2, decide_eq_false foreign, Bool.not_false,
            Bool.and_true]
      · intro m plain
        have notSuper : m ≠ 0 := fun zero => plain (Or.inl zero)
        have notTable : m ≠ groups.first + 1 + g / (groups.blockSize / 32) :=
          fun isTable => plain (Or.inr (Or.inl ⟨g, inside, isTable⟩))
        have notBitmap : m ≠ groups.bitmap .block g :=
          fun isBitmap => plain (Or.inr (Or.inr ⟨.block, g, inside, isBitmap⟩))
        rw [givenBlocks, moved_eq fits inside m notSuper notTable, if_neg notBitmap]
      · unfold SameButTable at same
        rw [← same]
    · rw [freeBit, wp_bind, wp_get, wp_onlyIf, if_neg (by rwa [fits.groupCount])]
      refine ⟨view, io, .unchanged fits fun g' inside' c' below' member => ?_, rfl⟩
      have isGroup := (own g' c' below' member).2
      omega
  · rename_i outside
    refine ⟨view, io, .unchanged fits fun g' _ c' below' member => ?_, rfl⟩
    exact outside ⟨some, (own g' c' below' member).1⟩

/-- A direct pointer may be anything. The blocks of a deeper branch are ordinary ones. -/
def BranchOk (groups : Groups) (loose : Nat → Nat → Prop) (view : Nat → ByteMap) (level no : Nat) :
    Prop :=
  level = 0 ∨ Freeable groups loose (branchBlocks view (groups.blockSize / 4) level no)

/-- `ext2_free_branch` frees the blocks of one tree, the children before their index block, by
induction on the level. -/
theorem freeBranch_marks (tight : Tight groups loose) (io : Io loose s view (fun _ => False) held)
    (fits : Fits groups s view) {level no : Nat} (shallow : level ≤ 3)
    (room : Multiset.card held + 3 < nBlkNum) (branchOk : BranchOk groups loose view level no) :
    wp (ext2FreeBranch level no) (fun _ after => ∃ view',
      Io loose after view' (fun _ => False) held ∧
      Marked groups s view after view' (branchBlocks view (groups.blockSize / 4) level no) ∧
      after.inodes = s.inodes) s := by
  rcases branchOk with rfl | freeable
  · rw [ext2FreeBranch, wp_onlyIf, branchBlocks]
    by_cases isHole : no = 0
    · rw [if_neg (not_not_intro isHole), if_pos isHole]
      exact ⟨view, io, .unchanged fits fun _ _ _ _ => List.not_mem_nil, rfl⟩
    · rw [if_pos isHole, if_neg isHole]
      exact freeBlock_marks io tight fits (by omega) isHole
  · apply wp_mono (ext2FreeBranch_spec tight level io fits (by omega) no freeable)
    rintro - after ⟨⟨view', ioAfter, freed, sameInodes⟩, -⟩
    exact ⟨view', ioAfter, freed.marked, sameInodes⟩

/-- A branch whose blocks are ordinary stays when metadata changes. -/
theorem BranchOk.congr {view' : Nat → ByteMap} {level no : Nat}
    (branchOk : BranchOk groups loose view level no)
    (others : ∀ b, ¬ groups.Metadata b → view' b = view b) :
    branchBlocks view' (groups.blockSize / 4) level no = branchBlocks view (groups.blockSize / 4) level no := by
  rcases branchOk with rfl | freeable
  · rfl
  · exact branchBlocks_congr _ _ fun b inBranch => others b (freeable b inBranch).2.1

/-- The loop over the pointers marks the blocks of their trees free, and changes nothing of the
inode but its pointers. -/
theorem freeBranches_marks (tight : Tight groups loose) {p : Nat} (slots : List (Fin nBlocks))
    (once : slots.Nodup) {inode : Inode} (io : Io loose s view (fun _ => False) held)
    (fits : Fits groups s view) (room : Multiset.card held + 3 < nBlkNum)
    (isInode : s.inodes p = some inode)
    (branchOk : ∀ i ∈ slots, BranchOk groups loose view (levelOf i) (inode.iBlock i)) :
    wp (freeBranches p slots) (fun _ after => ∃ view' last,
      Io loose after view' (fun _ => False) held ∧
      Marked groups s view after view'
        (slots.flatMap fun i => branchBlocks view (groups.blockSize / 4) (levelOf i) (inode.iBlock i)) ∧
      after.inodes p = some last ∧ last = { inode with iBlock := last.iBlock } ∧
      ∀ q, q ≠ p → after.inodes q = s.inodes q) s := by
  induction slots generalizing s view inode with
  | nil =>
    exact wp_pure.mpr ⟨view, inode, io, .unchanged fits fun _ _ _ _ => List.not_mem_nil, isInode,
      rfl, fun _ _ => rfl⟩
  | cons i rest inductionHypothesis =>
    have shallow : levelOf i ≤ 3 := by
      have inside : i.val < 15 := i.isLt
      unfold levelOf
      omega
    obtain ⟨fresh, restOnce⟩ := List.nodup_cons.mp once
    rw [freeBranches, wp_bind, wp_derefInode isInode]
    apply wp_seq (freeBranch_marks tight io fits shallow room (branchOk i (List.mem_cons_self ..)))
    rintro - mid ⟨view', ioMid, marked, sameInodes⟩
    rw [wp_bind, wp_updateInode (sameInodes ▸ isInode)]
    obtain ⟨next, isNext⟩ : ∃ next : Inode, next =
      { inode with iBlock := Function.update inode.iBlock i 0 } := ⟨_, rfl⟩
    rw [← isNext]
    have pointer : ∀ j ∈ rest, next.iBlock j = inode.iBlock j := by
      intro j member
      rw [isNext]
      apply Function.update_of_ne
      rintro rfl
      exact fresh member
    have sameBranch : ∀ j ∈ rest, branchBlocks view' (groups.blockSize / 4) (levelOf j) (next.iBlock j) =
        branchBlocks view (groups.blockSize / 4) (levelOf j) (inode.iBlock j) := by
      intro j member
      rw [pointer j member]
      exact (branchOk j (List.mem_cons_of_mem _ member)).congr marked.others
    apply wp_mono (inductionHypothesis restOnce (ioMid.setInode p next)
      (marked.setInode p next).fits (Function.update_self ..) fun j member => by
        rw [BranchOk, sameBranch j member]
        exact branchOk j (List.mem_cons_of_mem _ member))
    rintro - after ⟨view'', last, ioAfter, more, isLast, fields, others⟩
    refine ⟨view'', last, ioAfter, ?_, isLast, ?_, ?_⟩
    · rw [List.flatMap_congr sameBranch] at more
      rw [List.flatMap_cons]
      exact (marked.setInode p next).append more
    · rw [fields, isNext]
    · intro q other
      rw [others q other, ← sameInodes]
      exact Function.update_of_ne other _ _

end

section

variable {groups : Groups} {loose : Nat → Nat → Prop} {s : Vfs} {view : Nat → ByteMap}
  {held : Multiset Nat}

/-- What settling an inode leaves: its link count in the slot, and the rest outside of the
metadata. -/
structure Settled (groups : Groups) (s : Vfs) (view : Nat → ByteMap) (v ino links : Nat)
    (after : Vfs) (view' : Nat → ByteMap) : Prop where
  inodes : ∀ q, q ≠ v → after.inodes q = s.inodes q
  slots : ∀ n, after.slotOf n = s.slotOf n
  links : load (view' (s.slotOf ino).1) ((s.slotOf ino).2 + 26) 2 = links % 2 ^ 16
  blocks : ∀ no, ¬ groups.Metadata no → ¬ groups.InTable s no → view' no = view no

/-- The link count in a slot that was just written. -/
theorem writtenSlot_links {inode : Inode} : load (writtenSlot view s inode (s.slotOf inode.ino).1)
    ((s.slotOf inode.ino).2 + 26) 2 = inode.nlinks % 2 ^ 16 := by
  refine writtenSlot_field ?_
  simp [Inode.rawFields]

/-- Truncation clears the bits of the blocks that the pointers name. -/
theorem truncate_clears (state : FsState groups loose s view held)
    (room : Multiset.card held + 3 < nBlkNum) {v : Nat} {object : Inode}
    (isObject : s.inodes v = some object) (valid : object.valid = true)
    (number : groups.IsInode object.ino)
    (branchOk : ∀ i, BranchOk groups loose view (levelOf i) (object.iBlock i)) :
    wp (ext2TruncateInode v) (fun _ after => ∃ view', Io loose after view' (fun _ => False) held ∧
      Fits groups after view' ∧ Cleared groups view view' (treeBlocks view (groups.blockSize / 4) object) ∧
      Settled groups s view v object.ino object.nlinks after view') s := by
  have fits := state.fits
  obtain ⟨inRange, inBlock, inTable⟩ := state.slot number
  rw [ext2TruncateInode]
  apply wp_seq (freeBranches_marks state.tight _ (List.nodup_finRange _) state.io fits room isObject
    fun i _ => branchOk i)
  rintro - mid ⟨view', object', ioMid, marked, isMid, fields, others⟩
  rw [wp_bind, wp_updateInode isMid]
  obtain ⟨last, isLast⟩ : ∃ last : Inode, last = { object' with size := 0, dirty := true } := ⟨_, rfl⟩
  rw [← isLast]
  have marked := marked.setInode v last
  have sameNumber : last.ino = object.ino := by rw [isLast, fields]
  have sameLinks : last.nlinks = object.nlinks := by rw [isLast, fields]
  have sameSlot : (mid.setInode v last).slotOf last.ino = s.slotOf object.ino := by
    rw [marked.slotOf fits, sameNumber]
  have isValid : last.valid = true := by
    rw [isLast, fields]
    exact valid
  apply wp_seq (ext2WriteInode_spec (ioMid.setInode v last) (by omega) (Function.update_self ..)
    isValid (by
      rw [marked.fits.inodePerGroup, marked.fits.groupCount, sameNumber, ← fits.inodePerGroup,
        ← fits.groupCount]
      exact inRange) (by rw [sameSlot]; exact inBlock))
  rintro done after ⟨-, ioAfter, same⟩
  have outside : ∀ no, no ≠ (s.slotOf object.ino).1 →
      writtenSlot view' (mid.setInode v last) last no = view' no := by
    intro no differs
    rw [← sameSlot] at differs
    exact writtenSlot_beside differs
  have elsewhere : ∀ no, groups.Metadata no →
      writtenSlot view' (mid.setInode v last) last no = view' no := by
    intro no metadata
    apply outside
    rintro rfl
    exact state.table_plain inTable metadata
  refine wp_pure.mpr ⟨_, ioAfter, ?_, ?_, ⟨?_, ?_, ?_, ?_⟩⟩
  · have fitsMid := marked.fits
    have zero := elsewhere 0 (Or.inl rfl)
    unfold SameFs at same
    rw [← same]
    exact { fitsMid with
      first := zero ▸ fitsMid.first
      perGroup := zero ▸ fitsMid.perGroup
      total := zero ▸ fitsMid.total
      inodes := zero ▸ fitsMid.inodes }
  · exact marked.bits.congr (fun _ _ => rfl)
      fun g inside => elsewhere _ (Or.inr (Or.inr ⟨.block, g, inside, rfl⟩))
  · intro q other
    rw [same.inodes, ← others q other]
    change Function.update (Function.update mid.inodes v _) v _ q = _
    rw [Function.update_of_ne other, Function.update_of_ne other]
  · intro n
    rw [← marked.slotOf fits n]
    unfold SameFs at same
    rw [← same]
    rfl
  · have written := @writtenSlot_links (mid.setInode v last) view' last
    rw [sameSlot, sameLinks] at written
    exact written
  · intro no plain notTable
    rw [outside no fun isSlot => notTable (isSlot ▸ inTable), marked.others no plain]

/-- Freeing the number of an inode leaves the bits of the blocks. -/
theorem freeInode_clears (io : Io loose s view (fun _ => False) held) (tight : Tight groups loose)
    (fits : Fits groups s view) (room : Multiset.card held < nBlkNum) {ino : Nat}
    (isInode : groups.IsInode ino) :
    wp (ext2FreeInode ino) (fun _ after => ∃ view', Io loose after view' (fun _ => False) held ∧
      (∀ g < groups.count, view' (groups.bitmap .block g) = view (groups.bitmap .block g)) ∧
      (∀ no, ¬ groups.Metadata no → view' no = view no) ∧ after.inodes = s.inodes ∧
      ∀ n, after.slotOf n = s.slotOf n) s := by
  obtain ⟨low, high⟩ := isInode
  have positive := groups.inodesPositive
  have few := groups.inodesFit
  have inGroup : (ino - 1) % groups.inodesPerGroup < groups.inodesPerGroup := Nat.mod_lt _ positive
  obtain ⟨g, isG⟩ : ∃ g, g = (ino - 1) / groups.inodesPerGroup := ⟨_, rfl⟩
  have inside : g < groups.count := by
    rw [isG, Nat.div_lt_iff_lt_mul positive]
    omega
  rw [ext2FreeInode, wp_bind, wp_get, wp_onlyIf, if_pos (by omega : ino ≠ 0), fits.inodePerGroup,
    ← isG]
  apply wp_mono (freeBit_spec io tight fits room .inode g _ inside (by omega))
  rintro - after ⟨same, ioAfter⟩
  refine ⟨_, ioAfter, fun g' inside' => ?_, fun no plain => ?_, ?_, fun n => ?_⟩
  · rw [givenBlocks, moved_bitmap fits inside .block g' inside', if_neg (by simp)]
  · have notSuper : no ≠ 0 := fun zero => plain (Or.inl zero)
    have notTable : no ≠ groups.first + 1 + g / (groups.blockSize / 32) :=
      fun isTable => plain (Or.inr (Or.inl ⟨g, inside, isTable⟩))
    have notBitmap : no ≠ groups.bitmap .inode g :=
      fun isBitmap => plain (Or.inr (Or.inr ⟨.inode, g, inside, isBitmap⟩))
    rw [givenBlocks, moved_eq fits inside no notSuper notTable, if_neg notBitmap]
  · unfold SameButTable at same
    rw [← same]
  · unfold SameButTable at same
    have tables : ∀ g', load (countedTable s.gbTable Which.inode.resource g 1) (g' * 32 + 8) 4 =
        load s.gbTable (g' * 32 + 8) 4 := by
      intro g'
      refine load_store_apart _ _ _ _ _ _ ?_
      simp only [Which.resource, inodesOf]
      omega
    rw [← same]
    simp only [Vfs.slotOf, Vfs.groupField, tables]

/-- The last reference to an inode that is not the root. Without links the inode goes with
what its pointers name. -/
theorem iput_settles (state : FsState groups loose s view held)
    (room : Multiset.card held + 3 < nBlkNum) {v : Nat} {object : Inode}
    (isObject : s.inodes v = some object) (valid : object.valid = true)
    (number : groups.IsInode object.ino) (notRoot : v ≠ s.root) (last : object.ref = 1)
    (clean : object.dirty = false)
    (recorded : load (view (s.slotOf object.ino).1) ((s.slotOf object.ino).2 + 26) 2 =
      object.nlinks % 2 ^ 16)
    (branchOk : ∀ i, BranchOk groups loose view (levelOf i) (object.iBlock i)) :
    wp (iput v) (fun _ after => ∃ view', Io loose after view' (fun _ => False) held ∧
      Cleared groups view view' (if object.nlinks = 0 then treeBlocks view (groups.blockSize / 4) object else []) ∧
      Settled groups s view v object.ino object.nlinks after view') s := by
  obtain ⟨dropped, isDropped⟩ : ∃ dropped : Inode, dropped = { object with ref := object.ref - 1 } :=
    ⟨_, rfl⟩
  have isHere : (s.setInode v dropped).inodes v = some dropped := Function.update_self ..
  have none : ¬ 0 < dropped.ref := by
    rw [isDropped]
    change ¬ 0 < object.ref - 1
    rw [last]
    decide
  have notRoot : v ≠ (s.setInode v dropped).root := notRoot
  have fields : dropped.ino = object.ino ∧ dropped.nlinks = object.nlinks ∧
      dropped.iBlock = object.iBlock ∧ dropped.valid = true ∧ dropped.dirty = false := by
    rw [isDropped]
    exact ⟨rfl, rfl, rfl, valid, clean⟩
  obtain ⟨sameNumber, sameLinks, top, isValid, isClean⟩ := fields
  have sameTree : treeBlocks view (groups.blockSize / 4) dropped = treeBlocks view (groups.blockSize / 4) object := by
    rw [treeBlocks, treeBlocks, top]
  have untouched : ∀ q, q ≠ v → (s.setInode v dropped).inodes q = s.inodes q :=
    fun q other => Function.update_of_ne other _ _
  rw [iput, wp_bind, wp_updateInode isObject, ← isDropped, wp_bind, wp_derefInode isHere, wp_bind,
    wp_get, if_neg none, if_neg notRoot, releaseInode, wp_bind, settleInode, wp_bind,
    wp_derefInode isHere, sameLinks, wp_ite]
  have settled := state.setInode v dropped
  split
  · rename_i noLinks
    apply wp_seq (truncate_clears settled room isHere isValid (sameNumber ▸ number)
      (by rw [top]; exact branchOk))
    rintro - mid ⟨view', ioMid, fitsMid, cleared, mids⟩
    apply wp_mono (freeInode_clears ioMid state.tight fitsMid (by omega) (sameNumber ▸ number))
    rintro - after ⟨view'', ioAfter, sameBits, others, inodes, slots⟩
    rw [wp_bind, wp_modify, ext2DestroyInode, wp_modify]
    rw [sameTree] at cleared
    refine ⟨view'', ⟨ioAfter.rep, ioAfter.super, ioAfter.superHeld⟩,
      cleared.congr (fun _ _ => rfl) sameBits, ⟨?_, ?_, ?_, ?_⟩⟩
    · intro q other
      change Function.update after.inodes v Option.none q = _
      rw [Function.update_of_ne other, inodes, mids.inodes q other, untouched q other]
    · intro n
      exact (slots n).trans (mids.slots n)
    · have links := mids.links
      rw [sameNumber, sameLinks] at links
      rw [others _ (state.table_plain (state.slot number).2.2)]
      exact links
    · intro no plain notTable
      rw [others no plain]
      exact mids.blocks no plain notTable
  · rw [wp_onlyIf, isClean, if_neg Bool.false_ne_true, wp_bind, wp_modify, ext2DestroyInode,
      wp_modify]
    refine ⟨view, ⟨state.io.rep, state.io.super, state.io.superHeld⟩,
      .none groups view fun _ _ _ _ => List.not_mem_nil, ⟨?_, fun _ => rfl, recorded,
      fun _ _ _ => rfl⟩⟩
    intro q other
    change Function.update (s.setInode v dropped).inodes v Option.none q = _
    rw [Function.update_of_ne other, untouched q other]

end

end CuteCore.Fs

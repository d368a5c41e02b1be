import CuteCore.Fs.BlockCounts
import CuteCore.Fs.Clearing
import CuteCore.Fs.Removal
import CuteCore.Fs.SlotIsolation

/-!
# Deleting the inode of a removed name

`ext2_unlink` drops the link of an inode, and the last `iput` frees what the fifteen words of
`i_block` name. For a symbolic link whose text is stored in these words they are no block
numbers, and blocks of others are marked free.

The words of an inode name blocks in three ways: directly, through index blocks of up to
three levels, or not at all in an inline link. What truncation does is the same in all
cases, so what it frees can be stated by the words alone. A text that is no block number
in use does no harm.
-/

namespace CuteCore.Fs

open Hoare Bytes BlkCache

/-- Only buffers, the objects in memory and requests changed. -/
def SameVolume (s after : Vfs) : Prop :=
  { s with
    caches := after.caches
    inodes := after.inodes
    inodeCache := after.inodeCache
    icacheSize := after.icacheSize
    nextInode := after.nextInode
    requests := after.requests } = after

/-- `kmalloc` serves both requests for an object. -/
def Vfs.servesInode (s : Vfs) : Bool := s.served s.requests && s.served (s.requests + 1)

/-- The inode as its slot describes it. -/
def Vfs.onDisk (s : Vfs) (view : Nat → ByteMap) (ino : Nat) : Inode :=
  (newInode ino).fromSlot (view (s.slotOf ino).1) (s.slotOf ino).2

section

variable {groups : Groups} {loose : Nat → Nat → Prop} {s : Vfs} {view : Nat → ByteMap}
  {held : Multiset Nat}

/-- What is looked up of inodes does not depend on the buffers. -/
theorem SameFs.lookups {after : Vfs} (same : SameFs s after) :
    (∀ n, after.slotOf n = s.slotOf n) ∧ after.servesInode = s.servesInode ∧
      (∀ n, after.findCached n = s.findCached n) ∧ after.nextInode = s.nextInode ∧
      after.root = s.root := by
  unfold SameFs at same
  rw [← same]
  exact ⟨fun _ => rfl, rfl, fun _ => rfl, rfl, rfl⟩

theorem SameVolume.slotOf {after : Vfs} (same : SameVolume s after) (ino : Nat) :
    after.slotOf ino = s.slotOf ino := by
  unfold SameVolume at same
  rw [← same]
  rfl

theorem SameVolume.root {after : Vfs} (same : SameVolume s after) : after.root = s.root := by
  unfold SameVolume at same
  rw [← same]

theorem SameVolume.inTable {after : Vfs} (same : SameVolume s after) (no : Nat) :
    groups.InTable after no ↔ groups.InTable s no := by
  unfold SameVolume at same
  rw [← same]
  rfl

/-- The volume stays in order. -/
theorem FsState.volume (state : FsState groups loose s view held) {after : Vfs}
    (io : Io loose after view (fun _ => False) held) (same : SameVolume s after) :
    FsState groups loose after view held := by
  have fits := state.fits
  have balanced := state.balanced
  have tables := state.tables
  unfold SameVolume at same
  rw [← same] at io ⊢
  exact ⟨io, state.tight, { fits with }, ⟨balanced.group, balanced.super⟩,
    ⟨tables.least, tables.divides, tables.small, tables.plain, tables.apart⟩, state.inTables,
    state.reserved⟩

theorem wp_kmallocServed {post : Bool → Vfs → Prop} : wp kmallocServed post s ↔
    post (s.served s.requests) { s with requests := s.requests + 1 } := by
  rw [kmallocServed, wp_bind, wp_get, wp_bind, wp_set, wp_pure]

/-- An inode that is not in memory is loaded from its slot, unless a request is refused. -/
theorem loadInode_gets (state : FsState groups loose s view held)
    (room : Multiset.card held < nBlkNum) {ino : Nat} (number : groups.IsInode ino)
    (firm : FirmSlot loose s ino) :
    wp (loadInode ino) (fun got after => Io loose after view (fun _ => False) held ∧
      SameVolume s after ∧ got = (if s.servesInode = true then some s.nextInode else none) ∧
      (s.servesInode = true → after.inodes s.nextInode = some (s.onDisk view ino)) ∧
      ∀ q, q ≠ s.nextInode → after.inodes q = s.inodes q) s := by
  have io := state.io
  rw [loadInode, wp_bind, wp_kmallocServed, wp_ite]
  split
  · rename_i refused
    refine wp_pure.mpr ⟨⟨io.rep, io.super, io.superHeld⟩, rfl, ?_, ?_, fun _ _ => rfl⟩
    · simp [Vfs.servesInode, refused]
    · simp [Vfs.servesInode, refused]
  rename_i first
  rw [wp_bind, wp_kmallocServed, wp_ite]
  split
  · rename_i refused
    have refused : s.served (s.requests + 1) = false := refused
    refine wp_pure.mpr ⟨⟨io.rep, io.super, io.superHeld⟩, rfl, ?_, ?_, fun _ _ => rfl⟩
    · simp [Vfs.servesInode, refused]
    · simp [Vfs.servesInode, refused]
  rename_i second
  have second : ¬ s.served (s.requests + 1) = false := second
  have serves : s.servesInode = true := by
    rw [Vfs.servesInode, Bool.eq_true_of_not_eq_false first, Bool.eq_true_of_not_eq_false second]
    rfl
  rw [wp_bind, wp_get, wp_bind, wp_set]
  obtain ⟨made, isMade⟩ : ∃ made : Vfs, made = { s with
    inodes := Function.update s.inodes s.nextInode (some (newInode ino))
    nextInode := s.nextInode + 1
    requests := s.requests + 1 + 1 } := ⟨_, rfl⟩
  have toMade : SameVolume s made := by
    rw [isMade]
    rfl
  have ioMade : Io loose made view (fun _ => False) held := by
    rw [isMade]
    exact ⟨io.rep, io.super, io.superHeld⟩
  have isNew : made.inodes s.nextInode = some (newInode ino) := by
    rw [isMade]
    exact Function.update_self ..
  change wp _ _ { s with
    inodes := Function.update s.inodes s.nextInode (some (newInode ino))
    nextInode := s.nextInode + 1
    requests := s.requests + 1 + 1 }
  rw [← isMade]
  have sameSlot := toMade.slotOf ino
  obtain ⟨inRange, inBlock, -⟩ := (state.volume ioMade toMade).slot number
  have firmMade : ∀ x, (made.slotOf (newInode ino).ino).2 ≤ x →
      x < (made.slotOf (newInode ino).ino).2 + 100 → ¬ loose (made.slotOf (newInode ino).ino).1 x := by
    change ∀ x, (made.slotOf ino).2 ≤ x → x < (made.slotOf ino).2 + 100 →
      ¬ loose (made.slotOf ino).1 x
    rw [sameSlot]
    exact firm
  apply wp_seq (readInode_fills ioMade room isNew rfl inRange inBlock firmMade)
  rintro - after ⟨ioAfter, same⟩
  have isObject : (newInode ino).fromSlot (view (made.slotOf (newInode ino).ino).1)
      (made.slotOf (newInode ino).ino).2 = s.onDisk view ino := by
    change (newInode ino).fromSlot (view (made.slotOf ino).1) (made.slotOf ino).2 = _
    rw [sameSlot, Vfs.onDisk]
  rw [isObject] at same
  rw [wp_bind, wp_modify, wp_pure]
  refine ⟨⟨ioAfter.rep, ioAfter.super, ioAfter.superHeld⟩, ?_, ?_, fun _ => ?_, fun q other => ?_⟩
  · unfold SameFs at same
    rw [← same, isMade]
    rfl
  · rw [if_pos serves]
  · change after.inodes s.nextInode = _
    rw [same.inodes]
    exact Function.update_self ..
  · change after.inodes q = _
    rw [same.inodes]
    change Function.update made.inodes s.nextInode _ q = _
    rw [Function.update_of_ne other, isMade]
    exact Function.update_of_ne other _ _

/-- The blocks of the branches behind index blocks are ordinary ones, outside the tables. -/
def OrdinaryTree (groups : Groups) (loose : Nat → Nat → Prop) (s : Vfs) (view : Nat → ByteMap)
    (object : Inode) : Prop :=
  ∀ i : Fin nBlocks, levelOf i = 0 ∨
    Freeable groups loose (branchBlocks view (groups.blockSize / 4) (levelOf i) (object.iBlock i)) ∧
    ∀ no ∈ branchBlocks view (groups.blockSize / 4) (levelOf i) (object.iBlock i), ¬ groups.InTable s no

/-- Such a tree stays when the blocks outside it change. -/
theorem OrdinaryTree.congr {object object' : Inode} {view' : Nat → ByteMap}
    (ordinary : OrdinaryTree groups loose s view object) (top : object'.iBlock = object.iBlock)
    (same : ∀ i : Fin nBlocks, levelOf i ≠ 0 →
      ∀ no ∈ branchBlocks view (groups.blockSize / 4) (levelOf i) (object.iBlock i), view' no = view no) :
    treeBlocks view' (groups.blockSize / 4) object' = treeBlocks view (groups.blockSize / 4) object ∧
      ∀ i, BranchOk groups loose view' (levelOf i) (object'.iBlock i) := by
  have branch : ∀ i : Fin nBlocks, branchBlocks view' (groups.blockSize / 4) (levelOf i) (object'.iBlock i) =
      branchBlocks view (groups.blockSize / 4) (levelOf i) (object.iBlock i) := by
    intro i
    rw [top]
    by_cases direct : levelOf i = 0
    · rw [direct]
      rfl
    · exact branchBlocks_congr _ _ (same i direct)
  constructor
  · exact List.flatMap_congr fun i _ => branch i
  · intro i
    rw [BranchOk, branch]
    exact (ordinary i).imp id And.left

/-- A tree of ordinary blocks stays one while its index blocks keep their contents. -/
theorem OrdinaryTree.moved {object : Inode} {after : Vfs} {view' : Nat → ByteMap}
    (ordinary : OrdinaryTree groups loose s view object) (same : SameFs s after)
    (tree : ∀ i : Fin nBlocks, levelOf i ≠ 0 →
      ∀ no ∈ branchBlocks view (groups.blockSize / 4) (levelOf i) (object.iBlock i), view' no = view no) :
    OrdinaryTree groups loose after view' object := by
  intro i
  by_cases direct : levelOf i = 0
  · exact Or.inl direct
  · rw [branchBlocks_congr (levelOf i) (object.iBlock i) (tree i direct)]
    refine (ordinary i).imp id ?_
    rintro ⟨freeable, outside⟩
    refine ⟨freeable, fun no member => ?_⟩
    rw [(SameSetup.of_sameFs same).inTable]
    exact outside no member

/-- The object in memory and its slot have one link less. -/
structure LostLink (groups : Groups) (loose : Nat → Nat → Prop) (held : Multiset Nat) (v : Nat)
    (object : Inode) (s : Vfs) (view : Nat → ByteMap) (written : Vfs) (view' : Nat → ByteMap) :
    Prop where
  state : FsState groups loose written view' held
  isObject : written.inodes v = some { object with nlinks := object.nlinks - 1, dirty := false }
  root : written.root = s.root
  setup : SameSetup s written
  settled : Settled groups s view v object.ino (object.nlinks - 1) written view'
  outside : ∀ no, ¬ groups.InTable s no → view' no = view no

/-- What `ext2_unlink` does with the object before it lets go of it. -/
theorem wp_loseLink (state : FsState groups loose s view held)
    (room : Multiset.card held < nBlkNum) {v : Nat} {object : Inode}
    (isObject : s.inodes v = some object) (valid : object.valid = true)
    (number : groups.IsInode object.ino) (link : 0 < object.nlinks) {post : Unit → Vfs → Prop}
    (behind : ∀ written view', LostLink groups loose held v object s view written view' →
      wp (iput v) post written) :
    wp (do
      updateInode v fun inode => { inode with
        nlinks := if 0 < inode.nlinks then inode.nlinks - 1 else inode.nlinks
        dirty := true }
      let _ ← ext2WriteInode v
      iput v) post s := by
  obtain ⟨dropped, isDropped⟩ : ∃ dropped : Inode, dropped = { object with
    nlinks := if 0 < object.nlinks then object.nlinks - 1 else object.nlinks
    dirty := true } := ⟨_, rfl⟩
  have links : dropped.nlinks = object.nlinks - 1 := by
    rw [isDropped]
    exact if_pos link
  have sameNumber : dropped.ino = object.ino := by rw [isDropped]
  have droppedNumber : groups.IsInode dropped.ino := sameNumber ▸ number
  rw [wp_bind, wp_updateInode isObject, ← isDropped]
  have stateMid := state.setInode v dropped
  obtain ⟨inRange, inBlock, inTable⟩ := stateMid.slot droppedNumber
  apply wp_seq (ext2WriteInode_spec stateMid.io room (Function.update_self ..)
    (by rw [isDropped]; exact valid) inRange inBlock)
  rintro - written ⟨-, ioWritten, same⟩
  obtain ⟨stateWritten, -⟩ := (stateMid.setInode v { dropped with dirty := false }).plain
    ioWritten same fun no metadata => by
      apply Function.update_of_ne
      rintro rfl
      exact stateMid.table_plain inTable metadata
  have outside : ∀ no, ¬ groups.InTable s no → writtenSlot view (s.setInode v dropped) dropped no =
      view no := by
    intro no notTable
    apply writtenSlot_beside
    rintro rfl
    exact notTable inTable
  obtain ⟨slots, -, -, -, root⟩ := same.lookups
  have setup := SameSetup.of_sameFs same
  apply behind written _
  refine ⟨stateWritten, ?_, root, ⟨setup.inodeSize, setup.tables, setup.next⟩, ⟨?_, slots, ?_,
    fun no _ => outside no⟩, outside⟩
  · rw [same.inodes, ← links, isDropped]
    exact Function.update_self ..
  · intro q other
    rw [same.inodes]
    change Function.update (Function.update s.inodes v _) v _ q = _
    rw [Function.update_of_ne other, Function.update_of_ne other]
  · have count := @writtenSlot_links (s.setInode v dropped) view dropped
    rw [links, sameNumber] at count
    exact count

/-- A link of an inode that is not in memory goes, unless a request is refused. With the last
one the bits of the blocks that its pointers name are cleared. -/
theorem dropLink_fresh (state : FsState groups loose s view held)
    (room : Multiset.card held + 3 < nBlkNum) {ino : Nat} (number : groups.IsInode ino)
    (firm : FirmSlot loose s ino) (uncached : s.findCached ino = none)
    (notRoot : s.nextInode ≠ s.root) (link : 0 < (s.onDisk view ino).nlinks)
    (ordinary : OrdinaryTree groups loose s view (s.onDisk view ino)) :
    wp (dropLink ino) (fun _ after => ∃ view', Io loose after view' (fun _ => False) held ∧
      Cleared groups view view' (if s.servesInode = true ∧ (s.onDisk view ino).nlinks = 1 then
        treeBlocks view (groups.blockSize / 4) (s.onDisk view ino) else []) ∧
      Settled groups s view s.nextInode ino (if s.servesInode = true then
        (s.onDisk view ino).nlinks - 1 else (s.onDisk view ino).nlinks) after view') s := by
  have positive : ino ≠ 0 := by
    have low := number.1
    omega
  rw [dropLink, wp_bind, ext2Iget, if_neg positive, wp_bind, wp_get]
  simp only [uncached]
  apply wp_mono (loadInode_gets state (by omega) number firm)
  rintro got mid ⟨ioMid, volume, isGot, loaded, untouched⟩
  by_cases serves : s.servesInode = true
  · rw [if_pos serves] at isGot ⊢
    subst isGot
    have isObject := loaded serves
    obtain ⟨object, isOnDisk⟩ : ∃ object, object = s.onDisk view ino := ⟨_, rfl⟩
    rw [← isOnDisk] at isObject ordinary link ⊢
    have itsNumber : object.ino = ino := by rw [isOnDisk]; rfl
    have valid : object.valid = true := by rw [isOnDisk]; rfl
    have sole : object.ref = 1 := by rw [isOnDisk]; rfl
    have isNumber : groups.IsInode object.ino := itsNumber ▸ number
    have stateMid := state.volume ioMid volume
    apply wp_loseLink stateMid (by omega) isObject valid isNumber link
    intro written lostView lost
    have inTables : ∀ no, groups.InTable mid no ↔ groups.InTable s no := volume.inTable
    obtain ⟨sameTree, branchOk⟩ := @OrdinaryTree.congr groups loose s view object
      { object with nlinks := object.nlinks - 1, dirty := false } lostView ordinary rfl
      fun i deep no member => lost.outside no fun inTable =>
        ((ordinary i).resolve_left deep).2 no member ((inTables no).mp inTable)
    have notRoot' : s.nextInode ≠ written.root := by
      rwa [lost.root, volume.root]
    apply wp_mono (iput_settles lost.state room lost.isObject valid isNumber notRoot' sole rfl
      (by rw [lost.settled.slots]; exact lost.settled.links) branchOk)
    rintro - after ⟨view', ioAfter, cleared, settled⟩
    rw [sameTree] at cleared
    have slots : ∀ n, written.slotOf n = s.slotOf n := fun n =>
      (lost.settled.slots n).trans (volume.slotOf n)
    refine ⟨view', ioAfter, ?_, ⟨?_, ?_, ?_, ?_⟩⟩
    · have lastLink : object.nlinks - 1 = 0 ↔ s.servesInode = true ∧ object.nlinks = 1 := by
        constructor
        · exact fun none => ⟨serves, by omega⟩
        · rintro ⟨-, one⟩
          omega
      simp only [lastLink] at cleared
      refine cleared.congr (fun g inside => ?_) fun _ _ => rfl
      exact (lost.outside _ fun inTable => stateMid.table_plain inTable
        (Or.inr (Or.inr ⟨.block, g, inside, rfl⟩))).symm
    · intro q other
      rw [settled.inodes q other, lost.settled.inodes q other, untouched q other]
    · exact fun n => (settled.slots n).trans (slots n)
    · have isCount := settled.links
      rw [slots, itsNumber] at isCount
      exact isCount
    · intro no plain notTable
      rw [settled.blocks no plain fun inTable => notTable ?_]
      · exact lost.outside no fun inTable => notTable ((inTables no).mp inTable)
      · exact (inTables no).mp ((lost.setup.inTable no).mp inTable)
  · rw [if_neg serves] at isGot ⊢
    subst isGot
    refine wp_pure.mpr ⟨view, ioMid, ?_, ⟨untouched, volume.slotOf, ?_, fun _ _ _ => rfl⟩⟩
    · rw [if_neg fun both => serves both.1]
      exact .none groups view fun _ _ _ _ => List.not_mem_nil
    · exact (Nat.mod_eq_of_lt (load_lt _ _ 2)).symm

end

/-- The name of the only link of an inode that is not in memory. Blocks that hang off its
index blocks are neither metadata nor the directory's. -/
structure SoleLink (groups : Groups) (loose : Nat → Nat → Prop) (s : Vfs) (dir : Inode)
    (name : List Byte) (lbk pos ino : Nat) : Prop where
  named : name ≠ []
  first : FirstEntry groups.blockSize s.block dir name lbk pos ino
  number : groups.IsInode ino
  firm : FirmSlot loose s ino
  uncached : s.findCached ino = none
  notRoot : s.nextInode ≠ s.root
  link : (s.onDisk s.block ino).nlinks = 1
  ordinary : OrdinaryTree groups loose s s.block (s.onDisk s.block ino)
  apart : ∀ i : Fin nBlocks, levelOf i ≠ 0 → ∀ no ∈ branchBlocks s.block (groups.blockSize / 4) (levelOf i)
    ((s.onDisk s.block ino).iBlock i), ∀ slot path, IsNode groups.blockSize slot path →
    ptrAt s.block dir slot path ≠ no

/-- The text of a symbolic link stands in its slot, where others have pointers. -/
def InlineLink (s : Vfs) (ino : Nat) : Prop :=
  (s.onDisk s.block ino).type = .symlink ∧
    load (s.block (s.slotOf ino).1) ((s.slotOf ino).2 + 28) 4 = 0

instance (s : Vfs) (ino : Nat) : Decidable (InlineLink s ino) := inferInstanceAs (Decidable (_ ∧ _))

/-- The data and index blocks of an inode. -/
def ownedBlocks (s : Vfs) (ino : Nat) : List Nat :=
  if InlineLink s ino then [] else treeBlocks s.block (s.blockSize / 4) (s.onDisk s.block ino)

/-- Only blocks of the list were marked free, and the bits of the others are as before. -/
def FreesOnly (groups : Groups) (s after : Vfs) (owned : List Nat) : Prop :=
  ∀ g < groups.count, ∀ c < groups.limit .block g,
    bitAt (after.block (groups.bitmap .block g)) c = bitAt (s.block (groups.bitmap .block g)) c ∨
    bitAt (after.block (groups.bitmap .block g)) c = false ∧ groups.number .block g c ∈ owned

section

variable {groups : Groups} {loose : Nat → Nat → Prop} {s : Vfs} {view : Nat → ByteMap}
  {held : Multiset Nat} {p lbk pos ino : Nat} {dir : Inode} {name : List Byte}

/-- What a call does to the bits of the blocks. -/
theorem unlink_clears (file : FileState groups loose s view held p dir)
    (room : Multiset.card held + 3 < nBlkNum)
    (entries : Entries groups.blockSize s.block dir (dirBlocks groups.blockSize dir.size))
    (link : SoleLink groups loose s dir name lbk pos ino) :
    wp (ext2Unlink p name) (fun done after => done = true ∧ Cleared groups s.block after.block
      (if s.servesInode = true then treeBlocks s.block (groups.blockSize / 4) (s.onDisk s.block ino) else [])) s := by
  apply ext2Unlink_removes file (by omega) entries link.named link.first
  have file := file.onBlocks
  rintro slot path stored changed found isBlock ⟨state, all, elsewhere, -⟩
  have isNode := (blockPath_isNode found).1
  have plain := file.owned slot path isNode isBlock
  obtain ⟨-, -, inTable⟩ := file.fs.slot link.number
  obtain ⟨slots, sameServes, sameCached, sameNext, sameRoot⟩ := all.lookups
  have sameSlot := slots ino
  have sameObject : stored.onDisk changed ino = s.onDisk s.block ino := by
    rw [Vfs.onDisk, Vfs.onDisk, sameSlot, elsewhere]
    rintro isDir
    exact plain.notTable (isDir ▸ inTable)
  obtain ⟨sameTree, -⟩ := @OrdinaryTree.congr groups loose s s.block (s.onDisk s.block ino)
    (s.onDisk s.block ino) changed link.ordinary rfl fun i deep no member =>
      elsewhere no (link.apart i deep no member slot path isNode).symm
  have ordinary : OrdinaryTree groups loose stored changed (s.onDisk s.block ino) :=
    link.ordinary.moved all fun i deep no member =>
      elsewhere no (link.apart i deep no member slot path isNode).symm
  have clears := @dropLink_fresh groups loose stored changed held state room ino link.number
    (by rw [FirmSlot, sameSlot]; exact link.firm)
    (by rw [sameCached]; exact link.uncached) (by rw [sameNext, sameRoot]; exact link.notRoot)
    (by rw [sameObject, link.link]; exact Nat.one_pos) (by rw [sameObject]; exact ordinary)
  simp only [sameObject, sameServes, sameTree, link.link, and_true] at clears
  apply wp_mono clears
  rintro - after ⟨view', ioAfter, cleared, -⟩
  refine ⟨rfl, cleared.congr (fun g within => ?_) fun g within => ?_⟩
  · exact (elsewhere _ fun isDir => plain.notMetadata
      (isDir ▸ Or.inr (Or.inr ⟨.block, g, within, rfl⟩))).symm
  · exact ioAfter.block_eq _ (state.tight.bitmap .block g within)

/-- A text whose words name a block in use costs that block its bit. -/
theorem unlink_frees_foreign (file : FileState groups loose s view held p dir)
    (room : Multiset.card held + 3 < nBlkNum)
    (entries : Entries groups.blockSize s.block dir (dirBlocks groups.blockSize dir.size))
    (link : SoleLink groups loose s dir name lbk pos ino) (inline : InlineLink s ino)
    (serves : s.servesInode = true) {no : Nat}
    (member : no ∈ treeBlocks s.block (groups.blockSize / 4) (s.onDisk s.block ino))
    (taken : Taken groups s .block no) :
    ¬ wp (ext2Unlink p name) (fun done after => done = true ∧
      FreesOnly groups s after (ownedBlocks s ino)) s := by
  rintro ⟨done, after, returned, -, only⟩
  obtain ⟨g, inside, c, below, isNo, isTaken⟩ := taken
  obtain ⟨-, cleared⟩ := (unlink_clears file room entries link).of_returns returned
  have bit := cleared g inside c below
  rw [if_pos serves, ← isNo, decide_eq_true member, isTaken] at bit
  have kept := only g inside c below
  rw [ownedBlocks, if_pos inline, bit, isTaken] at kept
  rcases kept with differs | ⟨-, foreign⟩
  · cases differs
  · cases foreign

/-- Where the words are pointers, or name no block in use, only blocks of the inode are
freed. -/
theorem unlink_frees_own (file : FileState groups loose s view held p dir)
    (room : Multiset.card held + 3 < nBlkNum)
    (entries : Entries groups.blockSize s.block dir (dirBlocks groups.blockSize dir.size))
    (link : SoleLink groups loose s dir name lbk pos ino)
    (condition : InlineLink s ino → s.servesInode = true →
      ∀ no ∈ treeBlocks s.block (groups.blockSize / 4) (s.onDisk s.block ino), ¬ Taken groups s .block no) :
    wp (ext2Unlink p name) (fun done after => done = true ∧
      FreesOnly groups s after (ownedBlocks s ino)) s := by
  apply wp_mono (unlink_clears file room entries link)
  rintro done after ⟨isDone, cleared⟩
  refine ⟨isDone, fun g inside c below => ?_⟩
  rw [cleared g inside c below]
  split
  · rename_i serves
    by_cases member : groups.number .block g c ∈ treeBlocks s.block (groups.blockSize / 4) (s.onDisk s.block ino)
    · rw [decide_eq_true member, Bool.not_true, Bool.and_false, ownedBlocks]
      by_cases inline : InlineLink s ino
      · -- The block is not in use, so its bit was clear before.
        refine .inl (Bool.eq_false_iff.mpr fun isTaken => ?_).symm
        exact condition inline serves _ member ⟨g, inside, c, below, rfl, isTaken⟩
      · rw [if_neg inline]
        rw [← file.fs.fits.blockSize] at member
        exact .inr ⟨rfl, member⟩
    · rw [decide_eq_false member, Bool.not_false, Bool.and_true]
      exact .inl rfl
  · rw [decide_eq_false List.not_mem_nil, Bool.not_false, Bool.and_true]
    exact .inl rfl

/-- Direct pointers may be anything. -/
theorem SoleLink.of_direct (named : name ≠ [])
    (first : FirstEntry groups.blockSize s.block dir name lbk pos ino)
    (number : groups.IsInode ino) (firm : FirmSlot loose s ino) (uncached : s.findCached ino = none)
    (notRoot : s.nextInode ≠ s.root) (link : (s.onDisk s.block ino).nlinks = 1)
    (direct : ∀ i : Fin nBlocks, levelOf i ≠ 0 → (s.onDisk s.block ino).iBlock i = 0) :
    SoleLink groups loose s dir name lbk pos ino := by
  have none : ∀ i : Fin nBlocks, levelOf i ≠ 0 →
      branchBlocks s.block (groups.blockSize / 4) (levelOf i) ((s.onDisk s.block ino).iBlock i) = [] := by
    intro i deep
    rw [direct i deep]
    cases levelOf i with
    | zero => rfl
    | succ level => rw [branchBlocks, if_pos rfl]
  constructor
  · exact named
  · exact first
  · exact number
  · exact firm
  · exact uncached
  · exact notRoot
  · exact link
  · intro i
    by_cases deep : levelOf i = 0
    · exact Or.inl deep
    · refine Or.inr ⟨?_, ?_⟩
      · intro no member
        rw [none i deep] at member
        cases member
      · intro no member
        rw [none i deep] at member
        cases member
  · intro i deep no member
    rw [none i deep] at member
    cases member

/-- A file is the same whatever `kmalloc` serves. -/
theorem FileState.serving (file : FileState groups loose s view held p dir) (served : Nat → Bool) :
    FileState groups loose { s with served := served } view held p dir := by
  have io := file.fs.io
  have fits := file.fs.fits
  have balanced := file.fs.balanced
  have fs : FsState groups loose { s with served := served } view held :=
    file.fs.congr ⟨io.rep, io.super, io.superHeld⟩ { fits with } ⟨balanced.group, balanced.super⟩
      ⟨rfl, fun _ => rfl, rfl⟩ fun _ => id
  refine ⟨fs, file.isInode, file.valid, file.number, fun slot path isNode isBlock => ?_,
    file.distinct⟩
  obtain ⟨used, notMetadata, notTable⟩ := file.owned slot path isNode isBlock
  exact ⟨used, notMetadata, notTable⟩

end

/-! ## A link and a file in the root directory -/

/-- The small disk with a symbolic link `a` to `"a"`, whose text stands in inode 12, and a file
`b`, inode 13, whose data is in block 97. -/
def linkDisk : Nat → ByteMap
  | 0 => store (store (smallDisk 0) 1036 4 93) 1040 4 3
  | 1 => store (store (smallDisk 1) 12 2 93) 14 2 3
  | 2 => store (smallDisk 2) 12 1 2
  | 3 => store (smallDisk 3) 0 2 0x1FFF
  | 4 => blockOf [(128, 2, 0x41ED), (132, 4, 4096), (154, 2, 2), (156, 4, 8), (168, 4, 5),
      (1408, 2, 0xA1FF), (1412, 4, 1), (1434, 2, 1), (1448, 4, 0x61),
      (1536, 2, 0x81A4), (1540, 4, 4096), (1562, 2, 1), (1564, 4, 8), (1576, 4, 97)]
  | 5 => blockOf [(0, 4, 2), (4, 2, 12), (6, 1, 1), (7, 1, 2), (8, 1, 0x2E),
      (12, 4, 2), (16, 2, 12), (18, 1, 2), (19, 1, 2), (20, 2, 0x2E2E),
      (24, 4, 12), (28, 2, 12), (30, 1, 1), (31, 1, 7), (32, 1, 0x61),
      (36, 4, 13), (40, 2, 4060), (42, 1, 1), (43, 1, 1), (44, 1, 0x62)]
  | no => smallDisk no

/-- The root directory of the disk with a link is a chain of four records. -/
theorem link_chain : Chain (linkDisk 5) 4096 0 [0, 12, 24, 36] := by
  have lengths : deRecLen (linkDisk 5) 0 = 12 ∧ deRecLen (linkDisk 5) 12 = 12 ∧
      deRecLen (linkDisk 5) 24 = 12 ∧ deRecLen (linkDisk 5) 36 = 4060 := by decide +kernel
  obtain ⟨first, second, third, fourth⟩ := lengths
  refine Chain.record (by decide +kernel) ?_
  rw [first]
  refine Chain.record (by decide +kernel) ?_
  rw [second]
  refine Chain.record (by decide +kernel) ?_
  rw [third]
  refine Chain.record (by decide +kernel) ?_
  rw [fourth]
  exact .done

theorem link_data {lbk : Nat} {data : ByteMap} (less : lbk < dirBlocks 4096 rootInode.size)
    (isData : fileBlock linkDisk 4096 rootInode lbk = some data) : lbk = 0 ∧ linkDisk 5 = data := by
  obtain rfl : lbk = 0 := Nat.lt_one_iff.mp (Nat.lt_of_lt_of_eq less (by decide))
  exact ⟨rfl, Option.some.inj isData⟩

theorem link_entries : Entries 4096 linkDisk rootInode (dirBlocks 4096 rootInode.size) := by
  intro lbk less data isData
  obtain ⟨-, rfl⟩ := link_data less isData
  exact ⟨_, link_chain⟩

/-- The first record that the scan takes for the name. -/
theorem link_first {name : List Byte} {pos ino : Nat} (short : name.length ≤ 255)
    (member : pos ∈ [0, 12, 24, 36]) (number : deInode (linkDisk 5) pos = ino)
    (isMatch : Matches (linkDisk 5) name pos)
    (earlier : ∀ q ∈ [0, 12, 24, 36], q < pos → ¬ Matches (linkDisk 5) name q) :
    FirstEntry 4096 linkDisk rootInode name 0 pos ino := by
  obtain ⟨used, named⟩ := (matches_iff short).mp isMatch
  constructor
  · exact ⟨by decide, linkDisk 5, rfl, ⟨_, link_chain, member⟩, number, number ▸ used, named⟩
  · rintro lbk' pos' ino' ⟨less, data, isData, record⟩
    obtain ⟨rfl, rfl⟩ := link_data less isData
    refine Or.inr ⟨rfl, Nat.le_of_not_lt fun before => ?_⟩
    obtain ⟨recs, chain, isRecord⟩ := record.chain
    rw [link_chain.unique chain] at isRecord
    exact earlier pos' isRecord before
      ((matches_iff short).mpr ⟨record.number ▸ record.used, record.named⟩)

/-- The root directory of this disk. Only its inode is in memory. -/
theorem link_root (served : Nat → Bool) :
    ∃ s, FileState oneGroup (fun _ _ => False) s linkDisk {0} 0 rootInode ∧
    s.block = linkDisk ∧ s.slotOf 12 = (4, 1408) ∧ s.slotOf 13 = (4, 1536) ∧
    (∀ ino, s.findCached ino = none) ∧ s.root = 0 ∧ s.nextInode = 1 ∧
    s.servesInode = (served 0 && served 1) := by
  have counted : CountedDisk linkDisk :=
    ⟨by decide +kernel, by decide +kernel, by decide +kernel⟩
  obtain ⟨i, caches, -, file⟩ := exists_rootFile counted (by decide +kernel) (by decide +kernel)
  refine ⟨_, file.serving served, ?_, ?_, ?_, fun _ => rfl, rfl, rfl, rfl⟩
  · exact funext fun no => (file.serving served).fs.io.block_eq no fun _ => id
  · have slot : { unmounted linkDisk with
        blockSize := 4096, inodePerGroup := 16, inodeSize := 128, gbTable := linkDisk 1 }.slotOf 12 =
        (4, 1408) := by decide +kernel
    exact slot
  · have slot : { unmounted linkDisk with
        blockSize := 4096, inodePerGroup := 16, inodeSize := 128, gbTable := linkDisk 1 }.slotOf 13 =
        (4, 1536) := by decide +kernel
    exact slot

/-- The name of the link and the name of the file. -/
theorem link_names (served : Nat → Bool) :
    ∃ s, FileState oneGroup (fun _ _ => False) s linkDisk {0} 0 rootInode ∧
    Entries 4096 s.block rootInode (dirBlocks 4096 rootInode.size) ∧
    SoleLink oneGroup (fun _ _ => False) s rootInode [0x61] 0 24 12 ∧
    SoleLink oneGroup (fun _ _ => False) s rootInode [0x62] 0 36 13 ∧
    InlineLink s 12 ∧ ¬ InlineLink s 13 ∧ 97 ∈ treeBlocks s.block (oneGroup.blockSize / 4) (s.onDisk s.block 12) ∧
    Taken oneGroup s .block 97 ∧ s.nextInode = 1 ∧ s.servesInode = (served 0 && served 1) := by
  obtain ⟨s, file, isDisk, slot, slot', uncached, isRoot, next, serves⟩ := link_root served
  have notRoot : s.nextInode ≠ s.root := by
    rw [next, isRoot]
    exact Nat.one_ne_zero
  refine ⟨s, file, isDisk ▸ link_entries, ?_, ?_, ?_, ?_, ?_, ?_, next, serves⟩
  · refine SoleLink.of_direct (List.cons_ne_nil _ _) ?_ ⟨by decide, by decide⟩ (fun _ _ _ => id)
      (uncached 12) notRoot ?_ ?_
    · rw [isDisk]
      exact link_first (by decide) (by decide) (by decide +kernel) (by decide +kernel)
        (by decide +kernel)
    · rw [Vfs.onDisk, slot, isDisk]
      decide +kernel
    · rw [Vfs.onDisk, slot, isDisk]
      decide +kernel
  · refine SoleLink.of_direct (List.cons_ne_nil _ _) ?_ ⟨by decide, by decide⟩ (fun _ _ _ => id)
      (uncached 13) notRoot ?_ ?_
    · rw [isDisk]
      exact link_first (by decide) (by decide) (by decide +kernel) (by decide +kernel)
        (by decide +kernel)
    · rw [Vfs.onDisk, slot', isDisk]
      decide +kernel
    · rw [Vfs.onDisk, slot', isDisk]
      decide +kernel
  · rw [InlineLink, Vfs.onDisk, slot, isDisk]
    decide +kernel
  · rw [InlineLink, Vfs.onDisk, slot', isDisk]
    decide +kernel
  · refine List.mem_flatMap.mpr ⟨0, List.mem_finRange 0, ?_⟩
    have word : (s.onDisk s.block 12).iBlock 0 = 97 := by
      rw [Vfs.onDisk, slot, isDisk]
      decide +kernel
    rw [word]
    exact List.mem_singleton_self 97
  · refine ⟨0, by decide, 97, by decide, rfl, ?_⟩
    rw [isDisk]
    decide +kernel

end CuteCore.Fs

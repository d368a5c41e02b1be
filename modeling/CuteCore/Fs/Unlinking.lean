import CuteCore.Fs.Deletion

/-!
# Unlinking

`ext2_unlink` writes the directory block and loads the target behind that. Where the target
is in memory or can be loaded, one entry and one link go together; elsewhere the entry goes
alone, and the call reports success all the same.
-/

namespace CuteCore.Fs

open Hoare Bytes BlkCache

/-- `i_links_count` in the slot. -/
def Vfs.slotLinks (s : Vfs) (ino : Nat) : Nat :=
  load (s.block (s.slotOf ino).1) ((s.slotOf ino).2 + 26) 2

/-- The link count: of the object in memory, or of the slot where there is none. -/
def Vfs.links (s : Vfs) (ino : Nat) : Nat :=
  ((s.findCached ino).bind s.inodes).elim (s.slotLinks ino) Inode.nlinks

/-- The inode is in memory, or `kmalloc` serves the two requests for it. -/
def Loadable (s : Vfs) (ino : Nat) : Prop :=
  (s.findCached ino).isSome = true ∨ s.servesInode = true

/-- The live entries of the directory are those that were there and are kept. -/
def EntriesLeft (s : Vfs) (p : Nat) (dir : Inode) (kept : Nat → Nat → Prop) (after : Vfs) : Prop :=
  ∃ dir', after.inodes p = some dir' ∧ ∀ lbk pos ino name,
    DirEntry s.blockSize after.block dir' lbk pos ino name ↔
      DirEntry s.blockSize s.block dir lbk pos ino name ∧ kept lbk pos

/-- The call returned 0, and one entry and one link are gone, or it failed and nothing changed.
In memory the count is that of an object that was there. -/
def UnlinkAtomic (s : Vfs) (p : Nat) (dir : Inode) (lbk pos ino : Nat) (done : Bool) (after : Vfs) :
    Prop :=
  (done = true ∧ EntriesLeft s p dir (fun lbk' pos' => ¬ (lbk' = lbk ∧ pos' = pos)) after ∧
    after.slotLinks ino + 1 = s.links ino ∧ ∀ v, s.findCached ino = some v →
      ∃ object, after.inodes v = some object ∧ object.nlinks + 1 = s.links ino) ∨
  (done = false ∧ EntriesLeft s p dir (fun _ _ => True) after ∧
    after.slotLinks ino = s.slotLinks ino ∧ ∀ v, s.findCached ino = some v →
      ∃ object, after.inodes v = some object ∧ object.nlinks = s.links ino)

/-- An object in memory that somebody holds. -/
structure HeldObject (s : Vfs) (v ino : Nat) (object : Inode) : Prop where
  isObject : s.inodes v = some object
  number : object.ino = ino
  valid : object.valid = true
  positive : 0 < object.ref
  few : object.ref + 1 < 2 ^ 31

/-- The first record with a name, and the inode that it names. Blocks that hang off index
blocks of an inode that is not in memory are neither metadata nor the directory's. -/
structure NamedInode (groups : Groups) (loose : Nat → Nat → Prop) (s : Vfs) (p : Nat) (dir : Inode)
    (name : List Byte) (lbk pos ino : Nat) : Prop where
  named : name ≠ []
  first : FirstEntry groups.blockSize s.block dir name lbk pos ino
  number : groups.IsInode ino
  firm : FirmSlot loose s ino
  positive : 0 < s.links ino
  small : s.links ino < 2 ^ 16
  cached : ∀ v, s.findCached ino = some v → ∃ object, HeldObject s v ino object
  notRoot : s.nextInode ≠ s.root
  older : p ≠ s.nextInode
  ordinary : s.findCached ino = none →
    OrdinaryTree groups loose s s.block (s.onDisk s.block ino)
  apart : s.findCached ino = none → ∀ i : Fin nBlocks, levelOf i ≠ 0 →
    ∀ no ∈ branchBlocks s.block (groups.blockSize / 4) (levelOf i) ((s.onDisk s.block ino).iBlock i),
    ∀ slot path, IsNode groups.blockSize slot path → ptrAt s.block dir slot path ≠ no

section

variable {groups : Groups} {loose : Nat → Nat → Prop} {s : Vfs} {view : Nat → ByteMap}
  {held : Multiset Nat}

/-- A link of an inode in memory goes, and the object stays. -/
theorem dropLink_cached (state : FsState groups loose s view held)
    (room : Multiset.card held < nBlkNum) {ino v : Nat} {object : Inode}
    (number : groups.IsInode ino) (found : s.findCached ino = some v)
    (there : HeldObject s v ino object) (link : 0 < object.nlinks) :
    wp (dropLink ino) (fun _ after => ∃ view', Io loose after view' (fun _ => False) held ∧
      Settled groups s view v ino (object.nlinks - 1) after view' ∧
      ∃ ref, after.inodes v = some { object with
        nlinks := object.nlinks - 1, ref := ref, dirty := false }) s := by
  have positive : ino ≠ 0 := by
    have low := number.1
    omega
  obtain ⟨isObject, itsNumber, valid, isHeld, few⟩ := there
  rw [dropLink, wp_bind, ext2Iget, if_neg positive, wp_bind, wp_get]
  simp only [found]
  rw [wp_bind, addRef, wp_bind, wp_derefInode isObject, if_pos few, wp_modify, wp_pure]
  have here : (s.setInode v { object with ref := object.ref + 1 }).inodes v =
      some { object with ref := object.ref + 1 } := Function.update_self ..
  apply wp_loseLink (state.setInode v _) room here valid (itsNumber ▸ number) link
  intro written view' lost
  obtain ⟨last, isLast⟩ : ∃ last : Inode, last = { object with
    ref := object.ref + 1 - 1, nlinks := object.nlinks - 1, dirty := false } := ⟨_, rfl⟩
  have isKept : (written.setInode v last).inodes v = some last := Function.update_self ..
  have stays : 0 < last.ref := by
    rw [isLast]
    change 0 < object.ref + 1 - 1
    omega
  rw [iput, wp_bind, wp_updateInode lost.isObject, wp_bind]
  change wp (derefInode v) _ (written.setInode v { object with
    ref := object.ref + 1 - 1, nlinks := object.nlinks - 1, dirty := false })
  rw [← isLast, wp_derefInode isKept, wp_bind, wp_get, if_pos stays, wp_pure]
  have links := lost.settled.links
  change load (view' (s.slotOf object.ino).1) ((s.slotOf object.ino).2 + 26) 2 =
    (object.nlinks - 1) % 2 ^ 16 at links
  rw [itsNumber] at links
  refine ⟨view', lost.state.io.setInode v last, ⟨?_, lost.settled.slots, links,
    lost.settled.blocks⟩, last.ref, ?_⟩
  · intro q other
    change Function.update written.inodes v _ q = _
    rw [Function.update_of_ne other, lost.settled.inodes q other]
    exact Function.update_of_ne other _ _
  · rw [isKept, isLast]

end

/-! ## The entries -/

section

variable {groups : Groups} {loose : Nat → Nat → Prop} {s : Vfs} {view : Nat → ByteMap}
  {held : Multiset Nat} {p lbk pos ino : Nat} {dir : Inode} {name : List Byte}

/-- The pointers of the directory stay, since a block with entries is no index block. -/
theorem Removed.pointers {slot : Fin nBlocks} {path : List Nat} {stored : Vfs}
    {changed : Nat → ByteMap}
    (removed : Removed groups loose s held (ptrAt s.block dir slot path) pos stored changed)
    (file : FileState groups loose s s.block held p dir)
    (found : blockPath groups.blockSize lbk = some (slot, path)) :
    ∀ slot' path', IsNode groups.blockSize slot' path' →
      ptrAt changed dir slot' path' = ptrAt s.block dir slot' path' := by
  obtain ⟨isNode, isData⟩ := blockPath_isNode found
  apply ptrAt_congr rfl
  intro slot' front i isNode' isIndex
  apply removed.elsewhere
  intro same
  obtain ⟨rfl, rfl⟩ := file.distinct _ _ _ _ isNode'.parent isNode isIndex same
  have depth := isNode'.depth
  rw [List.length_append, List.length_singleton, isData] at depth
  omega

/-- After a removal the directory has the entries it had, without the one that was found. -/
theorem Removed.entries {slot : Fin nBlocks} {path : List Nat} {stored : Vfs}
    {changed : Nat → ByteMap}
    (removed : Removed groups loose s held (ptrAt s.block dir slot path) pos stored changed)
    (file : FileState groups loose s s.block held p dir)
    (found : blockPath groups.blockSize lbk = some (slot, path))
    (isBlock : ptrAt s.block dir slot path ≠ 0)
    (lbk' pos' ino' : Nat)
    (name' : List Byte) : DirEntry groups.blockSize changed dir lbk' pos' ino' name' ↔
      DirEntry groups.blockSize s.block dir lbk' pos' ino' name' ∧ ¬ (lbk' = lbk ∧ pos' = pos) := by
  have isNode := (blockPath_isNode found).1
  cases found' : blockPath groups.blockSize lbk' with
  | none =>
    simp [DirEntry, fileBlock, found']
  | some place =>
    obtain ⟨slot', path'⟩ := place
    have isNode' := (blockPath_isNode found').1
    have pointer := removed.pointers file found slot' path' isNode'
    rw [DirEntry, DirEntry, fileBlock_eq found', fileBlock_eq found', dataAt, dataAt, pointer]
    by_cases isLbk : lbk' = lbk
    · subst isLbk
      obtain ⟨rfl, rfl⟩ := Prod.mk.inj (Option.some.inj (found.symm.trans found'))
      rw [if_neg isBlock, if_neg isBlock]
      simp only [Option.some.injEq, exists_eq_left', removed.records, true_and, and_assoc]
    · have same : (if ptrAt s.block dir slot' path' = 0 then fun _ => 0
          else changed (ptrAt s.block dir slot' path')) =
          if ptrAt s.block dir slot' path' = 0 then fun _ => 0
          else s.block (ptrAt s.block dir slot' path') := by
        by_cases isHole : ptrAt s.block dir slot' path' = 0
        · rw [if_pos isHole, if_pos isHole]
        · rw [if_neg isHole, if_neg isHole]
          apply removed.elsewhere
          intro equal
          obtain ⟨rfl, rfl⟩ := file.distinct _ _ _ _ isNode' isNode isHole equal
          exact isLbk (blockPath_injective found' found)
      rw [same]
      simp [isLbk]

/-- What is done to an inode leaves the data of the directory. -/
theorem Settled.fileBlock {stored after : Vfs} {changed view' : Nat → ByteMap} {v links : Nat}
    {slot : Fin nBlocks} {path : List Nat}
    (settled : Settled groups stored changed v ino links after view')
    (io : Io loose after view' (fun _ => False) held)
    (removed : Removed groups loose s held (ptrAt s.block dir slot path) pos stored changed)
    (file : FileState groups loose s s.block held p dir)
    (found : blockPath groups.blockSize lbk = some (slot, path)) (lbk' : Nat) :
    Fs.fileBlock after.block groups.blockSize dir lbk' = Fs.fileBlock changed groups.blockSize dir lbk' := by
  apply fileBlock_congr rfl
  intro slot' path' isNode isBlock
  rw [removed.pointers file found slot' path' isNode] at isBlock ⊢
  obtain ⟨-, notMetadata, notTable⟩ := file.owned slot' path' isNode isBlock
  rw [io.block_eq _ (file.firm isNode isBlock)]
  exact settled.blocks _ notMetadata fun inTable =>
    notTable (((SameSetup.of_sameFs removed.same).inTable _).mp inTable)

end

instance (s : Vfs) (ino : Nat) : Decidable (Loadable s ino) := inferInstanceAs (Decidable (_ ∨ _))

section

variable {groups : Groups} {loose : Nat → Nat → Prop} {s : Vfs} {view : Nat → ByteMap}
  {held : Multiset Nat} {p lbk pos ino : Nat} {dir : Inode} {name : List Byte}

theorem links_cached {v : Nat} {object : Inode} (found : s.findCached ino = some v)
    (there : HeldObject s v ino object) :
    s.links ino = object.nlinks := by
  rw [Vfs.links, found, Option.bind_some, there.isObject]
  rfl

theorem links_absent (uncached : s.findCached ino = none) :
    s.links ino = (s.onDisk s.block ino).nlinks := by
  rw [Vfs.links, uncached]
  rfl

/-- What dropping the link does after the directory block was written. -/
theorem NamedInode.drops (link : NamedInode groups loose s p dir name lbk pos ino)
    (file : FileState groups loose s s.block held p dir) (room : Multiset.card held + 3 < nBlkNum)
    {slot : Fin nBlocks} {path : List Nat} {stored : Vfs} {changed : Nat → ByteMap}
    (found : blockPath groups.blockSize lbk = some (slot, path))
    (isBlock : ptrAt s.block dir slot path ≠ 0)
    (removed : Removed groups loose s held (ptrAt s.block dir slot path) pos stored changed) :
    wp (dropLink ino) (fun _ after => ∃ view' v, Io loose after view' (fun _ => False) held ∧
      Settled groups stored changed v ino
        (if Loadable s ino then s.links ino - 1 else s.links ino) after view' ∧
      (∃ dir', after.inodes p = some dir' ∧ dir'.iBlock = dir.iBlock ∧ dir'.size = dir.size) ∧
      ∀ w, s.findCached ino = some w → ∃ object, after.inodes w = some object ∧
        object.nlinks = s.links ino - 1) stored := by
  obtain ⟨slots, sameServes, sameCached, sameNext, sameRoot⟩ := removed.same.lookups
  have inodes := removed.same.inodes
  have isNode := (blockPath_isNode found).1
  have plain := file.owned slot path isNode isBlock
  have positive := link.positive
  cases isCached : s.findCached ino with
  | some v =>
    obtain ⟨object, there⟩ := link.cached v isCached
    have links := links_cached isCached there
    have thereStored : HeldObject stored v ino object :=
      ⟨inodes ▸ there.isObject, there.number, there.valid, there.positive, there.few⟩
    apply wp_mono (dropLink_cached removed.state (by omega) link.number
      ((sameCached ino).trans isCached) thereStored (by omega))
    rintro - after ⟨view', ioAfter, settled, ref, isAfter⟩
    have loadable : Loadable s ino := Or.inl (isCached ▸ rfl)
    refine ⟨view', v, ioAfter, ?_, ?_, ?_⟩
    · rw [if_pos loadable, links]
      exact settled
    · by_cases isDir : p = v
      · subst isDir
        obtain rfl := Option.some.inj (file.isInode.symm.trans there.isObject)
        exact ⟨_, isAfter, rfl, rfl⟩
      · exact ⟨dir, by rw [settled.inodes p isDir, inodes]; exact file.isInode, rfl, rfl⟩
    · intro w isW
      obtain rfl := Option.some.inj isW
      exact ⟨_, isAfter, by rw [links]⟩
  | none =>
    obtain ⟨-, -, inTable⟩ := file.fs.slot link.number
    have sameObject : stored.onDisk changed ino = s.onDisk s.block ino := by
      rw [Vfs.onDisk, Vfs.onDisk, slots, removed.elsewhere]
      exact fun isDir => plain.notTable (isDir ▸ inTable)
    have ordinary : OrdinaryTree groups loose stored changed (s.onDisk s.block ino) :=
      (link.ordinary isCached).moved removed.same fun i deep no member =>
        removed.elsewhere no (link.apart isCached i deep no member slot path isNode).symm
    have links := links_absent isCached
    have drops := dropLink_fresh removed.state room link.number
      (by rw [FirmSlot, slots]; exact link.firm) ((sameCached ino).trans isCached)
      (by rw [sameNext, sameRoot]; exact link.notRoot) (by rw [sameObject]; omega)
      (by rw [sameObject]; exact ordinary)
    apply wp_mono drops
    rintro - after ⟨view', ioAfter, -, settled⟩
    rw [sameObject, sameServes, sameNext, ← links] at settled
    have loadable : Loadable s ino ↔ s.servesInode = true := by
      rw [Loadable, isCached]
      simp
    refine ⟨view', s.nextInode, ioAfter, ?_, ?_, fun w isW => by cases isW⟩
    · simp only [loadable]
      exact settled
    · exact ⟨dir, by rw [settled.inodes p link.older, inodes]; exact file.isInode, rfl, rfl⟩

/-- What a call does. -/
theorem unlink_outcome (file : FileState groups loose s view held p dir)
    (room : Multiset.card held + 3 < nBlkNum)
    (entries : Entries groups.blockSize s.block dir (dirBlocks groups.blockSize dir.size))
    (link : NamedInode groups loose s p dir name lbk pos ino) :
    wp (ext2Unlink p name) (fun done after => done = true ∧
      EntriesLeft s p dir (fun lbk' pos' => ¬ (lbk' = lbk ∧ pos' = pos)) after ∧
      after.slotLinks ino = (if Loadable s ino then s.links ino - 1 else s.links ino) ∧
      ∀ v, s.findCached ino = some v → ∃ object, after.inodes v = some object ∧
        object.nlinks = s.links ino - 1) s := by
  apply ext2Unlink_removes file (by omega) entries link.named link.first
  have file := file.onBlocks
  intro slot path stored changed found isBlock removed
  apply wp_mono (link.drops file room found isBlock removed)
  rintro - after ⟨view', v, io, settled, ⟨dir', isDir, top, size⟩, memory⟩
  refine ⟨rfl, ⟨dir', isDir, fun lbk' pos' ino' name' => ?_⟩, ?_, memory⟩
  · rw [file.fs.fits.blockSize, ← removed.entries file found isBlock]
    have data : fileBlock after.block groups.blockSize dir' lbk' = fileBlock changed groups.blockSize dir lbk' := by
      rw [← settled.fileBlock io removed file found lbk']
      exact fileBlock_congr top (fun _ _ _ _ => rfl) lbk'
    rw [DirEntry, DirEntry, data, size]
  · have slots := removed.same.lookups.1
    have small := link.small
    rw [Vfs.slotLinks, settled.slots, slots]
    have count := settled.links
    rw [slots, Nat.mod_eq_of_lt (by split <;> omega)] at count
    rw [← count]
    exact load_congr fun x low high => io.block_agrees _ x (link.firm x (by omega) (by omega))

/-- Where the inode cannot be loaded the entry goes and the link stays. -/
theorem unlink_not_atomic (file : FileState groups loose s view held p dir)
    (room : Multiset.card held + 3 < nBlkNum)
    (entries : Entries groups.blockSize s.block dir (dirBlocks groups.blockSize dir.size))
    (link : NamedInode groups loose s p dir name lbk pos ino) (refused : ¬ Loadable s ino)
    {done : Bool} {after : Vfs} (returned : Returns (ext2Unlink p name) s done after) :
    ¬ UnlinkAtomic s p dir lbk pos ino done after := by
  obtain ⟨isDone, -, links, -⟩ := (unlink_outcome file room entries link).of_returns returned
  have positive := link.positive
  rw [if_neg refused] at links
  rintro (⟨-, -, fewer, -⟩ | ⟨failed, -⟩)
  · omega
  · rw [isDone] at failed
    cases failed

/-- The only link of an inode that is not in memory. -/
theorem SoleLink.namedInode (link : SoleLink groups loose s dir name lbk pos ino)
    (older : p ≠ s.nextInode) : NamedInode groups loose s p dir name lbk pos ino := by
  have links : s.links ino = 1 := (links_absent link.uncached).trans link.link
  exact {
    named := link.named
    first := link.first
    number := link.number
    firm := link.firm
    positive := by omega
    small := by omega
    cached := fun v isCached => by
      rw [link.uncached] at isCached
      cases isCached
    notRoot := link.notRoot
    older := older
    ordinary := fun _ => link.ordinary
    apart := fun _ => link.apart }

end

end CuteCore.Fs

import CuteCore.Fs.Namei
import CuteCore.Fs.Super

/-!
# The inode cache

References to inodes are counted from mount on, over any contents of the disk.
Everything but `ext2_iget` and `iput` keeps the cache as it is: which inodes it
holds, their numbers, counts and validity.

The count of an object is the number of references that were handed out for it, and one
more for the root, which the file system holds itself. An object with a count of 0 is gone
from the list: `iput` takes it out when the last reference comes back, and frees its
blocks before that if it has no links.
-/

namespace CuteCore.Fs

open Hoare Bytes

/-- What the cache depends on in an inode. -/
def Inode.key (inode : Inode) : Nat × Int × Bool := (inode.ino, inode.ref, inode.valid)

/-- The cache is the same, and so are the keys of all inodes. -/
structure SameCache (s after : Vfs) : Prop where
  root : after.root = s.root
  cached : after.inodeCache = s.inodeCache
  size : after.icacheSize = s.icacheSize
  next : after.nextInode = s.nextInode
  keys : ∀ p, (after.inodes p).map Inode.key = (s.inodes p).map Inode.key

instance : Std.Refl SameCache where
  refl _ := ⟨rfl, rfl, rfl, rfl, fun _ => rfl⟩

instance : IsTrans Vfs SameCache where
  trans _ _ _ first second := ⟨second.root.trans first.root, second.cached.trans first.cached,
    second.size.trans first.size, second.next.trans first.next,
    fun p => (second.keys p).trans (first.keys p)⟩

/-- A change of the other fields of the state. -/
theorem SameCache.of_eq {s after : Vfs} (root : after.root = s.root)
    (cached : after.inodeCache = s.inodeCache) (size : after.icacheSize = s.icacheSize)
    (next : after.nextInode = s.nextInode) (objects : after.inodes = s.inodes) :
    SameCache s after :=
  ⟨root, cached, size, next, fun p => by rw [objects]⟩

section Frames

open Keeps

theorem onCaches_keeps {α : Type} (program : BlkCache.CacheProg ByteMap α) :
    Keeps SameCache (onCaches program) :=
  onPart_keeps fun _ _ => .of_eq rfl rfl rfl rfl rfl

theorem bufData_keeps (cache : Fin nBlkNum) : Keeps SameCache (bufData cache) :=
  bind_keeps get_keeps fun _ => pure_keeps _

theorem loadBuf_keeps (cache : Fin nBlkNum) (off n : Nat) : Keeps SameCache (loadBuf cache off n) :=
  ite_keeps (bind_keeps (bufData_keeps cache) fun _ => pure_keeps _) (throw_keeps _)

theorem copyBuf_keeps (cache : Fin nBlkNum) (off n : Nat) (source : Nat → Byte) :
    Keeps SameCache (copyBuf cache off n source) :=
  ite_keeps (onCaches_keeps _) (throw_keeps _)

theorem storeBuf_keeps (cache : Fin nBlkNum) (off n value : Nat) :
    Keeps SameCache (storeBuf cache off n value) := copyBuf_keeps ..

theorem clearBuf_keeps (cache : Fin nBlkNum)
    (off n : Nat) : Keeps SameCache (clearBuf cache off n) :=
  copyBuf_keeps ..

theorem loadSuper_keeps (off n : Nat) : Keeps SameCache (loadSuper off n) :=
  bind_keeps get_keeps fun _ => loadBuf_keeps ..

theorem derefInode_keeps (p : Nat) : Keeps SameCache (derefInode p) := by
  refine bind_keeps get_keeps fun s => ?_
  split
  · exact pure_keeps _
  · exact throw_keeps _

/-- A change of an inode's other fields. -/
theorem updateInode_keeps (p : Nat) (f : Inode → Inode)
    (kept : ∀ inode, (f inode).key = inode.key) :
    Keeps SameCache (updateInode p f) := by
  refine ⟨fun s u after returned => ?_⟩
  obtain ⟨inode, mid, found, changed⟩ := returns_bind.mp returned
  have behind : s.inodes p = some inode ∧ s = mid := by
    obtain ⟨_, _, got, found⟩ := returns_bind.mp found
    obtain ⟨rfl, rfl⟩ := returns_get.mp got
    cases object : s.inodes p with
    | none =>
      simp only [object] at found
      exact absurd (returns_throw.mp found) not_false
    | some _ =>
      simp only [object] at found
      obtain ⟨rfl, same⟩ := returns_pure.mp found
      exact ⟨rfl, same⟩
  obtain ⟨object, rfl⟩ := behind
  obtain rfl := returns_modify.mp changed
  refine ⟨rfl, rfl, rfl, rfl, fun q => ?_⟩
  by_cases isP : q = p
  · subst isP
    simp [Vfs.setInode, object, kept]
  · simp [Vfs.setInode, isP]

theorem findClear_keeps (bmap : Fin nBlkNum) (limit remaining index : Nat) :
    Keeps SameCache (findClear bmap limit remaining index) := by
  induction remaining generalizing index with
  | zero => exact pure_keeps _
  | succ remaining inductionHypothesis =>
    refine bind_keeps (loadBuf_keeps ..) fun byte => ?_
    split
    · exact pure_keeps _
    · exact inductionHypothesis _

theorem writeGdesc_keeps (g : Nat) : Keeps SameCache (writeGdesc g) :=
  bind_keeps get_keeps fun _ => bind_keeps (loadSuper_keeps ..) fun _ =>
  bind_keeps (onCaches_keeps _) fun _ => bind_keeps (copyBuf_keeps ..) fun _ =>
  bind_keeps (onCaches_keeps _) fun _ => onCaches_keeps _

theorem countFree_keeps (r : Resource) (g delta16 delta32 : Nat) :
    Keeps SameCache (countFree r g delta16 delta32) :=
  bind_keeps (modify_keeps fun _ => .of_eq rfl rfl rfl rfl rfl) fun _ =>
  bind_keeps (writeGdesc_keeps g) fun _ => bind_keeps (loadSuper_keeps ..) fun _ =>
  bind_keeps get_keeps fun _ => bind_keeps (storeBuf_keeps ..) fun _ => onCaches_keeps _

theorem claimBit_keeps (bitmap limit : Nat) : Keeps SameCache (claimBit bitmap limit) := by
  refine bind_keeps (onCaches_keeps _) fun bmap => bind_keeps (findClear_keeps ..) fun found => ?_
  split
  · exact bind_keeps (onCaches_keeps _) fun _ => pure_keeps _
  · exact bind_keeps (loadBuf_keeps ..) fun _ => bind_keeps (storeBuf_keeps ..) fun _ =>
      bind_keeps (onCaches_keeps _) fun _ => bind_keeps (onCaches_keeps _) fun _ => pure_keeps _

/-- The scan of the groups leaves the inode cache alone. -/
theorem allocFrom_keeps (r : Resource) (range : Nat → FsProg (Nat × Nat))
    (rangeKeeps : ∀ g, Keeps SameCache (range g)) (remaining g : Nat) :
    Keeps SameCache (allocFrom r range remaining g) := by
  induction remaining generalizing g with
  | zero => exact pure_keeps _
  | succ remaining inductionHypothesis =>
    refine bind_keeps get_keeps fun s => ite_keeps (inductionHypothesis _) ?_
    refine bind_keeps (rangeKeeps g) fun numbers => bind_keeps (claimBit_keeps ..) fun claimed => ?_
    split
    · exact inductionHypothesis _
    · exact bind_keeps (countFree_keeps ..) fun _ => pure_keeps _

theorem ext2AllocBlock_keeps : Keeps SameCache ext2AllocBlock := by
  have range : ∀ g, Keeps SameCache (blockRange g) := fun g =>
    bind_keeps (loadSuper_keeps ..) fun _ => bind_keeps (loadSuper_keeps ..) fun _ =>
    bind_keeps (loadSuper_keeps ..) fun _ => pure_keeps _
  exact bind_keeps get_keeps fun _ => bind_keeps (allocFrom_keeps _ _ range ..) fun _ => pure_keeps _

theorem ext2AllocInode_keeps : Keeps SameCache ext2AllocInode := by
  have range : ∀ g, Keeps SameCache (inodeRange g) := fun g =>
    bind_keeps get_keeps fun _ => bind_keeps (loadSuper_keeps ..) fun _ => pure_keeps _
  exact bind_keeps get_keeps fun _ => bind_keeps (allocFrom_keeps _ _ range ..) fun _ => pure_keeps _

theorem freeBit_keeps (r : Resource) (g bit : Nat) : Keeps SameCache (freeBit r g bit) :=
  bind_keeps get_keeps fun _ => onlyIf_keeps <|
  bind_keeps (onCaches_keeps _) fun _ => bind_keeps (loadBuf_keeps ..) fun _ =>
  bind_keeps (storeBuf_keeps ..) fun _ => bind_keeps (onCaches_keeps _) fun _ =>
  bind_keeps (onCaches_keeps _) fun _ => countFree_keeps ..

theorem ext2FreeBlock_keeps (blkNo : Nat) : Keeps SameCache (ext2FreeBlock blkNo) :=
  bind_keeps (loadSuper_keeps ..) fun _ => bind_keeps (loadSuper_keeps ..) fun _ =>
  onlyIf_keeps (freeBit_keeps ..)

theorem ext2FreeInode_keeps (ino : Nat) : Keeps SameCache (ext2FreeInode ino) :=
  bind_keeps get_keeps fun _ => onlyIf_keeps (freeBit_keeps ..)

theorem ext2InodeLoc_keeps (ino : Nat) : Keeps SameCache (ext2InodeLoc ino) :=
  bind_keeps get_keeps fun _ => ite_keeps (throw_keeps _) (pure_keeps _)

theorem storeFields_keeps (cache : Fin nBlkNum) (off : Nat) (fields : List (Nat × Nat × Nat)) :
    Keeps SameCache (storeFields cache off fields) := by
  induction fields with
  | nil => exact pure_keeps _
  | cons field rest inductionHypothesis =>
    exact bind_keeps (storeBuf_keeps ..) fun _ => inductionHypothesis

theorem ext2WriteInode_keeps (p : Nat) : Keeps SameCache (ext2WriteInode p) :=
  bind_keeps (derefInode_keeps p) fun _ => ite_keeps (pure_keeps _) <|
  bind_keeps (ext2InodeLoc_keeps _) fun _ => bind_keeps (onCaches_keeps _) fun _ =>
  bind_keeps get_keeps fun _ => bind_keeps (storeFields_keeps ..) fun _ =>
  bind_keeps (onCaches_keeps _) fun _ => bind_keeps (onCaches_keeps _) fun _ =>
  bind_keeps (updateInode_keeps _ _ fun _ => rfl) fun _ => pure_keeps _

theorem ext2FreeBranch_keeps (level blockNr : Nat) :
    Keeps SameCache (ext2FreeBranch level blockNr) := by
  induction level generalizing blockNr with
  | zero => exact onlyIf_keeps (ext2FreeBlock_keeps _)
  | succ level inductionHypothesis =>
    refine onlyIf_keeps (bind_keeps (onCaches_keeps _) fun cache => bind_keeps get_keeps fun s => ?_)
    refine bind_keeps (forRange_keeps (fun i => ?_) ..) fun _ =>
      bind_keeps (onCaches_keeps _) fun _ => ext2FreeBlock_keeps _
    exact bind_keeps (loadBuf_keeps ..) fun _ => onlyIf_keeps (inductionHypothesis _)

theorem freeBranches_keeps (p : Nat) (slots : List (Fin nBlocks)) :
    Keeps SameCache (freeBranches p slots) := by
  induction slots with
  | nil => exact pure_keeps _
  | cons slot rest inductionHypothesis =>
    exact bind_keeps (derefInode_keeps p) fun _ => bind_keeps (ext2FreeBranch_keeps ..) fun _ =>
      bind_keeps (updateInode_keeps _ _ fun _ => rfl) fun _ => inductionHypothesis

theorem ext2TruncateInode_keeps (p : Nat) : Keeps SameCache (ext2TruncateInode p) :=
  bind_keeps (freeBranches_keeps ..) fun _ => bind_keeps (updateInode_keeps _ _ fun _ => rfl) fun _ =>
  bind_keeps (ext2WriteInode_keeps p) fun _ => pure_keeps _

theorem settleInode_keeps (p : Nat) : Keeps SameCache (settleInode p) :=
  bind_keeps (derefInode_keeps p) fun _ => ite_keeps
    (bind_keeps (ext2TruncateInode_keeps p) fun _ => ext2FreeInode_keeps _)
    (onlyIf_keeps (bind_keeps (ext2WriteInode_keeps p) fun _ => pure_keeps _))

theorem followPtrs_keeps (blkNo : Nat)
    (path : List Nat) : Keeps SameCache (followPtrs blkNo path) := by
  induction path generalizing blkNo with
  | nil => exact pure_keeps _
  | cons i rest inductionHypothesis =>
    exact ite_keeps (pure_keeps _) (bind_keeps (onCaches_keeps _) fun _ =>
      bind_keeps (loadBuf_keeps ..) fun _ => bind_keeps (onCaches_keeps _) fun _ =>
      inductionHypothesis _)

theorem ext2ReadBlock_keeps (p lbk : Nat) (buf : ByteMap) :
    Keeps SameCache (ext2ReadBlock p lbk buf) := by
  refine bind_keeps (derefInode_keeps p) fun inode => bind_keeps get_keeps fun s => ?_
  split
  · exact pure_keeps _
  · exact bind_keeps (followPtrs_keeps ..) fun _ => ite_keeps (pure_keeps _) <|
      bind_keeps (onCaches_keeps _) fun _ => bind_keeps (bufData_keeps _) fun _ =>
      bind_keeps (onCaches_keeps _) fun _ => pure_keeps _

theorem clearBlock_keeps (blkNo : Nat) : Keeps SameCache (clearBlock blkNo) :=
  bind_keeps (onCaches_keeps _) fun _ => bind_keeps get_keeps fun _ =>
  bind_keeps (clearBuf_keeps ..) fun _ => bind_keeps (onCaches_keeps _) fun _ => onCaches_keeps _

theorem ensureSlot_keeps (p : Nat) (slot : Fin nBlocks) (isIndex : Bool) :
    Keeps SameCache (ensureSlot p slot isIndex) :=
  bind_keeps (derefInode_keeps p) fun _ => ite_keeps
    (bind_keeps ext2AllocBlock_keeps fun _ => ite_keeps (pure_keeps _) <|
      bind_keeps (updateInode_keeps _ _ fun _ => rfl) fun _ =>
      bind_keeps (onlyIf_keeps (clearBlock_keeps _)) fun _ => pure_keeps _)
    (pure_keeps _)

theorem ensurePtr_keeps (blkNo i : Nat) (isIndex : Bool) :
    Keeps SameCache (ensurePtr blkNo i isIndex) :=
  bind_keeps (onCaches_keeps _) fun _ => bind_keeps (loadBuf_keeps ..) fun _ => ite_keeps
    (bind_keeps ext2AllocBlock_keeps fun _ => ite_keeps
      (bind_keeps (onCaches_keeps _) fun _ => pure_keeps _) <|
      bind_keeps (storeBuf_keeps ..) fun _ => bind_keeps (onCaches_keeps _) fun _ =>
      bind_keeps (onlyIf_keeps (clearBlock_keeps _)) fun _ => bind_keeps (loadBuf_keeps ..) fun _ =>
      bind_keeps (onCaches_keeps _) fun _ => pure_keeps _)
    (bind_keeps (onCaches_keeps _) fun _ => pure_keeps _)

theorem ensurePath_keeps (blkNo : Nat)
    (path : List Nat) : Keeps SameCache (ensurePath blkNo path) := by
  induction path generalizing blkNo with
  | nil => exact pure_keeps _
  | cons i rest inductionHypothesis =>
    refine bind_keeps (ensurePtr_keeps ..) fun ptr => ?_
    split
    · exact pure_keeps _
    · exact inductionHypothesis _

/-- `ext2_write_block` leaves the inode cache alone. -/
theorem ext2WriteBlock_keeps (p lbk : Nat) (buf : ByteMap) :
    Keeps SameCache (ext2WriteBlock p lbk buf) := by
  refine bind_keeps get_keeps fun s => ?_
  split
  · exact pure_keeps _
  · refine bind_keeps (ensureSlot_keeps ..) fun top => ?_
    split
    · exact pure_keeps _
    · refine bind_keeps (ensurePath_keeps ..) fun blkNo => ?_
      split
      · exact pure_keeps _
      · exact bind_keeps (onCaches_keeps _) fun _ => bind_keeps (copyBuf_keeps ..) fun _ =>
          bind_keeps (onCaches_keeps _) fun _ => bind_keeps (onCaches_keeps _) fun _ => pure_keeps _

/-- To add a record leaves the inode cache alone. -/
theorem addFrom_keeps (p : Nat) (name : List Byte) (ino fileType remaining lbk : Nat) :
    Keeps SameCache (addFrom p name ino fileType remaining lbk) := by
  induction remaining generalizing lbk with
  | zero => exact pure_keeps _
  | succ remaining inductionHypothesis =>
    refine bind_keeps get_keeps fun s => bind_keeps (ext2ReadBlock_keeps ..) fun block => ?_
    split
    · exact inductionHypothesis _
    · split
      · exact inductionHypothesis _
      · exact ite_keeps (throw_keeps _) (bind_keeps (ext2WriteBlock_keeps ..) fun _ => pure_keeps _)

theorem ext2DirAddEntry_keeps (p : Nat) (name : List Byte) (ino fileType : Nat) :
    Keeps SameCache (ext2DirAddEntry p name ino fileType) := by
  refine bind_keeps (derefInode_keeps p) fun dir => bind_keeps get_keeps fun s =>
    bind_keeps (addFrom_keeps ..) fun added => ?_
  split
  · exact pure_keeps _
  · exact ite_keeps (throw_keeps _) (bind_keeps (ext2WriteBlock_keeps ..) fun _ =>
      ite_keeps (pure_keeps _) (bind_keeps (updateInode_keeps _ _ fun _ => rfl) fun _ =>
      bind_keeps (ext2WriteInode_keeps p) fun _ => pure_keeps _))

theorem fillDirBlock_keeps
    (blkNo ino parent : Nat) : Keeps SameCache (fillDirBlock blkNo ino parent) :=
  bind_keeps (onCaches_keeps _) fun _ => bind_keeps get_keeps fun _ =>
  bind_keeps (onCaches_keeps _) fun _ => bind_keeps (onCaches_keeps _) fun _ => onCaches_keeps _

theorem countDir_keeps (ino : Nat) : Keeps SameCache (countDir ino) :=
  bind_keeps get_keeps fun _ => bind_keeps (modify_keeps fun _ => .of_eq rfl rfl rfl rfl rfl) fun _ =>
  bind_keeps (onCaches_keeps _) fun _ => bind_keeps (storeBuf_keeps ..) fun _ =>
  bind_keeps (onCaches_keeps _) fun _ => onCaches_keeps _

theorem kmallocServed_keeps : Keeps SameCache kmallocServed := by
  refine ⟨fun s a after returned => ?_⟩
  obtain ⟨_, _, got, returned⟩ := returns_bind.mp returned
  obtain ⟨rfl, rfl⟩ := returns_get.mp got
  obtain ⟨_, _, counted, returned⟩ := returns_bind.mp returned
  obtain rfl := returns_set.mp counted
  obtain ⟨-, rfl⟩ := returns_pure.mp returned
  exact .of_eq rfl rfl rfl rfl rfl

theorem loadTable_keeps (blockSize size budget copied gdtBlk : Nat) :
    Keeps SameCache (loadTable blockSize size budget copied gdtBlk) := by
  induction budget generalizing copied gdtBlk with
  | zero => exact pure_keeps _
  | succ budget inductionHypothesis =>
    exact onlyIf_keeps (bind_keeps (onCaches_keeps _) fun _ => bind_keeps (bufData_keeps _) fun _ =>
      ite_keeps (throw_keeps _) (bind_keeps (modify_keeps fun _ => .of_eq rfl rfl rfl rfl rfl)
        fun _ => bind_keeps (onCaches_keeps _) fun _ => inductionHypothesis _ _))

end Frames

/-- The references of the callers in `held` account for the cache: an inode is in
it as long as it is the root or somebody holds it. -/
structure Counted (root : Nat) (s : Vfs) (held : Multiset Nat) : Prop where
  rooted : s.root = root
  once : s.inodeCache.Nodup
  cached : ∀ p, p ∈ s.inodeCache ↔ p ∈ held ∨ p = root
  object : ∀ p ∈ s.inodeCache, ∃ ino, (s.inodes p).map Inode.key =
    some (ino, (held.count p : Int) + (if p = root then 1 else 0), true) ∧
    0 < ino ∧ ino < 2 ^ 32
  distinct : ∀ p ∈ s.inodeCache, ∀ q ∈ s.inodeCache, ∀ inode other, s.inodes p = some inode →
    s.inodes q = some other → inode.ino = other.ino → p = q
  size : s.icacheSize = s.inodeCache.length
  fresh : ∀ p ∈ s.inodeCache, p < s.nextInode

/-- An object behind a key. -/
theorem object_of_key {s : Vfs} {p ino : Nat} {ref : Int} {valid : Bool}
    (key : (s.inodes p).map Inode.key = some (ino, ref, valid)) :
    ∃ inode, s.inodes p = some inode ∧ inode.ino = ino ∧ inode.ref = ref ∧ inode.valid = valid := by
  obtain ⟨inode, found, equal⟩ := Option.map_eq_some_iff.mp key
  simp only [Inode.key, Prod.mk.injEq] at equal
  exact ⟨inode, found, equal⟩

/-- An object with the same key as before has the same number. -/
theorem ino_of_key {s after : Vfs} {p : Nat} {inode : Inode}
    (key : (after.inodes p).map Inode.key = (s.inodes p).map Inode.key)
    (found : after.inodes p = some inode) :
    ∃ before, s.inodes p = some before ∧ before.ino = inode.ino := by
  rw [found] at key
  obtain ⟨before, isBefore, equal⟩ := Option.map_eq_some_iff.mp key.symm
  exact ⟨before, isBefore, congrArg Prod.fst equal⟩

namespace Counted

variable {root : Nat} {s after : Vfs} {held : Multiset Nat}

/-- The objects of the cache. -/
theorem number (counted : Counted root s held) (p : Nat) (member : p ∈ s.inodeCache) :
    ∃ inode, s.inodes p = some inode ∧ inode.valid = true ∧
      inode.ref = (held.count p : Int) + (if p = root then 1 else 0) ∧
      0 < inode.ino ∧ inode.ino < 2 ^ 32 := by
  obtain ⟨ino, key, positive, bound⟩ := counted.object p member
  obtain ⟨inode, found, rfl, isRef, isValid⟩ := object_of_key key
  exact ⟨inode, found, isValid, isRef, positive, bound⟩

/-- The count depends on the cached objects alone. -/
theorem congr (counted : Counted root s held)
    (same : SameCache s after) : Counted root after held := by
  refine ⟨same.root.trans counted.rooted, ?_, ?_, ?_, ?_, ?_, ?_⟩
  · rw [same.cached]
    exact counted.once
  · intro p
    rw [same.cached]
    exact counted.cached p
  · intro p member
    rw [same.cached] at member
    rw [same.keys]
    exact counted.object p member
  · intro p pMember q qMember inode other pObject qObject sameIno
    rw [same.cached] at pMember qMember
    obtain ⟨inode', pBefore, pIno⟩ := ino_of_key (same.keys p) pObject
    obtain ⟨other', qBefore, qIno⟩ := ino_of_key (same.keys q) qObject
    exact counted.distinct p pMember q qMember inode' other' pBefore qBefore (by omega)
  · rw [same.size, same.cached]
    exact counted.size
  · intro p member
    rw [same.cached] at member
    rw [same.next]
    exact counted.fresh p member

end Counted

/-- Lists of objects with distinct inode numbers are shorter than their range. -/
theorem length_lt_of_distinct {s : Vfs} {pointers : List Nat} (once : pointers.Nodup)
    (object : ∀ p ∈ pointers, ∃ inode, s.inodes p = some inode ∧ 0 < inode.ino ∧
      inode.ino < 2 ^ 32)
    (distinct : ∀ p ∈ pointers, ∀ q ∈ pointers, ∀ inode other, s.inodes p = some inode →
      s.inodes q = some other → inode.ino = other.ino → p = q) : pointers.length < 2 ^ 32 := by
  have into : ∀ p ∈ pointers.toFinset, ((s.inodes p).elim 0 Inode.ino) ∈ Finset.Ico 1 (2 ^ 32) := by
    intro p member
    obtain ⟨inode, found, positive, bound⟩ := object p (List.mem_toFinset.mp member)
    rw [found, Finset.mem_Ico]
    exact ⟨positive, bound⟩
  have injective : Set.InjOn (fun p => (s.inodes p).elim 0 Inode.ino) pointers.toFinset := by
    intro p pMember q qMember same
    have pListed := List.mem_toFinset.mp pMember
    have qListed := List.mem_toFinset.mp qMember
    obtain ⟨inode, pFound, -⟩ := object p pListed
    obtain ⟨other, qFound, -⟩ := object q qListed
    simp only [pFound, qFound, Option.elim] at same
    exact distinct p pListed q qListed inode other pFound qFound same
  have few := Finset.card_le_card_of_injOn _ into injective
  rw [List.toFinset_card_of_nodup once, Nat.card_Ico] at few
  omega

/-- Read an object that is there. -/
theorem wlp_derefInode {p : Nat} {post : Inode → Vfs → Prop} {s : Vfs} :
    wlp (derefInode p) post s ↔ ∀ inode, s.inodes p = some inode → post inode s := by
  rw [derefInode, wlp_bind, wlp_get]
  cases s.inodes p with
  | none => simp
  | some inode => simp

theorem wlp_updateInode {p : Nat} {f : Inode → Inode} {post : Unit → Vfs → Prop} {s : Vfs} :
    wlp (updateInode p f) post s ↔
      ∀ inode, s.inodes p = some inode → post () (s.setInode p (f inode)) := by
  rw [updateInode, wlp_bind, wlp_derefInode]
  simp only [wlp_modify]

/-- The number of an object does not change with its count. -/
theorem ino_setRef {s : Vfs} {p q : Nat} {inode found : Inode} (ref : Int)
    (object : s.inodes p = some inode)
    (after : (s.setInode p { inode with ref := ref }).inodes q = some found) :
    ∃ before, s.inodes q = some before ∧ before.ino = found.ino := by
  by_cases isP : q = p
  · subst isP
    simp only [Vfs.setInode, Function.update_self, Option.some.injEq] at after
    exact ⟨inode, object, by rw [← after]⟩
  · simp only [Vfs.setInode, Function.update_of_ne isP] at after
    exact ⟨found, after, rfl⟩

/-- A cached inode whose count follows its holders. -/
theorem Counted.setRef {root : Nat} {s : Vfs} {held held' : Multiset Nat}
    (counted : Counted root s held) (p : Nat)
    (inode : Inode) (object : s.inodes p = some inode) (member : p ∈ s.inodeCache)
    (others : ∀ q, q ≠ p → held'.count q = held.count q) (stays : p ∈ held' ∨ p = root) :
    Counted root (s.setInode p { inode with
      ref := (held'.count p : Int) + (if p = root then 1 else 0) }) held' := by
  obtain ⟨inode', object', isValid, -, positive, bound⟩ := counted.number p member
  obtain rfl : inode' = inode := Option.some.inj (object'.symm.trans object)
  refine ⟨counted.rooted, counted.once, ?_, ?_, ?_, counted.size, counted.fresh⟩
  · intro q
    change q ∈ s.inodeCache ↔ q ∈ held' ∨ q = root
    by_cases isP : q = p
    · subst isP
      exact ⟨fun _ => stays, fun _ => member⟩
    · rw [counted.cached, ← Multiset.count_pos, ← others q isP, Multiset.count_pos]
  · intro q qMember
    by_cases isP : q = p
    · subst isP
      refine ⟨inode'.ino, ?_, positive, bound⟩
      simp only [Vfs.setInode, Function.update_self, Option.map_some, Inode.key, isValid]
    · obtain ⟨ino, key, rest⟩ := counted.object q qMember
      refine ⟨ino, ?_, rest⟩
      simp only [Vfs.setInode, Function.update_of_ne isP, others q isP]
      exact key
  · intro q qMember r rMember first second qObject rObject same
    obtain ⟨first', qBefore, qIno⟩ := ino_setRef _ object qObject
    obtain ⟨second', rBefore, rIno⟩ := ino_setRef _ object rObject
    exact counted.distinct q qMember r rMember first' second' qBefore rBefore (by omega)

/-- A new reference to a cached inode. -/
theorem addRef_spec {root : Nat} {s : Vfs} {held : Multiset Nat} (counted : Counted root s held)
    (p : Nat)
    (member : p ∈ s.inodeCache) : wlp (addRef p) (fun _ after => Counted root after (p ::ₘ held)) s := by
  rw [addRef, wlp_bind, wlp_derefInode]
  intro inode found
  rw [wlp_ite]
  split
  · rw [wlp_modify]
    obtain ⟨object, isObject, -, isRef, -⟩ := counted.number p member
    obtain rfl : inode = object := Option.some.inj (found.symm.trans isObject)
    have more : inode.ref + 1 =
        ((p ::ₘ held).count p : Int) + (if p = root then 1 else 0) := by
      rw [isRef, Multiset.count_cons_self]
      push_cast
      ring
    rw [more]
    exact counted.setRef p inode found member (fun q differs => Multiset.count_cons_of_ne differs _)
      (Or.inl (Multiset.mem_cons_self ..))
  · rw [wlp_throw]
    trivial

/-- A new object at the head of the cache. -/
structure Loaded (s after : Vfs) (p ino : Nat) : Prop where
  isNext : p = s.nextInode
  root : after.root = s.root
  cached : after.inodeCache = p :: s.inodeCache
  size : after.icacheSize = u32 (s.icacheSize + 1)
  next : after.nextInode = p + 1
  key : (after.inodes p).map Inode.key = some (ino, 1, true)
  keys : ∀ q, q ≠ p → (after.inodes q).map Inode.key = (s.inodes q).map Inode.key

/-- Reading the slot makes a new inode valid. -/
theorem ext2ReadInode_spec {s : Vfs} (p : Nat) (inode : Inode) (found : s.inodes p = some inode)
    (notYet : inode.valid = false) : wlp (ext2ReadInode p) (fun _ after =>
      after.root = s.root ∧ after.inodeCache = s.inodeCache ∧ after.icacheSize = s.icacheSize ∧
      after.nextInode = s.nextInode ∧
      (after.inodes p).map Inode.key = some (inode.ino, inode.ref, true) ∧
      ∀ q, q ≠ p → (after.inodes q).map Inode.key = (s.inodes q).map Inode.key) s := by
  rw [ext2ReadInode, wlp_bind, wlp_derefInode]
  intro inode' found'
  obtain rfl : inode' = inode := Option.some.inj (found'.symm.trans found)
  rw [wlp_onlyIf, if_pos notYet]
  refine wlp_seq ((ext2InodeLoc_keeps _).wlp s) fun loc first toFirst => ?_
  refine wlp_seq ((onCaches_keeps _).wlp first) fun cache second toSecond => ?_
  refine wlp_seq ((loadBuf_keeps ..).wlp second) fun _ third toThird => ?_
  refine wlp_seq ((bufData_keeps cache).wlp third) fun data fourth toFourth => ?_
  have same : SameCache s fourth := IsTrans.trans _ _ _ (IsTrans.trans _ _ _ toFirst toSecond)
    (IsTrans.trans _ _ _ toThird toFourth)
  rw [wlp_bind, wlp_updateInode]
  intro before isBefore
  have key := same.keys p
  rw [isBefore, found, Option.map_some, Option.map_some, Option.some.injEq] at key
  simp only [Inode.key, Prod.mk.injEq] at key
  refine wlp_mono ((onCaches_keeps _).wlp _) fun _ after last => ?_
  refine ⟨last.root.trans same.root, last.cached.trans same.cached, last.size.trans same.size,
    last.next.trans same.next, ?_, fun q differs => ?_⟩
  · rw [last.keys]
    simp [Vfs.setInode, Inode.key, Inode.fromSlot, key.1, key.2.1]
  · rw [last.keys]
    simp only [Vfs.setInode, Function.update_of_ne differs]
    exact same.keys q

/-- `loadInode` fails and leaves the inode cache alone, or adds one new object with one reference to
it. -/
theorem loadInode_spec (s : Vfs) (ino : Nat) : wlp (loadInode ino) (fun r after =>
    (r = none ∧ SameCache s after) ∨ ∃ p, r = some p ∧ Loaded s after p ino) s := by
  rw [loadInode]
  refine wlp_seq (kmallocServed_keeps.wlp s) fun inodeServed first toFirst => ?_
  rw [wlp_ite]
  split
  · exact wlp_pure.mpr (Or.inl ⟨rfl, toFirst⟩)
  refine wlp_seq (kmallocServed_keeps.wlp first) fun infoServed second toSecond => ?_
  have same : SameCache s second := IsTrans.trans _ _ _ toFirst toSecond
  rw [wlp_ite]
  split
  · exact wlp_pure.mpr (Or.inl ⟨rfl, same⟩)
  rw [wlp_bind, wlp_get, wlp_bind, wlp_set]
  refine wlp_seq (ext2ReadInode_spec second.nextInode (newInode ino)
    (by simp [Vfs.setInode]) rfl) ?_
  rintro - after ⟨root, cached, size, next, key, keys⟩
  rw [wlp_bind, wlp_modify, wlp_pure]
  refine Or.inr ⟨second.nextInode, rfl, same.next, root.trans same.root, ?_, ?_, next, key, ?_⟩
  · change second.nextInode :: after.inodeCache = second.nextInode :: s.inodeCache
    rw [cached]
    exact congrArg _ same.cached
  · change u32 (after.icacheSize + 1) = u32 (s.icacheSize + 1)
    rw [size]
    exact congrArg (fun n => u32 (n + 1)) same.size
  · intro q differs
    change (after.inodes q).map Inode.key = _
    rw [keys q differs]
    simp only [Vfs.setInode, Function.update_of_ne differs]
    exact same.keys q

/-- References after a call that may return one. -/
def heldWith (held : Multiset Nat) : Option Nat → Multiset Nat
  | some p => p ::ₘ held
  | none => held

/-- A loaded inode that was not cached is held once. -/
theorem Counted.load {root : Nat} {s after : Vfs} {held : Multiset Nat}
    (counted : Counted root s held) {p ino : Nat}
    (positive : 0 < ino) (bound : ino < 2 ^ 32) (loaded : Loaded s after p ino)
    (missed : ∀ p ∈ s.inodeCache, ∀ inode, s.inodes p = some inode → inode.ino ≠ ino) :
    Counted root after (p ::ₘ held) := by
  have isNew : p ∉ s.inodeCache := by
    intro member
    have below := counted.fresh p member
    have isNext := loaded.isNext
    omega
  have notHeld : p ∉ held := fun isHeld => isNew ((counted.cached p).mpr (Or.inl isHeld))
  have notRoot : p ≠ root := fun isRoot => isNew ((counted.cached p).mpr (Or.inr isRoot))
  obtain ⟨object, isObject, isIno, -⟩ := object_of_key loaded.key
  have once : after.inodeCache.Nodup := by
    rw [loaded.cached]
    exact List.nodup_cons.mpr ⟨isNew, counted.once⟩
  have objects : ∀ q ∈ after.inodeCache, ∃ ino, (after.inodes q).map Inode.key =
      some (ino, ((p ::ₘ held).count q : Int) + (if q = root then 1 else 0), true) ∧
      0 < ino ∧ ino < 2 ^ 32 := by
    intro q member
    by_cases isP : q = p
    · subst isP
      refine ⟨ino, ?_, positive, bound⟩
      rw [loaded.key, Multiset.count_cons_self, Multiset.count_eq_zero_of_notMem notHeld,
        if_neg notRoot]
      rfl
    · rw [loaded.cached, List.mem_cons] at member
      obtain ⟨number, key, rest⟩ := counted.object q (member.resolve_left isP)
      refine ⟨number, ?_, rest⟩
      rw [loaded.keys q isP, Multiset.count_cons_of_ne isP, key]
  have numbers : ∀ r ∈ after.inodeCache, ∀ inode, after.inodes r = some inode →
      (r = p ∧ inode.ino = ino) ∨ (r ∈ s.inodeCache ∧
        ∃ before, s.inodes r = some before ∧ before.ino = inode.ino) := by
    intro r member inode found
    rw [loaded.cached, List.mem_cons] at member
    by_cases isP : r = p
    · subst isP
      obtain rfl := Option.some.inj (found.symm.trans isObject)
      exact Or.inl ⟨rfl, isIno⟩
    · exact Or.inr ⟨member.resolve_left isP, ino_of_key (loaded.keys r isP) found⟩
  have distinct : ∀ q ∈ after.inodeCache, ∀ r ∈ after.inodeCache, ∀ inode other,
      after.inodes q = some inode → after.inodes r = some other → inode.ino = other.ino → q = r := by
    intro q qMember r rMember first second qObject rObject same
    rcases numbers q qMember first qObject with ⟨rfl, qIno⟩ | ⟨qCached, qOld, qBefore, qIno⟩
    · rcases numbers r rMember second rObject with ⟨rfl, -⟩ | ⟨rCached, rOld, rBefore, rIno⟩
      · rfl
      · exact absurd (by omega) (missed r rCached rOld rBefore)
    · rcases numbers r rMember second rObject with ⟨rfl, rIno⟩ | ⟨rCached, rOld, rBefore, rIno⟩
      · exact absurd (by omega) (missed q qCached qOld qBefore)
      · exact counted.distinct q qCached r rCached qOld rOld qBefore rBefore (by omega)
  have short : after.inodeCache.length < 2 ^ 32 := by
    refine length_lt_of_distinct once (fun q member => ?_) distinct
    obtain ⟨number, key, range⟩ := objects q member
    obtain ⟨inode, found, rfl, -⟩ := object_of_key key
    exact ⟨inode, found, range⟩
  refine ⟨loaded.root.trans counted.rooted, once, ?_, objects, distinct, ?_, ?_⟩
  · intro q
    rw [loaded.cached, List.mem_cons, Multiset.mem_cons, counted.cached]
    tauto
  · rw [loaded.cached, List.length_cons] at short ⊢
    rw [loaded.size, counted.size, u32, Nat.mod_eq_of_lt short]
  · intro q member
    rw [loaded.cached, List.mem_cons] at member
    rw [loaded.next]
    rcases member with rfl | member
    · omega
    · have below := counted.fresh q member
      have isNext := loaded.isNext
      omega

/-- `ext2_iget` hands out one reference: the object of the number gets one more, or a new object
starts with one. -/
theorem ext2Iget_spec {root : Nat} {s : Vfs} {held : Multiset Nat} (counted : Counted root s held)
    (ino : Nat)
    (bound : ino < 2 ^ 32) :
    wlp (ext2Iget ino) (fun r after => Counted root after (heldWith held r)) s := by
  rw [ext2Iget, wlp_ite]
  split
  · exact wlp_pure.mpr counted
  rename_i nonzero
  rw [wlp_bind, wlp_get]
  cases hit : s.findCached ino with
  | some p =>
    have member : p ∈ s.inodeCache := List.mem_of_find?_eq_some hit
    refine wlp_seq (addRef_spec counted p member) fun _ after kept => ?_
    exact wlp_pure.mpr kept
  | none =>
    have missed : ∀ p ∈ s.inodeCache, ∀ inode, s.inodes p = some inode → inode.ino ≠ ino := by
      intro p member inode found same
      have absent := List.find?_eq_none.mp hit p member
      simp [found, same] at absent
    refine wlp_mono (loadInode_spec s ino) ?_
    rintro r after (⟨rfl, same⟩ | ⟨p, rfl, loaded⟩)
    · exact counted.congr same
    · exact counted.load (by omega) bound loaded missed

/-- `iput` gives one reference back. With the last one the inode leaves the cache. -/
theorem iput_spec {root : Nat} {s : Vfs} {held : Multiset Nat} (p : Nat)
    (counted : Counted root s (p ::ₘ held)) :
    wlp (iput p) (fun _ after => Counted root after held) s := by
  have member : p ∈ s.inodeCache := (counted.cached p).mpr (Or.inl (Multiset.mem_cons_self ..))
  obtain ⟨inode, found, isValid, isRef, positive, bound⟩ := counted.number p member
  rw [iput, wlp_bind, wlp_updateInode]
  intro inode' found'
  obtain rfl : inode' = inode := Option.some.inj (found'.symm.trans found)
  have less : inode'.ref - 1 = (held.count p : Int) + (if p = root then 1 else 0) := by
    rw [isRef, Multiset.count_cons_self]
    push_cast
    ring
  rw [less, wlp_bind, wlp_derefInode]
  intro inode found''
  simp only [Vfs.setInode, Function.update_self, Option.some.injEq] at found''
  rw [wlp_bind, wlp_get, wlp_ite]
  have others : ∀ q, q ≠ p → held.count q = (p ::ₘ held).count q :=
    fun q differs => (Multiset.count_cons_of_ne differs _).symm
  by_cases stays : p ∈ held ∨ p = root
  · have positiveRef : 0 < inode.ref := by
      rw [← found'']
      rcases stays with isHeld | isRoot
      · have occurs := Multiset.count_pos.mpr isHeld
        simp only
        split <;> omega
      · simp only [if_pos isRoot]
        omega
    rw [if_pos positiveRef, wlp_pure]
    exact counted.setRef p inode' found member others stays
  · obtain ⟨notHeld, notRoot⟩ := not_or.mp stays
    have zero : ¬ 0 < inode.ref := by
      rw [← found'']
      simp only [Multiset.count_eq_zero_of_notMem notHeld, if_neg notRoot]
      omega
    rw [if_neg zero, wlp_ite, if_neg (show ¬ p = (s.setInode p _).root from counted.rooted ▸ notRoot), releaseInode]
    refine wlp_seq ((settleInode_keeps p).wlp _) fun _ mid same => ?_
    rw [wlp_bind, wlp_modify, ext2DestroyInode, wlp_modify]
    have once := counted.once
    have keys : ∀ q, q ≠ p → (mid.inodes q).map Inode.key = (s.inodes q).map Inode.key := by
      intro q differs
      rw [same.keys q, Vfs.setInode]
      simp only [Function.update_of_ne differs]
    have listed : mid.inodeCache = s.inodeCache := same.cached
    have rooted : mid.root = s.root := same.root
    have inRest : ∀ q, q ∈ s.inodeCache.erase p ↔ q ≠ p ∧ q ∈ s.inodeCache :=
      fun q => once.mem_erase_iff
    refine ⟨rooted.trans counted.rooted, ?_, ?_, ?_, ?_, ?_, ?_⟩
    · change (mid.inodeCache.erase p).Nodup
      rw [listed]
      exact once.erase p
    · intro q
      change q ∈ mid.inodeCache.erase p ↔ q ∈ held ∨ q = root
      rw [listed, inRest, counted.cached, Multiset.mem_cons]
      constructor
      · rintro ⟨differs, (rfl | isHeld) | isRoot⟩
        · exact absurd rfl differs
        · exact Or.inl isHeld
        · exact Or.inr isRoot
      · intro stillThere
        refine ⟨?_, by tauto⟩
        rintro rfl
        exact stays stillThere
    · intro q qMember
      change q ∈ mid.inodeCache.erase p at qMember
      rw [listed, inRest] at qMember
      obtain ⟨number, key, range⟩ := counted.object q qMember.2
      refine ⟨number, ?_, range⟩
      change ((Function.update mid.inodes p none) q).map Inode.key =
        some (number, (held.count q : Int) + (if q = root then 1 else 0), true)
      rw [Function.update_of_ne qMember.1, keys q qMember.1, others q qMember.1]
      exact key
    · intro q qMember r rMember first second qObject rObject sameIno
      change q ∈ mid.inodeCache.erase p at qMember
      change r ∈ mid.inodeCache.erase p at rMember
      rw [listed, inRest] at qMember rMember
      change Function.update mid.inodes p none q = some first at qObject
      change Function.update mid.inodes p none r = some second at rObject
      rw [Function.update_of_ne qMember.1] at qObject
      rw [Function.update_of_ne rMember.1] at rObject
      obtain ⟨first', qBefore, qIno⟩ := ino_of_key (keys q qMember.1) qObject
      obtain ⟨second', rBefore, rIno⟩ := ino_of_key (keys r rMember.1) rObject
      exact counted.distinct q qMember.2 r rMember.2 first' second' qBefore rBefore (by omega)
    · change sub32 mid.icacheSize 1 = (mid.inodeCache.erase p).length
      have size : mid.icacheSize = s.icacheSize := same.size
      have short := length_lt_of_distinct once (fun q qMember => by
        obtain ⟨object, isObject, -, -, range⟩ := counted.number q qMember
        exact ⟨object, isObject, range⟩) counted.distinct
      have some := List.length_pos_of_mem member
      rw [size, counted.size, listed, List.length_erase_of_mem member, sub32, u32]
      omega
    · intro q qMember
      change q ∈ mid.inodeCache.erase p at qMember
      rw [listed, inRest] at qMember
      have next : mid.nextInode = s.nextInode := same.next
      change q < mid.nextInode
      rw [next]
      exact counted.fresh q qMember.2

end CuteCore.Fs

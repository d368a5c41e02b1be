import CuteCore.Fs.CallRuns
import CuteCore.Fs.Deletion
import CuteCore.Fs.Resolution

/-!
# The parent of a path

`namex` checks that an inode is a directory where a name is looked up in it, and in the parent
of a path none is. Which inode that is stands in the directories before the call: each name
leads to the number in the first live record that has it. The walk takes references to inodes
and gives them back, loads objects from their slots and drops them again, and changes nothing
that is read on the way as long as no inode on it has lost its last link.
-/

namespace CuteCore.Fs

open Hoare Bytes BlkCache

/-! ## What records and slots say before a call -/

/-- The inode with a number: the object in memory, or what the slot says where there is none. -/
def Vfs.inodeAt (s : Vfs) (ino : Nat) : Inode :=
  ((s.findCached ino).bind s.inodes).getD (s.onDisk s.block ino)

/-- The number of the root directory. -/
def Vfs.rootNumber (s : Vfs) : Nat := (s.inodes s.root).elim 0 Inode.ino

/-- A block of a directory in the buffer of `ext2_lookup`. -/
def Vfs.dirBuffer (s : Vfs) (dir : Inode) (lbk : Nat) : Option ByteMap :=
  (fileBlock s.block s.blockSize dir lbk).map (copy s.uninitialized 0 s.blockSize)

/-- The first live record with the name, in `count` blocks from `start` on, has the number. -/
def FirstNumber (s : Vfs) (dir : Inode) (name : List Byte) (start count ino : Nat) : Prop :=
  ∃ k < count, ∃ buf pos, s.dirBuffer dir (start + k) = some buf ∧
    FirstNamed buf s.blockSize name 0 pos ∧ deInode buf pos = ino ∧
    ∀ j < k, ∀ earlier, s.dirBuffer dir (start + j) = some earlier →
      NoneNamed earlier s.blockSize name 0

/-- The names lead from one inode number to another by the types and records of a state: each of
them is the name of a record in a directory. -/
inductive LeadsTo (s : Vfs) : Nat → List (List Byte) → Nat → Prop where
  | here {ino : Nat} : LeadsTo s ino [] ino
  | next {ino inner last : Nat} {name : List Byte} {names : List (List Byte)}
      (kind : (s.inodeAt ino).type = .dir)
      (record : FirstNumber s (s.inodeAt ino) name 0
        (dirBlocks s.blockSize (s.inodeAt ino).size) inner)
      (rest : LeadsTo s inner names last) : LeadsTo s ino (name :: names) last

/-- The first record with a name is one. -/
theorem FirstNumber.unique {s : Vfs} {dir : Inode} {name : List Byte} {start count ino other : Nat}
    (first : FirstNumber s dir name start count ino)
    (first' : FirstNumber s dir name start count other) : ino = other := by
  obtain ⟨k, -, buf, pos, isBuf, named, rfl, earlier⟩ := first
  obtain ⟨k', -, buf', pos', isBuf', named', rfl, earlier'⟩ := first'
  have sameBlock : k = k' := by
    rcases Nat.lt_trichotomy k k' with less | same | more
    · exact absurd named.isMatch (earlier' k less buf isBuf pos named.earlier.anywhere named.header)
    · exact same
    · exact absurd named'.isMatch
        (earlier k' more buf' isBuf' pos' named'.earlier.anywhere named'.header)
  subst sameBlock
  obtain rfl := Option.some.inj (isBuf.symm.trans isBuf')
  rw [named.unique named']

/-- Names lead to one inode. -/
theorem LeadsTo.unique {s : Vfs} {ino last other : Nat} {names : List (List Byte)}
    (leads : LeadsTo s ino names last) (leads' : LeadsTo s ino names other) : last = other := by
  induction leads with
  | here =>
    cases leads'
    rfl
  | next _ record _ inductionHypothesis =>
    cases leads' with
    | next _ record' rest' =>
      obtain rfl := record.unique record'
      exact inductionHypothesis rest'

/-! ## The inodes on the way -/

/-- What a walk reads of an inode. -/
def Inode.shape (inode : Inode) : InodeType × Nat × Nat × (Fin nBlocks → Nat) :=
  (inode.type, inode.size, inode.nlinks, inode.iBlock)

/-- A state on the way of a walk that began in `start`. The blocks are those of the start, objects
that were there are there, and all objects show what the start said of their numbers. -/
structure Walking (start : Vfs) (blocks held : Multiset Nat) (s : Vfs) : Prop where
  io : Io (fun _ _ => False) s start.block (fun _ => False) blocks
  volume : SameVolume start s
  counted : Counted start.root s held
  still : ∀ p ∈ start.inodeCache, p ∈ s.inodeCache
  numbers : ∀ p ∈ start.inodeCache, (s.inodes p).map Inode.ino = (start.inodes p).map Inode.ino
  shows : ∀ p ∈ s.inodeCache, ∀ object, s.inodes p = some object →
    object.shape = (start.inodeAt object.ino).shape ∧ (p ∉ start.inodeCache → object.dirty = false)

section

variable {root : Nat} {s start after : Vfs} {blocks held : Multiset Nat} {p ino : Nat}
  {object : Inode} {name : List Byte}

/-- A cached object is the first one with its number. -/
theorem Counted.findCached (counted : Counted root s held) (member : p ∈ s.inodeCache)
    (isObject : s.inodes p = some object) : s.findCached object.ino = some p := by
  cases found : s.findCached object.ino with
  | none =>
    have none' := List.find?_eq_none.mp found p member
    simp [isObject] at none'
  | some q =>
    have test := List.find?_some found
    have qMember : q ∈ s.inodeCache := List.mem_of_find?_eq_some found
    cases isOther : s.inodes q with
    | none => simp [isOther] at test
    | some other =>
      have sameNumber : other.ino = object.ino := by simpa [isOther] using test
      rw [counted.distinct q qMember p member other object isOther isObject sameNumber]

theorem Counted.inodeAt (counted : Counted root s held) (member : p ∈ s.inodeCache)
    (isObject : s.inodes p = some object) : s.inodeAt object.ino = object := by
  rw [Vfs.inodeAt, counted.findCached member isObject, Option.bind_some, isObject, Option.getD_some]

/-- The start is on the way. -/
theorem Walking.refl (io : Io (fun _ _ => False) s s.block (fun _ => False) blocks)
    (counted : Counted s.root s held) : Walking s blocks held s where
  io := io
  volume := rfl
  counted := counted
  still _ := id
  numbers _ _ := rfl
  shows p member object isObject := by
    rw [counted.inodeAt member isObject]
    exact ⟨rfl, fun new => absurd member new⟩

theorem SameVolume.trans {mid : Vfs} (first : SameVolume s mid) (second : SameVolume mid after) :
    SameVolume s after := by
  unfold SameVolume at first second ⊢
  rw [← second, ← first]

/-- At most the counts of objects are others, and some objects may be gone. -/
structure Recounted (s after : Vfs) : Prop where
  volume : SameVolume s after
  caches : after.caches = s.caches
  members : ∀ q ∈ after.inodeCache, q ∈ s.inodeCache
  objects : ∀ q ∈ after.inodeCache, ∀ object, after.inodes q = some object →
    ∃ before, s.inodes q = some before ∧ before.ino = object.ino ∧
      before.shape = object.shape ∧ before.dirty = object.dirty

theorem Recounted.numbers (recounted : Recounted s after) (counted : Counted root after held)
    {q : Nat}
    (member : q ∈ after.inodeCache) :
    (after.inodes q).map Inode.ino = (s.inodes q).map Inode.ino := by
  obtain ⟨object, isObject, -⟩ := counted.number q member
  obtain ⟨before, isBefore, sameNumber, -⟩ := recounted.objects q member object isObject
  rw [isObject, isBefore, Option.map_some, Option.map_some, sameNumber]

/-- References that come and go on the way keep what the walk relies on. -/
theorem Walking.recount {held' : Multiset Nat} (walking : Walking start blocks held s)
    (recounted : Recounted s after) (counted : Counted start.root after held')
    (still : ∀ p ∈ start.inodeCache, p ∈ after.inodeCache) : Walking start blocks held' after where
  io := by
    have io := walking.io
    have volume := recounted.volume
    unfold SameVolume at volume
    rw [← volume, recounted.caches]
    exact ⟨io.rep, io.super, io.superHeld⟩
  volume := walking.volume.trans recounted.volume
  counted := counted
  still := still
  numbers q member :=
    (recounted.numbers counted (still q member)).trans (walking.numbers q member)
  shows q member object isObject := by
    obtain ⟨before, isBefore, sameNumber, sameShape, sameDirty⟩ :=
      recounted.objects q member object isObject
    rw [← sameNumber, ← sameShape, ← sameDirty]
    exact walking.shows q (recounted.members q member) before isBefore

/-- A change of a reference count changes nothing that the walk reads. -/
theorem Recounted.setInode (isObject : s.inodes p = some object) (ref : Int) :
    Recounted s (s.setInode p { object with ref := ref }) where
  volume := rfl
  caches := rfl
  members _ := id
  objects q _ found isFound := by
    by_cases isP : q = p
    · subst isP
      rw [inodes_setInode_self] at isFound
      obtain rfl := Option.some.inj isFound
      exact ⟨object, isObject, rfl, rfl, rfl⟩
    · rw [inodes_setInode_other s _ isP] at isFound
      exact ⟨found, isFound, rfl, rfl, rfl⟩

/-- Another reference to an object. -/
theorem Walking.addRef (walking : Walking start blocks held s) (member : p ∈ s.inodeCache)
    (returned : Returns (Fs.addRef p) s () after) :
    Walking start blocks (p ::ₘ held) after ∧ ∀ q ∈ s.inodeCache,
      (after.inodes q).map Inode.ino = (s.inodes q).map Inode.ino := by
  have counted := addRef_spec walking.counted p member _ _ returned
  obtain ⟨object, isObject, rfl⟩ := wlp_addRef _ _ returned
  have recounted := Recounted.setInode isObject (object.ref + 1)
  exact ⟨walking.recount recounted counted walking.still,
    fun q there => recounted.numbers counted there⟩

/-- Reads of blocks are not seen. -/
theorem Walking.reads (walking : Walking start blocks held s)
    (io : Io (fun _ _ => False) after start.block (fun _ => False) blocks) (same : SameFs s after) :
    Walking start blocks held after := by
  have volume : SameVolume s after := by
    unfold SameFs at same
    unfold SameVolume
    rw [← same]
  have toAfter := walking.volume.trans volume
  unfold SameFs at same
  rw [← same] at io toAfter ⊢
  exact ⟨io, toAfter, walking.counted.congr ⟨rfl, rfl, rfl, rfl, fun _ => rfl⟩, walking.still,
    walking.numbers, walking.shows⟩

/-- Reading the slot of an object that was set up. -/
theorem readInode_shows {view : Nat → ByteMap}
    (io : Io (fun _ _ => False) s view (fun _ => False) blocks)
    (room : Multiset.card blocks < nBlkNum) (isObject : s.inodes p = some object)
    (invalid : object.valid = false) :
    wlp (ext2ReadInode p) (fun _ after => Io (fun _ _ => False) after view (fun _ => False) blocks ∧
      SameFs (s.setInode p (object.fromSlot (view (s.slotOf object.ino).1)
        (s.slotOf object.ino).2)) after) s := by
  rw [ext2ReadInode, wlp_bind, wlp_derefInode]
  intro found isFound
  obtain rfl := Option.some.inj (isFound.symm.trans isObject)
  rw [wlp_onlyIf, if_pos invalid]
  refine wlp_seq (wlp_inodeLoc _) ?_
  rintro _ _ ⟨rfl, rfl, -⟩
  refine wlp_seq (wlp_of_wp (io.bread_spec _ room)) ?_
  rintro cache read ⟨ioRead, same, buffers, -⟩
  refine wlp_seq wlp_loadBuf_same ?_
  rintro - _ rfl
  refine wlp_seq (wlp_of_wp (ioRead.bufData_spec buffers)) ?_
  rintro data _ ⟨agrees, rfl⟩
  obtain rfl : data = view _ := funext fun x => agrees x id
  rw [wlp_bind, wlp_updateInode]
  intro before isBefore
  rw [same.inodes, isObject] at isBefore
  obtain rfl := Option.some.inj isBefore
  refine wlp_mono (wlp_of_wp ((ioRead.setInode p _).brelse_spec buffers not_false io.superHeld)) ?_
  rintro - after ⟨ioAfter, same', -⟩
  refine ⟨ioAfter, ?_⟩
  unfold SameFs at same same' ⊢
  rw [← same', ← same]
  rfl

/-- A new object shows what its slot says, and nothing else changes. -/
theorem loadInode_shows {view : Nat → ByteMap}
    (io : Io (fun _ _ => False) s view (fun _ => False) blocks)
    (room : Multiset.card blocks < nBlkNum) (ino : Nat) :
    wlp (loadInode ino) (fun got after => ∀ p, got = some p →
      Io (fun _ _ => False) after view (fun _ => False) blocks ∧ SameVolume s after ∧
      p = s.nextInode ∧ after.inodes = Function.update s.inodes p (some (s.onDisk view ino)) ∧
      after.inodeCache = p :: s.inodeCache) s := by
  rw [loadInode]
  refine wlp_seq wlp_kmallocServed ?_
  rintro inodeServed _ rfl
  rw [wlp_ite]
  split
  · exact wlp_pure.mpr fun v no => by cases no
  refine wlp_seq wlp_kmallocServed ?_
  rintro infoServed _ rfl
  rw [wlp_ite]
  split
  · exact wlp_pure.mpr fun v no => by cases no
  rw [wlp_bind, wlp_get, wlp_bind, wlp_set]
  obtain ⟨made, isMade⟩ : ∃ made : Vfs, made = { s with
    inodes := Function.update s.inodes s.nextInode (some (newInode ino))
    nextInode := s.nextInode + 1
    requests := s.requests + 1 + 1 } := ⟨_, rfl⟩
  have ioMade : Io (fun _ _ => False) made view (fun _ => False) blocks := by
    rw [isMade]
    exact ⟨io.rep, io.super, io.superHeld⟩
  have isNew : made.inodes s.nextInode = some (newInode ino) := by
    rw [isMade]
    exact Function.update_self ..
  change wlp _ _ { s with
    inodes := Function.update s.inodes s.nextInode (some (newInode ino))
    nextInode := s.nextInode + 1
    requests := s.requests + 1 + 1 }
  rw [← isMade]
  refine wlp_seq (readInode_shows ioMade room isNew rfl) ?_
  rintro - after ⟨ioAfter, same⟩
  rw [wlp_bind, wlp_modify, wlp_pure]
  rintro p isP
  obtain rfl := Option.some.inj isP
  have slot : made.slotOf ino = s.slotOf ino := by
    rw [isMade]
    rfl
  change SameFs (made.setInode s.nextInode ((newInode ino).fromSlot (view (made.slotOf ino).1)
    (made.slotOf ino).2)) after at same
  rw [slot] at same
  unfold SameFs at same
  rw [isMade] at same
  refine ⟨⟨ioAfter.rep, ioAfter.super, ioAfter.superHeld⟩, ?_, rfl, ?_, ?_⟩
  · unfold SameVolume
    rw [← same]
    rfl
  · rw [← same]
    exact Function.update_idem ..
  · rw [← same]
    rfl

/-- The inode that `ext2_iget` returns has the number, and what it shows was there before. -/
theorem Walking.iget (walking : Walking start blocks held s) (room : Multiset.card blocks < nBlkNum)
    (bound : ino < 2 ^ 32) (returned : Returns (ext2Iget ino) s (some p) after) :
    Walking start blocks (p ::ₘ held) after ∧ (after.inodes p).map Inode.ino = some ino ∧
      ∀ q ∈ s.inodeCache, (after.inodes q).map Inode.ino = (s.inodes q).map Inode.ino := by
  have counted := ext2Iget_spec walking.counted ino bound _ _ returned
  rw [ext2Iget] at returned
  by_cases zero : ino = 0
  · rw [if_pos zero] at returned
    cases (returns_pure.mp returned).1
  rw [if_neg zero] at returned
  obtain ⟨_, _, got, returned⟩ := returns_bind.mp returned
  obtain ⟨rfl, rfl⟩ := returns_get.mp got
  cases found : s.findCached ino with
  | some q =>
    simp only [found] at returned
    obtain ⟨⟨⟩, mid, added, returned⟩ := returns_bind.mp returned
    obtain ⟨isQ, rfl⟩ := returns_pure.mp returned
    obtain rfl := Option.some.inj isQ
    have member : q ∈ s.inodeCache := List.mem_of_find?_eq_some found
    obtain ⟨walked, sameNumbers⟩ := walking.addRef member added
    have test := List.find?_some found
    refine ⟨walked, (sameNumbers q member).trans ?_, sameNumbers⟩
    cases isObject : s.inodes q with
    | none => simp [isObject] at test
    | some object => simpa [isObject] using test
  | none =>
    simp only [found] at returned
    obtain ⟨io, volume, isNext, inodes, cached⟩ := loadInode_shows walking.io room ino _ _ returned p rfl
    have isNew : p ∉ s.inodeCache := by
      intro member
      have below := walking.counted.fresh p member
      omega
    have others : ∀ q ∈ s.inodeCache, after.inodes q = s.inodes q := by
      intro q member
      rw [inodes]
      refine Function.update_of_ne ?_ _ _
      rintro rfl
      exact isNew member
    have isObject : after.inodes p = some (s.onDisk start.block ino) := by
      rw [inodes]
      exact Function.update_self ..
    -- No object has the number at the start, since those objects are still there.
    have notBefore : start.findCached ino = none := by
      rw [Vfs.findCached, List.find?_eq_none]
      intro q member test
      have absent := List.find?_eq_none.mp found q (walking.still q member)
      have sameNumber := walking.numbers q member
      cases before : start.inodes q with
      | none => simp [before] at test
      | some object =>
        rw [before] at sameNumber
        obtain ⟨object', isObject', number⟩ := Option.map_eq_some_iff.mp sameNumber
        simp [before] at test
        simp [isObject', number, test] at absent
    refine ⟨⟨io, walking.volume.trans volume, counted, ?_, ?_, ?_⟩, ?_, ?_⟩
    · intro q member
      rw [cached]
      exact List.mem_cons_of_mem _ (walking.still q member)
    · intro q member
      rw [others q (walking.still q member)]
      exact walking.numbers q member
    · intro q member object isQ
      rw [cached, List.mem_cons] at member
      rcases member with rfl | member
      · obtain rfl := Option.some.inj (isObject.symm.trans isQ)
        refine ⟨?_, fun _ => rfl⟩
        change _ = (start.inodeAt ino).shape
        rw [Vfs.inodeAt, notBefore, Option.bind_none, Option.getD_none, Vfs.onDisk, Vfs.onDisk,
          walking.volume.slotOf]
      · rw [others q member] at isQ
        exact walking.shows q member object isQ
    · rw [isObject]
      rfl
    · exact fun q member => congrArg _ (others q member)

/-- The last reference to a clean inode with links takes only the object away. -/
theorem settleInode_clean (isObject : s.inodes p = some object) (linked : 0 < object.nlinks)
    (clean : object.dirty = false) : wlp (settleInode p) (fun _ after => after = s) s := by
  rw [settleInode, wlp_bind, wlp_derefInode]
  intro found isFound
  obtain rfl := Option.some.inj (isFound.symm.trans isObject)
  rw [if_neg (by omega), clean, wlp_onlyIf, if_neg Bool.false_ne_true]

/-- A reference that goes back changes a count, or takes a clean inode with links away. -/
theorem iput_recounts (once : s.inodeCache.Nodup) (isObject : s.inodes p = some object)
    (linked : 0 < object.nlinks)
    (clean : ¬ 0 < object.ref - 1 → p ≠ s.root → object.dirty = false) :
    wlp (Fs.iput p) (fun _ after => Recounted s after) s := by
  rw [Fs.iput, wlp_bind, wlp_updateInode]
  intro found isFound
  obtain rfl := Option.some.inj (isFound.symm.trans isObject)
  rw [wlp_bind, wlp_derefInode]
  intro less isLess
  rw [inodes_setInode_self] at isLess
  obtain rfl := Option.some.inj isLess
  rw [wlp_bind, wlp_get, wlp_ite]
  split
  · exact wlp_pure.mpr (.setInode isObject _)
  rename_i last
  rw [wlp_ite]
  split
  · rw [wlp_updateInode]
    intro less isLess
    rw [inodes_setInode_self] at isLess
    obtain rfl := Option.some.inj isLess
    have twice : (s.setInode p { found with ref := found.ref - 1 }).setInode p { found with ref := 1 } =
        s.setInode p { found with ref := 1 } := by
      rw [Vfs.setInode, Vfs.setInode, Vfs.setInode, Function.update_idem]
    change Recounted s ((s.setInode p { found with ref := found.ref - 1 }).setInode p
      { found with ref := 1 })
    rw [twice]
    exact .setInode isObject _
  · rename_i notRoot
    rw [releaseInode]
    have isClean := clean last notRoot
    refine wlp_seq (settleInode_clean (inodes_setInode_self ..) linked isClean) ?_
    rintro - _ rfl
    rw [wlp_bind, wlp_modify, ext2DestroyInode, wlp_modify]
    refine ⟨rfl, rfl, fun q member => (once.mem_erase_iff.mp member).2, ?_⟩
    intro q member object isQ
    have other : q ≠ p := (once.mem_erase_iff.mp member).1
    refine ⟨object, ?_, rfl, rfl, rfl⟩
    change Function.update (Function.update s.inodes p _) p none q = some object at isQ
    rwa [Function.update_of_ne other, Function.update_of_ne other] at isQ

/-- A reference goes back. An inode that was not there at the start may leave the memory again,
and it has links, so nothing is freed or written. -/
theorem Walking.iput (walking : Walking start blocks (p ::ₘ held) s)
    (kept : ∀ q ∈ start.inodeCache, q ∈ held ∨ q = start.root) (isObject : s.inodes p = some object)
    (linked : 0 < object.nlinks) (returned : Returns (Fs.iput p) s () after) :
    Walking start blocks held after ∧
      ∀ q ∈ held, (after.inodes q).map Inode.ino = (s.inodes q).map Inode.ino := by
  have counted := iput_spec p walking.counted _ _ returned
  have member : p ∈ s.inodeCache := (walking.counted.cached p).mpr (Or.inl (Multiset.mem_cons_self ..))
  have still : ∀ q ∈ start.inodeCache, q ∈ after.inodeCache := fun q there =>
    (counted.cached q).mpr (kept q there)
  have clean : ¬ 0 < object.ref - 1 → p ≠ s.root → object.dirty = false := by
    intro last notRoot
    refine (walking.shows p member object isObject).2 fun there => ?_
    obtain ⟨other, isOther, -, isRef, -⟩ := walking.counted.number p member
    obtain rfl := Option.some.inj (isOther.symm.trans isObject)
    rw [walking.counted.rooted] at notRoot
    have occurs := Multiset.count_pos.mpr ((kept p there).resolve_right notRoot)
    rw [isRef, Multiset.count_cons_self, if_neg notRoot] at last
    push_cast at last
    omega
  have recounted := iput_recounts walking.counted.once isObject linked clean _ _ returned
  exact ⟨walking.recount recounted counted still, fun q there =>
    recounted.numbers counted ((counted.cached q).mpr (Or.inl there))⟩

/-! ## The walk -/

theorem SameVolume.fields (same : SameVolume s after) :
    after.blockSize = s.blockSize ∧ after.uninitialized = s.uninitialized := by
  unfold SameVolume at same
  rw [← same]
  exact ⟨rfl, rfl⟩

theorem FirstNumber.first {dir : Inode} {lbk count pos : Nat} {buf : ByteMap}
    (isBuf : s.dirBuffer dir lbk = some buf) (named : FirstNamed buf s.blockSize name 0 pos) :
    FirstNumber s dir name lbk (count + 1) (deInode buf pos) :=
  ⟨0, Nat.succ_pos _, buf, pos, isBuf, named, rfl, fun _ less => absurd less (Nat.not_lt_zero _)⟩

/-- Where a block has no record with the name, the first one is looked for in the next block. -/
theorem FirstNumber.later {dir : Inode} {lbk count : Nat}
    (none : ∀ buf, s.dirBuffer dir lbk = some buf → NoneNamed buf s.blockSize name 0)
    (found : FirstNumber s dir name (lbk + 1) count ino) :
    FirstNumber s dir name lbk (count + 1) ino := by
  obtain ⟨k, less, buf, pos, isBuf, named, isNumber, earlier⟩ := found
  rw [Nat.add_right_comm] at isBuf
  refine ⟨k + 1, Nat.succ_lt_succ less, buf, pos, isBuf, named, isNumber, fun j before => ?_⟩
  cases j with
  | zero => exact none
  | succ j =>
    have same : lbk + (j + 1) = lbk + 1 + j := by omega
    rw [same]
    exact earlier j (Nat.lt_of_succ_lt_succ before)

/-- A block of a directory is read as it was at the start. -/
theorem Walking.readBlock (walking : Walking start blocks held s)
    (room : Multiset.card blocks < nBlkNum) (size : MountedSize start.blockSize)
    (isObject : s.inodes p = some object) {dir : Inode} (pointers : object.iBlock = dir.iBlock)
    {lbk : Nat} {got : Option ByteMap}
    (returned : Returns (ext2ReadBlock p lbk s.uninitialized) s got after) :
    got = start.dirBuffer dir lbk ∧ Walking start blocks held after ∧ after.inodes = s.inodes ∧
      SameFs s after := by
  obtain ⟨sameSize, sameBytes⟩ := walking.volume.fields
  have firm : FirmFile (fun _ _ => False) (fun _ => False) start.block s.blockSize object :=
    fun _ _ _ _ _ _ => ⟨fun _ => id, id⟩
  obtain ⟨isGot, io, same⟩ := wlp_of_wp (ext2ReadBlock_spec walking.io room isObject firm
    (sameSize ▸ size.small.2) lbk s.uninitialized) _ _ returned
  refine ⟨?_, walking.reads io same, same.inodes, same⟩
  rw [isGot, Vfs.dirBuffer, sameSize, sameBytes, fileBlock, fileBlock, pointers]

/-- A search of a directory finds the number that the records gave at the start. -/
theorem Walking.searches {count lbk : Nat} {r : Option Nat} (walking : Walking start blocks held s)
    (room : Multiset.card blocks < nBlkNum) (size : MountedSize start.blockSize)
    (isObject : s.inodes p = some object) {dir : Inode} (pointers : object.iBlock = dir.iBlock)
    (search : Searches p name s count lbk r after) :
    Walking start blocks held after ∧ after.inodes = s.inodes ∧
      ∀ ino, r = some ino → FirstNumber start dir name lbk count ino ∧ ino < 2 ^ 32 := by
  induction search with
  | ended => exact ⟨walking, rfl, fun ino none => by cases none⟩
  | unreadable read rest inductionHypothesis =>
    obtain ⟨isNone, walked, inodes, same⟩ := walking.readBlock room size isObject pointers read
    obtain ⟨walkedOn, inodesOn, finds⟩ := inductionHypothesis walked (by rw [inodes, isObject])
    refine ⟨walkedOn, inodesOn.trans inodes, fun ino isIno => ?_⟩
    obtain ⟨number, bound⟩ := finds ino isIno
    refine ⟨number.later fun buf isBuf => ?_, bound⟩
    rw [← isNone] at isBuf
    cases isBuf
  | passed read inside none rest inductionHypothesis =>
    obtain ⟨isBuf, walked, inodes, same⟩ := walking.readBlock room size isObject pointers read
    obtain ⟨walkedOn, inodesOn, finds⟩ := inductionHypothesis walked (by rw [inodes, isObject])
    refine ⟨walkedOn, inodesOn.trans inodes, fun ino isIno => ?_⟩
    obtain ⟨number, bound⟩ := finds ino isIno
    refine ⟨number.later fun buf isBuf' => ?_, bound⟩
    rw [← isBuf] at isBuf'
    obtain rfl := Option.some.inj isBuf'
    rw [← walking.volume.fields.1]
    exact none
  | found read inside first =>
    obtain ⟨isBuf, walked, inodes, same⟩ := walking.readBlock room size isObject pointers read
    refine ⟨walked, inodes, fun ino isIno => ?_⟩
    obtain rfl := Option.some.inj isIno
    rw [walking.volume.fields.1] at first
    exact ⟨.first isBuf.symm first, load_lt _ _ 4⟩

/-- A walk that returns an inode has followed the records of the start, and the type of the inode
is what it was there. -/
theorem Walking.leads {cur : Nat} {names : List (List Byte)} {r : Option Nat}
    (walking : Walking start blocks (cur ::ₘ held) s) (room : Multiset.card blocks < nBlkNum)
    (size : MountedSize start.blockSize)
    (kept : ∀ q ∈ start.inodeCache, q ∈ held ∨ q = start.root)
    (isObject : s.inodes cur = some object)
    (linked : ∀ front ino, front <+: names → LeadsTo start object.ino front ino →
      0 < (start.inodeAt ino).nlinks)
    (resolved : Resolves s cur names r after) : ∀ p, r = some p → ∃ found,
      after.inodes p = some found ∧ LeadsTo start object.ino names found.ino ∧
        found.type = (start.inodeAt found.ino).type := by
  induction resolved generalizing object with
  | here =>
    rintro p isP
    obtain rfl := Option.some.inj isP
    have member := (walking.counted.cached _).mpr (Or.inl (Multiset.mem_cons_self ..))
    have shape := (walking.shows _ member object isObject).1
    exact ⟨object, isObject, .here, congrArg Prod.fst shape⟩
  | notDir => exact fun p none => by cases none
  | absent => exact fun p none => by cases none
  | refused => exact fun p none => by cases none
  | found isDir kind search iget put rest inductionHypothesis =>
    rename_i s scanned opened moved after cur ino next name names inode r
    obtain rfl := Option.some.inj (isObject.symm.trans isDir)
    have member := (walking.counted.cached _).mpr (Or.inl (Multiset.mem_cons_self ..))
    have shape := (walking.shows _ member object isObject).1
    simp only [Inode.shape, Prod.mk.injEq] at shape
    obtain ⟨sameKind, sameSize, sameLinks, pointers⟩ := shape
    obtain ⟨walked, inodes, finds⟩ := walking.searches room size isObject pointers search
    obtain ⟨number, bound⟩ := finds ino rfl
    rw [walking.volume.fields.1, sameSize] at number
    obtain ⟨opens, isNumber, sameNumbers⟩ := walked.iget room bound iget
    have link := linked [] _ List.nil_prefix .here
    rw [← sameLinks] at link
    -- The directory is still there with its links, and the reference to it goes back.
    have inOpened : cur ∈ opened.inodeCache := (opens.counted.cached cur).mpr
      (Or.inl (Multiset.mem_cons_of_mem (Multiset.mem_cons_self ..)))
    obtain ⟨dir, isDirAfter, -⟩ := opens.counted.number cur inOpened
    have dirNumber := sameNumbers cur ((walked.counted.cached cur).mpr
      (Or.inl (Multiset.mem_cons_self ..)))
    rw [isDirAfter, inodes, isObject, Option.map_some, Option.map_some, Option.some.injEq] at dirNumber
    have dirShape := (opens.shows cur inOpened dir isDirAfter).1
    simp only [Inode.shape, Prod.mk.injEq] at dirShape
    have dirLink : 0 < dir.nlinks := by
      rw [dirShape.2.2.1, dirNumber, ← sameLinks]
      exact link
    rw [Multiset.cons_swap] at opens
    obtain ⟨goesOn, numbersOn⟩ := opens.iput (fun q there =>
      (kept q there).imp Multiset.mem_cons_of_mem id) isDirAfter dirLink put
    have nextNumber := (numbersOn next (Multiset.mem_cons_self ..)).trans isNumber
    obtain ⟨inner, isInner, rfl⟩ := Option.map_eq_some_iff.mp nextNumber
    have record : FirstNumber start (start.inodeAt object.ino) name 0
        (dirBlocks start.blockSize (start.inodeAt object.ino).size) inner.ino := number
    have isDirectory : (start.inodeAt object.ino).type = .dir := sameKind ▸ kind
    intro p isP
    obtain ⟨found, isFound, leads, isType⟩ := inductionHypothesis goesOn isInner
      (fun front ino before leads => linked (name :: front) ino
        ((List.prefix_cons_inj name).mpr before) (.next isDirectory record leads)) p isP
    exact ⟨found, isFound, .next isDirectory record leads, isType⟩

/-! ## The parent of a path -/

/-- A directory behind an inode pointer. -/
def IsDir (s : Vfs) (p : Nat) : Prop := ∃ inode, s.inodes p = some inode ∧ inode.type = .dir

/-- Every inode to which names lead from the root has a link. -/
def LinkedOn (s : Vfs) (names : List (List Byte)) : Prop :=
  ∀ front ino, front <+: names → LeadsTo s s.rootNumber front ino → 0 < (s.inodeAt ino).nlinks

/-- By the records and types of a state the components of a path without the last one lead to no
inode that is not a directory. -/
def ParentIsDir (s : Vfs) (path : List Byte) : Prop :=
  ∀ init last ino, components path = init ++ [last] →
    LeadsTo s s.rootNumber (init.map cut) ino → (s.inodeAt ino).type = .dir

/-- `nameiparent` returns a directory exactly when the components of the path without the last one
lead to one, by the types and records before the call. The state is one between calls: clean
slots of the block cache show their blocks as they are on disk, the references to inodes are
those that were handed out, and the inodes on the way have links. -/
theorem nameiparent_dir_iff {path last : List Byte}
    (io : Io (fun _ _ => False) s s.block (fun _ => False) blocks)
    (room : Multiset.card blocks < nBlkNum) (size : MountedSize s.blockSize)
    (counted : Counted s.root s held)
    (linked : ∀ init final, components (slash :: path) = init ++ [final] →
      LinkedOn s (init.map cut))
    (returned : Returns (nameiparent (slash :: path)) s (some (p, last)) after) :
    IsDir after p ↔ ParentIsDir s (slash :: path) := by
  obtain ⟨-, never, -⟩ | ⟨init, final, names, found, ⟨started, start, resolved⟩, isFound⟩ :=
    returns_nameiparent_components.mp returned
  · cases never
  obtain ⟨q, rfl, same⟩ := Option.map_eq_some_iff.mp isFound
  obtain ⟨rfl, -⟩ := Prod.mk.inj same
  have rootMember : s.root ∈ s.inodeCache := (counted.cached s.root).mpr (Or.inr rfl)
  obtain ⟨rootInode, isRoot, -⟩ := counted.number s.root rootMember
  have rootNumber : s.rootNumber = rootInode.ino := by
    rw [Vfs.rootNumber, isRoot]
    rfl
  obtain ⟨walking, numbers⟩ := (Walking.refl io counted).addRef rootMember start
  have sameNumber := numbers s.root rootMember
  obtain ⟨object, isObject, isNumber⟩ := Option.map_eq_some_iff.mp
    (sameNumber.trans (by rw [isRoot, Option.map_some]))
  have links := linked init final names
  rw [LinkedOn, rootNumber, ← isNumber] at links
  obtain ⟨inode, isInode, leads, isType⟩ := walking.leads room size
    (fun q there => (counted.cached q).mp there) isObject links resolved q rfl
  rw [isNumber, ← rootNumber] at leads
  constructor
  · rintro ⟨dir, isDir, kind⟩ init' final' ino names' leads'
    obtain ⟨rfl, -⟩ := List.append_inj' (names.symm.trans names') rfl
    obtain rfl := Option.some.inj (isInode.symm.trans isDir)
    rw [← leads.unique leads', ← isType, kind]
  · intro dirs
    exact ⟨inode, isInode, isType.trans (dirs init final inode.ino names leads)⟩

end

/-- A regular file `f`, with inode 3, in the root directory. -/
def fileDisk : Nat → ByteMap := Function.update (Function.update smallDisk 4 (blockOf
  [(128, 2, 0x41ED), (132, 4, 4096), (154, 2, 2), (156, 4, 8), (168, 4, 5), (256, 2, 0x81A4),
    (282, 2, 1)])) 5 (blockOf [(0, 4, 2), (4, 2, 12), (6, 1, 1), (7, 1, 2), (8, 1, 0x2E), (12, 4, 2),
    (16, 2, 12), (18, 1, 2), (19, 1, 2), (20, 2, 0x2E2E), (24, 4, 3), (28, 2, 4072), (30, 1, 1),
    (31, 1, 1), (32, 1, 0x66)])

/-- The parent of `/f/x` is the file `f`. -/
theorem file_as_parent : ¬ ∀ s path p last after,
    Returns (nameiparent (slash :: path)) s (some (p, last)) after → IsDir after p := by
  intro dirs
  obtain ⟨status, s, after, -, returned⟩ := @returns_of_mount (Nat × List Byte × InodeType) fileDisk
    (do
      let found ← nameiparent [slash, 0x66, slash, 0x78]
      let some (p, last) := found | throw .badAccess
      let inode ← derefInode p
      return (p, last, inode.type)) (2, [0x78], .file) (by decide +kernel)
  obtain ⟨found, mid, run, returned⟩ := returns_bind.mp returned
  cases found with
  | none => cases returns_throw.mp returned
  | some found =>
    obtain ⟨p, last⟩ := found
    obtain ⟨inode, _, deref, returned⟩ := returns_bind.mp returned
    obtain ⟨object, rfl⟩ := returns_derefInode.mp deref
    obtain ⟨other, isOther, kind⟩ := dirs s _ p last mid run
    obtain rfl := Option.some.inj (object.symm.trans isOther)
    have values := (returns_pure.mp returned).1
    simp only [Prod.mk.injEq] at values
    rw [kind] at values
    cases values.2.2

/-- The records on the way to the file `f`. -/
theorem fileDisk_shows {s : Vfs} (mounted : Returns ext2FsInit (unmounted fileDisk) 0 s) :
    s.rootNumber = 2 ∧ s.blockSize = 4096 ∧ (s.inodeAt 2).type = .dir ∧ (s.inodeAt 3).type = .file ∧
      0 < (s.inodeAt 2).nlinks ∧ 0 < (s.inodeAt 3).nlinks ∧ LeadsTo s 2 [[0x66]] 3 := by
  have computed : (ext2FsInit (unmounted fileDisk)).toOption.map (fun result =>
      decide (result.2.rootNumber = 2 ∧ result.2.blockSize = 4096 ∧
        (result.2.inodeAt 2).type = .dir ∧ (result.2.inodeAt 3).type = .file ∧
        0 < (result.2.inodeAt 2).nlinks ∧ 0 < (result.2.inodeAt 3).nlinks ∧
        dirBlocks result.2.blockSize (result.2.inodeAt 2).size = 1 ∧
        (result.2.dirBuffer (result.2.inodeAt 2) 0).any (fun buf =>
          (scanFrom buf result.2.blockSize [0x66] result.2.blockSize none 0).casesOn
            (fun _ pos => decide (deInode buf pos = 3)) false false) = true)) = some true := by
    decide +kernel
  obtain ⟨⟨code, s'⟩, ran, test⟩ := Option.map_eq_some_iff.mp computed
  obtain ⟨-, rfl⟩ := mounted.unique (returns_of_toOption ran)
  obtain ⟨number, size, rootKind, fileKind, rootLink, fileLink, blocks, scanned⟩ :=
    of_decide_eq_true test
  refine ⟨number, size, rootKind, fileKind, rootLink, fileLink, .next rootKind ?_ .here⟩
  obtain ⟨buf, isBuf, scanned⟩ := (Option.any_eq_true _ _).mp scanned
  have inside : 0 < dirBlocks s.blockSize (s.inodeAt 2).size := Nat.lt_of_lt_of_eq Nat.one_pos blocks.symm
  have means := @scanFrom_means buf s.blockSize [0x66] s.blockSize none 0 (Nat.le_refl _)
  change (scanFrom buf s.blockSize [0x66] s.blockSize none 0).casesOn
    (fun _ pos => decide (deInode buf pos = 3)) false false = true at scanned
  cases outcome : scanFrom buf s.blockSize [0x66] s.blockSize none 0 with
  | found before pos =>
    rw [outcome] at means scanned
    exact ⟨0, inside, buf, pos, isBuf, means.2, of_decide_eq_true scanned,
      fun j none => absurd none (Nat.not_lt_zero j)⟩
  | absent =>
    rw [outcome] at scanned
    cases scanned
  | outOfBounds =>
    rw [outcome] at scanned
    cases scanned

/-- The parent of `/x` is a directory and that of `/f/x` is not. -/
theorem file_parent_found : ∃ s p after q after',
    Returns (nameiparent [slash, 0x78]) s (some (p, [0x78])) after ∧ IsDir after p ∧
      Returns (nameiparent [slash, 0x66, slash, 0x78]) s (some (q, [0x78])) after' ∧
      ¬ IsDir after' q := by
  obtain ⟨s, mounted⟩ := @mounts_of_eval (unmounted fileDisk) (by decide +kernel)
  obtain ⟨_, s₁, after, mounted₁, short⟩ := @returns_of_mount (Option (Nat × List Byte)) fileDisk
    (nameiparent [slash, 0x78]) (some (1, [0x78])) (by decide +kernel)
  obtain ⟨-, rfl⟩ := mounted.unique mounted₁
  obtain ⟨_, s₂, after', mounted₂, long⟩ := @returns_of_mount (Option (Nat × List Byte)) fileDisk
    (nameiparent [slash, 0x66, slash, 0x78]) (some (2, [0x78])) (by decide +kernel)
  obtain ⟨-, rfl⟩ := mounted.unique mounted₂
  obtain ⟨number, isSize, rootKind, fileKind, rootLink, fileLink, way⟩ := fileDisk_shows mounted
  have idle : Idle (fun _ _ => False) s :=
    Idle.of_mount (BlkCache.boot_represents (fun _ => 0) fileDisk) mounted
  obtain ⟨view, io⟩ := idle
  obtain rfl : s.block = view := funext fun no => io.block_eq no fun _ => id
  have counted : Counted s.root s 0 := Counted.of_run (.mount mounted)
  have size : MountedSize s.blockSize := ⟨2, Nat.le_refl 2, isSize⟩
  have linked : LinkedOn s [[0x66]] := by
    intro front ino before leads
    rw [number] at leads
    cases front with
    | nil =>
      cases leads
      exact rootLink
    | cons name rest =>
      obtain ⟨rfl, isNil⟩ := List.cons_prefix_cons.mp before
      obtain rfl := List.prefix_nil.mp isNil
      rw [leads.unique way]
      exact fileLink
  have shortNames : components [slash, 0x78] = [] ++ [[0x78]] := by decide
  have longNames : components [slash, 0x66, slash, 0x78] = [[0x66]] ++ [[0x78]] := by decide
  have shortIff := nameiparent_dir_iff io (by decide) size counted (fun init final names => by
    obtain ⟨rfl, -⟩ := List.append_inj' (shortNames.symm.trans names) rfl
    exact fun front ino before => linked front ino (before.trans (List.nil_prefix))) short
  have longIff := nameiparent_dir_iff io (by decide) size counted (fun init final names => by
    obtain ⟨rfl, -⟩ := List.append_inj' (longNames.symm.trans names) rfl
    exact linked) long
  refine ⟨s, 1, after, 2, after', short, shortIff.mpr ?_, long, fun isDir => ?_⟩
  · intro init final ino names way
    obtain ⟨rfl, -⟩ := List.append_inj' (shortNames.symm.trans names) rfl
    rw [number] at way
    cases way
    exact rootKind
  · have dirs := longIff.mp isDir [[0x66]] [0x78] 3 longNames (number ▸ way)
    rw [fileKind] at dirs
    cases dirs

end CuteCore.Fs

import CuteCore.Fs.Addressing
import CuteCore.Fs.DirEntries
import CuteCore.Fs.FileWrites

/-!
# Creation of files and directories

`ext2_create` and `ext2_mkdir` allocate an inode and add a record to the parent. What the
slots of the inode tables hold does not matter for the record, so all of their bytes may be
left open.

The directory owns its blocks alone before and after, and its blocks are chains of
records. A new record either splits one that has room or opens a new block. The steps
before it touch an inode slot, bitmaps and counters, none of which is a block of the
directory.
-/

namespace CuteCore.Fs

open Hoare Bytes BlkCache

section

variable {loose : Nat → Nat → Prop} {s : Vfs} {view : Nat → ByteMap} {pending : Nat → Prop}
  {held : Multiset Nat}

/-- More bytes may be left open. -/
theorem Io.loosen {more : Nat → Nat → Prop} (io : Io loose s view pending held)
    (sub : ∀ no x, loose no x → more no x) : Io more s view pending held := by
  have rep := io.rep
  refine ⟨⟨rep.distinct, rep.counted, rep.cached, ?_, ?_, ?_, rep.pendingHeld⟩, io.super,
    io.superHeld⟩
  · exact fun i valid x counts => rep.data i valid x fun isLoose => counts (sub _ _ isLoose)
  · exact fun i valid clean settled x counts =>
      rep.clean i valid clean settled x fun isLoose => counts (sub _ _ isLoose)
  · exact fun no absent x counts => rep.absent no absent x fun isLoose => counts (sub _ _ isLoose)

/-- A change of bytes that do not count needs no record. -/
theorem Io.unmark {no : Nat} (io : Io loose s view (fun m => m = no ∨ pending m) held)
    (whole : ∀ x, loose no x) : Io loose s view pending held := by
  have rep := io.rep
  refine ⟨⟨rep.distinct, rep.counted, rep.cached, rep.data, ?_, rep.absent,
    fun m mark => rep.pendingHeld m (Or.inr mark)⟩, io.super, io.superHeld⟩
  intro i valid clean settled x counts
  by_cases isNo : (s.caches.slot i).blkNo = no
  · rw [isNo] at counts
    exact absurd (whole x) counts
  · exact rep.clean i valid clean (fun mark => mark.elim isNo settled) x counts

theorem Io.wlp_copyBuf (io : Io loose s view pending held) {i : Fin nBlkNum} {no off n : Nat}
    {source : Nat → Byte} (buffers : s.caches.Buffers i no) (member : no ∈ held) :
    wlp (copyBuf i off n source) (fun _ after =>
      Io loose after (Function.update view no (copy (view no) off n source))
        (fun m => m = no ∨ pending m) held ∧
      SameFs s after ∧ ∀ j m, s.caches.Buffers j m → after.caches.Buffers j m) s := by
  by_cases fits : off + n ≤ blkSz
  · exact wlp_of_wp (io.copyBuf_spec buffers member fits)
  · rw [copyBuf, if_neg fits]
    exact wlp_throw.mpr trivial

/-- A store in a block whose bytes do not count. -/
theorem Io.copyLoose (io : Io loose s view pending held) {i : Fin nBlkNum} {no off n : Nat}
    {source : Nat → Byte} (buffers : s.caches.Buffers i no) (member : no ∈ held)
    (whole : ∀ x, loose no x) :
    wlp (copyBuf i off n source) (fun _ after => Io loose after view pending held ∧
      SameFs s after ∧ after.caches.Buffers i no) s := by
  refine wlp_mono (io.wlp_copyBuf buffers member) ?_
  rintro - after ⟨ioAfter, same, keeps⟩
  refine ⟨?_, same, keeps _ _ buffers⟩
  apply (ioAfter.unmark whole).agree_congr
  intro m x counts
  by_cases isNo : m = no
  · subst isNo
    exact absurd (whole x) counts
  · rw [Function.update_of_ne isNo]

theorem wlp_loadBuf_same {i : Fin nBlkNum} {off n : Nat} :
    wlp (loadBuf i off n) (fun _ after => after = s) s := by
  rw [loadBuf, wlp_ite]
  split
  · rw [bufData, wlp_bind, wlp_bind, wlp_get, wlp_pure, wlp_pure]
  · exact wlp_throw.mpr trivial

end

section

variable {groups : Groups} {loose : Nat → Nat → Prop} {s : Vfs} {view : Nat → ByteMap}
  {held : Multiset Nat} {p : Nat} {inode : Inode} {name : List Byte}

/-- All bytes of the inode tables may be left open. -/
theorem FileState.loosen (file : FileState groups loose s view held p inode) :
    FileState groups (fun no _ => groups.InTable s no) s view held p inode := by
  have plain : ∀ no, groups.InTable s no → ¬ groups.Metadata no := by
    rintro no ⟨g, inside, k, below, rfl⟩
    exact file.fs.tables.plain g inside k below
  have fs := file.fs
  refine { file with fs := ⟨fs.io.loosen fs.inTables, ⟨?_, ?_⟩, fs.fits, fs.balanced, fs.tables,
    fun _ _ => id, fs.reserved⟩ }
  · exact fun _ inTable => plain 0 inTable (Or.inl rfl)
  · exact fun w g inside _ inTable => plain _ inTable (Or.inr (Or.inr ⟨w, g, inside, rfl⟩))

/-- Metadata changed by an allocation of something else. -/
theorem FileState.allocated (file : FileState groups loose s view held p inode) {after : Vfs}
    {view' : Nat → ByteMap} {held' : Multiset Nat} (fs : FsState groups loose after view' held')
    (free : ∀ no, groups.IsFree view' no → groups.IsFree view no)
    (others : ∀ no, ¬ groups.Metadata no → view' no = view no)
    (inodes : after.inodes = s.inodes) (setup : SameSetup s after) :
    Grew groups loose held' p (fun _ _ => False) s view inode after view' inode := by
  have nodes : ∀ slot path, IsNode groups.blockSize slot path → ptrAt view inode slot path ≠ 0 →
      view' (ptrAt view inode slot path) = view (ptrAt view inode slot path) :=
    fun slot path isNode isBlock => others _ (file.owned slot path isNode isBlock).notMetadata
  have pointers : ∀ slot path, IsNode groups.blockSize slot path →
      ptrAt view' inode slot path = ptrAt view inode slot path :=
    ptrAt_congr rfl fun slot front i isNode => nodes slot front isNode.parent
  constructor
  · constructor
    · exact fs
    · rw [inodes]
      exact file.isInode
    · exact file.valid
    · exact file.number
    · intro slot path isNode isBlock
      rw [pointers slot path isNode] at isBlock ⊢
      obtain ⟨used, notMetadata, notTable⟩ := file.owned slot path isNode isBlock
      exact ⟨fun isFree => used (free _ isFree), notMetadata,
        fun inTable => notTable ((setup.inTable _).mp inTable)⟩
    · intro slot path slot' path' isNode isNode' isBlock same
      rw [pointers slot path isNode] at isBlock same
      rw [pointers slot' path' isNode'] at same
      exact file.distinct slot path slot' path' isNode isNode' isBlock same
  · exact setup
  · rfl
  · intro q _
    rw [inodes]
  · exact fun slot path isNode _ => pointers slot path isNode
  · intro slot path isData _
    rw [dataAt, dataAt, pointers slot path isData.1]
    by_cases isHole : ptrAt view inode slot path = 0
    · rw [if_pos isHole, if_pos isHole]
    · rw [if_neg isHole, if_neg isHole, nodes slot path isData.1 isHole]

/-- The number of a new inode. The blocks that are free stay. -/
theorem allocInode_spec (file : FileState groups loose s view held p inode)
    (room : Multiset.card held < nBlkNum) : wp ext2AllocInode (fun ino after =>
      ino = 0 ∨ groups.IsInode ino ∧ ∃ view',
        Grew groups loose held p (fun _ _ => False) s view inode after view' inode) s := by
  have state := file.fs
  have fits := state.fits
  apply wp_mono (alloc_spec state.io state.tight fits state.balanced room .inode)
  rintro ino after (⟨g, inside, b, isNumber, first, same, io⟩ | ⟨isZero, -, -⟩)
  · right
    have member : b ∈ freeOf groups view .inode g := first.1.mem
    obtain ⟨below, -⟩ := mem_clearBits.mp member
    have isInode : groups.IsInode ino := by
      have upTo : (g + 1) * groups.inodesPerGroup ≤ groups.count * groups.inodesPerGroup :=
        Nat.mul_le_mul_right _ inside
      rw [Nat.add_mul, Nat.one_mul] at upTo
      have inGroup : b < groups.inodesPerGroup := below
      change ino = g * groups.inodesPerGroup + b + 1 at isNumber
      constructor <;> omega
    have free : ∀ no, groups.IsFree (takenBlocks groups view s.gbTable .inode g b) no →
        groups.IsFree view no := by
      rintro no ⟨g', inside', c, below', isNo, isClear⟩
      rw [takenBlocks, moved_bitmap fits inside .block g' inside', if_neg (by simp)] at isClear
      exact ⟨g', inside', c, below', isNo, isClear⟩
    have setup : SameSetup s after := by
      unfold SameButTable at same
      rw [← same]
      refine ⟨rfl, fun g' => load_store_apart _ _ _ _ _ _ ?_, rfl⟩
      simp only [Which.resource, inodesOf]
      omega
    refine ⟨isInode, _, file.allocated (state.congr io (fits.moved inside same)
      (state.balanced.take fits inside member same) setup free) free ?_ ?_ setup⟩
    · intro no plain
      have notSuper : no ≠ 0 := fun zero => plain (Or.inl zero)
      have notTable : no ≠ groups.first + 1 + g / (groups.blockSize / 32) :=
        fun isTable => plain (Or.inr (Or.inl ⟨g, inside, isTable⟩))
      have notBitmap : no ≠ groups.bitmap .inode g :=
        fun isBitmap => plain (Or.inr (Or.inr ⟨.inode, g, inside, isBitmap⟩))
      rw [takenBlocks, moved_eq fits inside no notSuper notTable, if_neg notBitmap]
    · unfold SameButTable at same
      rw [← same]
  · exact Or.inl isZero

/-- The blocks of a directory are chains. -/
def Entries (size : Nat) (view : Nat → ByteMap) (inode : Inode) (n : Nat) : Prop :=
  ∀ lbk < n, ∀ data, fileBlock view size inode lbk = some data → ∃ recs, Chain data size 0 recs

theorem Entries.grew {n : Nat} {after : Vfs} {view' : Nat → ByteMap} {inode' : Inode}
    {held' : Multiset Nat} (entries : Entries groups.blockSize view inode n)
    (grew : Grew groups loose held' p (fun _ _ => False) s view inode after view' inode') :
    Entries groups.blockSize view' inode' n := by
  intro lbk less data isData
  rw [grew.fileBlock fun _ _ _ => id] at isData
  exact entries lbk less data isData

/-- A block of the directory holds the record, if the name has room in a block. -/
def Recorded (groups : Groups) (loose : Nat → Nat → Prop) (held : Multiset Nat) (p ino : Nat)
    (name : List Byte) (s after : Vfs) : Prop :=
  ∃ view' inode' lbk data pos, FileState groups loose after view' held p inode' ∧
    SameSetup s after ∧ fileBlock view' groups.blockSize inode' lbk = some data ∧
    (8 + name.length ≤ groups.blockSize → NewRecord groups.blockSize data pos ino name)

theorem Chain.sameOn {size : Nat} {buf buf' : ByteMap} {recs : List Nat}
    (chain : Chain buf size 0 recs) (same : SameOn buf' buf 0 size) : Chain buf' size 0 recs := by
  apply chain.congr
  intro q isRecord
  obtain ⟨-, high, covers⟩ := chain.bounds isRecord
  have its := actualLen_covers buf q
  constructor
  · exact load_congr fun x low below => same x (Nat.zero_le x) (by omega)
  · exact load_congr fun x low below => same x (Nat.zero_le x) (by omega)

theorem sameOn_copy_whole {size : Nat} (m source : ByteMap) :
    SameOn (copy m 0 size source) source 0 size :=
  fun x _ below => by rw [copy_inside _ _ _ _ _ (Nat.zero_le x) below, Nat.sub_zero]

/-- The scan of `ext2_dir_add_entry` over the blocks of a directory: it leaves all blocks alone
until one has the room, and puts the record there. -/
theorem addFrom_spec (file : FileState groups loose s view held p inode)
    (room : Multiset.card held + 1 < nBlkNum) {n : Nat}
    (entries : Entries groups.blockSize view inode n)
    (short : name.length < 2 ^ 31) {ino fileType : Nat} (small : ino < 2 ^ 32)
    (remaining lbk : Nat) (upTo : lbk + remaining ≤ n) :
    wlp (addFrom p name ino fileType remaining lbk) (fun result after =>
      (result = none → Io loose after view (fun _ => False) held ∧ SameFs s after) ∧
      (result = some true → Recorded groups loose held p ino name s after)) s := by
  induction remaining generalizing s lbk with
  | zero =>
    refine wlp_pure.mpr ⟨fun _ => ⟨file.fs.io, SameFs.refl s⟩, fun no => ?_⟩
    cases no
  | succ remaining inductionHypothesis =>
    have size := file.fs.fits.blockSize
    have smallSize : s.blockSize ≤ blkSz := size ▸ groups.sized.small.2
    rw [addFrom, wlp_bind, wlp_get]
    refine wlp_seq (wlp_of_wp (ext2ReadBlock_spec file.fs.io (by omega) file.isInode file.firmFile
      smallSize lbk _)) ?_
    rintro block mid ⟨isBlock, ioMid, same⟩
    rw [size] at isBlock ⊢
    have unchanged := file.same (fun _ _ => False) ioMid same
    have next : wlp (addFrom p name ino fileType remaining (lbk + 1)) (fun result after =>
        (result = none → Io loose after view (fun _ => False) held ∧ SameFs s after) ∧
        (result = some true → Recorded groups loose held p ino name s after)) mid := by
      refine wlp_mono (inductionHypothesis unchanged.file (lbk + 1) (by omega)) ?_
      rintro result after ⟨none, recorded⟩
      constructor
      · intro isNone
        exact ⟨(none isNone).1, same.trans (none isNone).2⟩
      · intro isTrue
        obtain ⟨view', inode', at', data, pos, file', setup, isData, record⟩ := recorded isTrue
        exact ⟨view', inode', at', data, pos, file', unchanged.setup.trans setup, isData, record⟩
    cases found : fileBlock view groups.blockSize inode lbk with
    | none =>
      rw [found] at isBlock
      subst isBlock
      exact next
    | some data =>
      rw [found, Option.map_some] at isBlock
      subst isBlock
      obtain ⟨recs, chain⟩ := entries lbk (by omega) data found
      have chainBuf := chain.sameOn (sameOn_copy_whole s.uninitialized data)
      cases slack : findSlack (copy s.uninitialized 0 groups.blockSize data) groups.blockSize (actualLen name.length)
        groups.blockSize 0 with
      | none =>
        simp only [slack]
        exact next
      | some pos =>
        simp only [slack]
        obtain ⟨member, enough⟩ := chainBuf.findSlack_mem slack
        rw [wlp_ite]
        split
        · exact wlp_throw.mpr trivial
        · refine wlp_seq (wlp_of_wp (ext2WriteBlock_spec unchanged.file room lbk _)) ?_
          rintro written after ⟨view', inode', grew, -, stored, -⟩
          refine wlp_pure.mpr ⟨fun no => ?_, fun isTrue => ?_⟩
          · cases no
          · obtain ⟨old, isData⟩ := stored (Option.some.inj isTrue)
            exact ⟨view', inode', lbk, _, _, grew.file, unchanged.setup.trans grew.setup, isData,
              fun _ => (splitEntry_newRecord chainBuf member enough short small).congr
                (sameOn_copy_whole _ _)⟩

/-- The slot of the inode does not count, so its record changes nothing. -/
theorem writeInode_spec (file : FileState groups loose s view held p inode)
    (room : Multiset.card held < nBlkNum)
    (whole : ∀ no, groups.InTable s no → ∀ x, loose no x) :
    wp (ext2WriteInode p) (fun _ after => ∃ inode', inode'.iBlock = inode.iBlock ∧
      FileState groups loose after view held p inode' ∧ SameSetup s after) s := by
  obtain ⟨inRange, inBlock, inTable⟩ := file.fs.slot file.number
  apply wp_mono (ext2WriteInode_spec file.fs.io room file.isInode file.valid inRange inBlock)
  rintro - after ⟨-, io, same⟩
  have ioAfter : Io loose after view (fun _ => False) held := by
    apply io.agree_congr
    intro no x counts
    have notSlot : no ≠ (s.slotOf inode.ino).1 := by
      rintro rfl
      exact counts (whole _ inTable x)
    rw [writtenSlot_beside notSlot]
  have written : FileState groups loose (s.setInode p { inode with dirty := false }) view held p
      { inode with dirty := false } := file.setInode rfl rfl rfl
  have settled := written.same (fun _ _ => False) ioAfter same
  have setup : SameSetup s (s.setInode p { inode with dirty := false }) := ⟨rfl, fun _ => rfl, rfl⟩
  exact ⟨{ inode with dirty := false }, rfl, settled.file, setup.trans settled.setup⟩

/-- A record that was added has what the code gives it. -/
theorem ext2DirAddEntry_spec (file : FileState groups loose s view held p inode)
    (room : Multiset.card held + 1 < nBlkNum)
    (whole : ∀ no, groups.InTable s no → ∀ x, loose no x)
    (entries : Entries groups.blockSize view inode (dirBlocks groups.blockSize inode.size))
    (short : name.length < 2 ^ 31)
    {ino fileType : Nat} (small : ino < 2 ^ 32) :
    wlp (ext2DirAddEntry p name ino fileType) (fun added after =>
      added = true → Recorded groups loose held p ino name s after) s := by
  rw [ext2DirAddEntry, wlp_bind, wlp_derefInode]
  intro found isFound
  obtain rfl := Option.some.inj (isFound.symm.trans file.isInode)
  have size := file.fs.fits.blockSize
  rw [wlp_bind, wlp_get, size]
  refine wlp_seq (addFrom_spec file room entries short small _ 0 (Nat.zero_add _).le) ?_
  rintro added mid ⟨none, recorded⟩
  cases added with
  | some written =>
    refine wlp_pure.mpr fun isTrue => recorded ?_
    rw [isTrue]
  | none =>
    obtain ⟨ioMid, same⟩ := none rfl
    have unchanged := file.same (fun _ _ => False) ioMid same
    simp only
    rw [wlp_ite]
    split
    · exact wlp_throw.mpr trivial
    · refine wlp_seq (wlp_of_wp (ext2WriteBlock_spec unchanged.file room _ _)) ?_
      rintro written stored ⟨view', inode', grew, -, isStored, -⟩
      rw [wlp_ite]
      split
      · refine wlp_pure.mpr fun isTrue => ?_
        cases isTrue
      · rename_i notFailed
        have isDone : written = true := by
          cases written
          · exact absurd rfl notFailed
          · rfl
        obtain ⟨old, isData⟩ := isStored isDone
        rw [wlp_bind, wlp_updateInode]
        intro before isBefore
        obtain rfl := Option.some.inj (isBefore.symm.trans grew.file.isInode)
        obtain ⟨grown, isGrown⟩ : ∃ grown : Inode, grown = { before with
          size := u32 (before.size + groups.blockSize), dirty := true } := ⟨_, rfl⟩
        rw [← isGrown]
        have top : grown.iBlock = before.iBlock := by rw [isGrown]
        have resized : FileState groups loose (stored.setInode p grown) view' held p grown := by
          apply grew.file.setInode
          · rw [isGrown]
          · rw [isGrown]
          · exact top
        have setup : SameSetup s (stored.setInode p grown) :=
          (unchanged.setup.trans grew.setup).trans ⟨rfl, fun _ => rfl, rfl⟩
        refine wlp_seq (wlp_of_wp (writeInode_spec resized (by omega) fun no inTable =>
          whole no ((setup.inTable no).mp inTable))) ?_
        rintro - after ⟨last, lastTop, fileAfter, setup'⟩
        refine wlp_pure.mpr fun _ => ?_
        have isLast := (fileBlock_congr (lastTop.trans top) (fun _ _ _ _ => rfl) _).trans isData
        exact ⟨view', last, _, _, 0, fileAfter, setup.trans setup', isLast,
          fun room => (freshEntry_newRecord room groups.sized small).congr (sameOn_copy_whole _ _)⟩

/-- Reading a slot fills in the object and keeps its number. -/
theorem readInode_leaves (io : Io loose s view (fun _ => False) held)
    (room : Multiset.card held < nBlkNum) {q : Nat} {object : Inode}
    (isObject : s.inodes q = some object) (invalid : object.valid = false) :
    wlp (ext2ReadInode q) (fun _ after => Io loose after view (fun _ => False) held ∧
      ∃ filled, filled.ino = object.ino ∧
        after.inodes = Function.update s.inodes q (some filled)) s := by
  rw [ext2ReadInode, wlp_bind, wlp_derefInode]
  intro found isFound
  obtain rfl := Option.some.inj (isFound.symm.trans isObject)
  rw [wlp_onlyIf, if_pos invalid]
  refine wlp_seq (wlp_inodeLoc _) ?_
  rintro loc _ ⟨-, rfl, -⟩
  refine wlp_seq (wlp_of_wp (io.bread_spec loc.1 room)) ?_
  rintro cache read ⟨ioRead, same, buffers, -⟩
  refine wlp_seq wlp_loadBuf_same ?_
  rintro - _ rfl
  refine wlp_seq (wlp_of_wp (ioRead.bufData_spec buffers)) ?_
  rintro data read' ⟨-, isRead⟩
  rw [isRead, wlp_bind, wlp_updateInode]
  intro before isBefore
  rw [same.inodes, isObject] at isBefore
  obtain rfl := Option.some.inj isBefore
  have ioFilled := ioRead.setInode q (found.fromSlot data loc.2)
  refine wlp_mono (wlp_of_wp (ioFilled.brelse_spec buffers not_false io.superHeld)) ?_
  rintro - after ⟨ioAfter, same', -⟩
  refine ⟨ioAfter, found.fromSlot data loc.2, rfl, ?_⟩
  rw [← same.inodes]
  exact same'.inodes

/-- Loading an inode changes neither blocks nor the pointers of another object. -/
theorem iget_leaves (io : Io loose s view (fun _ => False) held)
    (room : Multiset.card held < nBlkNum) (isInode : s.inodes p = some inode)
    (older : p ≠ s.nextInode) (ino : Nat) :
    wlp (ext2Iget ino) (fun got after => ∀ v, got = some v →
      Io loose after view (fun _ => False) held ∧
      (∃ node, after.inodes v = some node ∧ node.ino = ino) ∧
      ∃ inode', after.inodes p = some inode' ∧ inode'.iBlock = inode.iBlock) s := by
  rw [ext2Iget, wlp_ite]
  split
  · exact wlp_pure.mpr fun v no => by cases no
  rw [wlp_bind, wlp_get]
  cases found : s.findCached ino with
  | some q =>
    have test := List.find?_some found
    refine wlp_seq wlp_addRef ?_
    rintro - after ⟨object, isObject, rfl⟩
    refine wlp_pure.mpr fun v isV => ?_
    obtain rfl := Option.some.inj isV
    rw [isObject] at test
    have isNumber : object.ino = ino := by simpa using test
    refine ⟨io.setInode q _, ⟨_, Function.update_self .., isNumber⟩, ?_⟩
    by_cases isP : p = q
    · subst isP
      obtain rfl := Option.some.inj (isObject.symm.trans isInode)
      exact ⟨_, Function.update_self .., rfl⟩
    · exact ⟨inode, (Function.update_of_ne isP _ _).trans isInode, rfl⟩
  | none =>
    simp only
    rw [loadInode]
    refine wlp_seq wlp_kmallocServed ?_
    rintro inodeServed _ rfl
    rw [wlp_ite]
    split
    · exact wlp_pure.mpr fun v no => by cases no
    refine wlp_seq wlp_kmallocServed ?_
    rintro infoServed _ rfl
    rw [wlp_ite]
    split
    · exact wlp_pure.mpr fun v no => by cases no
    rw [wlp_bind, wlp_get, wlp_bind, wlp_set]
    -- The object is set up, and no buffer was touched.
    obtain ⟨made, isMade⟩ : ∃ made : Vfs, made = { s with
      inodes := Function.update s.inodes s.nextInode (some (newInode ino))
      nextInode := s.nextInode + 1
      requests := s.requests + 1 + 1 } := ⟨_, rfl⟩
    have ioMade : Io loose made view (fun _ => False) held := by
      rw [isMade]
      exact ⟨io.rep, io.super, io.superHeld⟩
    have inodes : made.inodes = Function.update s.inodes s.nextInode (some (newInode ino)) := by
      rw [isMade]
    have isNew : made.inodes s.nextInode = some (newInode ino) := by
      rw [inodes, Function.update_self]
    change wlp _ _ { s with
      inodes := Function.update s.inodes s.nextInode (some (newInode ino))
      nextInode := s.nextInode + 1
      requests := s.requests + 1 + 1 }
    rw [← isMade]
    refine wlp_seq (readInode_leaves ioMade room isNew rfl) ?_
    rintro - after ⟨ioAfter, filled, isNumber, inodesAfter⟩
    rw [wlp_bind, wlp_modify, wlp_pure]
    intro v isV
    obtain rfl := Option.some.inj isV
    refine ⟨⟨ioAfter.rep, ioAfter.super, ioAfter.superHeld⟩, ⟨filled, ?_, isNumber⟩, inode, ?_, rfl⟩
    · change after.inodes s.nextInode = _
      rw [inodesAfter, Function.update_self]
    · change after.inodes p = _
      rw [inodesAfter, Function.update_of_ne older, inodes, Function.update_of_ne older]
      exact isInode

/-- What a successful creation leaves: the new object, and its record in the directory. -/
def Created (s : Vfs) (p : Nat) (name : List Byte) (v : Nat) (after : Vfs) : Prop :=
  ∃ node inode' lbk data pos, after.inodes v = some node ∧ after.inodes p = some inode' ∧
    fileBlock after.block s.blockSize inode' lbk = some data ∧
    (8 + name.length ≤ s.blockSize → NewRecord s.blockSize data pos node.ino name)

/-- The last step of a creation. The record is in the blocks of the directory, which the
steps behind it have left. -/
theorem created_of_recorded {ino : Nat} {s₀ mid : Vfs} (size : s₀.blockSize = groups.blockSize)
    (file : FileState groups loose s view held p inode) {lbk pos : Nat} {data : ByteMap}
    (isData : fileBlock view groups.blockSize inode lbk = some data) 
    (record : 8 + name.length ≤ groups.blockSize → NewRecord groups.blockSize data pos ino name)
    {view' : Nat → ByteMap} (io : Io loose mid view' (fun _ => False) held)
    (others : ∀ no, ¬ groups.Metadata no → view' no = view no)
    (room : Multiset.card held < nBlkNum) {inode' : Inode} (isInode : mid.inodes p = some inode')
    (top : inode'.iBlock = inode.iBlock) (older : p ≠ mid.nextInode) :
    wlp (ext2Iget ino) (fun got after => ∀ v, got = some v → Created s₀ p name v after) mid := by
  refine wlp_mono (iget_leaves io room isInode older ino) ?_
  intro got after loaded v isV
  obtain ⟨ioAfter, ⟨node, isNode, isNumber⟩, last, isLast, lastTop⟩ := loaded v isV
  refine ⟨node, last, lbk, data, pos, isNode, isLast, ?_, isNumber ▸ size ▸ record⟩
  rw [size, ← isData]
  apply fileBlock_congr (lastTop.trans top)
  intro slot path isNode isBlock
  rw [ioAfter.block_eq _ (file.firm isNode isBlock)]
  exact others _ (file.owned slot path isNode isBlock).notMetadata

/-- A file that `ext2_create` returns has a record with its name in the directory, and the
directory's blocks are still chains of records. -/
theorem ext2Create_records (file : FileState groups loose s view held p inode)
    (room : Multiset.card held + 1 < nBlkNum)
    (whole : ∀ no, groups.InTable s no → ∀ x, loose no x)
    (entries : Entries groups.blockSize view inode (dirBlocks groups.blockSize inode.size))
    (older : p ≠ s.nextInode)
    (short : name.length < 2 ^ 31) (mode : Nat) :
    wlp (ext2Create p name mode) (fun got after =>
      ∀ v, got = some v → Created s p name v after) s := by
  rw [ext2Create, wlp_ite]
  split
  · exact wlp_pure.mpr fun v no => by cases no
  refine wlp_seq (wlp_of_wp (allocInode_spec file (by omega))) ?_
  rintro ino chosen outcome
  rw [wlp_ite]
  split
  · exact wlp_pure.mpr fun v no => by cases no
  rename_i positive
  obtain ⟨isInode, view', grew⟩ := outcome.resolve_left positive
  have small : ino < 2 ^ 32 := Nat.lt_of_le_of_lt isInode.2 groups.inodesSmall
  obtain ⟨-, -, inTable⟩ := grew.file.fs.slot isInode
  have slotLoose := whole _ ((grew.setup.inTable _).mp inTable)
  refine wlp_seq (wlp_inodeLoc ino) ?_
  rintro loc _ ⟨rfl, rfl, -⟩
  refine wlp_seq (wlp_of_wp (grew.file.fs.io.bread_spec _ (by omega))) ?_
  rintro cache read ⟨ioRead, same, buffers, -⟩
  rw [wlp_bind, wlp_get]
  refine wlp_seq (ioRead.copyLoose buffers (Multiset.mem_cons_self ..) slotLoose) ?_
  rintro - cleared ⟨ioCleared, same₁, buffers₁⟩
  refine wlp_seq (ioCleared.copyLoose buffers₁ (Multiset.mem_cons_self ..) slotLoose) ?_
  rintro - typed ⟨ioTyped, same₂, buffers₂⟩
  refine wlp_seq (ioTyped.copyLoose buffers₂ (Multiset.mem_cons_self ..) slotLoose) ?_
  rintro - linked ⟨ioLinked, same₃, buffers₃⟩
  refine wlp_seq (wlp_of_wp ((ioLinked.mark (Multiset.mem_cons_self ..)).bwrite_spec buffers₃
    not_false)) ?_
  rintro - written ⟨ioWritten, same₄, keeps⟩
  refine wlp_seq (wlp_of_wp (ioWritten.brelse_spec (keeps _ _ buffers₃) not_false
    file.fs.io.superHeld)) ?_
  rintro - ready ⟨ioReady, same₅, -⟩
  have unchanged := grew.file.same (fun _ _ => False) ioReady
    ((same.trans same₁).trans ((same₂.trans same₃).trans (same₄.trans same₅)))
  have all := grew.quiet unchanged
  refine wlp_seq (ext2DirAddEntry_spec all.file room
    (fun no inTable => whole no ((all.setup.inTable no).mp inTable)) (entries.grew all) short
    small) ?_
  rintro added after recorded
  rw [wlp_ite]
  split
  · refine wlp_seq (fun _ _ _ => trivial : wlp _ (fun _ _ => True) _) ?_
    rintro - freed -
    exact wlp_pure.mpr fun v no => by cases no
  · rename_i notFailed
    have isAdded : added = true := by
      cases added
      · exact absurd rfl notFailed
      · rfl
    obtain ⟨view'', inode', lbk, data, pos, fileAfter, setup, isData, record⟩ := recorded isAdded
    refine created_of_recorded file.fs.fits.blockSize fileAfter isData record fileAfter.fs.io
      (fun _ _ => rfl) (by omega) fileAfter.isInode rfl ?_
    rw [(all.setup.trans setup).next]
    exact older

/-- To fill the block of a new directory changes this block only. -/
theorem fillDirBlock_leaves (io : Io loose s view (fun _ => False) held)
    (room : Multiset.card held < nBlkNum) (no ino parent : Nat) :
    wlp (fillDirBlock no ino parent) (fun _ after => ∃ data,
      Io loose after (Function.update view no data) (fun _ => False) held ∧ SameFs s after) s := by
  rw [fillDirBlock]
  refine wlp_seq (wlp_of_wp (io.bread_spec no room)) ?_
  rintro cache read ⟨ioRead, same, buffers, -⟩
  rw [wlp_bind, wlp_get]
  refine wlp_seq (wlp_of_wp (ioRead.modifyData_spec buffers (Multiset.mem_cons_self ..) _ _
    fun _ _ => rfl)) ?_
  rintro - filled ⟨ioFilled, same', keeps⟩
  refine wlp_seq (wlp_of_wp (ioFilled.bwrite_spec (keeps _ _ buffers) not_false)) ?_
  rintro - written ⟨ioWritten, same'', keeps'⟩
  refine wlp_mono (wlp_of_wp (ioWritten.brelse_spec (keeps' _ _ (keeps _ _ buffers)) not_false
    io.superHeld)) ?_
  rintro - after ⟨ioAfter, same''', -⟩
  exact ⟨_, ioAfter, (same.trans same').trans (same''.trans same''')⟩

/-- The counter of directories is kept in the table and in block 0. -/
theorem countDir_leaves (io : Io loose s view (fun _ => False) held)
    (room : Multiset.card held < nBlkNum) (ino : Nat) :
    wlp (countDir ino) (fun _ after => (∃ data,
      Io loose after (Function.update view 0 data) (fun _ => False) held) ∧
      after.inodes = s.inodes ∧ after.nextInode = s.nextInode) s := by
  rw [countDir, wlp_bind, wlp_get]
  simp only
  rw [wlp_bind, wlp_modify]
  obtain ⟨counted, isCounted⟩ : ∃ counted : Vfs, counted = { s with
    gbTable := store s.gbTable ((ino - 1) / s.inodePerGroup * 32 + 16) 2
      (s.groupField ((ino - 1) / s.inodePerGroup) 16 2 + 1) } := ⟨_, rfl⟩
  have ioCounted : Io loose counted view (fun _ => False) held := by
    rw [isCounted]
    exact ⟨io.rep, io.super, io.superHeld⟩
  have inodes : counted.inodes = s.inodes := by rw [isCounted]
  have next : counted.nextInode = s.nextInode := by rw [isCounted]
  rw [← isCounted]
  refine wlp_seq (wlp_of_wp (ioCounted.bread_spec 0 room)) ?_
  rintro cache read ⟨ioRead, same, buffers, -⟩
  refine wlp_seq (ioRead.wlp_copyBuf buffers (Multiset.mem_cons_self ..)) ?_
  rintro - stored ⟨ioStored, same', keeps⟩
  refine wlp_seq (wlp_of_wp (ioStored.bwrite_spec (keeps _ _ buffers) not_false)) ?_
  rintro - written ⟨ioWritten, same'', keeps'⟩
  refine wlp_mono (wlp_of_wp (ioWritten.brelse_spec (keeps' _ _ (keeps _ _ buffers)) not_false
    io.superHeld)) ?_
  rintro - after ⟨ioAfter, same''', -⟩
  have all := (same.trans same').trans (same''.trans same''')
  refine ⟨⟨_, ioAfter⟩, all.inodes.trans inodes, ?_⟩
  rw [(SameSetup.of_sameFs all).next, next]

/-- The end of `ext2_mkdir`, behind the new record: the parent gets a link and the group counts a
directory, and the record stays. -/
theorem linkParent_records (size : s.blockSize = groups.blockSize)
    (room : Multiset.card held + 1 < nBlkNum)
    (whole : ∀ no, groups.InTable s no → ∀ x, loose no x) (older : p ≠ s.nextInode)
    {ino : Nat} {mid after : Vfs} (before : SameSetup s mid)
    (recorded : Recorded groups loose held p ino name mid after) :
    wlp (do
      updateInode p fun parent => { parent with
        nlinks := u32 (parent.nlinks + 1)
        dirty := true }
      let _ ← ext2WriteInode p
      countDir ino
      ext2Iget ino) (fun got last => ∀ v, got = some v → Created s p name v last) after := by
  obtain ⟨view', inode', lbk, block, pos, fileAfter, setup, isData, record⟩ := recorded
  rw [wlp_bind, wlp_updateInode]
  intro parent isParent
  obtain rfl := Option.some.inj (isParent.symm.trans fileAfter.isInode)
  obtain ⟨counted, isCounted⟩ : ∃ counted : Inode, counted = { parent with
    nlinks := u32 (parent.nlinks + 1), dirty := true } := ⟨_, rfl⟩
  rw [← isCounted]
  have top : counted.iBlock = parent.iBlock := by rw [isCounted]
  have fileCounted : FileState groups loose (after.setInode p counted) view' held p counted := by
    apply fileAfter.setInode
    · rw [isCounted]
    · rw [isCounted]
    · exact top
  have setupCounted : SameSetup s (after.setInode p counted) :=
    (before.trans setup).trans ⟨rfl, fun _ => rfl, rfl⟩
  refine wlp_seq (wlp_of_wp (writeInode_spec fileCounted (by omega) fun no inTable =>
    whole no ((setupCounted.inTable no).mp inTable))) ?_
  rintro - recordedInode ⟨last, lastTop, fileLast, setupLast⟩
  refine wlp_seq (countDir_leaves fileLast.fs.io (by omega) ino) ?_
  rintro - counters ⟨⟨zero, ioCounters⟩, inodes, next⟩
  have lastData := (fileBlock_congr (lastTop.trans top) (fun _ _ _ _ => rfl) lbk).trans isData
  refine created_of_recorded size fileLast lastData record ioCounters
    (fun no plain => Function.update_of_ne (fun isZero => plain (Or.inl isZero)) _ _) (by omega)
    (inodes ▸ fileLast.isInode) rfl ?_
  rw [next, (setupCounted.trans setupLast).next]
  exact older

/-- A block that was free and is neither metadata nor part of the file can be filled. -/
theorem FileState.fillFresh {nb : Nat} (file : FileState groups loose s view held p inode)
    (plain : ¬ groups.Metadata nb)
    (notNode : ∀ slot path, IsNode groups.blockSize slot path → ptrAt view inode slot path ≠ 0 →
      ptrAt view inode slot path ≠ nb) {after : Vfs} {data : ByteMap}
    (io : Io loose after (Function.update view nb data) (fun _ => False) held)
    (same : SameFs s after) :
    Grew groups loose held p (fun _ _ => False) s view inode after (Function.update view nb data)
      inode := by
  refine file.elsewhere io same ?_ fun slot path isNode isBlock =>
    Function.update_of_ne (notNode slot path isNode isBlock) _ _
  intro no metadata
  apply Function.update_of_ne
  rintro rfl
  exact plain metadata

/-- A directory that `ext2_mkdir` returns has a record with its name in its parent. Its own block is
filled before the record is added. -/
theorem ext2Mkdir_records (file : FileState groups loose s view held p inode)
    (room : Multiset.card held + 1 < nBlkNum)
    (whole : ∀ no, groups.InTable s no → ∀ x, loose no x)
    (entries : Entries groups.blockSize view inode (dirBlocks groups.blockSize inode.size))
    (older : p ≠ s.nextInode)
    (short : name.length < 2 ^ 31) (mode : Nat) :
    wlp (ext2Mkdir p name mode) (fun got after =>
      ∀ v, got = some v → Created s p name v after) s := by
  rw [ext2Mkdir, wlp_ite]
  split
  · exact wlp_pure.mpr fun v no => by cases no
  refine wlp_seq (wlp_of_wp (allocInode_spec file (by omega))) ?_
  rintro ino chosen outcome
  rw [wlp_ite]
  split
  · exact wlp_pure.mpr fun v no => by cases no
  rename_i positive
  obtain ⟨isInode, view₁, grew₁⟩ := outcome.resolve_left positive
  have small : ino < 2 ^ 32 := Nat.lt_of_le_of_lt isInode.2 groups.inodesSmall
  obtain ⟨-, -, inTable⟩ := grew₁.file.fs.slot isInode
  have slotLoose := whole _ ((grew₁.setup.inTable _).mp inTable)
  refine wlp_seq (wlp_inodeLoc ino) ?_
  rintro loc _ ⟨rfl, rfl, -⟩
  refine wlp_seq (wlp_of_wp (grew₁.file.fs.io.bread_spec _ (by omega))) ?_
  rintro cache read ⟨ioRead, same, buffers, -⟩
  rw [wlp_bind, wlp_get]
  refine wlp_seq (ioRead.copyLoose buffers (Multiset.mem_cons_self ..) slotLoose) ?_
  rintro - cleared ⟨ioCleared, same₁, buffers₁⟩
  refine wlp_seq (ioCleared.copyLoose buffers₁ (Multiset.mem_cons_self ..) slotLoose) ?_
  rintro - typed ⟨ioTyped, same₂, buffers₂⟩
  refine wlp_seq (ioTyped.copyLoose buffers₂ (Multiset.mem_cons_self ..) slotLoose) ?_
  rintro - linked ⟨ioLinked, same₃, buffers₃⟩
  refine wlp_seq (ioLinked.copyLoose buffers₃ (Multiset.mem_cons_self ..) slotLoose) ?_
  rintro - sized ⟨ioSized, same₄, buffers₄⟩
  refine wlp_seq (ioSized.copyLoose buffers₄ (Multiset.mem_cons_self ..) slotLoose) ?_
  rintro - sectored ⟨ioSectored, same₅, buffers₅⟩
  have grew₂ := grew₁.file.same (fun _ _ => False) ioSectored
    ((same.trans same₁).trans ((same₂.trans same₃).trans (same₄.trans same₅)))
  have more : ∀ no, Multiset.card (no ::ₘ held) < nBlkNum := by
    intro no
    rw [Multiset.card_cons]
    exact room
  refine wlp_seq (wlp_of_wp (allocBlock_spec grew₂.file.fs (more _))) ?_
  rintro nb taken ⟨chosenBlock, keeps⟩
  rw [wlp_ite]
  split
  · refine wlp_seq (fun _ _ _ => trivial : wlp _ (fun _ _ => True) _) ?_
    rintro - released -
    refine wlp_seq (fun _ _ _ => trivial : wlp _ (fun _ _ => True) _) ?_
    rintro - freed -
    exact wlp_pure.mpr fun v no => by cases no
  rename_i someBlock
  obtain ⟨-, view₃, fresh⟩ := chosenBlock.resolve_left fun none => someBlock none.1
  have grew₃ := grew₂.file.allocated fresh.state (fun no isFree => ((fresh.free no).mp isFree).1)
    fresh.others fresh.inodes fresh.setup
  have buffers₆ := keeps _ _ (Multiset.mem_cons_self ..) buffers₅
  refine wlp_seq (grew₃.file.fs.io.copyLoose buffers₆ (Multiset.mem_cons_self ..) slotLoose) ?_
  rintro - pointed ⟨ioPointed, same₆, buffers₇⟩
  refine wlp_seq (wlp_of_wp ((ioPointed.mark (Multiset.mem_cons_self ..)).bwrite_spec buffers₇
    not_false)) ?_
  rintro - written ⟨ioWritten, same₇, keeps'⟩
  refine wlp_seq (wlp_of_wp (ioWritten.brelse_spec (keeps' _ _ buffers₇) not_false
    file.fs.io.superHeld)) ?_
  rintro - ready ⟨ioReady, same₈, -⟩
  have grew₄ := grew₃.file.same (fun _ _ => False) ioReady ((same₆.trans same₇).trans same₈)
  rw [wlp_bind, wlp_derefInode]
  rintro parent -
  refine wlp_seq (fillDirBlock_leaves ioReady (by omega) nb ino parent.ino) ?_
  rintro - filled ⟨data, ioFilled, same₉⟩
  -- The new block is none of the directory's.
  have notMetadata : ¬ groups.Metadata nb :=
    fun metadata => grew₂.file.fs.reserved nb (Or.inl metadata) fresh.wasFree
  have pointers : ∀ slot path, IsNode groups.blockSize slot path →
      ptrAt view₃ inode slot path = ptrAt view₁ inode slot path :=
    ptrAt_congr rfl fun slot front i isNode isBlock =>
      fresh.others _ (grew₂.file.owned slot front isNode.parent isBlock).notMetadata
  have notNode : ∀ slot path, IsNode groups.blockSize slot path → ptrAt view₃ inode slot path ≠ 0 →
      ptrAt view₃ inode slot path ≠ nb := by
    intro slot path isNode isBlock isNew
    rw [pointers slot path isNode] at isBlock isNew
    exact (grew₂.file.owned slot path isNode isBlock).used (isNew ▸ fresh.wasFree)
  have grew₅ := grew₄.file.fillFresh notMetadata notNode ioFilled same₉
  have all := (grew₁.quiet grew₂).quiet ((grew₃.quiet grew₄).quiet grew₅)
  refine wlp_seq (ext2DirAddEntry_spec all.file room
    (fun no inTable => whole no ((all.setup.inTable no).mp inTable)) (entries.grew all) short
    small) ?_
  rintro added after recorded
  rw [wlp_ite]
  split
  · refine wlp_seq (fun _ _ _ => trivial : wlp _ (fun _ _ => True) _) ?_
    rintro - released -
    refine wlp_seq (fun _ _ _ => trivial : wlp _ (fun _ _ => True) _) ?_
    rintro - freed -
    exact wlp_pure.mpr fun v no => by cases no
  rename_i notFailed
  have isAdded : added = true := by
    cases added
    · exact absurd rfl notFailed
    · rfl
  exact linkParent_records file.fs.fits.blockSize room whole older all.setup (recorded isAdded)

/-- The name of a new object is stored intact in its directory. -/
def NameStored (s : Vfs) (p : Nat) (name : List Byte) (v : Nat) (after : Vfs) : Prop :=
  ∃ node inode' lbk data pos, after.inodes v = some node ∧ after.inodes p = some inode' ∧
    fileBlock after.block s.blockSize inode' lbk = some data ∧
    StoredName s.blockSize data pos node.ino name

/-- The created name is stored intact exactly when its length fits the 8 bits of `name_len`. -/
theorem Created.stored_iff {v : Nat} {after : Vfs} (size : MountedSize s.blockSize)
    (created : Created s p name v after) :
    NameStored s p name v after ↔ name.length ≤ 255 := by
  obtain ⟨node, inode', lbk, data, pos, isNode, isInode, isData, record⟩ := created
  constructor
  · rintro ⟨node', last, lbk', data', pos', -, -, -, stored⟩
    have small := deNameLen_lt data' pos'
    rw [stored.named.length] at small
    omega
  · intro fits
    have room : 8 + name.length ≤ s.blockSize := by
      rcases size.cases with same | same | same <;>
      · rw [same]
        omega
    exact ⟨node, inode', lbk, data, pos, isNode, isInode, isData, (record room).stored_iff.mpr fits⟩

/-- Whatever is created, its name is stored intact exactly when it has 255 bytes at most. -/
theorem creation_stores_name (file : FileState groups loose s view held p inode)
    (room : Multiset.card held + 1 < nBlkNum)
    (entries : Entries groups.blockSize view inode (dirBlocks groups.blockSize inode.size))
    (older : p ≠ s.nextInode)
    (short : name.length < 2 ^ 31) (mode : Nat) :
    wlp (ext2Create p name mode) (fun got after => ∀ v, got = some v →
      (NameStored s p name v after ↔ name.length ≤ 255)) s ∧
    wlp (ext2Mkdir p name mode) (fun got after => ∀ v, got = some v →
      (NameStored s p name v after ↔ name.length ≤ 255)) s := by
  have whole : ∀ no, groups.InTable s no → ∀ x : Nat, groups.InTable s no := fun _ inTable _ => inTable
  have size : MountedSize s.blockSize := file.fs.fits.blockSize ▸ groups.sized
  constructor
  · refine wlp_mono (ext2Create_records file.loosen room whole entries older short mode) ?_
    exact fun got after created v isV => (created v isV).stored_iff size
  · refine wlp_mono (ext2Mkdir_records file.loosen room whole entries older short mode) ?_
    exact fun got after created v isV => (created v isV).stored_iff size

end

/-! ## The root directory of a small disk -/

/-- A call whose result was computed. -/
def runMounted {α : Type} (disk : Nat → ByteMap) (inodes : Nat → Option Inode)
    (program : FsProg α) : Option α :=
  match BlkCache.bread 0 (BlkCache.boot (fun _ => 0) disk) with
  | .ok (i, caches) => (program (mountedOne disk inodes i caches)).toOption.map Prod.fst
  | .error _ => none

/-- A run that was evaluated on a mounted disk is a run of the program. -/
theorem returns_of_runMounted {α : Type} {disk : Nat → ByteMap} {inodes : Nat → Option Inode}
    {program : FsProg α} {a : α} (computed : runMounted disk inodes program = some a)
    {i : Fin nBlkNum} {caches : BlkCache.Caches ByteMap}
    (opened : Returns (BlkCache.bread 0) (BlkCache.boot (fun _ => 0) disk) i caches) :
    ∃ after, Returns program (mountedOne disk inodes i caches) a after := by
  rw [Returns] at opened
  rw [runMounted, opened] at computed
  cases ran : program (mountedOne disk inodes i caches) with
  | error e => simp [ran, Except.toOption] at computed
  | ok value =>
    obtain ⟨got, after⟩ := value
    simp only [ran, Except.toOption, Option.map_some, Option.some.injEq] at computed
    exact ⟨after, by rw [Returns, ran, computed]⟩

/-- The root directory of such a disk with six blocks in use, as its run starts. -/
theorem exists_rootFile {disk : Nat → ByteMap} (counted : CountedDisk disk)
    (table : load (disk 1) 8 4 = 4) (taken : ∀ c < 6, bitAt (disk 2) c = true) : ∃ i caches,
    Returns (BlkCache.bread 0) (BlkCache.boot (fun _ => 0) disk) i caches ∧
    FileState oneGroup (fun _ _ => False) (mountedOne disk (soleInode rootInode) i caches)
      disk {0} 0 rootInode := by
  obtain ⟨i, caches, returned, fs, plain⟩ := exists_fsState (soleInode rootInode) counted
    table (by decide) taken
  exact ⟨i, caches, returned, FileState.of_root fs rfl (plain 5 (by decide) (by decide))⟩

/-- The root directory of the small disk. -/
theorem root_file : ∃ i caches,
    Returns (BlkCache.bread 0) (BlkCache.boot (fun _ => 0) smallDisk) i caches ∧
    FileState oneGroup (fun _ _ => False) (mountedOne smallDisk (soleInode rootInode) i caches)
      smallDisk {0} 0 rootInode :=
  exists_rootFile smallDisk_counted (by decide +kernel) (by decide +kernel)

/-- Its block holds the records of `.` and `..`. -/
theorem root_entries : Entries 4096 smallDisk rootInode (dirBlocks 4096 rootInode.size) := by
  intro lbk less data isData
  obtain rfl : lbk = 0 := Nat.lt_one_iff.mp (Nat.lt_of_lt_of_eq less (by decide))
  obtain rfl : smallDisk 5 = data := Option.some.inj isData
  have first : deRecLen (smallDisk 5) 0 = 12 := by decide +kernel
  have second : deRecLen (smallDisk 5) 12 = 4084 := by decide +kernel
  refine ⟨[0, 12], Chain.record (by decide +kernel) ?_⟩
  rw [first]
  refine Chain.record (by decide +kernel) ?_
  rw [Nat.zero_add, second]
  exact .done

def longName : List Byte := List.replicate 256 0x61

theorem longName_length : longName.length = 256 := List.length_replicate

/-- A name of 256 letters is accepted. -/
theorem longName_accepted : ∃ i caches after,
    FileState oneGroup (fun _ _ => False) (mountedOne smallDisk (soleInode rootInode) i caches)
      smallDisk {0} 0 rootInode ∧
    Returns (ext2Create 0 longName 0x1a4) (mountedOne smallDisk (soleInode rootInode) i caches)
      (some 1) after := by
  obtain ⟨i, caches, returned, file⟩ := root_file
  have ran : runMounted smallDisk (soleInode rootInode) (ext2Create 0 longName 0x1a4) =
      some (some 1) := by decide +kernel
  obtain ⟨after, created⟩ := returns_of_runMounted ran returned
  exact ⟨i, caches, after, file, created⟩

/-- The theorem for the root directory: a name of one letter is stored, and one of 256 letters
is accepted and not. -/
theorem root_stores_letter : ∃ s, wlp (ext2Create 0 [0x61] 0x1a4) (fun got after =>
      ∀ v, got = some v → NameStored s 0 [0x61] v after) s ∧
    ∃ after, Returns (ext2Create 0 longName 0x1a4) s (some 1) after ∧
      ¬ NameStored s 0 longName 1 after := by
  obtain ⟨i, caches, after, file, created⟩ := longName_accepted
  refine ⟨mountedOne smallDisk (soleInode rootInode) i caches, ?_, after, created, ?_⟩
  · refine wlp_mono (creation_stores_name file (by decide) root_entries Nat.zero_ne_one
      (by decide) _).1 ?_
    exact fun got after stored v isV => (stored v isV).mpr (by decide)
  · have short : longName.length < 2 ^ 31 := by
      rw [longName_length]
      decide
    have stored := (creation_stores_name file (by decide) root_entries Nat.zero_ne_one short _).1 _
      _ created 1 rfl
    rw [stored, longName_length]
    decide

/-- Its record says that the name is empty. -/
theorem long_name_not_stored : ¬ ∀ (groups : Groups) (loose : Nat → Nat → Prop) (s : Vfs)
    (view : Nat → ByteMap) (held : Multiset Nat) (p : Nat) (inode : Inode) (name : List Byte)
    (mode v : Nat) (after : Vfs), FileState groups loose s view held p inode →
    Multiset.card held + 1 < nBlkNum → Entries groups.blockSize view inode (dirBlocks groups.blockSize inode.size) →
    p ≠ s.nextInode → name.length < 2 ^ 31 → Returns (ext2Create p name mode) s (some v) after →
    NameStored s p name v after := by
  intro always
  obtain ⟨i, caches, after, file, created⟩ := longName_accepted
  have short : longName.length < 2 ^ 31 := by
    rw [longName_length]
    decide
  obtain ⟨node, last, lbk, data, pos, -, -, -, record⟩ := always oneGroup (fun _ _ => False) _
    smallDisk {0} 0 rootInode longName 0x1a4 1 after file (by decide) root_entries Nat.zero_ne_one
    short created
  have small := deNameLen_lt data pos
  rw [record.named.length, longName_length] at small
  exact absurd small (by decide)

end CuteCore.Fs

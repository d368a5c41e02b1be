import CuteCore.Fs.DirSearch
import CuteCore.Library.Bags

/-!
# Directories as bags of names

`ext2_lookup` finds a number that stands under a name, `ext2_dir_add_entry` adds one and
`ext2_unlink` takes one out. Over any additions, in any directories, with writes to files
between them, no name is lost, and none is found that was not added.

A directory is known by the bag of its names with their numbers. The three functions are
shown to be operations on this bag, and what happens to the inode behind a number is left
to the functions that take it: the results speak of the number that is handed on. Other
directories and files keep their bags and contents.
-/

namespace CuteCore.Fs

open Hoare Bytes BlkCache Bags

/-! ## The operations -/

section

variable {groups : Groups} {loose : Nat → Nat → Prop} {s : Vfs} {view : Nat → ByteMap}
  {held : Multiset Nat} {p n lbk : Nat} {dir : Inode} {name : List Byte}
  {bag : Multiset (List Byte × Nat)}

/-- A block of a file is written, or its bytes stay. Where it has storage, it is written. -/
theorem Owners.writeBlock (owners : Owners groups loose s view held)
    (isInode : s.inodes p = some dir) (room : Multiset.card held + 1 < nBlkNum) (lbk : Nat)
    (buf : ByteMap) : wp (ext2WriteBlock p lbk buf) (fun done after => ∃ view' dir',
      Stores groups loose held p dir.size (if done then withBlock groups.blockSize (fileByte view groups.blockSize dir) lbk buf
        else fileByte view groups.blockSize dir) s view dir after view' dir' ∧
      (HasBlock groups.blockSize view dir lbk → done = true)) s := by
  apply wp_mono (ext2WriteBlock_spec (owners.files p dir isInode) room lbk buf)
  rintro done after ⟨view', dir', grew, framed, stored, present, -⟩
  have stores := Stores.of_grew owners isInode grew framed
  have bytes : fileByte view' groups.blockSize dir' = if done then withBlock groups.blockSize (fileByte view groups.blockSize dir) lbk buf
      else fileByte view groups.blockSize dir := by
    funext pos
    cases done with
    | false =>
      rw [if_neg Bool.false_ne_true, fileByte, fileByte,
        grew.fileBlock fun _ _ _ isHit => Bool.false_ne_true isHit.1]
    | true =>
      rw [if_pos rfl]
      by_cases isBlock : pos / groups.blockSize = lbk
      · obtain ⟨old, isData⟩ := stored rfl
        have below : pos % groups.blockSize < groups.blockSize := Nat.mod_lt _ groups.sized.small.1
        have divided := Nat.div_add_mod pos groups.blockSize
        rw [isBlock] at divided
        have isOffset : pos - groups.blockSize * lbk = pos % groups.blockSize := by omega
        rw [withBlock, ByteFiles.overlay_inside (by omega) (by omega), isOffset, fileByte, isBlock,
          isData]
        exact sameOn_copy_whole old buf _ (Nat.zero_le _) (by omega)
      · have outside : pos < groups.blockSize * lbk ∨
            groups.blockSize * lbk + groups.blockSize ≤ pos := by
          rcases Nat.lt_or_ge pos (groups.blockSize * lbk) with before | low
          · exact Or.inl before
          · exact Or.inr (Nat.le_of_not_lt fun high => isBlock (block_of_bounds low high))
        rw [withBlock, ByteFiles.overlay_outside outside, fileByte, fileByte, grew.fileBlock]
        rintro slot path isPos ⟨-, isLbk⟩
        exact isBlock (blockPath_injective isPos isLbk)
  rw [bytes] at stores
  exact ⟨view', dir', stores, present⟩

/-- The name of a record that is added. -/
structure Nameable (name : List Byte) : Prop where
  some : name ≠ []
  short : name.length ≤ 255

instance (name : List Byte) : Decidable (Nameable name) :=
  decidable_of_iff (name ≠ [] ∧ name.length ≤ 255)
    ⟨fun both => ⟨both.1, both.2⟩, fun named => ⟨named.some, named.short⟩⟩

theorem dirBlocks_whole {size : Nat} (some : 0 < size) (fits : size * n + size < 2 ^ 32) :
    dirBlocks size (size * n) = n := by
  have whole : size * n + size - 1 = size * n + (size - 1) := by omega
  rw [dirBlocks, u32, Nat.mod_eq_of_lt (by omega), whole, Nat.mul_add_div some,
    Nat.div_eq_of_lt (by omega), Nat.add_zero]

/-- The loop over the blocks adds the record where there is room, and writes inside the block. -/
theorem addFrom_adds (owners : Owners groups loose s view held) (isInode : s.inodes p = some dir)
    (room : Multiset.card held + 1 < nBlkNum)
    (bytes : BagBytes groups.blockSize (fileByte view groups.blockSize dir) n bag)
    (short : name.length ≤ 255) {ino : Nat}
    (used : ino ≠ 0) (small : ino < 2 ^ 32) (fileType remaining : Nat)
    (upTo : lbk + remaining = n) :
    wp (addFrom p name ino fileType remaining lbk) (fun result after =>
      (result = none ∧ Io loose after view (fun _ => False) held ∧ SameFs s after) ∨
      (result = some true ∧ ∃ byte view' dir', Stores groups loose held p dir.size byte s view dir
        after view' dir' ∧ BagBytes groups.blockSize byte n ((name, ino) ::ₘ bag))) s := by
  have file := owners.files p dir isInode
  induction remaining generalizing s lbk with
  | zero => exact wp_pure.mpr (Or.inl ⟨rfl, file.fs.io, SameFs.refl s⟩)
  | succ remaining inductionHypothesis =>
    rw [addFrom, wp_bind, wp_get]
    apply wp_seq (file.readRecords (by omega) bytes (by omega) _)
    rintro block mid ⟨buf, recs, rfl, sameBytes, chain, ioMid, same⟩
    simp only [file.fs.fits.blockSize]
    have isMid : mid.inodes p = some dir := by
      rw [same.inodes]
      exact isInode
    have ownersMid := owners.same ioMid same
    have reached := Stores.of_grew owners isInode (file.same (fun _ _ => False) ioMid same) .refl
    cases slack : findSlack buf groups.blockSize (actualLen name.length) groups.blockSize 0 with
    | none =>
      apply wp_mono (inductionHypothesis ownersMid isMid (by omega)
        (ownersMid.files p dir isMid))
      rintro result after (⟨isNone, io, same'⟩ | ⟨isSome, byte, view', dir', stores, bag'⟩)
      · exact Or.inl ⟨isNone, io, same.trans same'⟩
      · exact Or.inr ⟨isSome, byte, view', dir', reached.trans stores, bag'⟩
    | some pos =>
      obtain ⟨member, enough⟩ := chain.findSlack_mem slack
      obtain ⟨-, high, covers⟩ := chain.bounds member
      obtain ⟨exact', fits, -⟩ := slack_exact enough covers (by omega)
      have small' := groups.sized.small.2
      simp only
      rw [if_neg (by omega)]
      apply wp_seq (ownersMid.writeBlock isMid room lbk _)
      rintro written after ⟨view', dir', stores, present⟩
      have inside : lbk < n := by omega
      obtain ⟨-, -, hasBlock⟩ := bytes.backed inside
      rw [present hasBlock, if_pos rfl] at stores
      refine wp_pure.mpr (Or.inr ⟨congrArg some (present hasBlock), _, view', dir',
        reached.trans stores, ?_⟩)
      obtain ⟨recs', chain', -, -⟩ := @Chain.split buf pos ino fileType name recs
        groups.blockSize 0 chain
        member enough (by omega)
      have leastName := actualLen_covers buf pos
      -- The room behind a record is no record.
      have isNew : ∀ ino' name', ¬ Listed groups.blockSize (fileByte view groups.blockSize dir) n lbk
          (pos + actualLen (deNameLen buf pos)) name' ino' := by
        rintro ino' name' ⟨-, record⟩
        obtain ⟨recs'', chain'', isRecord⟩ := (record.congr sameBytes).chain
        rw [chain.unique chain''] at isRecord
        have apart := chain.apart member isRecord
        obtain ⟨-, -, covers'⟩ := chain.bounds isRecord
        omega
      apply bytes.entered (Nat.le_refl n) inside (fun _ below _ => below) chain' isNew
      intro pos' ino' name'
      rw [splitEntry_record chain member enough short used small]
      constructor
      · rintro (record | isSplit)
        · exact Or.inl ⟨inside, record.congr fun x low below => (sameBytes x low below).symm⟩
        · exact Or.inr isSplit
      · rintro (⟨-, record⟩ | isSplit)
        · exact Or.inl (record.congr sameBytes)
        · exact Or.inr isSplit

/-- The directory is one block longer, and its inode is written. -/
theorem Owners.longer (owners : Owners groups loose s view held) (isInode : s.inodes p = some dir)
    (room : Multiset.card held < nBlkNum) {size : Nat}
    (isSize : u32 (dir.size + groups.blockSize) = size) :
    wp (do
      updateInode p fun dir => { dir with size := u32 (dir.size + groups.blockSize), dirty := true }
      let _ ← ext2WriteInode p
      return true) (fun added after => added = true ∧ ∃ view' dir',
        Stores groups loose held p size (fileByte view groups.blockSize dir) s view dir after view' dir') s := by
  obtain ⟨grown, isGrown⟩ : ∃ grown : Inode, grown = { dir with
    size := u32 (dir.size + groups.blockSize), dirty := true } := ⟨_, rfl⟩
  have resized := @Owners.resized groups loose s view held p dir owners isInode grown
    (by rw [isGrown]) (by rw [isGrown]) (by rw [isGrown]) (by rw [isGrown])
  rw [wp_bind, wp_updateInode isInode, ← isGrown]
  apply wp_seq (resized.owners.written resized.isInode room)
  rintro - after ⟨view', dir', written⟩
  have grownSize : grown.size = size := by rw [isGrown, ← isSize]
  rw [grownSize, resized.bytes] at written
  exact wp_pure.mpr ⟨rfl, view', dir', resized.trans written⟩

/-- What adding a record leaves. -/
theorem ext2DirAddEntry_adds (owners : Owners groups loose s view held)
    (isInode : s.inodes p = some dir) (room : Multiset.card held + 1 < nBlkNum)
    (size : dir.size = groups.blockSize * n)
    (fits : groups.blockSize * n + groups.blockSize < 2 ^ 32)
    (bytes : BagBytes groups.blockSize (fileByte view groups.blockSize dir) n bag)
    (short : name.length ≤ 255) {ino : Nat}
    (used : ino ≠ 0) (small : ino < 2 ^ 32) (fileType : Nat) :
    wp (ext2DirAddEntry p name ino fileType) (fun added after => ∃ byte n' view' dir', n' ≤ n + 1 ∧
      Stores groups loose held p (groups.blockSize * n') byte s view dir after view' dir' ∧
      BagBytes groups.blockSize byte n' (if added then (name, ino) ::ₘ bag else bag)) s := by
  have file := owners.files p dir isInode
  have blkSize : blkSz = 4096 := rfl
  rw [ext2DirAddEntry, wp_bind, wp_derefInode isInode, wp_bind, wp_get]
  simp only [file.fs.fits.blockSize, size, dirBlocks_whole groups.sized.small.1 fits]
  apply wp_seq (addFrom_adds owners isInode room bytes short used small fileType n (Nat.zero_add n))
  rintro result mid (⟨rfl, ioMid, same⟩ | ⟨rfl, byte, view', dir', stores, bag'⟩)
  · have isMid : mid.inodes p = some dir := by
      rw [same.inodes]
      exact isInode
    have ownersMid := owners.same ioMid same
    have reached := Stores.of_grew owners isInode (file.same (fun _ _ => False) ioMid same) .refl
    simp only
    rw [if_neg (by omega)]
    apply wp_seq (ownersMid.writeBlock isMid room n _)
    rintro written stored ⟨view', dir', stores, -⟩
    cases written with
    | false =>
      rw [if_neg Bool.false_ne_true, size] at stores
      rw [if_pos rfl, wp_pure]
      exact ⟨_, n, view', dir', Nat.le_succ n, reached.trans stores, bytes⟩
    | true =>
      rw [if_pos rfl] at stores
      rw [if_neg fun no => Bool.false_ne_true no.symm]
      have isSize : u32 (dir'.size + groups.blockSize) = groups.blockSize * (n + 1) := by
        rw [stores.size, size, u32, Nat.mod_eq_of_lt fits, Nat.mul_succ]
      apply wp_mono (stores.owners.longer stores.isInode (by omega) isSize)
      rintro added after ⟨rfl, view'', dir'', longer⟩
      rw [stores.bytes] at longer
      refine ⟨_, n + 1, view'', dir'', Nat.le_refl _, reached.trans (stores.trans longer), ?_⟩
      have large : 1024 ≤ groups.blockSize := by
        rcases groups.sized.cases with same | same | same <;> omega
      obtain ⟨recs, chain, -⟩ := (@freshEntry_newRecord groups.blockSize
        (fill s.uninitialized 0 groups.blockSize 0) ino fileType name (by omega) groups.sized
        small).chain
      have isNew : ∀ ino' name', ¬ Listed groups.blockSize (fileByte view groups.blockSize dir) n n 0 name' ino' :=
        fun ino' name' listed => Nat.lt_irrefl n listed.1
      rw [if_pos rfl]
      apply bytes.entered (Nat.le_succ n) (Nat.lt_succ_self n) (by omega) chain isNew
      intro pos' ino' name'
      rw [freshEntry_record groups.sized short used small]
      constructor
      · exact Or.inr
      · exact fun either => either.resolve_left fun listed => Nat.lt_irrefl n listed.1
  · rw [size] at stores
    exact wp_pure.mpr ⟨byte, n, view', dir', Nat.le_succ n, stores, bag'⟩

/-- What `ext2_lookup` finds. -/
theorem lookupNumber_finds (owners : Owners groups loose s view held)
    (isInode : s.inodes p = some dir) (room : Multiset.card held + 1 < nBlkNum)
    (isDir : dir.type = .dir) (size : dir.size = groups.blockSize * n)
    (fits : groups.blockSize * n + groups.blockSize < 2 ^ 32)
    (bytes : BagBytes groups.blockSize (fileByte view groups.blockSize dir) n bag)
    (named : Nameable name) :
    wp (lookupNumber p name) (fun found after =>
      found.elim (∀ ino, (name, ino) ∉ bag) (fun ino => (name, ino) ∈ bag) ∧
      Stores groups loose held p dir.size (fileByte view groups.blockSize dir) s view dir after view dir) s := by
  have file := owners.files p dir isInode
  rw [lookupNumber, wp_bind, wp_derefInode isInode,
    if_neg (fun either => either.elim (fun no => no isDir) named.some), wp_bind, wp_get]
  simp only [file.fs.fits.blockSize, size, dirBlocks_whole groups.sized.small.1 fits]
  apply wp_seq (findEntry_spec file (by omega) bytes named.short n (Nat.zero_add n))
  rintro found after ⟨finds, io, same⟩
  rw [← size]
  refine wp_pure.mpr ⟨?_,
    Stores.of_grew owners isInode (file.same (fun _ _ => False) io same) .refl⟩
  cases finds with
  | absent missing =>
    intro ino member
    obtain ⟨lbk, pos, listed⟩ := bytes.mem_iff.mp member
    exact missing lbk pos ino (Nat.zero_le lbk) listed
  | @found entry _ inside sameBytes _ _ _ record =>
    refine bytes.mem_iff.mpr ⟨entry.lbk, entry.pos, inside, ?_⟩
    exact record.congr fun x low below => (sameBytes x low below).symm

/-- What `ext2_unlink` takes out. -/
theorem eraseEntry_removes (owners : Owners groups loose s view held)
    (isInode : s.inodes p = some dir) (room : Multiset.card held + 1 < nBlkNum)
    (size : dir.size = groups.blockSize * n)
    (fits : groups.blockSize * n + groups.blockSize < 2 ^ 32)
    (bytes : BagBytes groups.blockSize (fileByte view groups.blockSize dir) n bag)
    (named : Nameable name) :
    wp (eraseEntry p name) (fun found after => ∃ byte view' dir',
      Stores groups loose held p dir.size byte s view dir after view' dir' ∧
      found.elim ((∀ ino, (name, ino) ∉ bag) ∧ BagBytes groups.blockSize byte n bag)
        (fun ino => (name, ino) ∈ bag ∧ BagBytes groups.blockSize byte n (bag.erase (name, ino)))) s := by
  have file := owners.files p dir isInode
  rw [eraseEntry, if_neg named.some, wp_bind, wp_derefInode isInode, wp_bind, wp_get]
  simp only [file.fs.fits.blockSize, size, dirBlocks_whole groups.sized.small.1 fits]
  apply wp_seq (findEntry_spec file (by omega) bytes named.short n (Nat.zero_add n))
  rintro found mid ⟨finds, io, same⟩
  rw [← size]
  have reached := Stores.of_grew owners isInode (file.same (fun _ _ => False) io same) .refl
  cases finds with
  | absent missing =>
    refine wp_pure.mpr ⟨_, view, dir, reached, fun ino member => ?_, bytes⟩
    obtain ⟨lbk, pos, listed⟩ := bytes.mem_iff.mp member
    exact missing lbk pos ino (Nat.zero_le lbk) listed
  | @found entry recs inside sameBytes chain member place record =>
    obtain ⟨-, -, hasBlock⟩ := bytes.backed inside
    have listed : Listed groups.blockSize (fileByte view groups.blockSize dir) n entry.lbk entry.pos name entry.number :=
      ⟨inside, record.congr fun x low below => (sameBytes x low below).symm⟩
    apply wp_seq (reached.owners.writeBlock reached.isInode room entry.lbk _)
    rintro written after ⟨view', dir', stores, present⟩
    rw [present hasBlock, if_pos rfl] at stores
    rw [present hasBlock, if_neg fun no => Bool.false_ne_true no.symm]
    refine wp_pure.mpr ⟨_, view', dir', reached.trans stores,
      bytes.mem_iff.mpr ⟨entry.lbk, entry.pos, listed⟩, ?_⟩
    obtain ⟨recs', chain'⟩ := chain.without groups.sized.small.2 member place
    apply bytes.removed listed chain'
    intro pos' ino' name'
    rw [removeEntry_record chain groups.sized.small.2 member place]
    constructor
    · rintro ⟨record', differs⟩
      exact ⟨record'.congr fun x low below => (sameBytes x low below).symm, differs⟩
    · rintro ⟨record', differs⟩
      exact ⟨record'.congr sameBytes, differs⟩

end

/-! ## Any calls in any order -/

/-- A call that adds a record to a directory, or a write to a file. -/
inductive DirCall where
  | add (dir : Nat) (name : List Byte) (ino fileType : Nat)
  | write (file len offset : Nat) (data : ByteMap)

/-- The call as one on bags. -/
def DirCall.call : DirCall → Call Nat (List Byte) Nat
  | .add dir name ino _ => .enter dir name ino
  | .write _ _ _ _ => .other

def DirCall.exec : DirCall → FsProg (Answer Nat)
  | .add dir name ino fileType => do
    let done ← ext2DirAddEntry dir name ino fileType
    return .entered done
  | .write file len offset data => do
    let _ ← ext2FileWrite file len offset data
    return .other

def execDirCalls : List DirCall → FsProg (List (Answer Nat))
  | [] => return []
  | call :: rest => do
    let answer ← call.exec
    let answers ← execDirCalls rest
    return answer :: answers

/-- The type of an inode in memory. -/
def Vfs.kind (s : Vfs) (p : Nat) : Option InodeType := (s.inodes p).map Inode.type

/-- Names are not empty and fit a record, and numbers are 32 bits and not 0. A write is to
no directory, below 4 GB. -/
def DirCall.Allowed (s : Vfs) : DirCall → Prop
  | .add dir name ino _ => s.kind dir = some .dir ∧ Nameable name ∧ ino ≠ 0 ∧ ino < 2 ^ 32
  | .write file len offset _ => (∃ kind ≠ .dir, s.kind file = some kind) ∧
      offset + len < 2 ^ 32 ∧ len < 2 ^ 31

theorem DirCall.Allowed.congr {s after : Vfs} (kinds : after.kind = s.kind) {call : DirCall}
    (allowed : call.Allowed s) : call.Allowed after := by
  cases call <;> rwa [DirCall.Allowed, kinds]

/-- Every inode in memory owns its blocks, and the blocks of the directories are chains with
the records of their bags. None is at 4 GB before so many calls. -/
structure Directories (groups : Groups) (loose : Nat → Nat → Prop) (held : Multiset Nat)
    (left : Nat) (s : Vfs) (view : Nat → ByteMap) (bags : Nat → Multiset (List Byte × Nat)) :
    Prop where
  owners : Owners groups loose s view held
  room : Multiset.card held + 1 < nBlkNum
  dirs : ∀ p dir, s.inodes p = some dir → dir.type = .dir → ∃ n, dir.size = groups.blockSize * n ∧
    groups.blockSize * n + groups.blockSize * left < 2 ^ 32 ∧ BagBytes groups.blockSize (fileByte view groups.blockSize dir) n (bags p)

section

variable {groups : Groups} {loose : Nat → Nat → Prop} {held : Multiset Nat} {left : Nat} {s : Vfs}
  {view : Nat → ByteMap} {bags : Nat → Multiset (List Byte × Nat)}

/-- A call that changes the bytes of one inode, and its bag if it is a directory. -/
theorem Directories.stores (dirs : Directories groups loose held (left + 1) s view bags)
    {p size : Nat} {byte : Nat → Byte} {inode inode' : Inode} {after : Vfs} {view' : Nat → ByteMap}
    (isInode : s.inodes p = some inode)
    (stores : Stores groups loose held p size byte s view inode after view' inode')
    (bag : Multiset (List Byte × Nat))
    (itself : inode.type = .dir → ∃ n, size = groups.blockSize * n ∧
      groups.blockSize * n + groups.blockSize * left < 2 ^ 32 ∧ BagBytes groups.blockSize byte n bag) :
    Directories groups loose held left after view' (Function.update bags p bag) ∧
      after.kind = s.kind := by
  constructor
  · constructor
    · exact stores.owners
    · exact dirs.room
    · intro q dir isDir type
      by_cases isP : q = p
      · subst isP
        obtain rfl := Option.some.inj (stores.isInode.symm.trans isDir)
        rw [Function.update_self, stores.size, stores.bytes]
        exact itself (stores.type.symm.trans type)
      · rw [stores.inodes q isP] at isDir
        obtain ⟨n, isSize, fits, bytes⟩ := dirs.dirs q dir isDir type
        rw [Function.update_of_ne isP, (stores.others q dir isP isDir).1]
        rw [Nat.mul_succ] at fits
        exact ⟨n, isSize, by omega, bytes⟩
  · funext q
    by_cases isP : q = p
    · subst isP
      rw [Vfs.kind, Vfs.kind, stores.isInode, isInode, Option.map_some, Option.map_some, stores.type]
    · rw [Vfs.kind, Vfs.kind, stores.inodes q isP]

theorem Directories.dir (dirs : Directories groups loose held (left + 1) s view bags) {p : Nat}
    (kind : s.kind p = some .dir) : ∃ dir n, s.inodes p = some dir ∧ dir.type = .dir ∧
      dir.size = groups.blockSize * n ∧
      groups.blockSize * n + groups.blockSize * left + groups.blockSize < 2 ^ 32 ∧
      BagBytes groups.blockSize (fileByte view groups.blockSize dir) n (bags p) := by
  obtain ⟨dir, isDir, type⟩ := Option.map_eq_some_iff.mp kind
  obtain ⟨n, size, fits, bytes⟩ := dirs.dirs p dir isDir type
  rw [Nat.mul_succ, ← Nat.add_assoc] at fits
  exact ⟨dir, n, isDir, type, size, fits, bytes⟩

/-- Every call is the one on bags. -/
theorem DirCall.step (dirs : Directories groups loose held (left + 1) s view bags) (call : DirCall)
    (allowed : call.Allowed s) : wp call.exec (fun answer after => ∃ bags' view',
      Step bags call.call answer bags' ∧ Directories groups loose held left after view' bags' ∧
      after.kind = s.kind) s := by
  cases call with
  | add p name ino fileType =>
    obtain ⟨kind, named, used, small⟩ := allowed
    obtain ⟨dir, n, isInode, -, size, fits, bytes⟩ := dirs.dir kind
    apply wp_seq (ext2DirAddEntry_adds dirs.owners isInode dirs.room size (by omega) bytes
      named.short used small fileType)
    rintro added after ⟨byte, n', view', dir', more, stores, bytes'⟩
    have grown : groups.blockSize * n' ≤ groups.blockSize * n + groups.blockSize := by
      rw [← Nat.mul_succ]
      exact Nat.mul_le_mul_left _ more
    obtain ⟨dirs', kinds⟩ := dirs.stores isInode stores _ fun _ => ⟨n', rfl, by omega, bytes'⟩
    refine wp_pure.mpr ⟨_, view', ?_, dirs', kinds⟩
    cases added with
    | true => exact .entered
    | false =>
      rw [if_neg Bool.false_ne_true, Function.update_eq_self]
      exact .refused
  | write p len offset data =>
    obtain ⟨⟨kind, notDir, isKind⟩, fits, short⟩ := allowed
    obtain ⟨inode, isInode, type⟩ := Option.map_eq_some_iff.mp isKind
    apply wp_seq (dirs.owners.ext2FileWrite isInode dirs.room data fits short)
    rintro result after ⟨stored, -, -, -, view', inode', stores⟩
    obtain ⟨dirs', kinds⟩ := dirs.stores isInode stores (bags p)
      fun isDir => absurd (type.symm.trans isDir) notDir
    rw [Function.update_eq_self] at dirs'
    exact wp_pure.mpr ⟨bags, view', .other, dirs', kinds⟩

/-- A call with its answer. -/
def dirAnswers (calls : List DirCall) (answers : List (Answer Nat)) :
    List (Call Nat (List Byte) Nat × Answer Nat) := (calls.map DirCall.call).zip answers

/-- Each call is the one on bags, and so is a run. -/
theorem execDirCalls_spec (dirs : Directories groups loose held left s view bags)
    (calls : List DirCall) (allowed : ∀ call ∈ calls, call.Allowed s)
    (enough : calls.length ≤ left) :
    wp (execDirCalls calls) (fun answers after => answers.length = calls.length ∧
      after.kind = s.kind ∧ ∃ bags' view', Runs bags (dirAnswers calls answers) bags' ∧
      Directories groups loose held (left - calls.length) after view' bags') s := by
  induction calls generalizing s view bags left with
  | nil => exact wp_pure.mpr ⟨rfl, rfl, bags, view, .nil, dirs⟩
  | cons call rest inductionHypothesis =>
    rw [List.length_cons] at enough ⊢
    obtain ⟨fewer, rfl⟩ := Nat.exists_eq_add_of_le' (Nat.le_trans (Nat.le_add_left 1 _) enough)
    rw [execDirCalls]
    apply wp_seq (DirCall.step dirs call (allowed call (List.mem_cons_self ..)))
    rintro answer mid ⟨bagsMid, viewMid, step, dirsMid, kinds⟩
    apply wp_seq (inductionHypothesis dirsMid
      (fun other member => (allowed other (List.mem_cons_of_mem _ member)).congr kinds) (by omega))
    rintro answers after ⟨length, kinds', bags', view', runs, dirs'⟩
    refine wp_pure.mpr ⟨by rw [List.length_cons, length], kinds'.trans kinds, bags', view',
      .cons step runs, ?_⟩
    rwa [Nat.add_sub_add_right]

/-- A lookup is the one on bags up to the number, and `ext2_iget` does the rest. -/
theorem Directories.lookup (dirs : Directories groups loose held (left + 1) s view bags) {p : Nat}
    {name : List Byte} (kind : s.kind p = some .dir) (named : Nameable name) :
    ∃ found mid, ext2Lookup p name s = openFound found mid ∧
      Step bags (.find p name) (.value found) bags ∧
      Directories groups loose held left mid view bags := by
  obtain ⟨dir, n, isInode, isDir, size, fits, bytes⟩ := dirs.dir kind
  obtain ⟨found, mid, returned, finds, stores⟩ := lookupNumber_finds dirs.owners isInode dirs.room
    isDir size (by omega) bytes named
  obtain ⟨dirs', -⟩ := dirs.stores isInode stores (bags p) fun _ => ⟨n, size, by omega, bytes⟩
  rw [Function.update_eq_self] at dirs'
  refine ⟨found, mid, ?_, ?_, dirs'⟩
  · rw [ext2Lookup_eq, returned.bind]
  · cases found with
    | none => exact .absent finds
    | some ino => exact .found finds

/-- An unlink is the one on bags up to the number, and the link is dropped then. -/
theorem Directories.unlink (dirs : Directories groups loose held (left + 1) s view bags) {p : Nat}
    {name : List Byte} (kind : s.kind p = some .dir) (named : Nameable name) :
    ∃ found mid bags' view', ext2Unlink p name s = dropFound found mid ∧
      Step bags (.remove p name) (.value found) bags' ∧
      Directories groups loose held left mid view' bags' := by
  obtain ⟨dir, n, isInode, -, size, fits, bytes⟩ := dirs.dir kind
  obtain ⟨found, mid, returned, byte, view', dir', stores, outcome⟩ := eraseEntry_removes
    dirs.owners isInode dirs.room size (by omega) bytes named
  have isRest : ext2Unlink p name s = dropFound found mid := by
    rw [ext2Unlink_eq, returned.bind]
  cases found with
  | none =>
    obtain ⟨missing, bytes'⟩ := outcome
    obtain ⟨dirs', -⟩ := dirs.stores isInode stores (bags p)
      fun _ => ⟨n, size, by omega, bytes'⟩
    rw [Function.update_eq_self] at dirs'
    exact ⟨none, mid, bags, view', isRest, .nothing missing, dirs'⟩
  | some ino =>
    obtain ⟨member, bytes'⟩ := outcome
    obtain ⟨dirs', -⟩ := dirs.stores isInode stores _ fun _ => ⟨n, size, by omega, bytes'⟩
    exact ⟨some ino, mid, _, view', isRest, .removed member, dirs'⟩

/-- Any additions in any directories and any writes to files, in any order: the directories are
bags of names with numbers, for the next `ext2_lookup` and `ext2_unlink` too. -/
theorem directories_are_bags (dirs : Directories groups loose held (left + 1) s view bags)
    (calls : List DirCall) (allowed : ∀ call ∈ calls, call.Allowed s)
    (enough : calls.length ≤ left) {p : Nat} {name : List Byte} (kind : s.kind p = some .dir)
    (named : Nameable name) :
    wp (execDirCalls calls) (fun answers after => answers.length = calls.length ∧ ∃ bags' view',
      Runs bags (dirAnswers calls answers) bags' ∧
      Directories groups loose held (left + 1 - calls.length) after view' bags' ∧
      (∃ found mid, ext2Lookup p name after = openFound found mid ∧
        Step bags' (.find p name) (.value found) bags' ∧
        Directories groups loose held (left - calls.length) mid view' bags') ∧
      ∃ found mid bags'' view'', ext2Unlink p name after = dropFound found mid ∧
        Step bags' (.remove p name) (.value found) bags'' ∧
        Directories groups loose held (left - calls.length) mid view'' bags'') s := by
  apply wp_mono (execDirCalls_spec dirs calls allowed (Nat.le_succ_of_le enough))
  rintro answers after ⟨length, kinds, bags', view', runs, dirs'⟩
  have kind' := (congrFun kinds p).trans kind
  have isMore : left + 1 - calls.length = left - calls.length + 1 := by omega
  have dirsMore := dirs'
  rw [isMore] at dirsMore
  exact ⟨length, bags', view', runs, dirs', dirsMore.lookup kind' named,
    dirsMore.unlink kind' named⟩

/-- The pairs that the calls put into a directory. -/
def addedTo (p : Nat) (calls : List DirCall) (answers : List (Answer Nat)) :
    Multiset (List Byte × Nat) := ((dirAnswers calls answers).map (enteredIn p)).sum

/-- These calls take nothing out. -/
theorem nothing_removed (p : Nat) (calls : List DirCall) (answers : List (Answer Nat)) :
    ((dirAnswers calls answers).map (removedFrom p)).sum = 0 := by
  apply List.sum_eq_zero
  intro bag member
  obtain ⟨⟨call, answer⟩, isAnswer, rfl⟩ := List.mem_map.mp member
  obtain ⟨dirCall, -, rfl⟩ := List.mem_map.mp (List.of_mem_zip isAnswer).1
  cases dirCall <;> rfl

end

/-! ## The root directory of the small disk -/

/-- The root directory of the small disk is a bag of its records, with room for eight more calls. -/
theorem root_directories : ∃ s bags, s.kind 0 = some .dir ∧
    Directories oneGroup (fun _ _ => False) {0} 8 s smallDisk bags := by
  obtain ⟨i, caches, -, file⟩ := root_file
  have only : ∀ q inode, soleInode rootInode q = some inode → q = 0 ∧ inode = rootInode := by
    intro q inode isInode
    rw [soleInode] at isInode
    split at isInode
    · exact ⟨‹_›, (Option.some.inj isInode).symm⟩
    · cases isInode
  have chains : ∀ lbk < 1, ∃ recs,
      Chain (byteBlock 4096 (fileByte smallDisk 4096 rootInode) lbk) 4096 0 recs := by
    intro lbk below
    obtain rfl : lbk = 0 := Nat.lt_one_iff.mp below
    have isData : fileBlock smallDisk 4096 rootInode 0 = some (smallDisk 5) := rfl
    obtain ⟨recs, chain⟩ := root_entries 0 (by decide) _ isData
    exact ⟨recs, chain.sameOn fun x low high => (@byteBlock_data oneGroup _ _ _ _ isData x low high).symm⟩
  obtain ⟨bag, bytes⟩ := exists_bag chains
  refine ⟨mountedOne smallDisk (soleInode rootInode) i caches, fun _ => bag, rfl, ?_⟩
  constructor
  · constructor
    · intro q inode isInode
      obtain ⟨rfl, rfl⟩ := only q inode isInode
      exact file
    · intro q inode q' inode' isInode isInode' differs
      exact absurd ((only q inode isInode).1.trans (only q' inode' isInode').1.symm) differs
  · decide
  · intro q dir isInode _
    obtain ⟨rfl, rfl⟩ := only q dir isInode
    exact ⟨1, rfl, by decide, bytes⟩

/-- Two names are added. -/
def twoNames : List DirCall := [.add 0 [0x61] 11 1, .add 0 [0x62] 11 1]

theorem twoNames_allowed {s : Vfs} (kind : s.kind 0 = some .dir) :
    ∀ call ∈ twoNames, call.Allowed s := by
  intro call member
  rcases List.mem_pair.mp member with isFirst | isSecond
  · rw [isFirst]
    exact ⟨kind, by decide, by decide, by decide⟩
  · rw [isSecond]
    exact ⟨kind, by decide, by decide, by decide⟩

/-- The theorem for these two calls, and the name of one of them. -/
theorem root_is_bag : ∃ s bags, wp (execDirCalls twoNames) (fun answers after =>
    answers.length = twoNames.length ∧ ∃ bags' view',
      Runs bags (dirAnswers twoNames answers) bags' ∧
      Directories oneGroup (fun _ _ => False) {0} 6 after view' bags' ∧
      (∃ found mid, ext2Lookup 0 [0x61] after = openFound found mid ∧
        Step bags' (.find 0 [0x61]) (.value found) bags' ∧
        Directories oneGroup (fun _ _ => False) {0} 5 mid view' bags') ∧
      ∃ found mid bags'' view'', ext2Unlink 0 [0x61] after = dropFound found mid ∧
        Step bags' (.remove 0 [0x61]) (.value found) bags'' ∧
        Directories oneGroup (fun _ _ => False) {0} 5 mid view'' bags'') s := by
  obtain ⟨s, bags, kind, dirs⟩ := root_directories
  exact ⟨s, bags, directories_are_bags dirs twoNames (twoNames_allowed kind) (by decide) kind
    (by decide)⟩

end CuteCore.Fs

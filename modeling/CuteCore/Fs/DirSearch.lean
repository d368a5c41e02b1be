import CuteCore.Fs.DirBlocks
import CuteCore.Fs.Storing

/-!
# Names in a directory

The bytes of a directory are blocks of records, and the bag of a directory has the names
and inode numbers of the live ones. The block loop that `ext2_lookup` and `ext2_unlink`
share finds a record with a name, where there is one.
-/

namespace CuteCore.Fs

open Hoare Bytes BlkCache

/-! ## The search in `ext2_lookup` and `ext2_unlink` -/

/-- Where a search stopped. -/
structure FoundEntry where
  lbk : Nat
  buf : ByteMap
  prev : Option Nat
  pos : Nat

def FoundEntry.number (entry : FoundEntry) : Nat := deInode entry.buf entry.pos

/-- The block loop of both. -/
def findEntry (p : Nat) (name : List Byte) : Nat → Nat → FsProg (Option FoundEntry)
  | 0, _ => return none
  | remaining + 1, lbk => do
    let s ← get
    let block ← ext2ReadBlock p lbk s.uninitialized
    match block with
    | none => findEntry p name remaining (lbk + 1)
    | some buf =>
      match scanFrom buf s.blockSize name s.blockSize none 0 with
      | .found prev pos => return some ⟨lbk, buf, prev, pos⟩
      | .absent => findEntry p name remaining (lbk + 1)
      | .outOfBounds => throw .badAccess

/-- `ext2_lookup` up to the number that it passes to `ext2_iget`. -/
def lookupNumber (p : Nat) (name : List Byte) : FsProg (Option Nat) := do
  let dir ← derefInode p
  if dir.type ≠ .dir ∨ name = [] then return none
  else do
    let s ← get
    let found ← findEntry p name (dirBlocks s.blockSize dir.size) 0
    return found.map FoundEntry.number

/-- `ext2_unlink` up to the number whose link it drops. -/
def eraseEntry (p : Nat) (name : List Byte) : FsProg (Option Nat) := do
  if name = [] then return none
  else do
    let dir ← derefInode p
    let s ← get
    let found ← findEntry p name (dirBlocks s.blockSize dir.size) 0
    match found with
    | none => return none
    | some entry => do
      let written ← ext2WriteBlock p entry.lbk (removeEntry entry.buf entry.prev entry.pos)
      if written = false then return none
      else return some entry.number

/-- The loop of `ext2_lookup` is the common search, of which it keeps the number. -/
theorem lookupFrom_eq (p : Nat) (name : List Byte) (remaining lbk : Nat) :
    lookupFrom p name remaining lbk = do
      let found ← findEntry p name remaining lbk
      return found.map FoundEntry.number := by
  induction remaining generalizing lbk with
  | zero =>
    rw [lookupFrom, findEntry, pure_bind]
    rfl
  | succ remaining inductionHypothesis =>
    rw [lookupFrom, findEntry, bind_assoc]
    apply bind_congr
    intro s
    rw [bind_assoc]
    apply bind_congr
    intro block
    cases block with
    | none => exact inductionHypothesis _
    | some buf =>
      simp only
      cases scanFrom buf s.blockSize name s.blockSize none 0 with
      | found prev pos => rw [pure_bind]; rfl
      | absent => exact inductionHypothesis _
      | outOfBounds => rfl

/-- What `ext2_lookup` does with the number. -/
def openFound : Option Nat → FsProg (Option Nat)
  | some ino => ext2Iget ino
  | none => return none

/-- What `ext2_unlink` does with it. -/
def dropFound : Option Nat → FsProg Bool
  | some ino => do
    dropLink ino
    return true
  | none => return false

/-- The whole of `ext2_lookup` is its search and `ext2_iget`. -/
theorem ext2Lookup_eq (p : Nat) (name : List Byte) :
    ext2Lookup p name = lookupNumber p name >>= openFound := by
  rw [ext2Lookup, lookupNumber, bind_assoc]
  apply bind_congr
  intro dir
  split
  · rw [pure_bind]
    rfl
  · rw [bind_assoc]
    apply bind_congr
    intro s
    rw [lookupFrom_eq, bind_assoc, bind_assoc]
    apply bind_congr
    intro found
    rw [pure_bind, pure_bind]
    cases found <;> rfl

/-- The loop of `ext2_unlink` is the common search, and what follows it for the entry that was
found: the record goes first, the link count after it. -/
theorem unlinkFrom_eq (p : Nat) (name : List Byte) (remaining lbk : Nat) :
    unlinkFrom p name remaining lbk = do
      let found ← findEntry p name remaining lbk
      match found with
      | none => return false
      | some entry => do
        let written ← ext2WriteBlock p entry.lbk (removeEntry entry.buf entry.prev entry.pos)
        if written = false then return false
        else do
          dropLink entry.number
          return true := by
  induction remaining generalizing lbk with
  | zero =>
    rw [unlinkFrom, findEntry, pure_bind]
  | succ remaining inductionHypothesis =>
    rw [unlinkFrom, findEntry, bind_assoc]
    apply bind_congr
    intro s
    rw [bind_assoc]
    apply bind_congr
    intro block
    cases block with
    | none => exact inductionHypothesis _
    | some buf =>
      simp only
      cases scanFrom buf s.blockSize name s.blockSize none 0 with
      | found prev pos => rw [pure_bind]; rfl
      | absent => exact inductionHypothesis _
      | outOfBounds => rfl

/-- The whole of `ext2_unlink` is the removal of the record and `dropLink`. -/
theorem ext2Unlink_eq (p : Nat) (name : List Byte) :
    ext2Unlink p name = eraseEntry p name >>= dropFound := by
  rw [ext2Unlink, eraseEntry]
  split
  · rw [pure_bind]
    rfl
  · rw [bind_assoc]
    apply bind_congr
    intro dir
    rw [bind_assoc]
    apply bind_congr
    intro s
    rw [unlinkFrom_eq, bind_assoc]
    apply bind_congr
    intro found
    cases found with
    | none => rw [pure_bind]; rfl
    | some entry =>
      simp only [bind_assoc]
      apply bind_congr
      intro written
      split
      · rw [pure_bind]
        rfl
      · rw [pure_bind]
        rfl

/-! ## The names in an array of bytes -/

/-- A block of the bytes. -/
def byteBlock (size : Nat) (byte : Nat → Byte) (lbk : Nat) : ByteMap := fun x => byte (size * lbk + x)

/-- A live record in the first `n` blocks. -/
def Listed (size : Nat) (byte : Nat → Byte) (n lbk pos : Nat) (name : List Byte) (ino : Nat) : Prop :=
  lbk < n ∧ Record size (byteBlock size byte lbk) pos ino name

/-- The blocks are chains of records, and the bag has the names and numbers of the live ones. -/
structure BagBytes (size : Nat) (byte : Nat → Byte) (n : Nat) (bag : Multiset (List Byte × Nat)) : Prop where
  chains : ∀ lbk < n, ∃ recs, Chain (byteBlock size byte lbk) size 0 recs
  lists : ∃ places : Finset (Nat × Nat × List Byte × Nat),
    bag = places.val.map (fun place => place.2.2) ∧
    ∀ lbk pos name ino, (lbk, pos, name, ino) ∈ places ↔ Listed size byte n lbk pos name ino

/-- One block of the bytes is replaced. -/
def withBlock (size : Nat) (byte : Nat → Byte) (lbk : Nat) (buf : ByteMap) : Nat → Byte :=
  ByteFiles.overlay byte (size * lbk) size buf

section

variable {size : Nat} {byte : Nat → Byte} {n lbk pos ino : Nat} {name : List Byte} {buf : ByteMap}
  {bag : Multiset (List Byte × Nat)}

/-- The positions of a block. -/
theorem block_of_bounds {at' : Nat} (low : size * lbk ≤ at') (high : at' < size * lbk + size) :
    at' / size = lbk :=
  Nat.div_eq_of_lt_le (Nat.mul_comm size lbk ▸ low)
    (by rwa [Nat.add_mul, Nat.one_mul, Nat.mul_comm lbk])

theorem withBlock_same : SameOn (byteBlock size (withBlock size byte lbk buf) lbk) buf 0 size := by
  intro x _ below
  rw [byteBlock, withBlock, ByteFiles.overlay_inside (by omega) (by omega), Nat.add_sub_cancel_left]

/-- To replace one block of a directory leaves the bytes of the others. -/
theorem withBlock_other {other : Nat} (differs : other ≠ lbk) :
    SameOn (byteBlock size (withBlock size byte lbk buf) other) (byteBlock size byte other) 0 size := by
  intro x _ below
  rw [Nat.zero_add] at below
  have outside : ¬ (size * lbk ≤ size * other + x ∧ size * other + x < size * lbk + size) := by
    rintro ⟨low, high⟩
    have isOther := Nat.mul_add_div (Nat.zero_lt_of_lt below) other x
    rw [Nat.div_eq_of_lt below, Nat.add_zero] at isOther
    exact differs (isOther.symm.trans (block_of_bounds low high))
  rw [byteBlock, withBlock, ByteFiles.overlay_outside (by omega)]
  rfl

theorem BagBytes.mem_iff (bytes : BagBytes size byte n bag) :
    (name, ino) ∈ bag ↔ ∃ lbk pos, Listed size byte n lbk pos name ino := by
  obtain ⟨places, rfl, lists⟩ := bytes.lists
  rw [Multiset.mem_map]
  constructor
  · rintro ⟨⟨lbk, pos, found, number⟩, member, same⟩
    obtain ⟨rfl, rfl⟩ := Prod.mk.inj same
    exact ⟨lbk, pos, (lists lbk pos found number).mp member⟩
  · rintro ⟨lbk, pos, listed⟩
    exact ⟨(lbk, pos, name, ino), (lists lbk pos name ino).mpr listed, rfl⟩

/-- Blocks that are chains have a bag. -/
theorem exists_bag (chains : ∀ lbk < n, ∃ recs, Chain (byteBlock size byte lbk) size 0 recs) :
    ∃ bag, BagBytes size byte n bag := by
  classical
  obtain ⟨nameAt, isName⟩ : ∃ nameAt : Nat → Nat → List Byte,
      ∀ lbk pos name, NameAt (byteBlock size byte lbk) pos name → nameAt lbk pos = name := by
    refine ⟨fun lbk pos => if named : ∃ name, NameAt (byteBlock size byte lbk) pos name then
      named.choose else [], fun lbk pos name named => ?_⟩
    have some : ∃ name, NameAt (byteBlock size byte lbk) pos name := ⟨name, named⟩
    exact (dif_pos some).trans (named.unique some.choose_spec)
  obtain ⟨live, isLive⟩ : ∃ live : Finset (Nat × Nat), ∀ lbk pos, (lbk, pos) ∈ live ↔
      ∃ name ino, Listed size byte n lbk pos name ino := by
    refine ⟨(Finset.range n ×ˢ Finset.range size).filter
      fun at' => ∃ name ino, Listed size byte n at'.1 at'.2 name ino, fun lbk pos => ?_⟩
    rw [Finset.mem_filter, Finset.mem_product, Finset.mem_range, Finset.mem_range]
    constructor
    · exact fun both => both.2
    · rintro ⟨name, ino, below, record⟩
      obtain ⟨recs, chain, member⟩ := record.chain
      have inside := (chain.nameInside member).1
      exact ⟨⟨below, by omega⟩, name, ino, below, record⟩
  refine ⟨_, chains, live.image fun at' => (at'.1, at'.2, nameAt at'.1 at'.2,
    deInode (byteBlock size byte at'.1) at'.2), rfl, fun lbk pos name ino => ?_⟩
  rw [Finset.mem_image]
  constructor
  · rintro ⟨⟨lbk', pos'⟩, member, same⟩
    obtain ⟨rfl, rfl, rfl, rfl⟩ : lbk' = lbk ∧ pos' = pos ∧ nameAt lbk' pos' = name ∧
      deInode (byteBlock size byte lbk') pos' = ino := by simpa using same
    obtain ⟨name, ino, listed⟩ := (isLive lbk' pos').mp member
    rwa [isName lbk' pos' name listed.2.named, listed.2.number]
  · intro listed
    refine ⟨(lbk, pos), (isLive lbk pos).mpr ⟨name, ino, listed⟩, ?_⟩
    rw [isName lbk pos name listed.2.named, listed.2.number]

/-- The records after one of the blocks was written, the last one perhaps new. -/
theorem listed_withBlock {n' : Nat} (more : n ≤ n') (inside : lbk < n')
    (others : ∀ other < n', other ≠ lbk → other < n) (lbk' pos' ino' : Nat) (name' : List Byte) :
    Listed size (withBlock size byte lbk buf) n' lbk' pos' name' ino' ↔
      if lbk' = lbk then Record size buf pos' ino' name' else Listed size byte n lbk' pos' name' ino' := by
  rw [Listed]
  split
  · rename_i isLbk
    subst isLbk
    constructor
    · rintro ⟨-, record⟩
      exact record.congr fun x low below => (withBlock_same x low below).symm
    · intro record
      exact ⟨inside, record.congr withBlock_same⟩
  · rename_i differs
    constructor
    · rintro ⟨below, record⟩
      refine ⟨others lbk' below differs, record.congr fun x low below => ?_⟩
      exact (withBlock_other differs x low below).symm
    · rintro ⟨below, record⟩
      exact ⟨by omega, record.congr (withBlock_other differs)⟩

/-- The written block is a chain, and so are all. -/
theorem BagBytes.chains_withBlock (bytes : BagBytes size byte n bag) {n' : Nat}
    (others : ∀ other < n', other ≠ lbk → other < n) {recs : List Nat}
    (chain : Chain buf size 0 recs) :
    ∀ other < n', ∃ recs, Chain (byteBlock size (withBlock size byte lbk buf) other) size 0 recs := by
  intro other below
  by_cases isLbk : other = lbk
  · subst isLbk
    exact ⟨recs, chain.sameOn withBlock_same⟩
  · obtain ⟨recs', chain'⟩ := bytes.chains other (others other below isLbk)
    exact ⟨recs', chain'.sameOn (withBlock_other isLbk)⟩

/-- A block was written in which one record is new. -/
theorem BagBytes.entered (bytes : BagBytes size byte n bag) {n' : Nat} (more : n ≤ n')
    (inside : lbk < n') (others : ∀ other < n', other ≠ lbk → other < n) {recs : List Nat}
    (chain : Chain buf size 0 recs) (isNew : ∀ ino' name', ¬ Listed size byte n lbk pos name' ino')
    (records : ∀ pos' ino' name', Record size buf pos' ino' name' ↔
      Listed size byte n lbk pos' name' ino' ∨ pos' = pos ∧ ino' = ino ∧ name' = name) :
    BagBytes size (withBlock size byte lbk buf) n' ((name, ino) ::ₘ bag) := by
  obtain ⟨places, isBag, lists⟩ := bytes.lists
  refine ⟨bytes.chains_withBlock others chain, insert (lbk, pos, name, ino) places, ?_, ?_⟩
  · have notThere : (lbk, pos, name, ino) ∉ places :=
      fun member => isNew ino name ((lists lbk pos name ino).mp member)
    rw [Finset.insert_val_of_notMem notThere, Multiset.map_cons, isBag]
  · intro lbk' pos' name' ino'
    rw [Finset.mem_insert, lists, listed_withBlock more inside others]
    simp only [Prod.mk.injEq]
    split
    · rename_i isLbk
      rw [isLbk, records]
      tauto
    · rename_i differs
      tauto

/-- A block was written in which one record is gone. -/
theorem BagBytes.removed (bytes : BagBytes size byte n bag)
    (listed : Listed size byte n lbk pos name ino)
    {recs : List Nat} (chain : Chain buf size 0 recs)
    (records : ∀ pos' ino' name', Record size buf pos' ino' name' ↔
      Record size (byteBlock size byte lbk) pos' ino' name' ∧ pos' ≠ pos) :
    BagBytes size (withBlock size byte lbk buf) n (bag.erase (name, ino)) := by
  obtain ⟨places, isBag, lists⟩ := bytes.lists
  have others : ∀ other < n, other ≠ lbk → other < n := fun _ below _ => below
  have member := (lists lbk pos name ino).mpr listed
  refine ⟨bytes.chains_withBlock others chain, places.erase (lbk, pos, name, ino), ?_, ?_⟩
  · rw [Finset.erase_val, isBag]
    exact (Multiset.map_erase_of_mem _ _ member).symm
  · intro lbk' pos' name' ino'
    rw [Finset.mem_erase, lists, listed_withBlock (Nat.le_refl n) listed.1 others]
    split
    · rename_i isLbk
      subst isLbk
      rw [records]
      constructor
      · rintro ⟨differs, -, record⟩
        refine ⟨record, ?_⟩
        rintro rfl
        apply differs
        rw [listed.2.named.unique record.named, ← record.number, ← listed.2.number]
      · rintro ⟨record, differs⟩
        refine ⟨fun same => differs ?_, listed.1, record⟩
        exact (Prod.mk.inj (Prod.mk.inj same).2).1
    · rename_i differs
      constructor
      · exact fun both => both.2
      · refine fun listed' => ⟨fun same => differs ?_, listed'⟩
        exact (Prod.mk.inj same).1

end

/-! ## The blocks of a directory -/

theorem Chain.positive {size : Nat} {buf : ByteMap} {recs : List Nat} (some : 0 < size)
    (chain : Chain buf size 0 recs) :
    deRecLen buf 0 ≠ 0 := by
  cases chain with
  | done => exact absurd rfl (Nat.ne_of_gt some)
  | record covers next =>
    have least := actualLen_covers buf 0
    omega

/-- What a search says about the records from a block on. -/
inductive Finds (size : Nat) (byte : Nat → Byte) (n : Nat) (name : List Byte) (start : Nat) :
    Option FoundEntry → Prop where
  | absent (missing : ∀ lbk pos ino, start ≤ lbk → ¬ Listed size byte n lbk pos name ino) :
      Finds size byte n name start none
  | found {entry : FoundEntry} {recs : List Nat} (inside : entry.lbk < n)
      (same : SameOn entry.buf (byteBlock size byte entry.lbk) 0 size)
      (chain : Chain entry.buf size 0 recs) (member : entry.pos ∈ recs)
      (place : Place entry.buf recs entry.prev entry.pos)
      (record : Record size entry.buf entry.pos entry.number name) :
      Finds size byte n name start (some entry)

section

variable {groups : Groups} {loose : Nat → Nat → Prop} {s : Vfs} {view : Nat → ByteMap}
  {held : Multiset Nat} {p n lbk : Nat} {dir : Inode} {name : List Byte}
  {bag : Multiset (List Byte × Nat)}

/-- The block and the offset of a byte. -/
theorem blockAndOffset {size x : Nat} (lbk : Nat) (below : x < size) :
    (size * lbk + x) / size = lbk ∧ (size * lbk + x) % size = x := by
  constructor
  · rw [Nat.mul_add_div (Nat.zero_lt_of_lt below), Nat.div_eq_of_lt below, Nat.add_zero]
  · rw [Nat.mul_add_mod, Nat.mod_eq_of_lt below]

theorem byteBlock_data {data : ByteMap}
    (found : fileBlock view groups.blockSize dir lbk = some data) :
    SameOn data (byteBlock groups.blockSize (fileByte view groups.blockSize dir) lbk) 0 groups.blockSize := by
  intro x _ below
  rw [Nat.zero_add] at below
  obtain ⟨isBlock, isOffset⟩ := blockAndOffset lbk below
  rw [byteBlock, fileByte, isBlock, isOffset, found]
  rfl

/-- A block of records has storage. -/
theorem BagBytes.backed
    (bytes : BagBytes groups.blockSize (fileByte view groups.blockSize dir) n bag)
    (inside : lbk < n) :
    ∃ data, fileBlock view groups.blockSize dir lbk = some data ∧ HasBlock groups.blockSize view dir lbk := by
  obtain ⟨recs, chain⟩ := bytes.chains lbk inside
  have head := chain.positive groups.sized.small.1
  have whole := groups.sized.whole
  have positive := groups.sized.small.1
  have zeros : (∀ x < groups.blockSize, byteBlock groups.blockSize (fileByte view groups.blockSize dir) lbk x = 0) → False := by
    intro empty
    apply head
    rw [deRecLen, load_congr fun x low high => empty x (by omega)]
    exact load_zeros _ _
  cases found : blockPath groups.blockSize lbk with
  | none =>
    refine (zeros fun x below => ?_).elim
    obtain ⟨isBlock, -⟩ := blockAndOffset lbk below
    rw [byteBlock, fileByte, isBlock, fileBlock, found]
    rfl
  | some place =>
    obtain ⟨slot, path⟩ := place
    refine ⟨_, fileBlock_eq found, slot, path, found, fun isHole => zeros fun x below => ?_⟩
    rw [← byteBlock_data (fileBlock_eq found) x (Nat.zero_le x) (by omega), dataAt, if_pos isHole]

/-- A block of the directory is read into a buffer. -/
theorem FileState.readRecords (file : FileState groups loose s view held p dir)
    (room : Multiset.card held < nBlkNum)
    (bytes : BagBytes groups.blockSize (fileByte view groups.blockSize dir) n bag)
    (inside : lbk < n) (buf : ByteMap) :
    wp (ext2ReadBlock p lbk buf) (fun block after => ∃ read recs, block = some read ∧
      SameOn read (byteBlock groups.blockSize (fileByte view groups.blockSize dir) lbk) 0 groups.blockSize ∧ Chain read groups.blockSize 0 recs ∧
      Io loose after view (fun _ => False) held ∧ SameFs s after) s := by
  have size := file.fs.fits.blockSize
  obtain ⟨data, found, -⟩ := bytes.backed inside
  obtain ⟨recs, chain⟩ := bytes.chains lbk inside
  have read := ext2ReadBlock_spec file.fs.io room file.isInode file.firmFile
    (size ▸ groups.sized.small.2) lbk buf
  rw [size, found] at read
  apply wp_mono read
  rintro block after ⟨isBlock, io, same⟩
  have copied : SameOn (copy buf 0 groups.blockSize data) (byteBlock groups.blockSize (fileByte view groups.blockSize dir) lbk) 0 groups.blockSize :=
    fun x low below => (sameOn_copy_whole buf data x low below).trans
      (byteBlock_data found x low below)
  exact ⟨_, recs, isBlock, copied, chain.sameOn copied, io, same⟩

/-- The block loop finds a record with the name where there is one. -/
theorem findEntry_spec (file : FileState groups loose s view held p dir)
    (room : Multiset.card held < nBlkNum)
    (bytes : BagBytes groups.blockSize (fileByte view groups.blockSize dir) n bag)
    (short : name.length ≤ 255) (remaining : Nat) (upTo : lbk + remaining = n) :
    wp (findEntry p name remaining lbk) (fun found after =>
      Finds groups.blockSize (fileByte view groups.blockSize dir) n name lbk found ∧
      Io loose after view (fun _ => False) held ∧ SameFs s after) s := by
  induction remaining generalizing s lbk with
  | zero =>
    refine wp_pure.mpr ⟨.absent fun lbk' pos ino low listed => ?_, file.fs.io, SameFs.refl s⟩
    have below := listed.1
    omega
  | succ remaining inductionHypothesis =>
    rw [findEntry, wp_bind, wp_get]
    apply wp_seq (file.readRecords room bytes (by omega) _)
    rintro block mid ⟨buf, recs, rfl, sameBytes, chain, ioMid, same⟩
    simp only [file.fs.fits.blockSize]
    have back : ∀ pos ino, Record groups.blockSize (byteBlock groups.blockSize (fileByte view groups.blockSize dir) lbk) pos ino name →
        pos ∈ recs ∧ Matches buf name pos := by
      intro pos ino record
      have inBuffer := record.congr sameBytes
      obtain ⟨recs', chain', member⟩ := inBuffer.chain
      rw [chain.unique chain'] at member
      exact ⟨member, (matches_iff short).mpr ⟨inBuffer.number ▸ inBuffer.used, inBuffer.named⟩⟩
    by_cases isThere : ∃ pos, pos ∈ recs ∧ Matches buf name pos
    · classical
      obtain ⟨member, isMatch⟩ := Nat.find_spec isThere
      obtain ⟨before, scanned, place⟩ := chain.scan_first groups.sized.small.2 short member isMatch
        (fun q isRecord isMatch' => Nat.find_min' isThere ⟨isRecord, isMatch'⟩) none groups.blockSize
        (Nat.le_refl _)
      obtain ⟨used, named⟩ := (matches_iff short).mp isMatch
      rw [scanned]
      refine wp_pure.mpr ⟨.found (by change lbk < n; omega) sameBytes chain member place ?_, ioMid,
        same⟩
      exact ⟨⟨recs, chain, member⟩, rfl, used, named⟩
    · have absent := chain.scan_absent groups.sized.small.2 short
        (fun q isRecord isMatch => isThere ⟨q, isRecord, isMatch⟩) none groups.blockSize
      rw [absent]
      have unchanged := (file.same (fun _ _ => False) ioMid same).file
      apply wp_mono (inductionHypothesis unchanged (by omega))
      rintro found after ⟨finds, ioAfter, same'⟩
      refine ⟨?_, ioAfter, same.trans same'⟩
      cases finds with
      | found inside sameBytes' chain' member place record =>
        exact .found inside sameBytes' chain' member place record
      | absent missing =>
        refine .absent fun lbk' pos ino low listed => ?_
        by_cases isHere : lbk' = lbk
        · subst isHere
          exact isThere ⟨pos, back pos ino listed.2⟩
        · exact missing lbk' pos ino (by omega) listed

end

end CuteCore.Fs

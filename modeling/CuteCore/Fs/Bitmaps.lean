import CuteCore.Fs.Blocks
import CuteCore.Library.Bits

/-!
# Bits of a bitmap

Both allocators keep one bit for each number of a group. Taking a number sets
the first clear bit, giving it back clears the bit, and nothing else in the
bitmap changes.

The scan goes by bytes and then by bits, up to a limit that is not a multiple of eight in
the last group. The counters are kept in three places: the descriptor in memory, its copy
in the table on disk and the superblock. A change of a bit is followed by a change of all
of them.
-/

namespace CuteCore.Fs

open Hoare Bytes

/-- The numbers below `limit` whose bit is clear. -/
def clearBits (data : ByteMap) (limit : Nat) : Finset Nat :=
  (Finset.range limit).filter fun b => bitAt data b = false

theorem mem_clearBits {data : ByteMap} {limit b : Nat} :
    b ∈ clearBits data limit ↔ b < limit ∧ bitAt data b = false := by
  rw [clearBits, Finset.mem_filter, Finset.mem_range]

theorem clearBits_setBit (data : ByteMap) (limit b : Nat) :
    clearBits (setBit data b) limit = (clearBits data limit).erase b := by
  ext c
  rw [mem_clearBits, Finset.mem_erase, mem_clearBits, bitAt_setBit]
  by_cases same : c = b <;> simp [same]

theorem clearBits_clearBit (data : ByteMap) (limit b : Nat) (inside : b < limit) :
    clearBits (clearBit data b) limit = insert b (clearBits data limit) := by
  ext c
  rw [mem_clearBits, Finset.mem_insert, mem_clearBits, bitAt_clearBit]
  by_cases same : c = b
  · simp [same, inside]
  · simp [same]

/-- The first clear bit of a byte. -/
theorem clearBitOf_some {byte index limit bit : Nat}
    (found : clearBitOf byte index limit = some bit) :
    bit / 8 = index ∧ bit < limit ∧ byte.testBit (bit % 8) = false ∧
      ∀ k < bit % 8, byte.testBit k = true := by
  unfold clearBitOf at found
  split at found
  · rename_i k first
    split at found
    · rename_i below
      obtain rfl := Option.some.inj found
      rw [List.find?_range_eq_some] at first
      obtain ⟨isClear, inByte, earlier⟩ := first
      have small := List.mem_range.mp inByte
      have isK : (index * 8 + k) % 8 = k := by omega
      refine ⟨by omega, below, ?_, ?_⟩
      · rw [isK]
        simpa using isClear
      · rw [isK]
        intro j less
        simpa using earlier j less
    · cases found
  · cases found

/-- No clear bit of a byte is below the limit. -/
theorem clearBitOf_none {byte index limit : Nat} (missed : clearBitOf byte index limit = none)
    (k : Nat) (small : k < 8) (below : index * 8 + k < limit) : byte.testBit k = true := by
  unfold clearBitOf at missed
  split at missed
  · rename_i first isFirst
    split at missed
    · cases missed
    · rename_i beyond
      rw [List.find?_range_eq_some] at isFirst
      obtain ⟨-, -, earlier⟩ := isFirst
      simpa using earlier k (by omega)
  · rename_i none
    rw [List.find?_eq_none] at none
    simpa using none k (List.mem_range.mpr small)

/-- Bit `b` is the first clear one from `start` on. -/
def FirstClear (data : ByteMap) (limit start b : Nat) : Prop :=
  start ≤ b ∧ b < limit ∧ bitAt data b = false ∧ ∀ c, start ≤ c → c < b → bitAt data c = true

variable {loose : Nat → Nat → Prop} {s : Vfs} {view : Nat → ByteMap} {pending : Nat → Prop}
  {held : Multiset Nat}

/-- The scan finds the first clear bit of the bytes it is given. -/
theorem findClear_spec (io : Io loose s view pending held) {bmap : Fin nBlkNum} {no : Nat}
    (buffers : s.caches.Buffers bmap no) (tight : ∀ x, ¬ loose no x) (limit remaining index : Nat)
    (fits : index + remaining ≤ blkSz) (enough : limit ≤ (index + remaining) * 8) :
    wp (findClear bmap limit remaining index) (fun found after => after = s ∧
      match found with
      | some bit => FirstClear (view no) limit (index * 8) bit
      | none => ∀ b, index * 8 ≤ b → b < limit → bitAt (view no) b = true) s := by
  induction remaining generalizing index with
  | zero =>
    refine wp_pure.mpr ⟨rfl, fun b low below => ?_⟩
    omega
  | succ remaining inductionHypothesis =>
    rw [findClear]
    apply wp_seq (io.loadBuf_spec buffers (by omega : index + 1 ≤ blkSz) fun x _ _ => tight x)
    rintro byte _ ⟨isByte, rfl⟩
    rw [load_byte] at isByte
    have here : ∀ b, b / 8 = index → bitAt (view no) b = byte.testBit (b % 8) := by
      intro b isIndex
      rw [bitAt, isIndex, isByte]
    cases first : clearBitOf byte index limit with
    | some bit =>
      obtain ⟨isIndex, below, isClear, earlier⟩ := clearBitOf_some first
      refine wp_pure.mpr ⟨rfl, by omega, below, (here bit isIndex).trans isClear, ?_⟩
      intro c low less
      rw [here c (by omega)]
      exact earlier _ (by omega)
    | none =>
      have allSet := clearBitOf_none first
      have setHere : ∀ b, b / 8 = index → b < limit → bitAt (view no) b = true := by
        intro b isIndex below
        rw [here b isIndex]
        exact allSet _ (by omega) (by omega)
      apply wp_mono (inductionHypothesis (index + 1) (by omega) (by omega))
      rintro found _ ⟨rfl, outcome⟩
      refine ⟨rfl, ?_⟩
      cases found with
      | some bit =>
        obtain ⟨low, below, isClear, earlier⟩ := outcome
        refine ⟨by omega, below, isClear, fun c lowC less => ?_⟩
        by_cases isIndex : c / 8 = index
        · exact setHere c isIndex (by omega)
        · exact earlier c (by omega) less
      | none =>
        intro b low below
        by_cases isIndex : b / 8 = index
        · exact setHere b isIndex below
        · exact outcome b (by omega) below

/-- Taking the first clear bit of a bitmap block. -/
theorem claimBit_spec (io : Io loose s view (fun _ => False) held) (no limit : Nat)
    (tight : ∀ x, ¬ loose no x) (small : limit ≤ 8 * blkSz)
    (room : Multiset.card held < nBlkNum) :
    wp (claimBit no limit) (fun found after => SameFs s after ∧
      match found with
      | some bit => FirstClear (view no) limit 0 bit ∧
        Io loose after (Function.update view no (setBit (view no) bit)) (fun _ => False) held
      | none => (∀ b < limit, bitAt (view no) b = true) ∧
        Io loose after view (fun _ => False) held) s := by
  have blkSize : blkSz = 4096 := rfl
  rw [blkSize] at small
  have noWrap : u32 (limit + 7) = limit + 7 := Nat.mod_eq_of_lt (by omega)
  rw [claimBit]
  apply wp_seq (io.bread_spec no room)
  rintro bmap opened ⟨read, toOpened, buffers, -⟩
  rw [noWrap]
  apply wp_seq (findClear_spec read buffers tight limit ((limit + 7) / 8) 0 (by omega) (by omega))
  rintro found _ ⟨rfl, outcome⟩
  cases found with
  | none =>
    apply wp_seq (read.brelse_spec buffers not_false io.superHeld)
    rintro - after ⟨released, toAfter, -⟩
    refine wp_pure.mpr ⟨toOpened.trans toAfter, fun b below => outcome b (by omega) below, released⟩
  | some bit =>
    have first : FirstClear (view no) limit 0 bit := by simpa using outcome
    have below := first.2.1
    apply wp_seq (read.loadBuf_spec buffers (by omega : bit / 8 + 1 ≤ blkSz) fun x _ _ => tight x)
    rintro byte _ ⟨rfl, rfl⟩
    refine wp_seq (read.storeBuf_spec buffers (Multiset.mem_cons_self ..)
      (by omega : bit / 8 + 1 ≤ blkSz)) ?_
    rintro - stored ⟨changed, toStored, keeps⟩
    apply wp_seq (changed.bwrite_spec (keeps _ _ buffers) not_false)
    rintro - written ⟨recorded, toWritten, keeps'⟩
    apply wp_seq (recorded.brelse_spec (keeps' _ _ (keeps _ _ buffers)) not_false io.superHeld)
    rintro - after ⟨released, toAfter, -⟩
    exact wp_pure.mpr ⟨((toOpened.trans toStored).trans toWritten).trans toAfter, first, released⟩

/-- The block of the descriptor table that holds descriptor `g`. -/
def gdtBlock (view : Nat → ByteMap) (blockSize g : Nat) : Nat :=
  u32 (load (view 0) 1044 4 + 1 + g / (blockSize / 32))

/-- The blocks after descriptor `g` of `table` is written back. -/
def putGdesc (view : Nat → ByteMap) (blockSize : Nat) (table : ByteMap) (g : Nat) : Nat → ByteMap :=
  Function.update view (gdtBlock view blockSize g)
    (copy (view (gdtBlock view blockSize g)) (g % (blockSize / 32) * 32) 32
      fun x => table (g * 32 + x))

/-- `writeGdesc` copies the descriptor of one group from memory to its place in the table on disk.
-/
theorem writeGdesc_spec (io : Io loose s view (fun _ => False) held) (g : Nat)
    (size : MountedSize s.blockSize) (tight : ∀ x, ¬ loose 0 x)
    (room : Multiset.card held < nBlkNum) :
    wp (writeGdesc g) (fun _ after => SameFs s after ∧
      Io loose after (putGdesc view s.blockSize s.gbTable g) (fun _ => False) held) s := by
  rw [writeGdesc, wp_bind, wp_get]
  apply wp_seq (io.loadSuper_spec (by decide) tight)
  rintro first s ⟨rfl, rfl⟩
  apply wp_seq (io.bread_spec _ room)
  rintro gdt opened ⟨read, toOpened, buffers, -⟩
  have fits : g % (s.blockSize / 32) * 32 + 32 ≤ blkSz := by
    have whole := size.whole.2
    have positive := size.small
    have isLocal := Nat.mod_lt g (show 0 < s.blockSize / 32 by omega)
    omega
  refine wp_seq (read.copyBuf_spec buffers (Multiset.mem_cons_self ..) fits) ?_
  rintro - stored ⟨changed, toStored, keeps⟩
  apply wp_seq (changed.bwrite_spec (keeps _ _ buffers) not_false)
  rintro - written ⟨recorded, toWritten, keeps'⟩
  apply wp_mono (recorded.brelse_spec (keeps' _ _ (keeps _ _ buffers)) not_false io.superHeld)
  rintro - after ⟨released, toAfter, -⟩
  exact ⟨((toOpened.trans toStored).trans toWritten).trans toAfter, released⟩

/-- The descriptor table after one of its counters changed. -/
def countedTable (table : ByteMap) (r : Resource) (g delta : Nat) : ByteMap :=
  store table (g * 32 + r.groupFree) 2 (load table (g * 32 + r.groupFree) 2 + delta)

/-- The blocks after the counter in the superblock changed. -/
def countedSuper (view : Nat → ByteMap) (r : Resource) (delta : Nat) : Nat → ByteMap :=
  Function.update view 0
    (store (view 0) (1024 + r.superFree) 4 (load (view 0) (1024 + r.superFree) 4 + delta))

/-- At most the cache and the descriptor table differ. -/
def SameButTable (s after : Vfs) (table : ByteMap) : Prop :=
  { s with caches := after.caches, gbTable := table } = after

/-- The two counters of a resource move together: the one in the group's descriptor, which is
written back to its block, and the one in the superblock's buffer. -/
theorem countFree_spec (io : Io loose s view (fun _ => False) held) (r : Resource) (g d16 d32 : Nat)
    (size : MountedSize s.blockSize) (tight : ∀ x, ¬ loose 0 x) (inSuper : r.superFree + 4 ≤ 1024)
    (room : Multiset.card held < nBlkNum) :
    wp (countFree r g d16 d32) (fun _ after =>
      SameButTable s after (countedTable s.gbTable r g d16) ∧
      Io loose after
        (countedSuper (putGdesc view s.blockSize (countedTable s.gbTable r g d16) g) r d32)
        (fun _ => False) held) s := by
  have blkSize : blkSz = 4096 := rfl
  rw [countFree, wp_bind, wp_modify]
  have counted : Io loose { s with gbTable := countedTable s.gbTable r g d16 } view
      (fun _ => False) held := ⟨io.rep, io.super, io.superHeld⟩
  apply wp_seq (writeGdesc_spec counted g size tight room)
  rintro - mid ⟨toMid, written⟩
  apply wp_seq (written.loadSuper_spec (by omega) tight)
  rintro _ loaded ⟨rfl, rfl⟩
  rw [wp_bind, wp_get]
  apply wp_seq (written.storeBuf_spec written.super written.superHeld (by omega))
  rintro - stored ⟨changed, toStored, keeps⟩
  have sameBuf : stored.sbBuf = loaded.sbBuf := by rw [← toStored]
  apply wp_mono (changed.bwrite_spec (sameBuf ▸ changed.super) not_false)
  rintro - after ⟨recorded, toAfter, -⟩
  refine ⟨?_, recorded⟩
  have toEnd := (toMid.trans toStored).trans toAfter
  unfold SameButTable
  rw [← toEnd]

end CuteCore.Fs

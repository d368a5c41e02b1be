import CuteCore.Fs.Reading

/-!
# Open files

`fileread` of `file.c` over the file system. Each open file has an offset of its own.
`readi` works on a copy of it, and the caller moves the offset by the bytes returned.
Files of ext2 are never of the type `INODE_DEV`, and their `read` is `ext2_file_read`.
-/

namespace CuteCore.Fs

open Hoare Bytes BlkCache

/-- `struct file`; a null inode is none. -/
structure OpenFile where
  ref : Int
  flags : Nat
  offset : Nat
  inode : Option Nat

/-- The file system with the open files, behind pointers. -/
structure OpenFiles where
  fs : Vfs
  file : Nat → Option OpenFile

abbrev FileProg (α : Type) := Prog OpenFiles Fault α

def onFs {α : Type} (program : FsProg α) : FileProg α :=
  onPart OpenFiles.fs (fun fs s => { s with fs := fs }) program

/-- `FILE_READABLE` -/
def OpenFile.readable (f : OpenFile) : Prop := f.flags &&& 3 ≠ 1

instance (f : OpenFile) : Decidable f.readable := inferInstanceAs (Decidable (_ ≠ _))

def derefFile (f : Nat) : FileProg OpenFile := do
  let s ← get
  match s.file f with
  | some file => return file
  | none => throw .badAccess

/-- The result and the caller's buffer. -/
def readi (inode : Option Nat) (buf : ByteMap) (offset len : Nat) : FsProg (Int × ByteMap) :=
  match inode with
  | none => return (-1, buf)
  | some p => do
    let got ← ext2FileRead p len offset buf
    return (got.1, got.2.2)

def fileread (f : Option Nat) (buf : ByteMap) (len : Nat) : FileProg (Int × ByteMap) :=
  match f with
  | none => return (-1, buf)
  | some f => do
    let file ← derefFile f
    match file.inode with
    | none => return (-1, buf)
    | some ip =>
      if ¬ file.readable then return (-1, buf)
      else do
        let inode ← onFs (derefInode ip)
        match inode.type with
        | .file => do
          let got ← onFs (readi (some ip) buf file.offset len)
          onlyIf (0 < got.1) (modify fun s => { s with
            file := Function.update s.file f
              (some { file with offset := u32 (file.offset + got.1.toNat) }) })
          return got
        | _ => return (-1, buf)

/-- Successive reads, each with a length and a buffer of its own. -/
def readSequence (f : Nat) : List (Nat × ByteMap) → FileProg (List (Int × ByteMap))
  | [] => return []
  | (len, buf) :: rest => do
    let got ← fileread (some f) buf len
    let more ← readSequence f rest
    return got :: more

/-- The bytes a read hands out. -/
def delivered (got : Int × ByteMap) : List Byte := (List.range got.1.toNat).map got.2

/-- `n` bytes of the file from a position on. -/
def fileBytes (view : Nat → ByteMap) (blockSize : Nat) (inode : Inode) (start n : Nat) :
    List Byte :=
  (List.range n).map fun i => fileByte view blockSize inode (start + i)

theorem fileBytes_append (view : Nat → ByteMap) (blockSize : Nat) (inode : Inode)
    (start n k : Nat) : fileBytes view blockSize inode start n ++
      fileBytes view blockSize inode (start + n) k = fileBytes view blockSize inode start (n + k) := by
  simp only [fileBytes, List.range_add, List.map_append, List.map_map, Function.comp_def,
    Nat.add_assoc]

theorem i32_of_small {n : Nat} (small : n < 2 ^ 31) : i32 n = n := by
  rw [i32, Nat.mod_eq_of_lt (by omega), if_pos small]

section

variable {loose : Nat → Nat → Prop} {s : OpenFiles} {view : Nat → ByteMap} {pending : Nat → Prop}
  {held : Multiset Nat} {ip f : Nat} {inode : Inode} {file : OpenFile}

/-- An open file on a regular file, and a cache that stands for the blocks. -/
structure Readable (loose : Nat → Nat → Prop) (s : OpenFiles) (view : Nat → ByteMap)
    (pending : Nat → Prop) (held : Multiset Nat) (f ip : Nat) (file : OpenFile) (inode : Inode) :
    Prop where
  io : Io loose s.fs view pending held
  room : Multiset.card held < nBlkNum
  isFile : s.file f = some file
  points : file.inode = some ip
  canRead : file.readable
  isInode : s.fs.inodes ip = some inode
  regular : inode.type = .file
  firm : FirmFile loose pending view s.fs.blockSize inode
  blocks : s.fs.blockSize = 4096
  size : inode.size < 2 ^ 32
  offset : file.offset < 2 ^ 32

/-- `ext2_file_read` on a file whose positions all have blocks. -/
theorem readi_spec (ready : Readable loose s view pending held f ip file inode) (buf : ByteMap)
    {len : Nat} (short : len < 2 ^ 31) :
    wp (readi (some ip) buf file.offset len) (fun got after =>
      got.1 = (min len (inode.size - file.offset) : Nat) ∧
      delivered got = fileBytes view 4096 inode file.offset (min len (inode.size - file.offset)) ∧
      Io loose after view pending held ∧ SameFs s.fs after) s.fs := by
  obtain ⟨n, isN⟩ : ∃ n, n = min len (inode.size - file.offset) := ⟨_, rfl⟩
  have small := ready.size
  have blocks := ready.blocks
  rw [readi, ← isN]
  apply wp_seq (ext2FileRead_spec ready.io ready.room ready.isInode ready.firm
    ⟨2, Nat.le_refl _, blocks⟩ ready.offset len buf)
  rintro result after ⟨atEnd, moves, io, same⟩
  rw [wp_pure]
  by_cases below : file.offset < inode.size
  · obtain ⟨k, moved⟩ := moves below
    rw [blocks] at moved
    have isLength : readLength inode.size len file.offset = n := by
      rw [readLength, Nat.mod_eq_of_lt (by omega)]
      split <;> omega
    rw [isLength] at moved
    -- No position of the file is beyond the addressable ones.
    have limit : 2 ^ 32 ≤ addressable 4096 := by decide
    have wrapped : u32 (file.offset + k) < 2 ^ 32 := Nat.mod_lt _ (by decide)
    rcases moved.ends with ⟨isK, isResult⟩ | ⟨-, beyond, -⟩
    · rw [Nat.zero_add] at isK
      subst isK
      have isCount : result.1 = (k : Int) := by rw [isResult, i32_of_small (by omega)]
      refine ⟨isCount, ?_, io, same⟩
      rw [delivered, fileBytes, isCount, Int.toNat_natCast]
      apply List.map_congr_left
      intro i member
      have less : i < k := List.mem_range.mp member
      rw [moved.bytes, copy_inside _ _ _ _ _ (Nat.zero_le _) (by omega), Nat.sub_zero, u32,
        Nat.mod_eq_of_lt (by omega)]
    · omega
  · have none : n = 0 := by omega
    rw [atEnd (Nat.le_of_not_lt below), none]
    exact ⟨rfl, rfl, io, same⟩

/-- One `fileread`: the bytes from the offset on, up to the end of the file, and the offset moves by
their number. -/
theorem fileread_spec (ready : Readable loose s view pending held f ip file inode) (buf : ByteMap)
    {len n : Nat} (short : len < 2 ^ 31) (isN : n = min len (inode.size - file.offset)) :
    wp (fileread (some f) buf len) (fun got after =>
      got.1 = n ∧ delivered got = fileBytes view 4096 inode file.offset n ∧
      Readable loose after view pending held f ip { file with offset := file.offset + n } inode ∧
      SameFs s.fs after.fs ∧ ∀ g, g ≠ f → after.file g = s.file g) s := by
  have size := ready.size
  have low := ready.offset
  rw [fileread, derefFile, wp_bind, wp_bind, wp_get]
  simp only [ready.isFile]
  rw [wp_pure]
  simp only [ready.points]
  rw [if_neg (not_not.mpr ready.canRead), wp_bind, onFs, wp_onPart, derefInode, wp_bind, wp_get]
  simp only [ready.isInode]
  rw [wp_pure]
  simp only [ready.regular]
  rw [wp_bind, onFs, wp_onPart]
  apply wp_mono (readi_spec ready buf short)
  rw [← isN]
  rintro got after ⟨isCount, bytes, io, same⟩
  have kept : after.inodes ip = some inode := by rw [same.inodes, ready.isInode]
  rw [wp_bind, wp_onlyIf]
  split
  · rw [wp_modify, wp_pure, isCount, Int.toNat_natCast, u32, Nat.mod_eq_of_lt (by omega)]
    refine ⟨rfl, bytes, ?_, same, fun g differs => Function.update_of_ne differs _ _⟩
    exact ⟨io, ready.room, Function.update_self .., rfl, ready.canRead, kept,
      ready.regular, same.blockSize ▸ ready.firm, same.blockSize.trans ready.blocks, ready.size,
      by simp only; omega⟩
  · have none : n = 0 := by omega
    subst none
    rw [wp_pure]
    have isFile : s.file f = some { file with offset := file.offset + 0, inode := some ip } := by
      rw [← ready.points]
      exact ready.isFile
    exact ⟨isCount, bytes, ⟨io, ready.room, isFile, rfl, ready.canRead, kept, ready.regular, same.blockSize ▸ ready.firm, same.blockSize.trans ready.blocks, ready.size,
      ready.offset⟩, same, fun g _ => rfl⟩

/-- Successive reads hand out the file in order. -/
theorem readSequence_spec (ready : Readable loose s view pending held f ip file inode)
    (reads : List (Nat × ByteMap)) (short : ∀ read ∈ reads, read.1 < 2 ^ 31) {n : Nat}
    (isN : n = min (reads.map Prod.fst).sum (inode.size - file.offset)) :
    wp (readSequence f reads) (fun gots after =>
      (∀ got ∈ gots, 0 ≤ got.1) ∧
      gots.flatMap delivered = fileBytes view 4096 inode file.offset n ∧
      Readable loose after view pending held f ip { file with offset := file.offset + n } inode ∧
      SameFs s.fs after.fs ∧ ∀ g, g ≠ f → after.file g = s.file g) s := by
  induction reads generalizing s file n with
  | nil =>
    obtain rfl : n = 0 := by
      rw [isN]
      exact Nat.zero_min _
    exact wp_pure.mpr ⟨fun got member => absurd member List.not_mem_nil, rfl, ready,
      SameFs.refl _, fun g _ => rfl⟩
  | cons read rest inductionHypothesis =>
    obtain ⟨len, buf⟩ := read
    obtain ⟨first, isFirst⟩ : ∃ first, first = min len (inode.size - file.offset) := ⟨_, rfl⟩
    rw [List.map_cons, List.sum_cons] at isN
    rw [readSequence]
    apply wp_seq (fileread_spec ready buf (short _ (List.mem_cons_self ..)) isFirst)
    rintro got mid ⟨isCount, bytes, readyMid, same, others⟩
    have isRest : n - first =
        min (rest.map Prod.fst).sum (inode.size - (file.offset + first)) := by
      simp only at isN
      omega
    apply wp_seq (inductionHypothesis readyMid
      (fun read member => short read (List.mem_cons_of_mem _ member)) isRest)
    rintro more after ⟨nonneg, moreBytes, readyAfter, same', others'⟩
    simp only at moreBytes readyAfter
    have whole : first + (n - first) = n := by
      simp only at isN
      omega
    rw [Nat.add_assoc, whole] at readyAfter
    refine wp_pure.mpr ⟨?_, ?_, readyAfter, same.trans same', fun g differs =>
      (others' g differs).trans (others g differs)⟩
    · intro one member
      rcases List.mem_cons.mp member with isGot | inRest
      · rw [isGot, isCount]
        exact Int.natCast_nonneg _
      · exact nonneg one inRest
    · rw [List.flatMap_cons, bytes, moreBytes, fileBytes_append, whole]

theorem length_delivered (gots : List (Int × ByteMap)) :
    (gots.flatMap delivered).length = (gots.map fun got => got.1.toNat).sum := by
  rw [List.length_flatMap]
  congr 1
  apply List.map_congr_left
  intro got _
  rw [delivered, List.length_map, List.length_range]

/-- Successive `fileread` calls hand out the contents of the file up to its end, and move
the offset of this open file by what they return. Nothing else changes. -/
theorem sequential_reads_deliver
    (ready : Readable loose s s.fs.block pending held f ip file inode)
    (reads : List (Nat × ByteMap)) (short : ∀ read ∈ reads, read.1 < 2 ^ 31) :
    wp (readSequence f reads) (fun gots after =>
      (∀ got ∈ gots, 0 ≤ got.1) ∧
      gots.flatMap delivered = fileBytes s.fs.block 4096 inode file.offset
        (min inode.size (file.offset + (reads.map Prod.fst).sum) - file.offset) ∧
      after.file f =
        some { file with offset := file.offset + (gots.map fun got => got.1.toNat).sum } ∧
      after.fs.inodes = s.fs.inodes ∧
      (∀ no, Agree loose no (after.fs.block no) (s.fs.block no)) ∧
      ∀ g, g ≠ f → after.file g = s.file g) s := by
  obtain ⟨n, isN⟩ : ∃ n, n = min (reads.map Prod.fst).sum (inode.size - file.offset) := ⟨_, rfl⟩
  have isEnd : min inode.size (file.offset + (reads.map Prod.fst).sum) - file.offset = n := by
    omega
  rw [isEnd]
  apply wp_mono (readSequence_spec ready reads short isN)
  rintro gots after ⟨nonneg, bytes, readyAfter, same, others⟩
  have total : (gots.map fun got => got.1.toNat).sum = n := by
    rw [← length_delivered, bytes, fileBytes, List.length_map, List.length_range]
  rw [total]
  exact ⟨nonneg, bytes, readyAfter.isFile, same.inodes, readyAfter.io.block_agrees, others⟩

end

/-- A disk with two blocks of a file: 7 in all bytes of the first one and 9 in the second. -/
def twoBlocks : Nat → ByteMap
  | 5 => fun _ => 7
  | 6 => fun _ => 9
  | _ => fun _ => 0

/-- The file reaches four bytes into its second block. -/
def twoBlocksInode : Inode :=
  { sparseInode with
    size := 4100
    iBlock := fun i => if i.val = 0 then 5 else if i.val = 1 then 6 else 0 }

/-- The file, opened for reading two bytes before the end of its first block. -/
def twoBlocksOpen : OpenFiles where
  fs := oneInode twoBlocks twoBlocksInode
  file g := if g = 0 then some ⟨1, 0, 4094, some 0⟩ else none

/-- The file meets the conditions of the theorem. -/
theorem twoBlocksOpen_readable : Readable (fun _ _ => False) twoBlocksOpen
    (oneInode twoBlocks twoBlocksInode).block (fun _ => False) {firstSlot.val} 0 0
    ⟨1, 0, 4094, some 0⟩ twoBlocksInode := by
  constructor
  · exact (oneInode_io twoBlocks twoBlocksInode).of_blocks
  · decide
  · rfl
  · rfl
  · decide
  · rfl
  · rfl
  · exact firmFile_of_tight
  · rfl
  · decide
  · decide

/-- The theorem for two reads: the first one crosses from one block to the other, and the second
one is longer than what is left. -/
theorem twoBlocksOpen_delivers : ∃ gots after,
    Returns (readSequence 0 [(3, fun _ => 1), (100, fun _ => 1)]) twoBlocksOpen gots after ∧
    gots.flatMap delivered = [7, 7, 9, 9, 9, 9] ∧
    after.file 0 = some ⟨1, 0, 4094 + (gots.map fun got => got.1.toNat).sum, some 0⟩ := by
  obtain ⟨gots, after, returned, -, bytes, moved, -⟩ :=
    sequential_reads_deliver twoBlocksOpen_readable [(3, fun _ => 1), (100, fun _ => 1)] (by decide)
  refine ⟨gots, after, returned, bytes.trans ?_, moved⟩
  decide +kernel

end CuteCore.Fs

import CuteCore.Fs.FileWrites

/-!
# Reading after writing

A state in which every inode in memory owns its blocks alone. `ext2_write_block`
changes one logical block of one inode, or nothing that can be read.

What can be read is stated by `ext2_read_block` itself, for each inode and each logical
block, so the result says what a caller sees: the block that was written reads back, all
others read as before, and holes stay holes. A write that fails halfway may leave blocks
behind, and they read as before, too.
-/

namespace CuteCore.Fs

open Hoare Bytes BlkCache

variable {groups : Groups} {loose : Nat → Nat → Prop} {s : Vfs} {view : Nat → ByteMap}
  {held : Multiset Nat} {p : Nat} {inode : Inode}

/-- Every inode is a file that owns its blocks, and no two inodes share one. -/
structure Owners (groups : Groups) (loose : Nat → Nat → Prop) (s : Vfs) (view : Nat → ByteMap)
    (held : Multiset Nat) : Prop where
  files : ∀ q inode, s.inodes q = some inode → FileState groups loose s view held q inode
  apart : ∀ q inode q' inode', s.inodes q = some inode → s.inodes q' = some inode' → q ≠ q' →
    ∀ slot path slot' path', IsNode groups.blockSize slot path → IsNode groups.blockSize slot' path' →
      ptrAt view inode slot path ≠ 0 →
      ptrAt view inode slot path ≠ ptrAt view inode' slot' path'

/-- What `ext2_read_block` gives for a buffer. -/
def ReadsAs (s : Vfs) (q lbk : Nat) (buf : ByteMap) (got : Option ByteMap) : Prop :=
  wp (ext2ReadBlock q lbk buf) (fun result _ => result = got) s

/-- The logical blocks that are backed by storage. -/
def Backed (size : Nat) (view : Nat → ByteMap) (s : Vfs) (q lbk : Nat) : Prop :=
  ∃ inode, s.inodes q = some inode ∧ HasBlock size view inode lbk

/-- Reading gives the logical block of the tree. -/
theorem FileState.reads (file : FileState groups loose s view held p inode)
    (room : Multiset.card held < nBlkNum) (lbk : Nat) (buf : ByteMap) :
    ReadsAs s p lbk buf ((fileBlock view groups.blockSize inode lbk).map (copy buf 0 groups.blockSize)) := by
  have size := file.fs.fits.blockSize
  have read := ext2ReadBlock_spec file.fs.io room file.isInode file.firmFile
    (size ▸ groups.sized.small.2) lbk buf
  rw [size] at read
  exact wp_mono read fun _ _ gives => gives.1

theorem ReadsAs.unique {q lbk : Nat} {buf : ByteMap} {got got' : Option ByteMap}
    (first : ReadsAs s q lbk buf got) (second : ReadsAs s q lbk buf got') : got = got' := by
  obtain ⟨result, after, returned, rfl⟩ := first
  exact second.of_returns returned

/-- The pointers of an inode that owns none of the changed blocks stay. -/
theorem Framed.foreign {hit : Fin nBlocks → List Nat → Prop} {view' : Nat → ByteMap}
    {inode' other : Inode} {q : Nat} (framed : Framed groups hit s view inode view' inode')
    (owners : Owners groups loose s view held) (isInode : s.inodes p = some inode)
    (isOther : s.inodes q = some other) (differs : q ≠ p) {slot : Fin nBlocks} {path : List Nat}
    (isNode : IsNode groups.blockSize slot path) (some : ptrAt view other slot path ≠ 0) :
    view' (ptrAt view other slot path) = view (ptrAt view other slot path) := by
  apply framed.elsewhere _ ((owners.files q other isOther).owned slot path isNode some)
  intro slot' path' isNode' same
  exact owners.apart q other p inode isOther isInode differs slot path slot' path' isNode isNode'
    some same.symm

theorem Framed.foreignPtr {hit : Fin nBlocks → List Nat → Prop} {view' : Nat → ByteMap}
    {inode' other : Inode} {q : Nat} (framed : Framed groups hit s view inode view' inode')
    (owners : Owners groups loose s view held) (isInode : s.inodes p = some inode)
    (isOther : s.inodes q = some other) (differs : q ≠ p) (slot : Fin nBlocks) (path : List Nat)
    (isNode : IsNode groups.blockSize slot path) : ptrAt view' other slot path = ptrAt view other slot path :=
  ptrAt_congr rfl (fun _ _ _ isNode' some =>
    framed.foreign owners isInode isOther differs isNode'.parent some) slot path isNode

/-- After blocks were added to one inode, all inodes own their blocks. -/
theorem Owners.grew {hit : Fin nBlocks → List Nat → Prop} {after : Vfs} {view' : Nat → ByteMap}
    {inode' : Inode} (owners : Owners groups loose s view held) (isInode : s.inodes p = some inode)
    (grew : Grew groups loose held p hit s view inode after view' inode')
    (framed : Framed groups hit s view inode view' inode') :
    Owners groups loose after view' held := by
  have others : ∀ q other, q ≠ p → after.inodes q = some other → s.inodes q = some other := by
    intro q other differs isOther
    rwa [grew.inodes q differs] at isOther
  have pointers := fun q other (differs : q ≠ p) (isOther : after.inodes q = some other) =>
    framed.foreignPtr owners isInode (others q other differs isOther) differs
  -- A new block of the inode was free, so it belongs to no other inode.
  have apart : ∀ q other, q ≠ p → after.inodes q = some other → ∀ slot path slot' path',
      IsNode groups.blockSize slot path → IsNode groups.blockSize slot' path' → ptrAt view' other slot path ≠ 0 →
      ptrAt view' other slot path ≠ ptrAt view' inode' slot' path' := by
    intro q other differs isOther slot path slot' path' isNode isNode' some same
    have isOther' := others q other differs isOther
    rw [pointers q other differs isOther slot path isNode] at some same
    by_cases stays : ptrAt view' inode' slot' path' = ptrAt view inode slot' path'
    · rw [stays] at same
      exact owners.apart q other p inode isOther' isInode differs slot path slot' path' isNode
        isNode' some same
    · have wasFree := framed.fresh slot' path' isNode' stays
      rw [← same] at wasFree
      exact ((owners.files q other isOther').owned slot path isNode some).used wasFree
  constructor
  · intro q other isOther
    by_cases isP : q = p
    · subst isP
      obtain rfl := Option.some.inj (grew.file.isInode.symm.trans isOther)
      exact grew.file
    · have file := owners.files q other (others q other isP isOther)
      constructor
      · exact grew.file.fs
      · exact isOther
      · exact file.valid
      · exact file.number
      · intro slot path isNode some
        rw [pointers q other isP isOther slot path isNode] at some ⊢
        obtain ⟨used, notMetadata, notTable⟩ := file.owned slot path isNode some
        exact ⟨fun isFree => used (framed.free _ isFree), notMetadata,
          fun inTable => notTable ((grew.setup.inTable _).mp inTable)⟩
      · intro slot path slot' path' isNode isNode' some same
        rw [pointers q other isP isOther slot path isNode] at some same
        rw [pointers q other isP isOther slot' path' isNode'] at same
        exact file.distinct slot path slot' path' isNode isNode' some same
  · intro q other q' other' isOther isOther' differs slot path slot' path' isNode isNode' some same
    by_cases isP : q = p
    · subst isP
      obtain rfl := Option.some.inj (grew.file.isInode.symm.trans isOther)
      have some' : ptrAt view' other' slot' path' ≠ 0 := by rwa [← same]
      exact apart q' other' differs.symm isOther' slot' path' slot path isNode' isNode some'
        same.symm
    · by_cases isP' : q' = p
      · subst isP'
        obtain rfl := Option.some.inj (grew.file.isInode.symm.trans isOther')
        exact apart q other isP isOther slot path slot' path' isNode isNode' some same
      · rw [pointers q other isP isOther slot path isNode] at some same
        rw [pointers q' other' isP' isOther' slot' path' isNode'] at same
        exact owners.apart q other q' other' (others q other isP isOther)
          (others q' other' isP' isOther') differs slot path slot' path' isNode isNode' some same

/-- Every other inode reads as before. -/
theorem Framed.fileBlock {hit : Fin nBlocks → List Nat → Prop} {view' : Nat → ByteMap}
    {inode' other : Inode} {q : Nat} (framed : Framed groups hit s view inode view' inode')
    (owners : Owners groups loose s view held) (isInode : s.inodes p = some inode)
    (isOther : s.inodes q = some other) (differs : q ≠ p) (lbk : Nat) :
    Fs.fileBlock view' groups.blockSize other lbk = Fs.fileBlock view groups.blockSize other lbk := by
  cases found : blockPath groups.blockSize lbk with
  | none =>
    rw [Fs.fileBlock, Fs.fileBlock, found]
    rfl
  | some place =>
    obtain ⟨slot, path⟩ := place
    have isNode := (blockPath_isNode found).1
    rw [fileBlock_eq found, fileBlock_eq found, dataAt, dataAt,
      framed.foreignPtr owners isInode isOther differs slot path isNode]
    by_cases isHole : ptrAt view other slot path = 0
    · rw [if_pos isHole, if_pos isHole]
    · rw [if_neg isHole, if_neg isHole, framed.foreign owners isInode isOther differs isNode isHole]

/-- All other logical blocks of the inodes read as before, and only this one may be new. -/
structure OthersKept (size : Nat) (view : Nat → ByteMap) (s : Vfs) (p lbk : Nat) (view' : Nat → ByteMap)
    (after : Vfs) : Prop where
  inode : ∀ lbk' buf got, lbk' ≠ lbk → ReadsAs s p lbk' buf got → ReadsAs after p lbk' buf got
  others : ∀ q inode, q ≠ p → s.inodes q = some inode →
    ∀ lbk' buf got, ReadsAs s q lbk' buf got → ReadsAs after q lbk' buf got
  backed : ∀ q lbk', Backed size view' after q lbk' → Backed size view s q lbk' ∨ q = p ∧ lbk' = lbk

/-- A write that succeeds is read back and is seen nowhere else. One that fails is not seen. -/
theorem write_block_read {groups : Groups} {loose : Nat → Nat → Prop} {s : Vfs}
    {view : Nat → ByteMap} {held : Multiset Nat} {p : Nat} {inode : Inode}
    (owners : Owners groups loose s view held) (isInode : s.inodes p = some inode)
    (room : Multiset.card held + 1 < nBlkNum) (lbk : Nat) (buf : ByteMap) :
    wp (ext2WriteBlock p lbk buf) (fun done after => ∃ view',
      Owners groups loose after view' held ∧ OthersKept groups.blockSize view s p lbk view' after ∧
      (done = true → ∀ out, ReadsAs after p lbk out (some (copy out 0 groups.blockSize buf))) ∧
      (done = false → ∀ out got, ReadsAs s p lbk out got → ReadsAs after p lbk out got)) s := by
  have file := owners.files p inode isInode
  have before := fun lbk' out => file.reads (by omega) lbk' out
  apply wp_mono (ext2WriteBlock_spec file room lbk buf)
  rintro done after ⟨view', inode', grew, framed, stored, -⟩
  have now := fun lbk' out => grew.file.reads (by omega) lbk' out
  -- A logical block of the inode that was not hit reads the same.
  have missed : ∀ lbk' out got, (done = true → lbk' ≠ lbk) → ReadsAs s p lbk' out got →
      ReadsAs after p lbk' out got := by
    intro lbk' out got apart reads
    have same : fileBlock view' groups.blockSize inode' lbk' = fileBlock view groups.blockSize inode lbk' := by
      refine grew.fileBlock fun slot path found isHit => ?_
      exact apart isHit.1 (blockPath_injective found isHit.2)
    rw [reads.unique (before lbk' out), ← same]
    exact now lbk' out
  refine ⟨view', owners.grew isInode grew framed, ⟨?_, ?_, ?_⟩, ?_, ?_⟩
  · exact fun lbk' out got differs => missed lbk' out got fun _ => differs
  · intro q other differs isOther lbk' out got reads
    have isAfter : after.inodes q = some other := by
      rw [grew.inodes q differs]
      exact isOther
    have otherFile := (owners.grew isInode grew framed).files q other isAfter
    rw [reads.unique ((owners.files q other isOther).reads (by omega) lbk' out),
      ← framed.fileBlock owners isInode isOther differs lbk']
    exact otherFile.reads (by omega) lbk' out
  · rintro q lbk' ⟨other, isOther, slot, path, found, isBlock⟩
    have isData := blockPath_isNode found
    by_cases isP : q = p
    · subst isP
      obtain rfl := Option.some.inj (grew.file.isInode.symm.trans isOther)
      by_cases isLbk : lbk' = lbk
      · exact .inr ⟨rfl, isLbk⟩
      · refine .inl ⟨inode, isInode, slot, path, found, fun isHole => isBlock ?_⟩
        exact framed.holes slot path isData
          (fun isHit => isLbk (blockPath_injective found isHit.2)) isHole
    · rw [grew.inodes q isP] at isOther
      refine .inl ⟨other, isOther, slot, path, found, ?_⟩
      rwa [framed.foreignPtr owners isInode isOther isP slot path isData.1] at isBlock
  · intro isDone out
    obtain ⟨old, isData⟩ := stored isDone
    have reads := now lbk out
    rw [isData, Option.map_some] at reads
    have same : copy out 0 groups.blockSize (copy old 0 groups.blockSize buf) = copy out 0 groups.blockSize buf := by
      refine copy_congr _ _ _ fun x below => ?_
      rw [copy_inside _ _ _ _ _ (Nat.zero_le x) (by omega), Nat.sub_zero]
    rwa [same] at reads
  · rintro isDone out got reads
    exact missed lbk out got (fun isTrue => by rw [isDone] at isTrue; cases isTrue) reads

/-- The sparse file at 0 and the root directory at 1. -/
def wideAndRoot : Nat → Option Inode
  | 0 => some wideInode
  | 1 => some rootInode
  | _ => none

/-- The theorem for a state with two inodes. -/
theorem wide_write_read : ∃ s, Owners oneGroup (fun _ _ => False) s wideDisk {0} ∧
    s.inodes 1 = some rootInode ∧
    wp (ext2WriteBlock 0 0 fun _ => 7) (fun done after => ∃ view',
      Owners oneGroup (fun _ _ => False) after view' {0} ∧
      OthersKept 4096 wideDisk s 0 0 view' after ∧
      (done = true → ∀ out, ReadsAs after 0 0 out (some (copy out 0 4096 fun _ => 7))) ∧
      (done = false → ∀ out got, ReadsAs s 0 0 out got → ReadsAs after 0 0 out got)) s := by
  obtain ⟨i, caches, -, fs, plain⟩ := exists_fsState wideAndRoot wide_counted
    (by decide +kernel) (by decide) wide_taken
  obtain ⟨s, isState⟩ : ∃ s, s = mountedOne wideDisk wideAndRoot i caches := ⟨_, rfl⟩
  rw [← isState] at fs plain
  have inodes : s.inodes = wideAndRoot := isState ▸ rfl
  have both : ∀ q inode, s.inodes q = some inode →
      q = 0 ∧ inode = wideInode ∨ q = 1 ∧ inode = rootInode := by
    intro q inode isInode
    rw [inodes] at isInode
    match q, isInode with
    | 0, isInode => exact .inl ⟨rfl, (Option.some.inj isInode).symm⟩
    | 1, isInode => exact .inr ⟨rfl, (Option.some.inj isInode).symm⟩
    | _ + 2, isInode => cases isInode
  -- the file has the blocks 6 to 8, the directory has block 5
  have differ : ∀ slot path slot' path', IsNode oneGroup.blockSize slot path →
      IsNode oneGroup.blockSize slot' path' → ptrAt wideDisk wideInode slot path ≠ 0 →
      ptrAt wideDisk wideInode slot path ≠ ptrAt wideDisk rootInode slot' path' := by
    intro slot path slot' path' isNode isNode' isBlock same
    obtain ⟨-, -, isRoot⟩ := root_nodes isNode' (same ▸ isBlock)
    obtain ⟨-, ⟨-, is⟩ | ⟨-, is⟩ | ⟨-, is⟩⟩ := wide_nodes isNode isBlock
    all_goals exact absurd (is.symm.trans (same.trans isRoot)) (by decide)
  have owners : Owners oneGroup (fun _ _ => False) s wideDisk {0} := by
    constructor
    · intro q inode isInode
      obtain ⟨rfl, rfl⟩ | ⟨rfl, rfl⟩ := both q inode isInode
      · exact FileState.of_wide fs isInode fun no low => plain no (by omega)
      · exact FileState.of_root fs isInode (plain 5 (by decide) (by decide))
    · intro q inode q' inode' isInode isInode' differs slot path slot' path' isNode isNode' isBlock
      obtain ⟨rfl, rfl⟩ | ⟨rfl, rfl⟩ := both q inode isInode <;>
        obtain ⟨rfl, rfl⟩ | ⟨rfl, rfl⟩ := both q' inode' isInode'
      · exact absurd rfl differs
      · exact differ slot path slot' path' isNode isNode' isBlock
      · intro same
        exact differ slot' path' slot path isNode' isNode (same ▸ isBlock) same.symm
      · exact absurd rfl differs
  have isInode : s.inodes 0 = some wideInode := by rw [inodes, wideAndRoot]
  exact ⟨s, owners, by rw [inodes, wideAndRoot],
    write_block_read owners isInode (by decide) 0 fun _ => 7⟩

end CuteCore.Fs

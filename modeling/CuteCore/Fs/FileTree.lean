import CuteCore.Fs.BlockMap

/-!
# Files that own their blocks

A file system whose metadata is marked in use, and a file whose blocks are in use, not
metadata and not shared. A block that is allocated for the file joins its tree, and the
contents of the file stay as they were.
-/

namespace CuteCore.Fs

open Hoare Bytes BlkCache

/-- A block of an inode table. -/
def Groups.InTable (groups : Groups) (s : Vfs) (no : Nat) : Prop :=
  ∃ g < groups.count, ∃ k, k * groups.blockSize < groups.inodesPerGroup * s.inodeSize ∧
    no = s.groupField g 8 4 + k

/-- A block whose bit is clear. -/
def Groups.IsFree (groups : Groups) (view : Nat → ByteMap) (no : Nat) : Prop :=
  ∃ g < groups.count, ∃ c < groups.limit .block g, no = groups.number .block g c ∧
    bitAt (view (groups.bitmap .block g)) c = false

/-- The metadata is as the superblock says, counted, and marked in use. Only slots of
inodes may be open. -/
structure FsState (groups : Groups) (loose : Nat → Nat → Prop) (s : Vfs)
    (view : Nat → ByteMap) (held : Multiset Nat) : Prop where
  io : Io loose s view (fun _ => False) held
  tight : Tight groups loose
  fits : Fits groups s view
  balanced : Balanced groups s view
  tables : InodeTables groups s
  inTables : ∀ no x, loose no x → groups.InTable s no
  reserved : ∀ no, groups.Metadata no ∨ groups.InTable s no → ¬ groups.IsFree view no

/-- What never changes under these operations. -/
structure SameSetup (s after : Vfs) : Prop where
  inodeSize : after.inodeSize = s.inodeSize
  tables : ∀ g, after.groupField g 8 4 = s.groupField g 8 4
  next : after.nextInode = s.nextInode

theorem SameSetup.trans {s mid after : Vfs} (first : SameSetup s mid)
    (second : SameSetup mid after) : SameSetup s after :=
  ⟨second.inodeSize.trans first.inodeSize, fun g => (second.tables g).trans (first.tables g),
    second.next.trans first.next⟩

theorem SameSetup.of_sameFs {s after : Vfs} (same : SameFs s after) : SameSetup s after := by
  unfold SameFs at same
  rw [← same]
  exact ⟨rfl, fun _ => rfl, rfl⟩

theorem SameSetup.inTable {groups : Groups} {s after : Vfs} (same : SameSetup s after) (no : Nat) :
    groups.InTable after no ↔ groups.InTable s no := by
  simp only [Groups.InTable, same.inodeSize, same.tables]

/-- Where the inode tables lie depends on what a mount set up alone. -/
theorem InodeTables.congr {groups : Groups} {s after : Vfs} (tables : InodeTables groups s)
    (same : SameSetup s after) : InodeTables groups after := by
  constructor
  · rw [same.inodeSize]
    exact tables.least
  · rw [same.inodeSize]
    exact tables.divides
  · simp only [same.inodeSize, same.tables]
    exact tables.small
  · simp only [same.inodeSize, same.tables]
    exact tables.plain
  · simp only [same.inodeSize, same.tables]
    exact tables.apart

namespace FsState

variable {groups : Groups} {loose : Nat → Nat → Prop} {s : Vfs} {view : Nat → ByteMap}
  {held : Multiset Nat}

/-- Blocks outside the inode tables count whole. -/
theorem firm (state : FsState groups loose s view held) {no : Nat}
    (outside : ¬ groups.InTable s no) (x : Nat) : ¬ loose no x :=
  fun isLoose => outside (state.inTables no x isLoose)

/-- No block of an inode table is metadata. -/
theorem table_plain (state : FsState groups loose s view held) {no : Nat}
    (inTable : groups.InTable s no) : ¬ groups.Metadata no := by
  obtain ⟨g, inside, k, below, isBlock⟩ := inTable
  rw [isBlock]
  exact state.tables.plain g inside k below

/-- The metadata stays. -/
theorem congr (state : FsState groups loose s view held) {after : Vfs} {view' : Nat → ByteMap}
    {held' : Multiset Nat} (io : Io loose after view' (fun _ => False) held')
    (fits : Fits groups after view') (balanced : Balanced groups after view')
    (same : SameSetup s after) (free : ∀ no, groups.IsFree view' no → groups.IsFree view no) :
    FsState groups loose after view' held' := by
  constructor
  · exact io
  · exact state.tight
  · exact fits
  · exact balanced
  · exact state.tables.congr same
  · intro no x isLoose
    exact (same.inTable no).mpr (state.inTables no x isLoose)
  · intro no isReserved isFree
    apply state.reserved no _ (free no isFree)
    rwa [same.inTable] at isReserved

/-- Buffers and plain blocks change. -/
theorem plain (state : FsState groups loose s view held) {after : Vfs} {view' : Nat → ByteMap}
    {held' : Multiset Nat} (io : Io loose after view' (fun _ => False) held')
    (same : SameFs s after) (kept : ∀ no, groups.Metadata no → view' no = view no) :
    FsState groups loose after view' held' ∧
      ∀ no, groups.IsFree view' no ↔ groups.IsFree view no := by
  have zero : view' 0 = view 0 := kept 0 (Or.inl rfl)
  have bitmap : ∀ w, ∀ g < groups.count, view' (groups.bitmap w g) = view (groups.bitmap w g) :=
    fun w g inside => kept _ (Or.inr (Or.inr ⟨w, g, inside, rfl⟩))
  have free : ∀ no, groups.IsFree view' no ↔ groups.IsFree view no := by
    intro no
    constructor
    · rintro ⟨g, inside, c, below, isNumber, isClear⟩
      exact ⟨g, inside, c, below, isNumber, by rwa [bitmap _ g inside] at isClear⟩
    · rintro ⟨g, inside, c, below, isNumber, isClear⟩
      exact ⟨g, inside, c, below, isNumber, by rwa [bitmap _ g inside]⟩
  have fits := state.fits
  have balanced := state.balanced
  refine ⟨state.congr io ?_ ?_ (SameSetup.of_sameFs same) fun no => (free no).mp, free⟩
  · unfold SameFs at same
    rw [← same]
    exact { fits with
      first := zero ▸ fits.first
      perGroup := zero ▸ fits.perGroup
      total := zero ▸ fits.total
      inodes := zero ▸ fits.inodes }
  · have counts : ∀ w, ∀ g < groups.count, freeOf groups view' w g = freeOf groups view w g := by
      intro w g inside
      rw [freeOf, freeOf, bitmap w g inside]
    constructor
    · intro w g inside
      rw [counts w g inside]
      unfold SameFs at same
      rw [← same]
      exact balanced.group w g inside
    · intro w
      rw [zero, balanced.super w]
      exact Finset.sum_congr rfl fun g member => by rw [counts w g (Finset.mem_range.mp member)]

theorem setInode (state : FsState groups loose s view held) (p : Nat) (inode : Inode) :
    FsState groups loose (s.setInode p inode) view held := by
  have fits := state.fits
  have tables := state.tables
  exact ⟨state.io.setInode p inode, state.tight, { fits with }, ⟨state.balanced.group,
    state.balanced.super⟩, ⟨tables.least, tables.divides, tables.small, tables.plain, tables.apart⟩,
    state.inTables, state.reserved⟩

end FsState

/-- What an allocation gives: a block that was free, and nothing else changes but metadata. -/
structure Fresh (groups : Groups) (loose : Nat → Nat → Prop) (s : Vfs) (view : Nat → ByteMap)
    (held : Multiset Nat) (nb : Nat) (after : Vfs) (view' : Nat → ByteMap) : Prop where
  state : FsState groups loose after view' held
  wasFree : groups.IsFree view nb
  free : ∀ no, groups.IsFree view' no ↔ groups.IsFree view no ∧ no ≠ nb
  others : ∀ no, ¬ groups.Metadata no → view' no = view no
  inodes : after.inodes = s.inodes
  setup : SameSetup s after
  small : nb < 2 ^ 32

section

variable {groups : Groups} {loose : Nat → Nat → Prop} {s : Vfs} {view : Nat → ByteMap}
  {held : Multiset Nat}

/-- An allocation in such a file system. -/
theorem allocBlock_spec (state : FsState groups loose s view held)
    (room : Multiset.card held < nBlkNum) : wp ext2AllocBlock (fun nb after =>
      ((nb = 0 ∧ after = s) ∨ nb ≠ 0 ∧ ∃ view', Fresh groups loose s view held nb after view') ∧
      KeepsBuffers s after held) s := by
  have fits := state.fits
  apply keeps_buffers (@GivesBack.ext2AllocBlock loose 0) state.io (by omega)
  apply wp_mono (alloc_spec state.io state.tight fits state.balanced room .block)
  rintro nb after (⟨g, inside, b, isNumber, first, same, io⟩ | ⟨isZero, isSame, -⟩)
  · right
    have member : b ∈ freeOf groups view .block g := first.1.mem
    obtain ⟨below, isClear⟩ := mem_clearBits.mp member
    have isFree : groups.IsFree view nb := ⟨g, inside, b, below, isNumber, isClear⟩
    have bits : ∀ g' < groups.count, ∀ c, bitAt (takenBlocks groups view s.gbTable .block g b
        (groups.bitmap .block g')) c = (decide (g' = g ∧ c = b) ||
          bitAt (view (groups.bitmap .block g')) c) := by
      intro g' inside' c
      rw [takenBlocks, moved_bitmap fits inside .block g' inside']
      by_cases isG : g' = g
      · subst isG
        rw [if_pos ⟨rfl, rfl⟩, bitAt_setBit]
        simp
      · rw [if_neg fun both => isG both.2, decide_eq_false fun both => isG both.1, Bool.false_or]
    have free : ∀ no, groups.IsFree (takenBlocks groups view s.gbTable .block g b) no ↔
        groups.IsFree view no ∧ no ≠ nb := by
      intro no
      constructor
      · rintro ⟨g', inside', c, below', isNumber', isClear'⟩
        rw [bits g' inside' c, Bool.or_eq_false_iff] at isClear'
        refine ⟨⟨g', inside', c, below', isNumber', isClear'.2⟩, fun same => ?_⟩
        have isG : g' = g := by
          rw [← (groups.number_block below').1, ← (groups.number_block below).1, ← isNumber',
            ← isNumber, same]
        have isC : c = b := by
          rw [← (groups.number_block below').2, ← (groups.number_block below).2, ← isNumber',
            ← isNumber, same]
        exact absurd ⟨isG, isC⟩ (of_decide_eq_false isClear'.1)
      · rintro ⟨⟨g', inside', c, below', isNumber', isClear'⟩, differs⟩
        refine ⟨g', inside', c, below', isNumber', ?_⟩
        rw [bits g' inside' c, isClear', Bool.or_false]
        apply decide_eq_false
        rintro ⟨rfl, rfl⟩
        exact differs (isNumber'.trans isNumber.symm)
    have setup : SameSetup s after := by
      unfold SameButTable at same
      rw [← same]
      refine ⟨rfl, fun g' => load_store_apart _ _ _ _ _ _ ?_, rfl⟩
      simp only [Which.resource, blocks]
      omega
    refine ⟨fun zero => state.reserved nb (Or.inl (Or.inl zero)) isFree,
      takenBlocks groups view s.gbTable .block g b, ?_⟩
    constructor
    · exact state.congr io (fits.moved inside same) (state.balanced.take fits inside member same)
        setup fun no isFree => ((free no).mp isFree).1
    · exact isFree
    · exact free
    · intro no plain
      have notSuper : no ≠ 0 := fun zero => plain (Or.inl zero)
      have notTable : no ≠ groups.first + 1 + g / (groups.blockSize / 32) :=
        fun isTable => plain (Or.inr (Or.inl ⟨g, inside, isTable⟩))
      have notBitmap : no ≠ groups.bitmap .block g :=
        fun isBitmap => plain (Or.inr (Or.inr ⟨.block, g, inside, isBitmap⟩))
      rw [takenBlocks, moved_eq fits inside no notSuper notTable, if_neg notBitmap]
    · unfold SameButTable at same
      rw [← same]
    · exact setup
    · have bound := groups.base_add_limit .block g inside
      rw [isNumber]
      change groups.base .block g + b < 2 ^ 32
      omega
  · exact Or.inl ⟨isZero, isSame⟩

end

/-- A block in use that holds no metadata and no inodes. -/
structure Groups.Plain (groups : Groups) (s : Vfs) (view : Nat → ByteMap) (no : Nat) : Prop where
  used : ¬ groups.IsFree view no
  notMetadata : ¬ groups.Metadata no
  notTable : ¬ groups.InTable s no

/-- A file whose blocks are plain and not shared. -/
structure FileState (groups : Groups) (loose : Nat → Nat → Prop) (s : Vfs)
    (view : Nat → ByteMap) (held : Multiset Nat) (p : Nat) (inode : Inode) : Prop where
  fs : FsState groups loose s view held
  isInode : s.inodes p = some inode
  valid : inode.valid = true
  number : groups.IsInode inode.ino
  owned : ∀ slot path, IsNode groups.blockSize slot path → ptrAt view inode slot path ≠ 0 →
    groups.Plain s view (ptrAt view inode slot path)
  distinct : DistinctNodes groups.blockSize view inode

/-- A node that holds data. -/
def IsData (size : Nat) (slot : Fin nBlocks) (path : List Nat) : Prop :=
  IsNode size slot path ∧ path.length = levelOf slot

/-- The data of a node. -/
def dataAt (view : Nat → ByteMap) (inode : Inode) (slot : Fin nBlocks) (path : List Nat) :
    ByteMap :=
  if ptrAt view inode slot path = 0 then fun _ => 0 else view (ptrAt view inode slot path)

/-- The file after blocks were added and the data of the nodes `hit` was changed. -/
structure Grew (groups : Groups) (loose : Nat → Nat → Prop) (held : Multiset Nat) (p : Nat)
    (hit : Fin nBlocks → List Nat → Prop) (s : Vfs) (view : Nat → ByteMap) (inode : Inode)
    (after : Vfs) (view' : Nat → ByteMap) (inode' : Inode) : Prop where
  file : FileState groups loose after view' held p inode'
  setup : SameSetup s after
  fields : inode' = { inode with iBlock := inode'.iBlock, dirty := inode'.dirty }
  inodes : ∀ q, q ≠ p → after.inodes q = s.inodes q
  grows : ∀ slot path, IsNode groups.blockSize slot path → ptrAt view inode slot path ≠ 0 →
    ptrAt view' inode' slot path = ptrAt view inode slot path
  kept : ∀ slot path, IsData groups.blockSize slot path → ¬ hit slot path →
    dataAt view' inode' slot path = dataAt view inode slot path

namespace Grew

variable {groups : Groups} {loose : Nat → Nat → Prop} {held : Multiset Nat} {p : Nat}
  {hit : Fin nBlocks → List Nat → Prop} {s : Vfs} {view : Nat → ByteMap} {inode : Inode}

theorem mono {hit' : Fin nBlocks → List Nat → Prop} {after : Vfs} {view' : Nat → ByteMap}
    {inode' : Inode} (grew : Grew groups loose held p hit s view inode after view' inode')
    (more : ∀ slot path, IsData groups.blockSize slot path → hit slot path → hit' slot path) :
    Grew groups loose held p hit' s view inode after view' inode' :=
  { grew with
    kept := fun slot path isData missed =>
      grew.kept slot path isData fun isHit => missed (more slot path isData isHit) }

theorem trans {hit' : Fin nBlocks → List Nat → Prop} {held' : Multiset Nat} {mid after : Vfs}
    {view' view'' : Nat → ByteMap} {inode' inode'' : Inode}
    (first : Grew groups loose held' p hit s view inode mid view' inode')
    (second : Grew groups loose held p hit' mid view' inode' after view'' inode'') :
    Grew groups loose held p (fun slot path => hit slot path ∨ hit' slot path) s view inode
      after view'' inode'' := by
  constructor
  · exact second.file
  · exact first.setup.trans second.setup
  · have fields := second.fields
    rw [first.fields] at fields
    exact fields
  · intro q other
    rw [second.inodes q other, first.inodes q other]
  · intro slot path isNode some
    have stays := first.grows slot path isNode some
    rw [← stays]
    apply second.grows slot path isNode
    rwa [stays]
  · intro slot path isData missed
    rw [not_or] at missed
    rw [second.kept slot path isData missed.2, first.kept slot path isData missed.1]

/-- Two steps that change no data. -/
theorem quiet {held' : Multiset Nat} {mid after : Vfs} {view' view'' : Nat → ByteMap}
    {inode' inode'' : Inode}
    (first : Grew groups loose held' p (fun _ _ => False) s view inode mid view' inode')
    (second : Grew groups loose held p (fun _ _ => False) mid view' inode' after view'' inode'') :
    Grew groups loose held p (fun _ _ => False) s view inode after view'' inode'' :=
  (first.trans second).mono fun _ _ _ isHit => isHit.elim id id

end Grew

/-- Besides the file, only free blocks and metadata changed. Blocks were taken for the file
alone, and for data at the nodes `hit` only. -/
structure Framed (groups : Groups) (hit : Fin nBlocks → List Nat → Prop) (s : Vfs)
    (view : Nat → ByteMap) (inode : Inode) (view' : Nat → ByteMap) (inode' : Inode) : Prop where
  holes : ∀ slot path, IsData groups.blockSize slot path → ¬ hit slot path → ptrAt view inode slot path = 0 →
    ptrAt view' inode' slot path = 0
  free : ∀ no, groups.IsFree view' no → groups.IsFree view no
  fresh : ∀ slot path, IsNode groups.blockSize slot path →
    ptrAt view' inode' slot path ≠ ptrAt view inode slot path →
    groups.IsFree view (ptrAt view' inode' slot path)
  elsewhere : ∀ no, groups.Plain s view no →
    (∀ slot path, IsNode groups.blockSize slot path → ptrAt view inode slot path ≠ no) → view' no = view no

namespace Framed

variable {groups : Groups} {hit : Fin nBlocks → List Nat → Prop} {s : Vfs}
  {view : Nat → ByteMap} {inode : Inode}

theorem refl : Framed groups hit s view inode view inode :=
  ⟨fun _ _ _ _ isHole => isHole, fun _ isFree => isFree, fun _ _ _ differs => absurd rfl differs,
    fun _ _ _ => rfl⟩

theorem mono {hit' : Fin nBlocks → List Nat → Prop} {view' : Nat → ByteMap} {inode' : Inode}
    (framed : Framed groups hit s view inode view' inode')
    (more : ∀ slot path, IsData groups.blockSize slot path → hit slot path → hit' slot path) :
    Framed groups hit' s view inode view' inode' :=
  { framed with
    holes := fun slot path isData missed =>
      framed.holes slot path isData fun isHit => missed (more slot path isData isHit) }

theorem trans {hit' : Fin nBlocks → List Nat → Prop} {mid : Vfs} {view' view'' : Nat → ByteMap}
    {inode' inode'' : Inode} (first : Framed groups hit s view inode view' inode')
    (setup : SameSetup s mid) (second : Framed groups hit' mid view' inode' view'' inode'') :
    Framed groups (fun slot path => hit slot path ∨ hit' slot path) s view inode view'' inode'' := by
  constructor
  · intro slot path isData missed isHole
    rw [not_or] at missed
    exact second.holes slot path isData missed.2 (first.holes slot path isData missed.1 isHole)
  · exact fun no isFree => first.free no (second.free no isFree)
  · intro slot path isNode differs
    by_cases same : ptrAt view'' inode'' slot path = ptrAt view' inode' slot path
    · rw [same] at differs ⊢
      exact first.fresh slot path isNode differs
    · exact first.free _ (second.fresh slot path isNode same)
  · intro no plain foreign
    rw [← first.elsewhere no plain foreign]
    apply second.elsewhere no
    · exact ⟨fun isFree => plain.used (first.free no isFree), plain.notMetadata,
        fun inTable => plain.notTable ((setup.inTable no).mp inTable)⟩
    · -- A node that is new has a block that was free.
      rintro slot path isNode rfl
      by_cases same : ptrAt view' inode' slot path = ptrAt view inode slot path
      · exact foreign slot path isNode same.symm
      · exact plain.used (first.fresh slot path isNode same)

end Framed

/-- Pointers depend on the index blocks only. -/
theorem ptrAt_congr {size : Nat} {view view' : Nat → ByteMap} {inode inode' : Inode}
    (top : inode'.iBlock = inode.iBlock)
    (same : ∀ slot front i, IsNode size slot (front ++ [i]) → ptrAt view inode slot front ≠ 0 →
      view' (ptrAt view inode slot front) = view (ptrAt view inode slot front))
    (slot : Fin nBlocks) (path : List Nat) (isNode : IsNode size slot path) :
    ptrAt view' inode' slot path = ptrAt view inode slot path := by
  induction path using List.reverseRecOn with
  | nil =>
    change inode'.iBlock slot = inode.iBlock slot
    rw [top]
  | append_singleton front i inductionHypothesis =>
    rw [ptrAt_append, ptrAt_append, inductionHypothesis isNode.parent, childAt, childAt]
    by_cases isHole : ptrAt view inode slot front = 0
    · rw [if_pos isHole, if_pos isHole]
    · rw [if_neg isHole, if_neg isHole, same slot front i isNode isHole]

/-- A front of a path is a node. -/
theorem IsNode.front {size : Nat} {slot : Fin nBlocks} {front more : List Nat}
    (isNode : IsNode size slot (front ++ more)) : IsNode size slot front := by
  have depth := isNode.depth
  rw [List.length_append] at depth
  exact ⟨isNode.shallow, by omega, fun j member => isNode.indices j (List.mem_append_left _ member)⟩

/-- The blocks on a chain of pointers are what its beginnings lead to. -/
theorem mem_chainBlocks {view : Nat → ByteMap} {b : Nat} (path : List Nat) (no : Nat)
    (member : b ∈ chainBlocks view no path) :
    b ≠ 0 ∧ ∃ front more, path = front ++ more ∧ b = treePtr view no front := by
  induction path generalizing no with
  | nil =>
    rw [chainBlocks] at member
    split at member
    · cases member
    · rename_i some
      obtain rfl := List.mem_singleton.mp member
      exact ⟨some, [], [], rfl, rfl⟩
  | cons i rest inductionHypothesis =>
    rw [chainBlocks] at member
    split at member
    · cases member
    · rename_i some
      rcases List.mem_cons.mp member with isHere | below
      · subst isHere
        exact ⟨some, [], i :: rest, rfl, rfl⟩
      · obtain ⟨positive, front, more, isPath, isPtr⟩ := inductionHypothesis _ below
        refine ⟨positive, i :: front, more, by rw [isPath, List.cons_append], ?_⟩
        rw [treePtr, if_neg some]
        exact isPtr

namespace FileState

variable {groups : Groups} {loose : Nat → Nat → Prop} {s : Vfs} {view : Nat → ByteMap}
  {held : Multiset Nat} {p : Nat} {inode : Inode}

/-- The pointers of the file and the bitmaps stay. -/
theorem congr (file : FileState groups loose s view held p inode) {after : Vfs}
    {view' : Nat → ByteMap} {held' : Multiset Nat} (fs : FsState groups loose after view' held')
    (setup : SameSetup s after) (free : ∀ no, groups.IsFree view' no ↔ groups.IsFree view no)
    (isInode : after.inodes p = some inode)
    (pointers : ∀ slot path, IsNode groups.blockSize slot path →
      ptrAt view' inode slot path = ptrAt view inode slot path) :
    FileState groups loose after view' held' p inode := by
  constructor
  · exact fs
  · exact isInode
  · exact file.valid
  · exact file.number
  · intro slot path isNode some
    rw [pointers slot path isNode] at some ⊢
    obtain ⟨used, notMetadata, notTable⟩ := file.owned slot path isNode some
    constructor
    · exact fun isFree => used ((free _).mp isFree)
    · exact notMetadata
    · exact fun inTable => notTable ((setup.inTable _).mp inTable)
  · intro slot path slot' path' isNode isNode' some same
    rw [pointers slot path isNode] at some same
    rw [pointers slot' path' isNode'] at same
    exact file.distinct slot path slot' path' isNode isNode' some same

/-- Only buffers changed. -/
theorem same (file : FileState groups loose s view held p inode)
    (hit : Fin nBlocks → List Nat → Prop) {after : Vfs} {held' : Multiset Nat}
    (io : Io loose after view (fun _ => False) held') (unchanged : SameFs s after) :
    Grew groups loose held' p hit s view inode after view inode := by
  obtain ⟨fs, free⟩ := file.fs.plain io unchanged fun _ _ => rfl
  have setup := SameSetup.of_sameFs unchanged
  constructor
  · apply file.congr fs setup free
    · rw [unchanged.inodes]
      exact file.isInode
    · exact fun _ _ _ => rfl
  · exact setup
  · rfl
  · intro q _
    rw [unchanged.inodes]
  · exact fun _ _ _ _ => rfl
  · exact fun _ _ _ _ => rfl

/-- Blocks that are neither metadata nor the file's were changed. -/
theorem elsewhere (file : FileState groups loose s view held p inode) {after : Vfs}
    {view' : Nat → ByteMap} {held' : Multiset Nat}
    (io : Io loose after view' (fun _ => False) held')
    (unchanged : SameFs s after) (metadata : ∀ no, groups.Metadata no → view' no = view no)
    (nodes : ∀ slot path, IsNode groups.blockSize slot path → ptrAt view inode slot path ≠ 0 →
      view' (ptrAt view inode slot path) = view (ptrAt view inode slot path)) :
    Grew groups loose held' p (fun _ _ => False) s view inode after view' inode := by
  obtain ⟨fs, free⟩ := file.fs.plain io unchanged metadata
  have setup := SameSetup.of_sameFs unchanged
  have pointers : ∀ slot path, IsNode groups.blockSize slot path →
      ptrAt view' inode slot path = ptrAt view inode slot path :=
    ptrAt_congr rfl fun slot front i isNode => nodes slot front isNode.parent
  constructor
  · apply file.congr fs setup free
    · rw [unchanged.inodes]
      exact file.isInode
    · exact pointers
  · exact setup
  · rfl
  · intro q _
    rw [unchanged.inodes]
  · exact fun slot path isNode _ => pointers slot path isNode
  · intro slot path isData _
    rw [dataAt, dataAt, pointers slot path isData.1]
    by_cases isHole : ptrAt view inode slot path = 0
    · rw [if_pos isHole, if_pos isHole]
    · rw [if_neg isHole, if_neg isHole, nodes slot path isData.1 isHole]

/-- The data of a node was replaced. -/
theorem overwrite (file : FileState groups loose s view held p inode) {slot : Fin nBlocks}
    {path : List Nat} (isData : IsData groups.blockSize slot path)
    (some : ptrAt view inode slot path ≠ 0)
    {after : Vfs} {data : ByteMap}
    (io : Io loose after (Function.update view (ptrAt view inode slot path) data)
      (fun _ => False) held) (unchanged : SameFs s after) :
    Grew groups loose held p (fun slot' path' => slot' = slot ∧ path' = path) s view inode
      after (Function.update view (ptrAt view inode slot path) data) inode ∧
    Framed groups (fun _ _ => False) s view inode
      (Function.update view (ptrAt view inode slot path) data) inode ∧
    dataAt (Function.update view (ptrAt view inode slot path) data) inode slot path = data := by
  have metadata : ∀ no, groups.Metadata no →
      Function.update view (ptrAt view inode slot path) data no = view no := by
    intro no isMetadata
    apply Function.update_of_ne
    rintro rfl
    exact (file.owned slot path isData.1 some).notMetadata isMetadata
  have pointers : ∀ slot' path', IsNode groups.blockSize slot' path' →
      ptrAt (Function.update view (ptrAt view inode slot path) data) inode slot' path' =
        ptrAt view inode slot' path' := by
    apply ptrAt_congr rfl
    intro slot' front i isNode isIndex
    apply Function.update_of_ne
    intro same
    obtain ⟨rfl, rfl⟩ := file.distinct _ _ _ _ isNode.parent isData.1 isIndex same
    have depth := isNode.depth
    rw [List.length_append, List.length_singleton, isData.2] at depth
    omega
  obtain ⟨fs, free⟩ := file.fs.plain io unchanged metadata
  have setup := SameSetup.of_sameFs unchanged
  refine ⟨?_, ?_, ?_⟩
  · constructor
    · apply file.congr fs setup free
      · rw [unchanged.inodes]
        exact file.isInode
      · exact pointers
    · exact setup
    · rfl
    · intro q _
      rw [unchanged.inodes]
    · exact fun slot' path' isNode _ => pointers slot' path' isNode
    · intro slot' path' isData' missed
      rw [dataAt, dataAt, pointers slot' path' isData'.1]
      by_cases isHole : ptrAt view inode slot' path' = 0
      · rw [if_pos isHole, if_pos isHole]
      · rw [if_neg isHole, if_neg isHole]
        apply Function.update_of_ne
        intro same
        exact missed (file.distinct _ _ _ _ isData'.1 isData.1 isHole same)
  · constructor
    · intro slot' path' isData' _ isHole
      rw [pointers slot' path' isData'.1, isHole]
    · exact fun no => (free no).mp
    · intro slot' path' isNode differs
      exact absurd (pointers slot' path' isNode) differs
    · intro no _ foreign
      apply Function.update_of_ne
      exact fun same => foreign slot path isData.1 same.symm
  · rw [dataAt, pointers slot path isData.1, if_neg some, Function.update_self]

theorem firm (file : FileState groups loose s view held p inode) {slot : Fin nBlocks}
    {path : List Nat} (isNode : IsNode groups.blockSize slot path)
    (some : ptrAt view inode slot path ≠ 0) (x : Nat) :
    ¬ loose (ptrAt view inode slot path) x :=
  file.fs.firm (file.owned slot path isNode some).notTable x

theorem firmFile (file : FileState groups loose s view held p inode) :
    FirmFile loose (fun _ => False) view s.blockSize inode := by
  rw [file.fs.fits.blockSize]
  intro lbk slot path found no member
  obtain ⟨some, front, more, isPath, isPtr⟩ := mem_chainBlocks path _ member
  obtain ⟨isNode, -⟩ := blockPath_isNode found
  rw [isPath] at isNode
  subst isPtr
  exact ⟨file.firm isNode.front some, id⟩

end FileState

/-- Block `nb`, free before, was hung off the hole at `(slot, path)`. -/
structure Linked (groups : Groups) (loose : Nat → Nat → Prop) (held : Multiset Nat) (p : Nat)
    (slot : Fin nBlocks) (path : List Nat) (nb : Nat) (s : Vfs) (view : Nat → ByteMap)
    (inode : Inode) (after : Vfs) (view' : Nat → ByteMap) (inode' : Inode) : Prop where
  isNode : IsNode groups.blockSize slot path
  wasHole : ptrAt view inode slot path = 0
  positive : nb ≠ 0
  small : nb < 2 ^ 32
  fs : FsState groups loose after view' held
  setup : SameSetup s after
  wasFree : groups.IsFree view nb
  free : ∀ no, groups.IsFree view' no ↔ groups.IsFree view no ∧ no ≠ nb
  isInode : after.inodes p = some inode'
  inodes : ∀ q, q ≠ p → after.inodes q = s.inodes q
  fields : inode' = { inode with iBlock := inode'.iBlock, dirty := inode'.dirty }
  top : inode'.iBlock = if path = [] then Function.update inode.iBlock slot nb else inode.iBlock
  parent : ∀ front i, path = front ++ [i] → ptrAt view inode slot front ≠ 0 ∧
    view' (ptrAt view inode slot front) = store (view (ptrAt view inode slot front)) (4 * i) 4 nb
  others : ∀ no, ¬ groups.Metadata no → no ≠ nb →
    (∀ front i, path = front ++ [i] → no ≠ ptrAt view inode slot front) → view' no = view no
  empty : path.length < levelOf slot → ∀ x < groups.blockSize, view' nb x = 0

namespace Linked

variable {groups : Groups} {loose : Nat → Nat → Prop} {held held' : Multiset Nat} {p : Nat}
  {slot : Fin nBlocks} {path : List Nat} {nb : Nat} {s : Vfs} {view : Nat → ByteMap}
  {inode : Inode} {after : Vfs} {view' : Nat → ByteMap} {inode' : Inode}

theorem fresh (linked : Linked groups loose held p slot path nb s view inode after view' inode')
    (file : FileState groups loose s view held' p inode) (slot' : Fin nBlocks) (path' : List Nat)
    (isNode : IsNode groups.blockSize slot' path') : ptrAt view inode slot' path' ≠ nb := by
  intro same
  have some : ptrAt view inode slot' path' ≠ 0 := by
    rw [same]
    exact linked.positive
  exact (file.owned slot' path' isNode some).used (same ▸ linked.wasFree)

/-- A block that is no parent of the new one stays. -/
theorem node (linked : Linked groups loose held p slot path nb s view inode after view' inode')
    (file : FileState groups loose s view held' p inode) {slot' : Fin nBlocks} {path' : List Nat}
    (isNode : IsNode groups.blockSize slot' path') (some : ptrAt view inode slot' path' ≠ 0)
    (noParent : ∀ i, ¬ (slot' = slot ∧ path = path' ++ [i])) :
    view' (ptrAt view inode slot' path') = view (ptrAt view inode slot' path') := by
  apply linked.others
  · exact (file.owned slot' path' isNode some).notMetadata
  · exact linked.fresh file slot' path' isNode
  · rintro front i isPath same
    have isNodeFront : IsNode groups.blockSize slot front := by
      have isNodePath := linked.isNode
      rw [isPath] at isNodePath
      exact isNodePath.parent
    obtain ⟨isSlot, isFront⟩ := file.distinct slot' path' slot front isNode isNodeFront some same
    exact noParent i ⟨isSlot, isFront ▸ isPath⟩

/-- The pointers of the tree after a block was hung into a hole. -/
theorem hung (linked : Linked groups loose held p slot path nb s view inode after view' inode')
    (file : FileState groups loose s view held' p inode) :
    Hung groups.blockSize view inode view' inode' slot path nb := by
  constructor
  · exact linked.isNode
  · exact linked.wasHole
  · exact linked.positive
  · exact linked.fresh file
  · exact linked.top
  · intro front i isPath
    obtain ⟨some, stored⟩ := linked.parent front i isPath
    rw [childAt, if_neg some, stored, load_store_same]
    exact Nat.mod_eq_of_lt linked.small
  · intro slot' path' i isNode some notNew
    rw [childAt, childAt, if_neg some, if_neg some]
    by_cases isParent : ∃ j, slot' = slot ∧ path = path' ++ [j]
    · obtain ⟨j, rfl, isPath⟩ := isParent
      have differs : i ≠ j := by
        rintro rfl
        exact notNew ⟨rfl, isPath.symm⟩
      obtain ⟨-, stored⟩ := linked.parent path' j isPath
      rw [stored]
      exact load_store_apart _ _ _ _ _ _ (by omega)
    · rw [linked.node file isNode.parent some fun j both => isParent ⟨j, both⟩]
  · intro i small below
    rw [childAt, if_neg linked.positive]
    have zeros : load (view' nb) (4 * i) 4 = load (fun _ => 0) (4 * i) 4 :=
      load_congr fun x low high => linked.empty below x (by omega)
    rw [zeros, load_zeros]

/-- A block that is hung into a hole makes the file grow by this one node: the tree is as before
everywhere else. -/
theorem grew (linked : Linked groups loose held p slot path nb s view inode after view' inode')
    (file : FileState groups loose s view held' p inode) :
    Grew groups loose held p (fun slot' path' => slot' = slot ∧ path' = path) s view inode
      after view' inode' ∧ ptrAt view' inode' slot path = nb := by
  have hung := linked.hung file
  have pointers := hung.ptrAt_eq
  have fields := linked.fields
  refine ⟨?_, (pointers slot path linked.isNode).trans (if_pos ⟨rfl, rfl⟩)⟩
  constructor
  · constructor
    · exact linked.fs
    · exact linked.isInode
    · rw [fields]
      exact file.valid
    · rw [fields]
      exact file.number
    · intro slot' path' isNode some
      rw [pointers slot' path' isNode] at some ⊢
      by_cases isNew : slot' = slot ∧ path' = path
      · rw [if_pos isNew]
        constructor
        · exact fun isFree => ((linked.free nb).mp isFree).2 rfl
        · exact fun metadata => file.fs.reserved nb (Or.inl metadata) linked.wasFree
        · intro inTable
          exact file.fs.reserved nb (Or.inr ((linked.setup.inTable nb).mp inTable)) linked.wasFree
      · rw [if_neg isNew] at some ⊢
        obtain ⟨used, notMetadata, notTable⟩ := file.owned slot' path' isNode some
        constructor
        · exact fun isFree => used ((linked.free _).mp isFree).1
        · exact notMetadata
        · exact fun inTable => notTable ((linked.setup.inTable _).mp inTable)
    · exact hung.distinct file.distinct
  · exact linked.setup
  · exact fields
  · exact linked.inodes
  · intro slot' path' isNode some
    rw [pointers slot' path' isNode]
    apply if_neg
    rintro ⟨rfl, rfl⟩
    exact some linked.wasHole
  · intro slot' path' isData missed
    rw [dataAt, dataAt, pointers slot' path' isData.1, if_neg missed]
    by_cases isHole : ptrAt view inode slot' path' = 0
    · rw [if_pos isHole, if_pos isHole]
    · rw [if_neg isHole, if_neg isHole]
      apply linked.node file isData.1 isHole
      rintro i ⟨rfl, isPath⟩
      have depth := linked.isNode.depth
      have length := isData.2
      rw [isPath, List.length_append, List.length_singleton] at depth
      omega

/-- A block that is hung into a hole leaves everything but the file, free blocks and metadata as it
was. -/
theorem framed (linked : Linked groups loose held p slot path nb s view inode after view' inode')
    (file : FileState groups loose s view held' p inode) :
    Framed groups (fun slot' path' => slot' = slot ∧ path' = path) s view inode view' inode' := by
  have pointers := (linked.hung file).ptrAt_eq
  constructor
  · intro slot' path' isData missed isHole
    rw [pointers slot' path' isData.1, if_neg missed, isHole]
  · exact fun no isFree => ((linked.free no).mp isFree).1
  · intro slot' path' isNode differs
    rw [pointers slot' path' isNode] at differs ⊢
    by_cases isNew : slot' = slot ∧ path' = path
    · rw [if_pos isNew]
      exact linked.wasFree
    · rw [if_neg isNew] at differs
      exact absurd rfl differs
  · intro no plain foreign
    apply linked.others no plain.notMetadata
    · rintro rfl
      exact plain.used linked.wasFree
    · rintro front i rfl same
      exact foreign slot front linked.isNode.parent same.symm

end Linked

/-! ## Disks with one group -/

/-- Blocks whose bits are set are in use. -/
theorem oneGroup_used {disk : Nat → ByteMap} {n no : Nat}
    (taken : ∀ c < n, bitAt (disk 2) c = true) (inside : no < n) : ¬ oneGroup.IsFree disk no := by
  rintro ⟨g, isGroup, c, -, isNo, isClear⟩
  obtain rfl : g = 0 := Nat.lt_one_iff.mp isGroup
  change no = 0 + 0 * 32768 + c at isNo
  change bitAt (disk 2) c = false at isClear
  rw [taken c (by omega)] at isClear
  cases isClear

/-- Such a disk, with the blocks below `n` in use, and none but block 4 in the inode table. -/
theorem exists_fsState {disk : Nat → ByteMap} (inodes : Nat → Option Inode)
    (counted : CountedDisk disk) (table : load (disk 1) 8 4 = 4) {n : Nat} (metadata : 5 ≤ n)
    (taken : ∀ c < n, bitAt (disk 2) c = true) :
    ∃ i caches, Returns (BlkCache.bread 0) (BlkCache.boot (fun _ => 0) disk) i caches ∧
      FsState oneGroup (fun _ _ => False) (mountedOne disk inodes i caches) disk {0} ∧
      ∀ no, 5 ≤ no → no < n → oneGroup.Plain (mountedOne disk inodes i caches) disk no := by
  obtain ⟨i, caches, returned, ready, tables, isDisk, first⟩ := exists_mounted inodes counted table
  have io := ready.io
  have fits := ready.fits
  have balanced := ready.balanced
  rw [isDisk] at io fits balanced
  have inTable : ∀ no, oneGroup.InTable (mountedOne disk inodes i caches) no → no = 4 := by
    rintro no ⟨g, inside, k, below, isNo⟩
    exact isNo.trans (first g inside k below)
  refine ⟨i, caches, returned, ?_, ?_⟩
  · constructor
    · exact io
    · exact ready.tight
    · exact fits
    · exact balanced
    · exact tables
    · exact fun _ _ never => never.elim
    · rintro no (isMetadata | isTable)
      · apply oneGroup_used taken
        by_contra large
        exact oneGroup_plain (by omega) isMetadata
      · rw [inTable no isTable]
        exact oneGroup_used taken (by omega)
  · intro no low high
    constructor
    · exact oneGroup_used taken high
    · exact oneGroup_plain (by omega)
    · intro isTable
      have isFour := inTable no isTable
      omega

end CuteCore.Fs

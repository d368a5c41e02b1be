import CuteCore.Fs.Storing

/-!
# Open files over shared inodes

`fileread` and `filewrite` on any number of open files, several of them perhaps on one
inode. In any order of the calls, the regular files behave as arrays of bytes and the
open files as offsets into them.
-/

namespace CuteCore.Fs

open Hoare Bytes BlkCache ByteFiles

/-- `FILE_WRITABLE` -/
def OpenFile.writable (f : OpenFile) : Prop := f.flags &&& 3 ≠ 0

instance (f : OpenFile) : Decidable f.writable := inferInstanceAs (Decidable (_ ≠ _))

def writei (inode : Option Nat) (data : ByteMap) (offset len : Nat) : FsProg Int :=
  match inode with
  | none => return -1
  | some p => do
    let got ← ext2FileWrite p len offset data
    return got.1

def filewrite (f : Option Nat) (data : ByteMap) (len : Nat) : FileProg Int :=
  match f with
  | none => return -1
  | some f => do
    let file ← derefFile f
    match file.inode with
    | none => return -1
    | some ip =>
      if ¬ file.writable then return -1
      else do
        let inode ← onFs (derefInode ip)
        match inode.type with
        | .file => do
          let ret ← onFs (writei (some ip) data file.offset len)
          onlyIf (0 < ret) (modify fun s => { s with
            file := Function.update s.file f
              (some { file with offset := u32 (file.offset + ret.toNat) }) })
          return ret
        | _ => return -1

/-- A call with the buffer of its caller. -/
inductive FileIo where
  | read (f len : Nat) (buf : ByteMap)
  | write (f len : Nat) (data : ByteMap)

def FileIo.buf : FileIo → ByteMap
  | .read _ _ buf => buf
  | .write _ _ data => data

def FileIo.call : FileIo → Call Nat Byte
  | .read f len _ => .read f len
  | .write f len data => .write f len data

/-- The result and the caller's buffer. -/
def FileIo.exec : FileIo → FileProg (Int × ByteMap)
  | .read f len buf => fileread (some f) buf len
  | .write f len data => do
    let ret ← filewrite (some f) data len
    return (ret, data)

def execAll : List FileIo → FileProg (List (Int × ByteMap))
  | [] => return []
  | io :: rest => do
    let got ← io.exec
    let more ← execAll rest
    return got :: more

def FileIo.file : FileIo → Nat
  | .read f _ _ => f
  | .write f _ _ => f

def FileIo.len : FileIo → Nat
  | .read _ len _ => len
  | .write _ len _ => len

/-- What the caller sees of an answer. -/
def FileIo.seen : FileIo → Answer Byte → Int × ByteMap
  | .read _ _ buf, .delivered values =>
    (values.length, copy buf 0 values.length fun i => values.getD i 0)
  | .write _ len data, .stored n => (writeResult len n, data)
  | io, _ => (-1, io.buf)

/-! ## The files that the state stands for -/

/-- The regular file that an open file of this mode leads to. -/
def OpenFiles.target (s : OpenFiles) (mode : OpenFile → Prop) [DecidablePred mode] (f : Nat) :
    Option Nat :=
  (s.file f).bind fun file => file.inode.filter fun ip =>
    decide (mode file ∧ (s.fs.inodes ip).map Inode.type = some .file)

def OpenFiles.access (s : OpenFiles) : Access Nat Nat where
  reads := s.target OpenFile.readable
  writes := s.target OpenFile.writable
  backed ip pos := ∃ inode, s.fs.inodes ip = some inode ∧
    HasBlock s.fs.blockSize s.fs.block inode (pos / s.fs.blockSize)

def OpenFiles.space (s : OpenFiles) : Space Nat Nat Byte where
  size ip := (s.fs.inodes ip).elim 0 Inode.size
  byte ip := (s.fs.inodes ip).elim (fun _ => 0) (fileByte s.fs.block s.fs.blockSize)
  offset f := (s.file f).elim 0 OpenFile.offset

/-- Inodes that own their blocks, blocks as large as those of the device, open files on them, and room for `left` more bytes behind
every offset. -/
structure Serves (groups : Groups) (loose : Nat → Nat → Prop) (held : Multiset Nat) (left : Nat)
    (s : OpenFiles) (view : Nat → ByteMap) : Prop where
  owners : Owners groups loose s.fs view held
  pages : groups.blockSize = blkSz
  room : Multiset.card held + 1 < nBlkNum
  size : ∀ ip inode, s.fs.inodes ip = some inode → inode.size < 2 ^ 32
  points : ∀ f file ip, s.file f = some file → file.inode = some ip → (s.fs.inodes ip).isSome
  fits : ∀ f file, s.file f = some file → file.offset + left < 2 ^ 32

/-- The same files can be reached, and no block was lost. -/
structure SameAccess (s after : OpenFiles) : Prop where
  reads : after.access.reads = s.access.reads
  writes : after.access.writes = s.access.writes
  backed : ∀ ip pos, s.access.backed ip pos → after.access.backed ip pos
  isFile : ∀ f, (after.file f).isSome = (s.file f).isSome

theorem SameAccess.refl (s : OpenFiles) : SameAccess s s :=
  ⟨rfl, rfl, fun _ _ => id, fun _ => rfl⟩

section

variable {groups : Groups} {loose : Nat → Nat → Prop} {held : Multiset Nat} {left : Nat}
  {s after : OpenFiles} {view view' : Nat → ByteMap}

/-- Which positions of a file have storage is seen through the cache. -/
theorem FileState.hasBlock_eq {p : Nat} {inode : Inode} {fs : Vfs}
    (file : FileState groups loose fs view held p inode) (lbk : Nat) :
    HasBlock groups.blockSize fs.block inode lbk ↔ HasBlock groups.blockSize view inode lbk := by
  have pointers : ∀ slot path, IsNode groups.blockSize slot path →
      ptrAt fs.block inode slot path = ptrAt view inode slot path :=
    ptrAt_congr rfl fun slot front i isNode isBlock =>
      file.fs.io.block_eq _ (file.firm isNode.parent isBlock)
  constructor
  · rintro ⟨slot, path, found, isBlock⟩
    rw [pointers slot path (blockPath_isNode found).1] at isBlock
    exact ⟨slot, path, found, isBlock⟩
  · rintro ⟨slot, path, found, isBlock⟩
    refine ⟨slot, path, found, ?_⟩
    rwa [pointers slot path (blockPath_isNode found).1]

namespace Serves

theorem byte (serves : Serves groups loose held left s view) {ip : Nat} {inode : Inode}
    (isInode : s.fs.inodes ip = some inode) :
    s.space.byte ip = fileByte view groups.blockSize inode := by
  have file := serves.owners.files ip inode isInode
  funext pos
  simp only [OpenFiles.space, isInode, Option.elim_some]
  rw [fileByte, fileByte, file.fs.fits.blockSize, file.block_eq]

/-- A position of the abstract file has storage where its logical block is there. -/
theorem backed (serves : Serves groups loose held left s view) {ip : Nat} {inode : Inode}
    (isInode : s.fs.inodes ip = some inode) (pos : Nat) :
    s.access.backed ip pos ↔ HasBlock groups.blockSize view inode (pos / groups.blockSize) := by
  have file := serves.owners.files ip inode isInode
  rw [OpenFiles.access, file.fs.fits.blockSize]
  constructor
  · rintro ⟨same, isSame, hasBlock⟩
    obtain rfl := Option.some.inj (isInode.symm.trans isSame)
    exact (file.hasBlock_eq _).mp hasBlock
  · intro hasBlock
    exact ⟨inode, isInode, (file.hasBlock_eq _).mpr hasBlock⟩

/-- What serves longer calls serves shorter ones. -/
theorem less (serves : Serves groups loose held left s view) {fewer : Nat}
    (fewer_le : fewer ≤ left) :
    Serves groups loose held fewer s view := by
  constructor
  · exact serves.owners
  · exact serves.pages
  · exact serves.room
  · exact serves.size
  · exact serves.points
  · intro f file isFile
    have fits := serves.fits f file isFile
    omega

end Serves

/-- The file system has changed, and the offset of an open file moved. -/
def OpenFiles.moved (s : OpenFiles) (fs : Vfs) (f : Nat) (file : OpenFile) (n : Nat) : OpenFiles where
  fs := fs
  file := Function.update s.file f (some { file with offset := file.offset + n })

@[simp] theorem OpenFiles.moved_self (fs : Vfs) (f : Nat) (file : OpenFile) (n : Nat) :
    (s.moved fs f file n).file f = some { file with offset := file.offset + n } :=
  Function.update_self ..

theorem OpenFiles.moved_ne {f g : Nat} (differs : g ≠ f) (fs : Vfs) (file : OpenFile) (n : Nat) :
    (s.moved fs f file n).file g = s.file g :=
  Function.update_of_ne differs _ _

theorem OpenFiles.moved_zero {f : Nat} {file : OpenFile} (isFile : s.file f = some file)
    (fs : Vfs) : s.moved fs f file 0 = { s with fs := fs } := by
  rw [OpenFiles.moved, Nat.add_zero]
  congr 1
  exact Function.update_eq_self_iff.mpr isFile.symm

section

variable {fs : Vfs} {f ip n size rest : Nat} {byte : Nat → Byte} {file : OpenFile}
  {inode inode' : Inode}

/-- An open file keeps all but its offset. -/
theorem OpenFiles.moved_file (isFile : s.file f = some file) {g : Nat} {got : OpenFile}
    (isGot : (s.moved fs f file n).file g = some got) : ∃ old, s.file g = some old ∧
      got.inode = old.inode ∧ got.offset ≤ old.offset + n := by
  by_cases isF : g = f
  · subst isF
    rw [OpenFiles.moved_self] at isGot
    obtain rfl := Option.some.inj isGot
    exact ⟨file, isFile, rfl, Nat.le_refl _⟩
  · rw [OpenFiles.moved_ne isF] at isGot
    exact ⟨got, isGot, rfl, Nat.le_add_right ..⟩

theorem Stores.types
    (stores : Stores groups loose held ip size byte s.fs view inode fs view' inode')
    (isInode : s.fs.inodes ip = some inode) (q : Nat) :
    (fs.inodes q).map Inode.type = (s.fs.inodes q).map Inode.type := by
  by_cases isIp : q = ip
  · rw [isIp, stores.isInode, isInode, Option.map_some, Option.map_some, stores.type]
  · rw [stores.inodes q isIp]

/-- Modes that do not look at the offset lead to the same files. -/
theorem OpenFiles.moved_target (mode : OpenFile → Prop) [DecidablePred mode]
    (blind : ∀ (file : OpenFile) offset, mode { file with offset := offset } ↔ mode file)
    (isFile : s.file f = some file)
    (types : ∀ q, (fs.inodes q).map Inode.type = (s.fs.inodes q).map Inode.type) :
    (s.moved fs f file n).target mode = s.target mode := by
  funext g
  have sameFs : (s.moved fs f file n).fs = fs := rfl
  rw [OpenFiles.target, OpenFiles.target, sameFs]
  simp only [types]
  by_cases isF : g = f
  · subst isF
    rw [OpenFiles.moved_self, isFile]
    simp only [Option.bind_some, blind]
  · rw [OpenFiles.moved_ne isF]

/-- After a call that changed this file and moved this offset. -/
theorem Serves.moved (serves : Serves groups loose held left s view)
    (isFile : s.file f = some file) (isInode : s.fs.inodes ip = some inode)
    (stores : Stores groups loose held ip size byte s.fs view inode fs view' inode')
    (small : size < 2 ^ 32) (enough : n + rest ≤ left) :
    Serves groups loose held rest (s.moved fs f file n) view' ∧
    SameAccess s (s.moved fs f file n) ∧
    (s.moved fs f file n).space = Space.advance
      { s.space with
        size := Function.update s.space.size ip size
        byte := Function.update s.space.byte ip byte } f n := by
  have types := stores.types isInode
  have present : ∀ q, (fs.inodes q).isSome = (s.fs.inodes q).isSome := by
    intro q
    have same := congrArg Option.isSome (types q)
    rwa [Option.isSome_map, Option.isSome_map] at same
  have now : Serves groups loose held rest (s.moved fs f file n) view' := by
    constructor
    · exact stores.owners
    · exact serves.pages
    · exact serves.room
    · intro q other isOther
      change fs.inodes q = some other at isOther
      by_cases isIp : q = ip
      · subst isIp
        obtain rfl := Option.some.inj (stores.isInode.symm.trans isOther)
        rw [stores.size]
        exact small
      · rw [stores.inodes q isIp] at isOther
        exact serves.size q other isOther
    · intro g got q isGot isQ
      obtain ⟨old, isOld, sameInode, -⟩ := OpenFiles.moved_file isFile isGot
      change (fs.inodes q).isSome
      rw [present]
      exact serves.points g old q isOld (sameInode ▸ isQ)
    · intro g got isGot
      obtain ⟨old, isOld, -, close⟩ := OpenFiles.moved_file isFile isGot
      have fits := serves.fits g old isOld
      omega
  refine ⟨now, ?_, ?_⟩
  · constructor
    · exact OpenFiles.moved_target _ (fun _ _ => Iff.rfl) isFile types
    · exact OpenFiles.moved_target _ (fun _ _ => Iff.rfl) isFile types
    · rintro q pos ⟨other, isOther, hasBlock⟩
      have before := (serves.owners.files q other isOther).hasBlock_eq (pos / groups.blockSize)
      rw [(serves.owners.files q other isOther).fs.fits.blockSize] at hasBlock
      by_cases isIp : q = ip
      · subst isIp
        obtain rfl := Option.some.inj (isInode.symm.trans isOther)
        exact (now.backed stores.isInode pos).mpr (stores.backed _ (before.mp hasBlock))
      · have isAfter : fs.inodes q = some other := by
          rw [stores.inodes q isIp]
          exact isOther
        exact (now.backed isAfter pos).mpr
          ((stores.others q other isIp isOther).2 _ (before.mp hasBlock))
    · intro g
      by_cases isF : g = f
      · rw [isF, isFile, OpenFiles.moved_self]
        rfl
      · rw [OpenFiles.moved_ne isF]
  · apply Space.ext
    · funext q
      change (fs.inodes q).elim 0 Inode.size = Function.update s.space.size ip size q
      by_cases isIp : q = ip
      · rw [isIp, stores.isInode, Function.update_self]
        exact stores.size
      · rw [stores.inodes q isIp, Function.update_of_ne isIp]
        rfl
    · funext q
      change (s.moved fs f file n).space.byte q = Function.update s.space.byte ip byte q
      by_cases isIp : q = ip
      · rw [isIp, now.byte stores.isInode, Function.update_self, stores.bytes]
      · rw [Function.update_of_ne isIp]
        cases isOther : s.fs.inodes q with
        | none =>
          have isNone : fs.inodes q = none := by
            rw [stores.inodes q isIp]
            exact isOther
          have isMoved : (s.moved fs f file n).fs.inodes q = none := isNone
          simp only [OpenFiles.space, isMoved, isOther, Option.elim_none]
        | some other =>
          have isAfter : fs.inodes q = some other := by
            rw [stores.inodes q isIp]
            exact isOther
          rw [now.byte isAfter, serves.byte isOther, (stores.others q other isIp isOther).1]
    · funext g
      change ((s.moved fs f file n).file g).elim 0 OpenFile.offset =
        Function.update s.space.offset f (s.space.offset f + n) g
      by_cases isF : g = f
      · subst isF
        rw [OpenFiles.moved_self, Function.update_self]
        simp only [OpenFiles.space, isFile, Option.elim_some]
      · rw [OpenFiles.moved_ne isF, Function.update_of_ne isF]
        rfl

/-- `readi` gives what is left of the file up to its end. -/
theorem readi_exact (owners : Owners groups loose s.fs view held) (pages : groups.blockSize = blkSz)
    (isInode : s.fs.inodes ip = some inode) (room : Multiset.card held < nBlkNum)
    (small : inode.size < 2 ^ 32) {offset len : Nat} (low : offset < 2 ^ 32) (short : len < 2 ^ 31)
    (isN : n = min len (inode.size - offset)) (buf : ByteMap) :
    wp (readi (some ip) buf offset len) (fun got after =>
      got = ((n : Int), copy buf 0 n fun i => fileByte view groups.blockSize inode (offset + i)) ∧
      Stores groups loose held ip inode.size (fileByte view groups.blockSize inode) s.fs view inode after view
        inode) s.fs := by
  have ownFile := owners.files ip inode isInode
  have blocks := ownFile.fs.fits.blockSize
  rw [readi]
  apply wp_seq (ext2FileRead_spec ownFile.fs.io room isInode ownFile.firmFile
    (blocks ▸ groups.sized) low len buf)
  rintro result after ⟨atEnd, moves, io, same⟩
  have stores := Stores.of_grew owners isInode (ownFile.same (fun _ _ => False) io same) .refl
  refine wp_pure.mpr ⟨?_, stores⟩
  by_cases below : offset < inode.size
  · obtain ⟨k, moved⟩ := moves below
    rw [blocks] at moved
    have isLength : readLength inode.size len offset = n := by
      rw [readLength, Nat.mod_eq_of_lt (by omega)]
      split <;> omega
    rw [isLength] at moved
    -- No position of the file is beyond the addressable ones.
    have limit : 2 ^ 32 ≤ addressable groups.blockSize := by
      rw [pages]
      decide
    have wrapped : u32 (offset + k) < 2 ^ 32 := Nat.mod_lt _ (by decide)
    rcases moved.ends with ⟨isK, isResult⟩ | ⟨-, beyond, -⟩
    · rw [Nat.zero_add] at isK
      subst isK
      rw [isResult, i32_of_small (by omega), moved.bytes]
      congr 1
      apply copy_congr
      intro i less
      rw [u32, Nat.mod_eq_of_lt (by omega)]
    · omega
  · obtain rfl : n = 0 := by omega
    rw [atEnd (Nat.le_of_not_lt below), copy_empty]
    rfl

theorem OpenFiles.target_eq (mode : OpenFile → Prop) [DecidablePred mode]
    (isFile : s.file f = some file) (points : file.inode = some ip)
    (isInode : s.fs.inodes ip = some inode) :
    s.target mode f = if mode file ∧ inode.type = .file then some ip else none := by
  rw [OpenFiles.target, isFile, Option.bind_some, points, Option.filter, isInode]
  simp only [Option.map_some, Option.some.injEq, decide_eq_true_eq]

theorem OpenFiles.target_none (mode : OpenFile → Prop) [DecidablePred mode]
    (isFile : s.file f = some file) (points : file.inode = none) : s.target mode f = none := by
  rw [OpenFiles.target, isFile, Option.bind_some, points]
  rfl

/-- The call was answered as one on arrays of bytes, and the next one can be. -/
def Answered (groups : Groups) (loose : Nat → Nat → Prop) (held : Multiset Nat) (left : Nat)
    (io : FileIo) (s : OpenFiles) (got : Int × ByteMap) (after : OpenFiles) : Prop :=
  ∃ answer, Step s.access s.space io.call answer after.space ∧ got = io.seen answer ∧
    (∃ view', Serves groups loose held (left - io.len) after view') ∧ SameAccess s after

/-- A call that is refused changes nothing. -/
theorem Serves.refused (serves : Serves groups loose held left s view) {io : FileIo}
    (refused : Step s.access s.space io.call .refused s.space) :
    Answered groups loose held left io s (-1, io.buf) s := by
  refine ⟨.refused, refused, ?_, ⟨view, serves.less (Nat.sub_le ..)⟩, SameAccess.refl s⟩
  cases io <;> rfl

/-- The caller of `readi` and `writei` moves the offset by the bytes returned. -/
theorem advance_spec (isFile : s.file f = some file) (noWrap : file.offset + n < 2 ^ 32) {ret : Int}
    (count : ret.toNat = n) {post : Unit → OpenFiles → Prop} (met : post () (s.moved fs f file n)) :
    wp (onlyIf (0 < ret) (modify fun s => { s with
      file := Function.update s.file f
        (some { file with offset := u32 (file.offset + ret.toNat) }) } : FileProg Unit)) post
      { s with fs := fs } := by
  rw [wp_onlyIf, count]
  split
  · rw [wp_modify, u32, Nat.mod_eq_of_lt noWrap]
    exact met
  · have none : n = 0 := by omega
    rw [none, OpenFiles.moved_zero isFile] at met
    exact met

/-- A `fileread` answers as the array of bytes does, and the open files serve on with less room
left. -/
theorem fileread_step (serves : Serves groups loose held left s view)
    (isFile : s.file f = some file) {len : Nat} (short : len < 2 ^ 31) (enough : len ≤ left)
    (buf : ByteMap) : wp (fileread (some f) buf len)
      (Answered groups loose held left (.read f len buf) s) s := by
  have denied : s.target OpenFile.readable f = none →
      Answered groups loose held left (.read f len buf) s (-1, buf) s :=
    fun noFile => serves.refused (.refusedRead noFile)
  rw [fileread, derefFile, wp_bind, wp_bind, wp_get]
  simp only [isFile]
  rw [wp_pure]
  obtain ⟨ref, flags, offset, pointer⟩ := file
  cases pointer with
  | none => exact wp_pure.mpr (denied (OpenFiles.target_none _ isFile rfl))
  | some ip =>
    obtain ⟨inode, isInode⟩ := Option.isSome_iff_exists.mp (serves.points f _ ip isFile rfl)
    have target := OpenFiles.target_eq OpenFile.readable isFile rfl isInode
    simp only
    rw [wp_ite]
    split
    · rename_i unreadable
      rw [if_neg fun both => unreadable both.1] at target
      exact wp_pure.mpr (denied target)
    · rename_i readable
      rw [wp_bind, onFs, wp_onPart, derefInode, wp_bind, wp_get]
      simp only [isInode]
      rw [wp_pure]
      cases type : inode.type with
      | dir =>
        rw [if_neg fun both => absurd (type.symm.trans both.2) (by decide)] at target
        exact wp_pure.mpr (denied target)
      | symlink =>
        rw [if_neg fun both => absurd (type.symm.trans both.2) (by decide)] at target
        exact wp_pure.mpr (denied target)
      | file =>
        rw [if_pos ⟨not_not.mp readable, type⟩] at target
        have fits := serves.fits f _ isFile
        have small := serves.size ip inode isInode
        have room := serves.room
        simp only at fits ⊢
        obtain ⟨n, isN⟩ : ∃ n, n = min len (inode.size - offset) := ⟨_, rfl⟩
        have low : offset < 2 ^ 32 := by omega
        have rest : n + (left - len) ≤ left := by omega
        rw [wp_bind, onFs, wp_onPart]
        apply wp_mono (readi_exact serves.owners serves.pages isInode (by omega) small low short isN buf)
        rintro got fs ⟨rfl, stores⟩
        obtain ⟨serves', access, space⟩ := serves.moved isFile isInode stores small rest
        have noWrap : offset + n < 2 ^ 32 := by omega
        rw [wp_bind]
        apply advance_spec isFile noWrap (Int.toNat_natCast n)
        have atOffset : s.space.offset f = offset := by
          simp only [OpenFiles.space, isFile, Option.elim_some]
        have atSize : s.space.size ip = inode.size := by
          simp only [OpenFiles.space, isInode, Option.elim_some]
        have unchanged : (s.moved fs f ⟨ref, flags, offset, some ip⟩ n).space =
            s.space.advance f n := by
          rw [space, ← atSize, ← serves.byte isInode, Function.update_eq_self,
            Function.update_eq_self]
        refine wp_pure.mpr ⟨.delivered (stretch (s.space.byte ip) (s.space.offset f) n), ?_, ?_,
          ⟨view, serves'⟩, access⟩
        · rw [unchanged]
          exact .read target (by rw [atSize, atOffset]; exact isN)
        · simp only [FileIo.seen, length_stretch, serves.byte isInode, atOffset]
          congr 1
          apply copy_congr
          intro i less
          rw [stretch_getD less]

/-- A `filewrite` answers as the array of bytes does. It is cut short only where blocks are missing.
-/
theorem filewrite_step (serves : Serves groups loose held left s view)
    (isFile : s.file f = some file) {len : Nat} (short : len < 2 ^ 31) (enough : len ≤ left)
    (data : ByteMap) : wp (filewrite (some f) data len) (fun ret after =>
      Answered groups loose held left (.write f len data) s (ret, data) after) s := by
  have denied : s.target OpenFile.writable f = none →
      Answered groups loose held left (.write f len data) s (-1, data) s :=
    fun noFile => serves.refused (.refusedWrite noFile)
  rw [filewrite, derefFile, wp_bind, wp_bind, wp_get]
  simp only [isFile]
  rw [wp_pure]
  obtain ⟨ref, flags, offset, pointer⟩ := file
  cases pointer with
  | none => exact wp_pure.mpr (denied (OpenFiles.target_none _ isFile rfl))
  | some ip =>
    obtain ⟨inode, isInode⟩ := Option.isSome_iff_exists.mp (serves.points f _ ip isFile rfl)
    have target := OpenFiles.target_eq OpenFile.writable isFile rfl isInode
    simp only
    rw [wp_ite]
    split
    · rename_i readOnly
      rw [if_neg fun both => readOnly both.1] at target
      exact wp_pure.mpr (denied target)
    · rename_i writable
      rw [wp_bind, onFs, wp_onPart, derefInode, wp_bind, wp_get]
      simp only [isInode]
      rw [wp_pure]
      cases type : inode.type with
      | dir =>
        rw [if_neg fun both => absurd (type.symm.trans both.2) (by decide)] at target
        exact wp_pure.mpr (denied target)
      | symlink =>
        rw [if_neg fun both => absurd (type.symm.trans both.2) (by decide)] at target
        exact wp_pure.mpr (denied target)
      | file =>
        rw [if_pos ⟨not_not.mp writable, type⟩] at target
        have fits := serves.fits f _ isFile
        have small := serves.size ip inode isInode
        simp only at fits ⊢
        have below : offset + len < 2 ^ 32 := by omega
        rw [wp_bind, onFs, wp_onPart, writei, wp_bind]
        apply wp_mono (serves.owners.ext2FileWrite isInode serves.room data below short)
        rintro got fs ⟨n, part, whole, isRet, view', inode', stores⟩
        have rest : n + (left - len) ≤ left := by omega
        have newSize : writtenSize inode.size offset len n < 2 ^ 32 := by
          rw [writtenSize]
          split <;> omega
        obtain ⟨serves', access, space⟩ := serves.moved isFile isInode stores newSize rest
        have noWrap : offset + n < 2 ^ 32 := by omega
        have count : got.1.toNat = n := by
          rw [isRet, writeResult]
          split
          · rename_i none
            rw [none.1]
            rfl
          · exact Int.toNat_natCast n
        rw [wp_pure, wp_bind]
        apply advance_spec isFile noWrap count
        have atOffset : s.space.offset f = offset := by
          simp only [OpenFiles.space, isFile, Option.elim_some]
        have atSize : s.space.size ip = inode.size := by
          simp only [OpenFiles.space, isInode, Option.elim_some]
        have stored : (s.moved fs f ⟨ref, flags, offset, some ip⟩ n).space =
            (s.space.store ip f len n data).advance f n := by
          rw [space, Space.store, serves.byte isInode, atOffset, atSize]
        refine wp_pure.mpr ⟨.stored n, ?_, ?_, ⟨view', serves'⟩, access⟩
        · rw [stored]
          refine .write target part fun promised => whole fun i inside => ?_
          have hasBlock := promised i inside
          rwa [atOffset, serves.backed isInode] at hasBlock
        · rw [FileIo.seen, isRet]

/-- Each call answers as the array of bytes does. -/
theorem exec_step (serves : Serves groups loose held left s view) {io : FileIo}
    (isFile : (s.file io.file).isSome) (short : io.len < 2 ^ 31) (enough : io.len ≤ left) :
    wp io.exec (Answered groups loose held left io s) s := by
  obtain ⟨file, isFile⟩ := Option.isSome_iff_exists.mp isFile
  cases io with
  | read f len buf => exact fileread_step serves isFile short enough buf
  | write f len data =>
    rw [FileIo.exec]
    apply wp_seq (filewrite_step serves isFile short enough data)
    intro ret after answered
    exact wp_pure.mpr answered

end

/-- Each call with its answer. -/
def answered (ios : List FileIo) (answers : List (Answer Byte)) : List (Call Nat Byte × Answer Byte) :=
  (ios.map FileIo.call).zip answers

/-- A sequence of calls is a run of the abstract files with the same answers, by induction over the
calls. -/
theorem execAll_spec (ios : List FileIo) (serves : Serves groups loose held left s view)
    (isFile : ∀ io ∈ ios, (s.file io.file).isSome) (short : ∀ io ∈ ios, io.len < 2 ^ 31)
    (enough : (ios.map FileIo.len).sum ≤ left) :
    wp (execAll ios) (fun gots after => ∃ answers : List (Answer Byte),
      answers.length = ios.length ∧ gots = List.zipWith FileIo.seen ios answers ∧
      Runs s.access s.space (answered ios answers) after.space ∧ SameAccess s after ∧
      ∃ view', Serves groups loose held (left - (ios.map FileIo.len).sum) after view') s := by
  induction ios generalizing s view left with
  | nil => exact wp_pure.mpr ⟨[], rfl, rfl, .nil, SameAccess.refl s, view, serves⟩
  | cons io rest inductionHypothesis =>
    rw [List.map_cons, List.sum_cons] at enough
    rw [execAll]
    apply wp_seq (exec_step serves (isFile io (List.mem_cons_self ..))
      (short io (List.mem_cons_self ..)) (by omega))
    rintro got mid ⟨answer, step, isGot, ⟨viewMid, servesMid⟩, access⟩
    apply wp_seq (inductionHypothesis servesMid
      (fun other member => by
        rw [access.isFile]
        exact isFile other (List.mem_cons_of_mem _ member))
      (fun other member => short other (List.mem_cons_of_mem _ member)) (by omega))
    rintro more after ⟨answers, length, areMore, runs, accessAfter, view', servesAfter⟩
    refine wp_pure.mpr ⟨answer :: answers, ?_, ?_, ?_, ?_, view', ?_⟩
    · rw [List.length_cons, List.length_cons, length]
    · rw [isGot, areMore, List.zipWith_cons_cons]
    · exact .cons step (runs.fewer access.reads access.writes access.backed)
    · constructor
      · exact accessAfter.reads.trans access.reads
      · exact accessAfter.writes.trans access.writes
      · exact fun ip pos backed => accessAfter.backed ip pos (access.backed ip pos backed)
      · exact fun f => (accessAfter.isFile f).trans (access.isFile f)
    · rwa [List.map_cons, List.sum_cons, ← Nat.sub_sub]

/-- Any calls on any open files in any order: they read and write arrays of bytes, one for
each regular file. -/
theorem file_io_refines (serves : Serves groups loose held left s view) (ios : List FileIo)
    (isFile : ∀ io ∈ ios, (s.file io.file).isSome) (short : ∀ io ∈ ios, io.len < 2 ^ 31)
    (enough : (ios.map FileIo.len).sum ≤ left) :
    wp (execAll ios) (fun gots after => ∃ answers : List (Answer Byte),
      answers.length = ios.length ∧ gots = List.zipWith FileIo.seen ios answers ∧
      Runs s.access s.space (answered ios answers) after.space) s := by
  apply wp_mono (execAll_spec ios serves isFile short enough)
  rintro gots after ⟨answers, length, areGots, runs, -, -⟩
  exact ⟨answers, length, areGots, runs⟩

/-! ## A file between a writer and a reader -/

/-- The bytes a call put into the file of this open file. -/
def FileIo.sent (writer : Nat) : FileIo → Int × ByteMap → List Byte
  | .write f _ data, got => if f = writer then stretch data 0 got.1.toNat else []
  | .read _ _ _, _ => []

/-- The bytes a call took out of it. -/
def FileIo.received (reader : Nat) : FileIo → Int × ByteMap → List Byte
  | .read f _ _, got => if f = reader then delivered got else []
  | .write _ _ _, _ => []

theorem delivered_copy (buf : ByteMap) (values : List Byte) :
    delivered ((values.length : Int), copy buf 0 values.length fun i => values.getD i 0) = values := by
  apply List.ext_getElem
  · rw [delivered, List.length_map, List.length_range, Int.toNat_natCast]
  · intro i less inside
    simp only [delivered, List.getElem_map, List.getElem_range]
    rw [copy_inside _ _ _ _ _ (Nat.zero_le i) (by omega), Nat.sub_zero,
      List.getD_eq_getElem _ _ inside]

/-- The caller can tell from the results what was moved. -/
theorem FileIo.seen_moved {access : Access Nat Nat} {a a' : Space Nat Nat Byte} {io : FileIo}
    {answer : Answer Byte} (step : Step access a io.call answer a') (writer reader : Nat) :
    io.sent writer (io.seen answer) = sentBy writer (io.call, answer) ∧
      io.received reader (io.seen answer) = receivedBy reader (io.call, answer) := by
  cases io with
  | read f len buf =>
    refine ⟨rfl, ?_⟩
    cases step with
    | refusedRead denied =>
      rw [FileIo.received]
      exact ite_self _
    | read allowed isN =>
      rw [FileIo.received, FileIo.seen, delivered_copy]
      rfl
  | write f len data =>
    refine ⟨?_, rfl⟩
    cases step with
    | refusedWrite denied =>
      rw [FileIo.sent]
      exact ite_self _
    | @write _ _ n _ _ allowed part whole =>
      have count : (writeResult len n).toNat = n := by
        rw [writeResult]
        split
        · rename_i none
          rw [none.1]
          rfl
        · exact Int.toNat_natCast n
      rw [FileIo.sent, FileIo.seen, count]
      rfl

/-- The bytes that the calls move are those that the answers of the abstract run move. -/
theorem answered_moved {access : Access Nat Nat} {a a' : Space Nat Nat Byte} {ios : List FileIo}
    {answers : List (Answer Byte)} (length : answers.length = ios.length)
    (runs : Runs access a (answered ios answers) a') (writer reader : Nat) :
    (List.zipWith (FileIo.sent writer) ios (List.zipWith FileIo.seen ios answers)).flatten =
      (answered ios answers).flatMap (sentBy writer) ∧
    (List.zipWith (FileIo.received reader) ios (List.zipWith FileIo.seen ios answers)).flatten =
      (answered ios answers).flatMap (receivedBy reader) := by
  induction ios generalizing answers a with
  | nil => exact ⟨rfl, rfl⟩
  | cons io rest inductionHypothesis =>
    cases answers with
    | nil => cases length
    | cons answer more =>
      rw [answered, List.map_cons, List.zip_cons_cons] at runs
      cases runs with
      | cons first later =>
        obtain ⟨sent, received⟩ := FileIo.seen_moved first writer reader
        obtain ⟨allSent, allReceived⟩ :=
          inductionHypothesis (Nat.succ_injective length) later
        constructor
        · rw [List.zipWith_cons_cons, List.zipWith_cons_cons, List.flatten_cons, sent, allSent]
          rfl
        · rw [List.zipWith_cons_cons, List.zipWith_cons_cons, List.flatten_cons, received,
            allReceived]
          rfl

end

/-! ## An empty file, opened twice -/

def emptyInode : Inode where
  ino := 11
  type := .file
  mode := 0x81a4
  uid := 0
  gid := 0
  size := 0
  nlinks := 1
  ref := 2
  dirty := false
  valid := true
  iBlock _ := 0
  iFlags := 0

/-- Open file 0 is for writing, open file 1 for reading. -/
def openedTwice (fs : Vfs) : OpenFiles where
  fs := fs
  file f := if f = 0 then some ⟨1, 1, 0, some 0⟩ else if f = 1 then some ⟨1, 0, 0, some 0⟩ else none

/-- The empty file that is opened twice meets the conditions of the theorem. -/
theorem openedTwice_serves : ∃ fs, fs.inodes = soleInode emptyInode ∧
    Serves oneGroup (fun _ _ => False) {0} 4096 (openedTwice fs) wideDisk := by
  have counted : CountedDisk wideDisk :=
    ⟨by decide +kernel, by decide +kernel, by decide +kernel⟩
  have taken : ∀ c < 9, bitAt (wideDisk 2) c = true := by decide +kernel
  obtain ⟨i, caches, -, fs, -⟩ := exists_fsState (soleInode emptyInode) counted
    (by decide +kernel) (by decide) taken
  have only : ∀ q inode, soleInode emptyInode q = some inode → q = 0 ∧ inode = emptyInode := by
    intro q inode isInode
    rw [soleInode] at isInode
    split at isInode
    · exact ⟨‹_›, (Option.some.inj isInode).symm⟩
    · cases isInode
  have hole : ∀ slot path, ptrAt wideDisk emptyInode slot path = 0 :=
    fun slot path => ptrAt_below wideDisk emptyInode slot [] path rfl
  refine ⟨mountedOne wideDisk (soleInode emptyInode) i caches, rfl, ?_⟩
  constructor
  · constructor
    · intro q inode isInode
      obtain ⟨rfl, rfl⟩ := only q inode isInode
      refine ⟨fs, rfl, rfl, ⟨by decide, by decide⟩, ?_, ?_⟩
      · exact fun slot path _ isBlock => absurd (hole slot path) isBlock
      · exact fun slot path _ _ _ _ isBlock => absurd (hole slot path) isBlock
    · intro q inode q' inode' isInode isInode' differs
      exact absurd ((only q inode isInode).1.trans (only q' inode' isInode').1.symm) differs
  · rfl
  · decide
  · intro q inode isInode
    obtain ⟨-, rfl⟩ := only q inode isInode
    decide
  · intro f file ip isFile isInode
    change (soleInode emptyInode ip).isSome
    simp only [openedTwice] at isFile
    split at isFile
    · obtain rfl := Option.some.inj isFile
      obtain rfl := Option.some.inj isInode
      rfl
    · split at isFile
      · obtain rfl := Option.some.inj isFile
        obtain rfl := Option.some.inj isInode
        rfl
      · cases isFile
  · intro f file isFile
    simp only [openedTwice] at isFile
    split at isFile
    · obtain rfl := Option.some.inj isFile
      decide
    · split at isFile
      · obtain rfl := Option.some.inj isFile
        decide
      · cases isFile

/-- A write through one of the files and a read through the other. -/
def sendThenReceive : List FileIo := [.write 0 5 fun _ => 7, .read 1 9 fun _ => 1]

theorem openedTwice_isFile (fs : Vfs) (io : FileIo) (member : io ∈ sendThenReceive) :
    ((openedTwice fs).file io.file).isSome := by
  rcases List.mem_pair.mp member with isWrite | isRead
  · rw [isWrite]
    rfl
  · rw [isRead]
    rfl

/-- The theorem for these two calls. -/
theorem openedTwice_refines : ∃ fs, wp (execAll sendThenReceive)
    (fun gots after => ∃ answers : List (Answer Byte), answers.length = sendThenReceive.length ∧
      gots = List.zipWith FileIo.seen sendThenReceive answers ∧
      Runs (openedTwice fs).access (openedTwice fs).space
        (answered sendThenReceive answers) after.space)
    (openedTwice fs) := by
  obtain ⟨fs, -, serves⟩ := openedTwice_serves
  exact ⟨fs, file_io_refines serves sendThenReceive (openedTwice_isFile fs)
    (by decide) (by decide)⟩

end CuteCore.Fs

import CuteCore.Fs.InodeRuns
import CuteCore.Fs.OpenFile
import CuteCore.Library.CircularList

/-!
# The open-file table

`filealloc`, `filedup` and `fileclose` over the slab cache of `struct file`, the list
of open files and the inodes behind them. An object that is handed out exists, one in
the slab cache does not; which object `cache_alloc` hands out is an argument. The calls
out of the table are recorded.
-/

namespace CuteCore.Fs

open Hoare CircularList

/-- A node of the list: `ftable.head` or the `f_link` of a file. -/
inductive FileLink where
  | head
  | file (f : Nat)
  deriving DecidableEq

/-- `ext2_file_ops` and `uart_ops` -/
inductive FileOps where
  | ext2
  | uart
  deriving DecidableEq

/-- `struct file` with its operations, but without its link. -/
structure File extends OpenFile where
  ops : Option FileOps

inductive FileCall where
  | cacheAlloc (f : Nat)
  | release (inode : Option Nat) (f : Nat)
  | iput (inode : Nat)
  | cacheFree (f : Nat)
  deriving DecidableEq

structure FileTable where
  vfs : Vfs
  /-- The objects of `file_cache` that are handed out. -/
  files : Nat → Option File
  links : Links FileLink
  /-- `ftable.count` -/
  count : Nat
  calls : List FileCall

/-- `++` and `--` on `usize`. -/
def countUp (n : Nat) : Nat := (n + 1) % 2 ^ 64
def countDown (n : Nat) : Nat := (n + 2 ^ 64 - 1) % 2 ^ 64

abbrev TableProg (α : Type) := Prog FileTable Fault α

def onVfs {α : Type} (program : FsProg α) : TableProg α :=
  onPart FileTable.vfs (fun vfs s => { s with vfs := vfs }) program

def onLinks (change : Links FileLink → Links FileLink) : TableProg Unit :=
  modify fun s => { s with links := change s.links }

def recordCall (call : FileCall) : TableProg Unit :=
  modify fun s => { s with calls := s.calls ++ [call] }

def FileTable.setFile (s : FileTable) (f : Nat) (file : Option File) : FileTable :=
  { s with files := Function.update s.files f file }

def fileAt (f : Nat) : TableProg File := do
  let s ← get
  match s.files f with
  | some file => return file
  | none => throw .badAccess

def fileinit (created : Bool) : TableProg Unit := do
  onLinks (init .head)
  modify fun s => { s with count := 0 }
  onlyIf (created = false) (throw (.panic "fileinit: failed to create file cache"))

def filealloc (object : Option Nat) : TableProg (Option Nat) :=
  match object with
  | none => return none
  | some f => do
    recordCall (.cacheAlloc f)
    modify fun s => s.setFile f
      (some { ref := 1, flags := 0, offset := 0, inode := none, ops := none })
    onLinks (init (.file f))
    onLinks (addTail (.file f) .head)
    modify fun s => { s with count := countUp s.count }
    return some f

/-- `ext2_file_release`, which does nothing. -/
def ext2FileRelease (_inode : Option Nat) (_f : Nat) : TableProg Unit := return ()

/-- The field `release`. -/
def FileOps.release : FileOps → Option (Option Nat → Nat → TableProg Unit)
  | .ext2 => some ext2FileRelease
  | .uart => none

/-- `f->ops->release(f->inode, f)`, if there is one. -/
def callRelease (f : Nat) : TableProg Unit := do
  let file ← fileAt f
  match file.ops.bind FileOps.release with
  | some release => do
    recordCall (.release file.inode f)
    release file.inode f
  | none => return ()

/-- `iput(f->inode)`, if there is one. -/
def putInode (f : Nat) : TableProg Unit := do
  let file ← fileAt f
  match file.inode with
  | some inode => do
    recordCall (.iput inode)
    onVfs (iput inode)
  | none => return ()

def fileclose (f : Option Nat) : TableProg Unit :=
  match f with
  | none => return ()
  | some f => do
    let file ← fileAt f
    modify fun s => s.setFile f (some { file with ref := file.ref - 1 })
    if 0 < file.ref - 1 then return ()
    else do
      callRelease f
      putInode f
      onLinks (del (.file f))
      modify fun s => { s with count := countDown s.count }
      modify fun s => s.setFile f none
      recordCall (.cacheFree f)

/-- Signed overflow of the count has no meaning. -/
def filedup (f : Option Nat) : TableProg (Option Nat) :=
  match f with
  | none => return none
  | some f => do
    let file ← fileAt f
    if file.ref + 1 < 2 ^ 31 then
      modify fun s => s.setFile f (some { file with ref := file.ref + 1 })
    else throw .badAccess
    return some f

/-! ## What each call does -/

variable {s after : FileTable} {f : Nat} {file : File}

/-- A file is read where its object exists. -/
theorem returns_fileAt {got : File} :
    Returns (fileAt f) s got after ↔ s.files f = some got ∧ s = after := by
  rw [fileAt, returns_bind]
  constructor
  · rintro ⟨_, _, read, returned⟩
    obtain ⟨rfl, rfl⟩ := returns_get.mp read
    split at returned
    · obtain ⟨rfl, rfl⟩ := returns_pure.mp returned
      exact ⟨‹_›, rfl⟩
    · exact (returns_throw.mp returned).elim
  · rintro ⟨found, rfl⟩
    refine ⟨s, s, returns_get.mpr ⟨rfl, rfl⟩, ?_⟩
    rw [found]
    exact returns_pure.mpr ⟨rfl, rfl⟩

def releaseCalls (file : File) (f : Nat) : List FileCall :=
  if file.ops = some .ext2 then [.release file.inode f] else []

def inodeCalls (file : File) : List FileCall :=
  match file.inode with
  | some inode => [.iput inode]
  | none => []

/-- The calls a last close makes. -/
def closing (file : File) (f : Nat) : List FileCall :=
  releaseCalls file f ++ inodeCalls file ++ [.cacheFree f]

/-- The file system behind a close that gives the inode back. -/
def InodePut (inode : Option Nat) (vfs vfs' : Vfs) : Prop :=
  match inode with
  | some inode => Returns (iput inode) vfs () vfs'
  | none => vfs' = vfs

/-- The table without the file, with this file system. -/
def FileTable.closed (s : FileTable) (f : Nat) (file : File) (vfs : Vfs) : FileTable where
  vfs := vfs
  files := Function.update s.files f none
  links := del (.file f) s.links
  count := countDown s.count
  calls := s.calls ++ closing file f

/-- The table with a new file behind the others. -/
def FileTable.opened (s : FileTable) (f : Nat) : FileTable where
  vfs := s.vfs
  files := Function.update s.files f
    (some { ref := 1, flags := 0, offset := 0, inode := none, ops := none })
  links := addTail (.file f) .head (init (.file f) s.links)
  count := countUp s.count
  calls := s.calls ++ [.cacheAlloc f]

theorem opened_self (s : FileTable) (f : Nat) : (s.opened f).files f =
    some { ref := 1, flags := 0, offset := 0, inode := none, ops := none } :=
  Function.update_self ..

theorem setFile_self (s : FileTable) (f : Nat) (file : Option File) :
    (s.setFile f file).files f = file :=
  Function.update_self ..

theorem returns_filealloc {r : Option Nat} : Returns (filealloc (some f)) s r after ↔
    r = some f ∧ after = s.opened f := by
  have ran : Returns (filealloc (some f)) s (some f) (s.opened f) := rfl
  constructor
  · intro returned
    obtain ⟨rfl, rfl⟩ := returned.unique ran
    exact ⟨rfl, rfl⟩
  · rintro ⟨rfl, rfl⟩
    exact ran

/-- `filedup` counts one more reference, as long as the count fits. -/
theorem returns_filedup {r : Option Nat} (found : s.files f = some file) :
    Returns (filedup (some f)) s r after ↔ file.ref + 1 < 2 ^ 31 ∧ r = some f ∧
      after = s.setFile f (some { file with ref := file.ref + 1 }) := by
  constructor
  · intro returned
    obtain ⟨got, _, read, returned⟩ := returns_bind.mp returned
    obtain ⟨found', rfl⟩ := returns_fileAt.mp read
    obtain rfl : got = file := Option.some.inj (found'.symm.trans found)
    split at returned
    · obtain ⟨_, _, changed, returned⟩ := returns_bind.mp returned
      obtain rfl := returns_modify.mp changed
      obtain ⟨rfl, rfl⟩ := returns_pure.mp returned
      exact ⟨‹_›, rfl, rfl⟩
    · obtain ⟨_, _, thrown, -⟩ := returns_bind.mp returned
      exact (returns_throw.mp thrown).elim
  · rintro ⟨small, rfl, rfl⟩
    refine returns_bind.mpr ⟨file, s, returns_fileAt.mpr ⟨found, rfl⟩, ?_⟩
    rw [if_pos small]
    rfl

/-- A close that is not the last one. -/
theorem returns_fileclose_earlier (found : s.files f = some file) (more : 1 < file.ref) :
    Returns (fileclose (some f)) s () after ↔
      after = s.setFile f (some { file with ref := file.ref - 1 }) := by
  have ran : Returns (fileclose (some f)) s ()
      (s.setFile f (some { file with ref := file.ref - 1 })) := by
    refine returns_bind.mpr ⟨file, s, returns_fileAt.mpr ⟨found, rfl⟩, ?_⟩
    refine returns_bind.mpr ⟨(), _, returns_modify.mpr rfl, ?_⟩
    rw [if_pos (show 0 < file.ref - 1 by omega)]
    rfl
  constructor
  · intro returned
    exact (returned.unique ran).2
  · rintro rfl
    exact ran

/-- `callRelease` makes the calls of the file's release hook and does nothing else. -/
theorem returns_callRelease (found : s.files f = some file) :
    Returns (callRelease f) s () after ↔
      after = { s with calls := s.calls ++ releaseCalls file f } := by
  have ran : Returns (callRelease f) s () { s with calls := s.calls ++ releaseCalls file f } := by
    refine returns_bind.mpr ⟨file, s, returns_fileAt.mpr ⟨found, rfl⟩, ?_⟩
    rw [releaseCalls]
    cases hook : file.ops with
    | none => simp
    | some ops =>
      cases ops with
      | ext2 => rfl
      | uart => simp [FileOps.release]
  constructor
  · intro returned
    exact (returned.unique ran).2
  · rintro rfl
    exact ran

/-- What the last close does with the inode: without one nothing, else `iput` in the state of the
file system at that time. -/
theorem returns_putInode (found : s.files f = some file) :
    Returns (putInode f) s () after ↔ ∃ vfs, InodePut file.inode s.vfs vfs ∧
      after = { s with vfs := vfs, calls := s.calls ++ inodeCalls file } := by
  rw [putInode, returns_bind, inodeCalls]
  constructor
  · rintro ⟨got, _, read, returned⟩
    obtain ⟨found', rfl⟩ := returns_fileAt.mp read
    obtain rfl : got = file := Option.some.inj (found'.symm.trans found)
    cases isInode : got.inode with
    | none =>
      rw [isInode] at returned
      obtain ⟨-, rfl⟩ := returns_pure.mp returned
      exact ⟨s.vfs, rfl, by simp⟩
    | some inode =>
      rw [isInode] at returned
      obtain ⟨_, _, recorded, returned⟩ := returns_bind.mp returned
      obtain rfl := returns_modify.mp recorded
      obtain ⟨vfs, put, rfl⟩ := returns_onPart.mp returned
      exact ⟨vfs, put, rfl⟩
  · rintro ⟨vfs, put, rfl⟩
    refine ⟨file, s, returns_fileAt.mpr ⟨found, rfl⟩, ?_⟩
    cases isInode : file.inode with
    | none =>
      rw [isInode] at put
      obtain rfl : vfs = s.vfs := put
      exact returns_pure.mpr ⟨rfl, by simp⟩
    | some inode =>
      rw [isInode] at put
      refine returns_bind.mpr ⟨(), _, returns_modify.mpr rfl, ?_⟩
      exact returns_onPart.mpr ⟨vfs, put, rfl⟩

/-- The last close: the hook, the inode, the list, the count and the object, once each. -/
theorem returns_fileclose_last (found : s.files f = some file) (last : file.ref ≤ 1) :
    Returns (fileclose (some f)) s () after ↔
      ∃ vfs, InodePut file.inode s.vfs vfs ∧ after = s.closed f file vfs := by
  have counted (calls : List FileCall) :
      ({ s.setFile f (some { file with ref := file.ref - 1 }) with calls := calls }).files f =
        some { file with ref := file.ref - 1 } := Function.update_self ..
  constructor
  · intro returned
    obtain ⟨got, _, read, returned⟩ := returns_bind.mp returned
    obtain ⟨found', rfl⟩ := returns_fileAt.mp read
    obtain rfl : got = file := Option.some.inj (found'.symm.trans found)
    obtain ⟨_, _, dropped, returned⟩ := returns_bind.mp returned
    obtain rfl := returns_modify.mp dropped
    rw [if_neg (show ¬ 0 < got.ref - 1 by omega)] at returned
    obtain ⟨_, _, released, returned⟩ := returns_bind.mp returned
    obtain rfl := (returns_callRelease (counted s.calls)).mp released
    obtain ⟨_, _, put, returned⟩ := returns_bind.mp returned
    obtain ⟨vfs, isPut, rfl⟩ := (returns_putInode (counted _)).mp put
    refine ⟨vfs, isPut, ?_⟩
    obtain ⟨_, _, unlinked, returned⟩ := returns_bind.mp returned
    obtain rfl := returns_modify.mp unlinked
    obtain ⟨_, _, fewer, returned⟩ := returns_bind.mp returned
    obtain rfl := returns_modify.mp fewer
    obtain ⟨_, _, freed, returned⟩ := returns_bind.mp returned
    obtain rfl := returns_modify.mp freed
    obtain rfl := returns_modify.mp returned
    simp only [FileTable.setFile, FileTable.closed, closing, releaseCalls, inodeCalls,
      Function.update_idem, List.append_assoc]
  · rintro ⟨vfs, isPut, rfl⟩
    refine returns_bind.mpr ⟨file, s, returns_fileAt.mpr ⟨found, rfl⟩, ?_⟩
    refine returns_bind.mpr ⟨(), _, returns_modify.mpr rfl, ?_⟩
    rw [if_neg (show ¬ 0 < file.ref - 1 by omega)]
    refine returns_bind.mpr ⟨(), _, (returns_callRelease (counted s.calls)).mpr rfl, ?_⟩
    refine returns_bind.mpr ⟨(), _, (returns_putInode (counted _)).mpr ⟨vfs, isPut, rfl⟩, ?_⟩
    refine returns_bind.mpr ⟨(), _, returns_modify.mpr rfl, ?_⟩
    refine returns_bind.mpr ⟨(), _, returns_modify.mpr rfl, ?_⟩
    refine returns_bind.mpr ⟨(), _, returns_modify.mpr rfl, ?_⟩
    refine returns_modify.mpr ?_
    simp only [FileTable.setFile, FileTable.closed, closing, releaseCalls, inodeCalls,
      Function.update_idem, List.append_assoc]

end CuteCore.Fs

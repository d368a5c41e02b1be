import CuteCore.Fs.InodeCache

/-!
# References along runs

The operations that hand out inodes, and runs of them from mount on. Callers
give back only what they were given. Nothing is assumed about the disk.

The operations are the inode operations of ext2 and the two path walks. The invariant is
kept by each of them on every path, also where a lookup fails halfway or an inode cannot
be loaded, so no reference is lost and none is given back twice in any run.
-/

namespace CuteCore.Fs

open Hoare Bytes

variable {root : Nat} {s : Vfs} {held : Multiset Nat}

theorem ext2AllocInode_spec (s : Vfs) :
    wlp ext2AllocInode (fun ino after => SameCache s after ∧ ino < 2 ^ 32) s := by
  refine fun ino after returned => ⟨ext2AllocInode_keeps.related s ino after returned, ?_⟩
  obtain ⟨_, _, -, returned⟩ := returns_bind.mp returned
  obtain ⟨found, _, -, returned⟩ := returns_bind.mp returned
  obtain ⟨rfl, -⟩ := returns_pure.mp returned
  cases found with
  | none => simp
  | some n => exact Nat.mod_lt _ (by simp)

/-- The scan of a directory changes no reference and finds a 32-bit number. -/
theorem lookupFrom_spec (p : Nat) (name : List Byte) (remaining lbk : Nat) (s : Vfs) :
    wlp (lookupFrom p name remaining lbk) (fun r after => SameCache s after ∧
      ∀ ino, r = some ino → ino < 2 ^ 32) s := by
  induction remaining generalizing lbk s with
  | zero => exact wlp_pure.mpr ⟨Std.Refl.refl s, by simp⟩
  | succ remaining inductionHypothesis =>
    have next : ∀ mid, SameCache s mid → wlp (lookupFrom p name remaining (lbk + 1))
        (fun r after => SameCache s after ∧ ∀ ino, r = some ino → ino < 2 ^ 32) mid :=
      fun mid same => wlp_mono (inductionHypothesis (lbk + 1) mid)
        fun _ _ found => ⟨IsTrans.trans _ _ _ same found.1, found.2⟩
    rw [lookupFrom, wlp_bind, wlp_get]
    refine wlp_seq ((ext2ReadBlock_keeps ..).wlp s) fun block mid same => ?_
    cases block with
    | none => exact next mid same
    | some buf =>
      simp only
      split
      · refine wlp_pure.mpr ⟨same, fun ino isIno => ?_⟩
        obtain rfl := Option.some.inj isIno
        exact load_lt buf _ 4
      · exact next mid same
      · exact wlp_throw.mpr trivial

/-- `ext2_lookup` hands out the reference that it returns. -/
theorem ext2Lookup_spec (counted : Counted root s held) (p : Nat) (name : List Byte) :
    wlp (ext2Lookup p name) (fun r after => Counted root after (heldWith held r)) s := by
  rw [ext2Lookup]
  refine wlp_seq ((derefInode_keeps p).wlp s) fun dir first toFirst => ?_
  rw [wlp_ite]
  split
  · exact wlp_pure.mpr (counted.congr toFirst)
  rw [wlp_bind, wlp_get]
  refine wlp_seq (lookupFrom_spec p name _ 0 first) ?_
  rintro found second ⟨toSecond, bound⟩
  have kept := (counted.congr toFirst).congr toSecond
  cases found with
  | none => exact wlp_pure.mpr kept
  | some ino => exact ext2Iget_spec kept ino (bound ino rfl)

/-- `ext2_create` hands out the reference it returns and gives back all others, on every path
through it. -/
theorem ext2Create_spec (counted : Counted root s held) (dir : Nat) (name : List Byte)
    (mode : Nat) :
    wlp (ext2Create dir name mode) (fun r after => Counted root after (heldWith held r)) s := by
  rw [ext2Create, wlp_ite]
  split
  · exact wlp_pure.mpr counted
  refine wlp_seq (ext2AllocInode_spec s) ?_
  rintro ino allocated ⟨toAllocated, bound⟩
  rw [wlp_ite]
  split
  · exact wlp_pure.mpr (counted.congr toAllocated)
  refine wlp_seq ((ext2InodeLoc_keeps ino).wlp _) fun loc _ located => ?_
  refine wlp_seq ((onCaches_keeps _).wlp _) fun cache _ read => ?_
  rw [wlp_bind, wlp_get]
  refine wlp_seq ((clearBuf_keeps ..).wlp _) fun _ _ cleared => ?_
  refine wlp_seq ((storeBuf_keeps ..).wlp _) fun _ _ moded => ?_
  refine wlp_seq ((storeBuf_keeps ..).wlp _) fun _ _ linked => ?_
  refine wlp_seq ((onCaches_keeps _).wlp _) fun _ _ written => ?_
  refine wlp_seq ((onCaches_keeps _).wlp _) fun _ _ released => ?_
  refine wlp_seq ((ext2DirAddEntry_keeps ..).wlp _) fun added _ entered => ?_
  have kept := ((((((((counted.congr toAllocated).congr located).congr read).congr cleared).congr
    moded).congr linked).congr written).congr released).congr entered
  rw [wlp_ite]
  split
  · refine wlp_seq ((ext2FreeInode_keeps ino).wlp _) fun _ _ freed => ?_
    exact wlp_pure.mpr (kept.congr freed)
  · exact ext2Iget_spec kept ino bound

/-- `ext2_mkdir` hands out the reference it returns and gives back all others, on every path through
it. -/
theorem ext2Mkdir_spec (counted : Counted root s held) (dir : Nat) (name : List Byte) (mode : Nat) :
    wlp (ext2Mkdir dir name mode) (fun r after => Counted root after (heldWith held r)) s := by
  rw [ext2Mkdir, wlp_ite]
  split
  · exact wlp_pure.mpr counted
  refine wlp_seq (ext2AllocInode_spec s) ?_
  rintro ino allocated ⟨toAllocated, bound⟩
  rw [wlp_ite]
  split
  · exact wlp_pure.mpr (counted.congr toAllocated)
  refine wlp_seq ((ext2InodeLoc_keeps ino).wlp _) fun loc _ located => ?_
  refine wlp_seq ((onCaches_keeps _).wlp _) fun icache _ read => ?_
  rw [wlp_bind, wlp_get]
  refine wlp_seq ((clearBuf_keeps ..).wlp _) fun _ _ cleared => ?_
  refine wlp_seq ((storeBuf_keeps ..).wlp _) fun _ _ moded => ?_
  refine wlp_seq ((storeBuf_keeps ..).wlp _) fun _ _ linked => ?_
  refine wlp_seq ((storeBuf_keeps ..).wlp _) fun _ _ sized => ?_
  refine wlp_seq ((storeBuf_keeps ..).wlp _) fun _ _ blocked => ?_
  refine wlp_seq (ext2AllocBlock_keeps.wlp _) fun dataBlk _ claimed => ?_
  have made := ((((((((counted.congr toAllocated).congr located).congr read).congr cleared).congr
    moded).congr linked).congr sized).congr blocked).congr claimed
  rw [wlp_ite]
  split
  · refine wlp_seq ((onCaches_keeps _).wlp _) fun _ _ released => ?_
    refine wlp_seq ((ext2FreeInode_keeps ino).wlp _) fun _ _ freed => ?_
    exact wlp_pure.mpr ((made.congr released).congr freed)
  refine wlp_seq ((storeBuf_keeps ..).wlp _) fun _ _ pointed => ?_
  refine wlp_seq ((onCaches_keeps _).wlp _) fun _ _ written => ?_
  refine wlp_seq ((onCaches_keeps _).wlp _) fun _ _ released => ?_
  refine wlp_seq ((derefInode_keeps dir).wlp _) fun parent _ found => ?_
  refine wlp_seq ((fillDirBlock_keeps ..).wlp _) fun _ _ filled => ?_
  refine wlp_seq ((ext2DirAddEntry_keeps ..).wlp _) fun added _ entered => ?_
  have kept := (((((made.congr pointed).congr written).congr released).congr found).congr
    filled).congr entered
  rw [wlp_ite]
  split
  · refine wlp_seq ((ext2FreeBlock_keeps dataBlk).wlp _) fun _ _ blockFreed => ?_
    refine wlp_seq ((ext2FreeInode_keeps ino).wlp _) fun _ _ inodeFreed => ?_
    exact wlp_pure.mpr ((kept.congr blockFreed).congr inodeFreed)
  refine wlp_seq ((updateInode_keeps dir _ fun _ => by rfl).wlp _) fun _ _ counted' => ?_
  refine wlp_seq ((ext2WriteInode_keeps dir).wlp _) fun _ _ stored => ?_
  refine wlp_seq ((countDir_keeps ino).wlp _) fun _ _ recorded => ?_
  exact ext2Iget_spec (((kept.congr counted').congr stored).congr recorded) ino bound

/-- Dropping a link takes one reference and gives it back. -/
theorem dropLink_spec (counted : Counted root s held) (target : Nat) (bound : target < 2 ^ 32) :
    wlp (dropLink target) (fun _ after => Counted root after held) s := by
  rw [dropLink]
  refine wlp_seq (ext2Iget_spec counted target bound) fun victim mid kept => ?_
  cases victim with
  | none => exact wlp_pure.mpr kept
  | some v =>
    refine wlp_seq ((updateInode_keeps v _ fun _ => by rfl).wlp _) fun _ _ updated => ?_
    refine wlp_seq ((ext2WriteInode_keeps v).wlp _) fun _ _ written => ?_
    exact iput_spec v ((kept.congr updated).congr written)

/-- The loop of `ext2_unlink` keeps the references counted: it gives back the one it takes to the
target. -/
theorem unlinkFrom_spec (p : Nat) (name : List Byte) (remaining lbk : Nat)
    (counted : Counted root s held) :
    wlp (unlinkFrom p name remaining lbk) (fun _ after => Counted root after held) s := by
  induction remaining generalizing lbk s with
  | zero => exact wlp_pure.mpr counted
  | succ remaining inductionHypothesis =>
    rw [unlinkFrom, wlp_bind, wlp_get]
    refine wlp_seq ((ext2ReadBlock_keeps ..).wlp s) fun block mid same => ?_
    cases block with
    | none => exact inductionHypothesis _ (counted.congr same)
    | some buf =>
      simp only
      split
      · exact inductionHypothesis _ (counted.congr same)
      · exact wlp_throw.mpr trivial
      · refine wlp_seq ((ext2WriteBlock_keeps ..).wlp _) fun written _ removed => ?_
        have kept := (counted.congr same).congr removed
        rw [wlp_ite]
        split
        · exact wlp_pure.mpr kept
        · refine wlp_seq (dropLink_spec kept _ (load_lt buf _ 4)) fun _ _ dropped => ?_
          exact wlp_pure.mpr dropped

theorem ext2Unlink_spec (counted : Counted root s held) (dir : Nat) (name : List Byte) :
    wlp (ext2Unlink dir name) (fun _ after => Counted root after held) s := by
  rw [ext2Unlink, wlp_ite]
  split
  · exact wlp_pure.mpr counted
  refine wlp_seq ((derefInode_keeps dir).wlp s) fun inode mid same => ?_
  rw [wlp_bind, wlp_get]
  exact unlinkFrom_spec dir name _ _ (counted.congr same)

/-- The walk exchanges its reference to one inode for one to the next. -/
theorem namexFrom_spec (parent : Bool) (budget cur : Nat) (path : List Byte)
    (counted : Counted root s (cur ::ₘ held)) : wlp (namexFrom parent budget cur path)
      (fun r after => Counted root after (heldWith held (r.map Prod.fst))) s := by
  induction budget generalizing cur path s with
  | zero => exact wlp_throw.mpr trivial
  | succ budget inductionHypothesis =>
    rw [namexFrom]
    split
    · rw [wlp_ite]
      split
      · refine wlp_seq (iput_spec cur counted) fun _ _ kept => ?_
        exact wlp_pure.mpr kept
      · exact wlp_pure.mpr counted
    · rename_i name rest _
      rw [wlp_ite]
      split
      · exact wlp_pure.mpr counted
      refine wlp_seq ((derefInode_keeps cur).wlp s) fun inode mid same => ?_
      have kept := counted.congr same
      rw [wlp_ite]
      split
      · refine wlp_seq (iput_spec cur kept) fun _ _ dropped => ?_
        exact wlp_pure.mpr dropped
      refine wlp_seq (ext2Lookup_spec kept cur name) fun next _ found => ?_
      cases next with
      | none =>
        refine wlp_seq (iput_spec cur found) fun _ _ dropped => ?_
        exact wlp_pure.mpr dropped
      | some next =>
        rw [heldWith, Multiset.cons_swap] at found
        refine wlp_seq (iput_spec cur found) fun _ _ moved => ?_
        exact inductionHypothesis next (skipSlash rest) moved

/-- A path walk hands out the reference that it returns, and gives back all that it takes on the
way. -/
theorem namex_spec (counted : Counted root s held) (path : List Byte) (parent : Bool) :
    wlp (namex path parent)
      (fun r after => Counted root after (heldWith held (r.map Prod.fst))) s := by
  unfold namex
  split
  · exact wlp_pure.mpr counted
  rw [wlp_ite]
  split
  · exact wlp_pure.mpr counted
  rw [wlp_bind, wlp_get, counted.rooted]
  have member : root ∈ s.inodeCache := (counted.cached root).mpr (Or.inr rfl)
  refine wlp_seq (addRef_spec counted root member) fun _ _ started => ?_
  exact namexFrom_spec parent _ root _ started

/-- A successful mount caches the root and nothing else. -/
theorem ext2FsInit_spec (s : Vfs) :
    wlp ext2FsInit (fun result after => result = 0 → Counted after.root after 0) s := by
  rw [ext2FsInit]
  refine wlp_seq ((onCaches_keeps _).wlp s) fun cache _ _ => ?_
  refine wlp_seq ((loadBuf_keeps ..).wlp _) fun magic _ _ => ?_
  rw [wlp_ite]
  split
  · refine wlp_seq ((onCaches_keeps _).wlp _) fun _ _ _ => ?_
    exact wlp_pure.mpr (by simp)
  refine wlp_seq (kmallocServed_keeps.wlp _) fun infoServed _ _ => ?_
  refine wlp_seq ((loadBuf_keeps ..).wlp _) fun logBlockSize _ _ => ?_
  refine wlp_seq ((loadBuf_keeps ..).wlp _) fun blocksPerGroup _ _ => ?_
  refine wlp_seq ((loadBuf_keeps ..).wlp _) fun inodesPerGroup _ _ => ?_
  refine wlp_seq ((loadBuf_keeps ..).wlp _) fun blocksCount _ _ => ?_
  refine wlp_seq ((loadBuf_keeps ..).wlp _) fun firstDataBlock _ _ => ?_
  refine wlp_seq ((loadBuf_keeps ..).wlp _) fun revLevel _ _ => ?_
  refine wlp_seq ((loadBuf_keeps ..).wlp _) fun superInodeSize _ _ => ?_
  rw [wlp_ite]
  split
  · refine wlp_seq ((onCaches_keeps _).wlp _) fun _ _ _ => ?_
    exact wlp_pure.mpr (by simp)
  refine wlp_seq (kmallocServed_keeps.wlp _) fun tableServed _ _ => ?_
  rw [wlp_ite]
  split
  · refine wlp_seq ((onCaches_keeps _).wlp _) fun _ _ _ => ?_
    exact wlp_pure.mpr (by simp)
  refine wlp_seq ((loadTable_keeps ..).wlp _) fun _ loaded _ => ?_
  rw [wlp_bind, wlp_modify, mountRoot, wlp_bind, wlp_modify, wlp_bind, ext2Iget, if_neg (by decide),
    wlp_bind, wlp_get]
  rw [Vfs.findCached, List.find?_nil]
  refine wlp_mono (loadInode_spec _ 2) ?_
  rintro r after (⟨rfl, -⟩ | ⟨p, rfl, loadedRoot⟩)
  · refine wlp_seq ((onCaches_keeps _).wlp _) fun _ _ _ => ?_
    exact wlp_pure.mpr (by simp)
  · rw [wlp_bind, wlp_modify, wlp_pure]
    intro _
    have cached : after.inodeCache = [p] := loadedRoot.cached
    have size : after.icacheSize = u32 1 := loadedRoot.size
    have next := loadedRoot.next
    refine ⟨rfl, ?_, ?_, ?_, ?_, ?_, ?_⟩
    · change after.inodeCache.Nodup
      rw [cached]
      exact List.nodup_singleton p
    · intro q
      change q ∈ after.inodeCache ↔ q ∈ (0 : Multiset Nat) ∨ q = p
      rw [cached, List.mem_singleton]
      simp
    · intro q member
      change q ∈ after.inodeCache at member
      rw [cached, List.mem_singleton] at member
      subst member
      refine ⟨2, ?_, by decide, by decide⟩
      change (after.inodes q).map Inode.key = some (2, ((0 : Multiset Nat).count q : Int) +
        (if q = q then 1 else 0), true)
      rw [loadedRoot.key]
      simp
    · intro q qMember r rMember _ _ _ _ _
      change q ∈ after.inodeCache at qMember
      change r ∈ after.inodeCache at rMember
      rw [cached, List.mem_singleton] at qMember rMember
      rw [qMember, rMember]
    · change after.icacheSize = after.inodeCache.length
      rw [size, cached]
      rfl
    · intro q member
      change q ∈ after.inodeCache at member
      rw [cached, List.mem_singleton] at member
      change q < after.nextInode
      omega

/-- The calls that take or give references. -/
inductive FsOp where
  | iget (ino : Nat)
  | lookup (dir : Nat) (name : List Byte)
  | create (dir : Nat) (name : List Byte) (mode : Nat)
  | mkdir (dir : Nat) (name : List Byte) (mode : Nat)
  | unlink (dir : Nat) (name : List Byte)
  | namei (path : List Byte)
  | nameiparent (path : List Byte)
  | iput (p : Nat)

/-- A number is a `u32`, and callers give back what they hold. -/
def FsOp.Legal (held : Multiset Nat) : FsOp → Prop
  | .iget ino => ino < 2 ^ 32
  | .iput p => p ∈ held
  | _ => True

/-- Run an operation; the result is the inode it hands out. -/
def FsOp.exec : FsOp → FsProg (Option Nat)
  | .iget ino => ext2Iget ino
  | .lookup dir name => ext2Lookup dir name
  | .create dir name mode => ext2Create dir name mode
  | .mkdir dir name mode => ext2Mkdir dir name mode
  | .unlink dir name => do
    let _ ← ext2Unlink dir name
    return none
  | .namei path => Fs.namei path
  | .nameiparent path => do
    let found ← Fs.nameiparent path
    return found.map Prod.fst
  | .iput p => do
    Fs.iput p
    return none

/-- The references after an operation that handed out `result`. -/
def FsOp.heldAfter (held : Multiset Nat) (result : Option Nat) : FsOp → Multiset Nat
  | .iput p => held.erase p
  | _ => heldWith held result

/-- Runs of legal operations after a successful mount, with the references handed
out and not returned yet. -/
inductive FsRun : Vfs → Multiset Nat → Prop where
  | mount {before s : Vfs} (mounted : Returns ext2FsInit before 0 s) : FsRun s 0
  | step {s after : Vfs} {held : Multiset Nat} {result : Option Nat} (earlier : FsRun s held)
      (op : FsOp) (legal : op.Legal held) (returned : Returns op.exec s result after) :
      FsRun after (op.heldAfter held result)

/-- Every call of a run keeps the references counted. -/
theorem Counted.step (counted : Counted root s held) (op : FsOp) (legal : op.Legal held) :
    wlp op.exec (fun result after => Counted root after (op.heldAfter held result)) s := by
  cases op with
  | iget ino => exact ext2Iget_spec counted ino legal
  | lookup dir name => exact ext2Lookup_spec counted dir name
  | create dir name mode => exact ext2Create_spec counted dir name mode
  | mkdir dir name mode => exact ext2Mkdir_spec counted dir name mode
  | unlink dir name =>
    refine wlp_seq (ext2Unlink_spec counted dir name) fun _ _ kept => ?_
    exact wlp_pure.mpr kept
  | namei path =>
    refine wlp_seq (namex_spec counted path false) fun _ _ kept => ?_
    exact wlp_pure.mpr kept
  | nameiparent path =>
    refine wlp_seq (namex_spec counted path true) fun _ _ kept => ?_
    exact wlp_pure.mpr kept
  | iput p =>
    obtain ⟨rest, rfl⟩ := Multiset.exists_cons_of_mem legal
    refine wlp_seq (iput_spec p counted) fun _ _ kept => ?_
    rw [wlp_pure]
    change Counted root _ ((p ::ₘ rest).erase p)
    rw [Multiset.erase_cons_head]
    exact kept

theorem Counted.of_run (run : FsRun s held) : Counted s.root s held := by
  induction run with
  | mount mounted => exact ext2FsInit_spec _ _ _ mounted rfl
  | step earlier op legal returned inductionHypothesis =>
    have stepped := inductionHypothesis.step op legal _ _ returned
    rw [stepped.rooted]
    exact stepped

/-- The reference count of an inode pointer; 0 when it is not cached. -/
def Vfs.refs (s : Vfs) (p : Nat) : Int :=
  if p ∈ s.inodeCache then (s.inodes p).elim 0 Inode.ref else 0

/-- Every count is the number of holders, plus one for the root. -/
theorem Counted.refs_eq (counted : Counted root s held) (p : Nat) :
    s.refs p = held.count p + (if p = root then 1 else 0) := by
  rw [Vfs.refs]
  by_cases member : p ∈ s.inodeCache
  · obtain ⟨inode, found, -, isRef, -⟩ := counted.number p member
    rw [if_pos member, found]
    exact isRef
  · have absent := (counted.cached p).not.mp member
    rw [not_or] at absent
    rw [if_neg member, Multiset.count_eq_zero_of_notMem absent.1, if_neg absent.2]
    rfl

/-- A path walk adds one reference to the inode it returns and no other. -/
theorem Counted.walk_refs {after : Vfs} {r : Option Nat} (counted : Counted root s held)
    (walked : Counted root after (heldWith held r)) (p : Nat) :
    after.refs p = s.refs p + (if r = some p then 1 else 0) := by
  rw [counted.refs_eq, walked.refs_eq]
  cases r with
  | none => simp [heldWith]
  | some q =>
    by_cases same : q = p
    · subst same
      simp only [heldWith, Multiset.count_cons_self, if_true]
      push_cast
      ring
    · have differs : p ≠ q := fun equal => same equal.symm
      have other : (some q = some p) = False := by simp [same]
      simp only [heldWith, Multiset.count_cons_of_ne differs, other, if_false]
      ring

/-- In every state of a run, over any disk: the cache holds each inode number at
most once, all its inodes are valid, its size is right, and counts are the
references handed out. Path walks change no other count. -/
theorem inode_cache_counted {s : Vfs} {held : Multiset Nat} (run : FsRun s held) :
    s.inodeCache.Nodup ∧
    (∀ p ∈ s.inodeCache, ∀ q ∈ s.inodeCache, ∀ inode other, s.inodes p = some inode →
      s.inodes q = some other → inode.ino = other.ino → p = q) ∧
    (∀ p ∈ s.inodeCache, ∃ inode, s.inodes p = some inode ∧ inode.valid = true ∧
      inode.ref = held.count p + (if p = s.root then 1 else 0)) ∧
    s.icacheSize = s.inodeCache.length ∧
    (∀ p, p ∈ s.inodeCache ↔ 0 < held.count p ∨ p = s.root) ∧
    (∀ path r after, Returns (namei path) s r after →
      ∀ p, after.refs p = s.refs p + (if r = some p then 1 else 0)) ∧
    ∀ path r after, Returns (nameiparent path) s r after →
      ∀ p, after.refs p = s.refs p + (if r.map Prod.fst = some p then 1 else 0) := by
  have counted := Counted.of_run run
  refine ⟨counted.once, counted.distinct, fun p member => ?_, counted.size, fun p => ?_, ?_, ?_⟩
  · obtain ⟨inode, found, isValid, isRef, -⟩ := counted.number p member
    exact ⟨inode, found, isValid, isRef⟩
  · rw [counted.cached, Multiset.count_pos]
  · intro path r after returned
    exact counted.walk_refs (counted.step (.namei path) trivial r after returned)
  · intro path r after returned
    exact counted.walk_refs (namex_spec counted path true r after returned)

/-- A block of zeros with these fields: offset, width and value. -/
def blockOf (fields : List (Nat × Nat × Nat)) : ByteMap :=
  fields.foldl (fun data field => store data field.1 field.2.1 field.2.2) fun _ => 0

/-- A disk of 100 blocks in one group, with 16 inodes and an empty root directory. -/
def smallDisk : Nat → ByteMap
  | 0 => blockOf [(1024, 4, 16), (1028, 4, 100), (1036, 4, 94), (1040, 4, 5), (1048, 4, 2),
      (1056, 4, 32768), (1064, 4, 16), (1080, 2, 0xEF53)]
  | 1 => blockOf [(0, 4, 2), (4, 4, 3), (8, 4, 4), (12, 2, 94), (14, 2, 5), (16, 2, 1)]
  | 2 => blockOf [(0, 1, 0x3F)]
  | 3 => blockOf [(0, 2, 0x7FF)]
  | 4 => blockOf [(128, 2, 0x41ED), (132, 4, 4096), (154, 2, 2), (156, 4, 8), (168, 4, 5)]
  | 5 => blockOf [(0, 4, 2), (4, 2, 12), (6, 1, 1), (7, 1, 2), (8, 1, 0x2E),
      (12, 4, 2), (16, 2, 4084), (18, 1, 2), (19, 1, 2), (20, 2, 0x2E2E)]
  | _ => fun _ => 0

/-- The zero-initialized globals over a disk. -/
def unmounted (disk : Nat → ByteMap) : Vfs where
  caches := BlkCache.boot (fun _ => 0) disk
  blockSize := 0
  root := 0
  inodes := fun _ => none
  inodeCache := []
  icacheSize := 0
  gbTable := fun _ => 0
  groupCount := 0
  inodeSize := 0
  inodePerGroup := 0
  sbBuf := ⟨0, by decide⟩
  nextInode := 1
  served := fun _ => true
  requests := 0
  uninitialized := fun _ => 0

/-- A mount that was computed. -/
theorem mounts_of_eval {before : Vfs}
    (computed : (ext2FsInit before).toOption.map Prod.fst = some 0) :
    ∃ s, Returns ext2FsInit before 0 s := by
  cases ran : ext2FsInit before with
  | error e => simp [ran, Except.toOption] at computed
  | ok result =>
    obtain ⟨value, s⟩ := result
    simp only [ran, Except.toOption, Option.map_some, Option.some.injEq] at computed
    exact ⟨s, by rw [Returns, ran, computed]⟩

theorem mounts_smallDisk : ∃ s, Returns ext2FsInit (unmounted smallDisk) 0 s :=
  mounts_of_eval (by decide +kernel)

/-- After a mount a file is created, looked up, and one of the two references is given back. -/
def mountCreateLookup : FsProg (Int × Option Nat × Option Nat) := do
  let code ← ext2FsInit
  let created ← FsOp.exec (.create 1 [0x61] 0x1A4)
  let found ← FsOp.exec (.lookup 1 [0x61])
  let _ ← FsOp.exec (.iput 2)
  return (code, created, found)

/-- The other reference keeps the inode in the cache, beside the root. -/
theorem mounted_counted : ∃ s, FsRun s {2} ∧ s.icacheSize = s.inodeCache.length ∧
    2 ∈ s.inodeCache ∧ ∃ inode, s.inodes 2 = some inode ∧ inode.valid = true ∧
      inode.ref = 1 + (if 2 = s.root then 1 else 0) := by
  have computed : (mountCreateLookup (unmounted smallDisk)).toOption.map Prod.fst =
      some (0, some 2, some 2) := by decide +kernel
  obtain ⟨result, ran, values⟩ := Option.map_eq_some_iff.mp computed
  have returned : Returns mountCreateLookup (unmounted smallDisk) result.1 result.2 := by
    cases outcome : mountCreateLookup (unmounted smallDisk) with
    | error e => simp [outcome, Except.toOption] at ran
    | ok value =>
      rw [outcome] at ran
      rw [Returns, outcome, Option.some.inj ran]
  obtain ⟨code, mounted, isMounted, returned⟩ := returns_bind.mp returned
  obtain ⟨created, held, isCreated, returned⟩ := returns_bind.mp returned
  obtain ⟨found, twice, isFound, returned⟩ := returns_bind.mp returned
  obtain ⟨nothing, after, isPut, returned⟩ := returns_bind.mp returned
  obtain ⟨isResult, -⟩ := returns_pure.mp returned
  rw [values, Prod.mk.injEq, Prod.mk.injEq] at isResult
  obtain ⟨rfl, rfl, rfl⟩ := isResult
  have one := FsRun.step (.mount isMounted) (.create 1 [0x61] 0x1A4) trivial isCreated
  have two := FsRun.step one (.lookup 1 [0x61]) trivial isFound
  have legal : FsOp.Legal (FsOp.heldAfter (FsOp.heldAfter 0 (some 2) (.create 1 [0x61] 0x1A4)) (some 2)
      (.lookup 1 [0x61])) (.iput 2) := Multiset.mem_cons_self 2 {2}
  have run : FsRun after {2} := FsRun.step two (.iput 2) legal isPut
  obtain ⟨-, -, objects, size, members, -⟩ := inode_cache_counted run
  have member : 2 ∈ after.inodeCache := (members 2).mpr (Or.inl (by decide))
  exact ⟨after, run, size, member, objects 2 member⟩

end CuteCore.Fs

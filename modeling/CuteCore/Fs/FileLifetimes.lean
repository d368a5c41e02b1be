import CuteCore.Fs.FileTable

/-!
# Lifetimes of open files

Runs of calls of the file table over a mounted file system. `held` are the references
to files that somebody still has to close, `spare` the references to inodes outside of
files. A file keeps the one reference to its inode that it was given.
-/

namespace CuteCore.Fs

open Hoare CircularList

/-- The references to inodes without the one that goes into a file. -/
def withdraw (spare : Multiset Nat) : Option Nat → Multiset Nat
  | some inode => spare.erase inode
  | none => spare

inductive FileRun : FileTable → Multiset Nat → Multiset Nat → Prop where
  | init {before s : FileTable} {spare : Multiset Nat} (mounted : FsRun before.vfs spare)
      (unused : ∀ f, before.files f = none) (silent : before.calls = []) (created : Bool)
      (returned : Returns (fileinit created) before () s) : FileRun s 0 spare
  | fs {s after : FileTable} {held spare : Multiset Nat} {result : Option Nat}
      (earlier : FileRun s held spare) (op : FsOp) (legal : op.Legal spare)
      (returned : Returns (onVfs op.exec) s result after) :
      FileRun after held (op.heldAfter spare result)
  | alloc {s after : FileTable} {held spare : Multiset Nat} {result : Option Nat}
      (earlier : FileRun s held spare) (object : Option Nat)
      (fresh : ∀ f, object = some f → s.files f = none ∧ 0 < f ∧ f < 2 ^ 64)
      (returned : Returns (filealloc object) s result after) :
      FileRun after (heldWith held result) spare
  | attach {s : FileTable} {held spare : Multiset Nat} {f : Nat} {file : File}
      (earlier : FileRun s held spare) (isFile : s.files f = some file)
      (empty : file.inode = none) (inode : Option Nat) (owned : ∀ v, inode = some v → v ∈ spare)
      (ops : Option FileOps) (flags : Nat) :
      FileRun (s.setFile f (some { file with inode := inode, ops := ops, flags := flags })) held
        (withdraw spare inode)
  | dup {s after : FileTable} {held spare : Multiset Nat} {f : Nat} {result : Option Nat}
      (earlier : FileRun s held spare) (holder : f ∈ held)
      (returned : Returns (filedup (some f)) s result after) : FileRun after (f ::ₘ held) spare
  | close {s after : FileTable} {held spare : Multiset Nat} {f : Nat}
      (earlier : FileRun s held spare) (holder : f ∈ held)
      (returned : Returns (fileclose (some f)) s () after) : FileRun after (held.erase f) spare

/-- The reference a file holds. -/
def inodeOf : Option File → Multiset Nat
  | some file => file.inode.elim 0 fun inode => {inode}
  | none => 0

/-- The references the open files hold. -/
def attached (files : Nat → Option File) (opened : List Nat) : Multiset Nat :=
  (opened.map fun f => inodeOf (files f)).sum

theorem attached_append {files : Nat → Option File} {front rest : List Nat} :
    attached files (front ++ rest) = attached files front + attached files rest := by
  rw [attached, List.map_append, List.sum_append]
  rfl

theorem attached_cons {files : Nat → Option File} {f : Nat} {rest : List Nat} :
    attached files (f :: rest) = inodeOf (files f) + attached files rest := by
  rw [attached, List.map_cons, List.sum_cons]
  rfl

theorem attached_update {files : Nat → Option File} {opened : List Nat} {f : Nat}
    (absent : f ∉ opened) (file : Option File) :
    attached (Function.update files f file) opened = attached files opened := by
  refine congrArg List.sum (List.map_congr_left fun other member => ?_)
  have differs : other ≠ f := fun same => absent (same ▸ member)
  rw [Function.update_of_ne differs]

/-- Changing one open file exchanges its reference. -/
theorem attached_setFile (files : Nat → Option File) {opened : List Nat} {f : Nat}
    (once : opened.Nodup) (member : f ∈ opened) (file : Option File) :
    attached (Function.update files f file) opened + inodeOf (files f) =
      attached files opened + inodeOf file := by
  obtain ⟨front, rest, rfl⟩ := List.append_of_mem member
  obtain ⟨-, onceRest, apart⟩ := List.nodup_append.mp once
  have notFront : f ∉ front := fun inFront => apart f inFront f (List.mem_cons_self ..) rfl
  have notRest : f ∉ rest := (List.nodup_cons.mp onceRest).1
  rw [attached_append, attached_append, attached_cons, attached_cons, attached_update notFront,
    attached_update notRest, Function.update_self]
  abel

/-- A close frees the object of its own file once and no other. -/
theorem closing_count_free (file : File) (f g : Nat) :
    (closing file f).count (.cacheFree g) = if g = f then 1 else 0 := by
  have released : (releaseCalls file f).count (.cacheFree g) = 0 := by
    rw [releaseCalls]
    split <;> rfl
  have put : (inodeCalls file).count (.cacheFree g) = 0 := by
    rw [inodeCalls]
    split <;> rfl
  rw [closing, List.count_append, List.count_append, released, put]
  by_cases same : g = f
  · subst same
    simp
  · have other : f ≠ g := fun equal => same equal.symm
    simp [same, other]

theorem closing_count_alloc (file : File) (f g : Nat) :
    (closing file f).count (.cacheAlloc g) = 0 := by
  have released : (releaseCalls file f).count (.cacheAlloc g) = 0 := by
    rw [releaseCalls]
    split <;> rfl
  have put : (inodeCalls file).count (.cacheAlloc g) = 0 := by
    rw [inodeCalls]
    split <;> rfl
  rw [closing, List.count_append, List.count_append, released, put]
  rfl

theorem fresh_link {opened : List Nat} {f : Nat} (absent : f ∉ opened) :
    FileLink.file f ∉ FileLink.head :: opened.map .file := by
  intro member
  rcases List.mem_cons.mp member with atHead | member
  · cases atHead
  · obtain ⟨other, isOpen, same⟩ := List.mem_map.mp member
    cases same
    exact absent isOpen

/-- Distinct nonnull addresses are fewer than `2 ^ 64`. -/
theorem length_lt_of_bound {opened : List Nat} (once : opened.Nodup)
    (bound : ∀ f ∈ opened, 0 < f ∧ f < 2 ^ 64) : opened.length < 2 ^ 64 := by
  have inside : opened.toFinset ⊆ Finset.Ioo 0 (2 ^ 64) := by
    intro f member
    exact Finset.mem_Ioo.mpr (bound f (List.mem_toFinset.mp member))
  have size := Finset.card_le_card inside
  rw [List.toFinset_card_of_nodup once, Nat.card_Ioo] at size
  omega

/-- The table holds exactly the open files, their counts are the references to them, and
with the spare references theirs account for the inodes. -/
structure TableInv (s : FileTable) (held spare : Multiset Nat) (opened : List Nat) : Prop where
  ring : Ring s.links .head (opened.map .file)
  listed : ∀ f, f ∈ opened ↔ f ∈ held
  object : ∀ f ∈ opened, ∃ file, s.files f = some file ∧ file.ref = held.count f
  away : ∀ f, f ∉ opened → s.files f = none
  count : s.count = opened.length
  bound : ∀ f ∈ opened, 0 < f ∧ f < 2 ^ 64
  counted : Counted s.vfs.root s.vfs (spare + attached s.files opened)
  freed : ∀ f, s.calls.count (.cacheFree f) + (if f ∈ opened then 1 else 0) =
    s.calls.count (.cacheAlloc f)

namespace TableInv

variable {s after : FileTable} {held spare : Multiset Nat} {opened : List Nat} {f : Nat} {file : File}

section

variable (inv : TableInv s held spare opened)
include inv

theorem nodup : opened.Nodup := (List.nodup_cons.mp inv.ring.once).2.of_map

theorem open_of_file (isFile : s.files f = some file) : f ∈ opened := by
  by_contra absent
  rw [inv.away f absent] at isFile
  cases isFile

theorem ref_eq (isFile : s.files f = some file) : file.ref = held.count f := by
  obtain ⟨other, found, ref⟩ := inv.object f (inv.open_of_file isFile)
  obtain rfl : other = file := Option.some.inj (found.symm.trans isFile)
  exact ref

/-- A change of an open file and of the references to it. -/
theorem setFile {held' spare' : Multiset Nat} {file' : File} (isFile : s.files f = some file)
    (ref : file'.ref = held'.count f) (others : ∀ g, g ≠ f → held'.count g = held.count g)
    (stays : f ∈ held')
    (exchanged : spare' + inodeOf (some file') = spare + inodeOf (some file)) :
    TableInv (s.setFile f (some file')) held' spare' opened := by
  have isOpen := inv.open_of_file isFile
  refine ⟨inv.ring, fun g => ?_, fun g member => ?_, fun g absent => ?_, inv.count, inv.bound, ?_,
    inv.freed⟩
  · by_cases same : g = f
    · subst same
      exact ⟨fun _ => stays, fun _ => isOpen⟩
    · rw [inv.listed, ← Multiset.count_pos, ← Multiset.count_pos, others g same]
  · by_cases same : g = f
    · subst same
      exact ⟨file', Function.update_self .., ref⟩
    · obtain ⟨other, found, isRef⟩ := inv.object g member
      refine ⟨other, (Function.update_of_ne same ..).trans found, ?_⟩
      rw [others g same]
      exact isRef
  · have differs : g ≠ f := fun same => absent (same ▸ isOpen)
    exact (Function.update_of_ne differs ..).trans (inv.away g absent)
  · have moved := attached_setFile s.files inv.nodup isOpen (some file')
    rw [isFile] at moved
    have same : spare' + attached (Function.update s.files f (some file')) opened =
        spare + attached s.files opened := by
      refine add_right_cancel (b := inodeOf (some file)) ?_
      calc spare' + attached (Function.update s.files f (some file')) opened + inodeOf (some file)
        _ = spare' + (attached s.files opened + inodeOf (some file')) := by rw [add_assoc, moved]
        _ = spare' + inodeOf (some file') + attached s.files opened := by abel
        _ = spare + attached s.files opened + inodeOf (some file) := by rw [exchanged]; abel
    change Counted s.vfs.root s.vfs (spare' + attached (Function.update s.files f _) opened)
    rw [same]
    exact inv.counted

/-- `filealloc` adds a new object to the table, with one reference and without an inode. -/
theorem opens (absent : s.files f = none) (nonnull : 0 < f) (small : f < 2 ^ 64) :
    TableInv (s.opened f) (f ::ₘ held) spare (opened ++ [f]) := by
  have notOpen : f ∉ opened := by
    intro member
    obtain ⟨file, found, -⟩ := inv.object f member
    rw [absent] at found
    cases found
  have notHeld : f ∉ held := fun member => notOpen ((inv.listed f).mpr member)
  have fresh := fresh_link notOpen
  have once : (opened ++ [f]).Nodup :=
    List.nodup_append.mpr ⟨inv.nodup, List.nodup_singleton f, fun g member g' last same =>
      notOpen (List.mem_singleton.mp last ▸ same ▸ member)⟩
  have bound : ∀ g ∈ opened ++ [f], 0 < g ∧ g < 2 ^ 64 := by
    intro g member
    rcases List.mem_append.mp member with before | last
    · exact inv.bound g before
    · rw [List.mem_singleton.mp last]
      exact ⟨nonnull, small⟩
  refine ⟨?_, fun g => ?_, fun g member => ?_, fun g away => ?_, ?_, fun g member => ?_, ?_, fun g => ?_⟩
  · rw [List.map_append]
    exact (inv.ring.init fresh).addTail fresh
  · rw [List.mem_append, Multiset.mem_cons, inv.listed, List.mem_singleton]
    exact or_comm
  · by_cases same : g = f
    · subst same
      refine ⟨_, Function.update_self .., ?_⟩
      rw [Multiset.count_cons_self, Multiset.count_eq_zero_of_notMem notHeld]
      rfl
    · have before : g ∈ opened := (List.mem_append.mp member).resolve_right fun last =>
        same (List.mem_singleton.mp last)
      obtain ⟨file, found, ref⟩ := inv.object g before
      refine ⟨file, (Function.update_of_ne same ..).trans found, ?_⟩
      rw [Multiset.count_cons_of_ne same]
      exact ref
  · rw [List.mem_append, List.mem_singleton, not_or] at away
    exact (Function.update_of_ne away.2 ..).trans (inv.away g away.1)
  · have room := length_lt_of_bound once bound
    rw [List.length_append, List.length_singleton] at room ⊢
    change countUp s.count = _
    rw [countUp, inv.count, Nat.mod_eq_of_lt room]
  · exact bound g member
  · change Counted s.vfs.root s.vfs (spare + attached (Function.update s.files f _) (opened ++ [f]))
    rw [attached_append, attached_update notOpen, attached_cons, Function.update_self]
    simpa [inodeOf, attached] using inv.counted
  · have freed := inv.freed g
    change (s.calls ++ [FileCall.cacheAlloc f]).count (.cacheFree g) + _ =
      (s.calls ++ [FileCall.cacheAlloc f]).count (.cacheAlloc g)
    by_cases same : g = f
    · subst same
      simpa [notOpen] using freed
    · have other : f ≠ g := fun equal => same equal.symm
      simpa [same, other] using freed

/-- The last close takes the file out of everything. -/
theorem closes {vfs : Vfs} (isFile : s.files f = some file) (put : InodePut file.inode s.vfs vfs)
    (last : held.count f = 1) :
    ∃ opened', TableInv (s.closed f file vfs) (held.erase f) spare opened' := by
  obtain ⟨front, rest, rfl⟩ := List.append_of_mem (inv.open_of_file isFile)
  obtain ⟨onceFront, onceRest, apart⟩ := List.nodup_append.mp inv.nodup
  have notFront : f ∉ front := fun inFront => apart f inFront f (List.mem_cons_self ..) rfl
  have notRest : f ∉ rest := (List.nodup_cons.mp onceRest).1
  have stays : ∀ g, g ∈ front ++ rest ↔ g ≠ f ∧ g ∈ front ++ f :: rest := by
    intro g
    simp only [List.mem_append, List.mem_cons]
    constructor
    · intro member
      refine ⟨?_, member.imp_right Or.inr⟩
      rintro rfl
      exact member.elim notFront notRest
    · tauto
  refine ⟨front ++ rest, ?_, fun g => ?_, fun g member => ?_, fun g absent => ?_, ?_,
    fun g member => inv.bound g ((stays g).mp member).2, ?_, fun g => ?_⟩
  · have ring := inv.ring
    rw [List.map_append, List.map_cons] at ring
    rw [List.map_append]
    exact ring.del
  · rw [stays, inv.listed]
    by_cases same : g = f
    · subst same
      have gone : g ∉ held.erase g := by
        rw [← Multiset.count_pos, Multiset.count_erase_self, last]
        exact Nat.lt_irrefl 0
      exact ⟨fun here => absurd rfl here.1, fun here => absurd here gone⟩
    · rw [Multiset.mem_erase_of_ne same]
      exact and_iff_right same
  · obtain ⟨differs, before⟩ := (stays g).mp member
    obtain ⟨other, found, ref⟩ := inv.object g before
    refine ⟨other, (Function.update_of_ne differs ..).trans found, ?_⟩
    rw [Multiset.count_erase_of_ne differs]
    exact ref
  · by_cases same : g = f
    · subst same
      exact Function.update_self ..
    · refine (Function.update_of_ne same ..).trans (inv.away g fun member => absent ?_)
      exact (stays g).mpr ⟨same, member⟩
  · have room := length_lt_of_bound inv.nodup inv.bound
    have before := inv.count
    change countDown s.count = _
    rw [List.length_append, List.length_cons] at room before
    rw [List.length_append, countDown, before]
    omega
  · have counted := inv.counted
    change Counted vfs.root vfs (spare + attached (Function.update s.files f none) (front ++ rest))
    rw [attached_append, attached_cons, isFile] at counted
    rw [attached_append, attached_update notFront, attached_update notRest]
    cases isInode : file.inode with
    | none =>
      rw [isInode] at put
      obtain rfl : vfs = s.vfs := put
      simpa [inodeOf, isInode] using counted
    | some v =>
      rw [isInode] at put
      have given : spare + (attached s.files front + (inodeOf (some file) + attached s.files rest)) =
          v ::ₘ (spare + (attached s.files front + attached s.files rest)) := by
        rw [inodeOf, isInode, Option.elim, ← Multiset.singleton_add]
        abel
      rw [given] at counted
      have dropped := iput_spec v counted () vfs put
      rw [dropped.rooted]
      exact dropped
  · have freed := inv.freed g
    change (s.calls ++ closing file f).count (.cacheFree g) + _ =
      (s.calls ++ closing file f).count (.cacheAlloc g)
    rw [List.count_append, List.count_append, closing_count_free, closing_count_alloc]
    by_cases same : g = f
    · subst same
      simpa [notFront, notRest] using freed
    · simpa [same] using freed

end

end TableInv

variable {s after : FileTable} {held spare : Multiset Nat} {f : Nat} {file : File}

theorem FsOp.legal_add {op : FsOp} (legal : op.Legal spare) (files : Multiset Nat) :
    op.Legal (spare + files) := by
  cases op with
  | iput p => exact Multiset.mem_add.mpr (Or.inl legal)
  | _ => exact legal

theorem FsOp.heldAfter_add {op : FsOp} (legal : op.Legal spare) (result : Option Nat)
    (files : Multiset Nat) :
    op.heldAfter (spare + files) result = op.heldAfter spare result + files := by
  have with_add : heldWith (spare + files) result = heldWith spare result + files := by
    cases result with
    | none => rfl
    | some p => exact (Multiset.cons_add p spare files).symm
  cases op with
  | iput p => exact Multiset.erase_add_left_pos files legal
  | _ => exact with_add

/-- The invariant of the file table holds in every state of a run: each call keeps it, and so does
every call of the file system between them. -/
theorem TableInv.of_run (run : FileRun s held spare) : ∃ opened, TableInv s held spare opened := by
  induction run with
  | @init before s spare mounted unused silent created returned =>
    obtain ⟨_, _, linked, returned⟩ := returns_bind.mp returned
    obtain rfl := returns_modify.mp linked
    obtain ⟨_, _, reset, returned⟩ := returns_bind.mp returned
    obtain rfl := returns_modify.mp reset
    rw [onlyIf] at returned
    split at returned
    · exact (returns_throw.mp returned).elim
    · obtain ⟨-, rfl⟩ := returns_pure.mp returned
      refine ⟨[], ring_init .head before.links, fun f => by simp, fun f member => ?_,
        fun f _ => unused f, rfl, fun f member => ?_, ?_, fun f => ?_⟩
      · cases member
      · cases member
      · change Counted before.vfs.root before.vfs (spare + 0)
        rw [add_zero]
        exact Counted.of_run mounted
      · change before.calls.count _ + _ = before.calls.count _
        rw [silent]
        rfl
  | @fs s after held spare result earlier op legal returned inductionHypothesis =>
    obtain ⟨opened, inv⟩ := inductionHypothesis
    obtain ⟨vfs, ran, rfl⟩ := returns_onPart.mp returned
    have stepped : Counted s.vfs.root vfs (op.heldAfter (spare + attached s.files opened) result) :=
      inv.counted.step op (FsOp.legal_add legal _) result vfs ran
    have counted := FsOp.heldAfter_add legal result (attached s.files opened) ▸ stepped
    refine ⟨opened, inv.ring, inv.listed, inv.object, inv.away, inv.count, inv.bound, ?_, inv.freed⟩
    change Counted vfs.root vfs _
    rw [counted.rooted]
    exact counted
  | @alloc s after held spare result earlier object fresh returned inductionHypothesis =>
    obtain ⟨opened, inv⟩ := inductionHypothesis
    cases object with
    | none =>
      obtain ⟨rfl, rfl⟩ := returns_pure.mp returned
      exact ⟨opened, inv⟩
    | some f =>
      obtain ⟨rfl, rfl⟩ := returns_filealloc.mp returned
      obtain ⟨absent, nonnull, small⟩ := fresh f rfl
      exact ⟨opened ++ [f], inv.opens absent nonnull small⟩
  | @attach s held spare f file earlier isFile empty inode owned ops flags inductionHypothesis =>
    obtain ⟨opened, inv⟩ := inductionHypothesis
    have holder := (inv.listed f).mp (inv.open_of_file isFile)
    have ref := inv.ref_eq isFile
    refine ⟨opened, inv.setFile isFile ref (fun _ _ => rfl) holder ?_⟩
    cases inode with
    | none => simp [withdraw, inodeOf, empty]
    | some v =>
      simp only [withdraw, inodeOf, empty, Option.elim, add_zero]
      rw [add_comm, Multiset.singleton_add]
      exact Multiset.cons_erase (owned v rfl)
  | @dup s after held spare f result earlier holder returned inductionHypothesis =>
    obtain ⟨opened, inv⟩ := inductionHypothesis
    obtain ⟨file, isFile, ref⟩ := inv.object f ((inv.listed f).mpr holder)
    obtain ⟨-, rfl, rfl⟩ := (returns_filedup isFile).mp returned
    refine ⟨opened, inv.setFile isFile ?_ (fun g differs => Multiset.count_cons_of_ne differs _)
      (Multiset.mem_cons_self ..) rfl⟩
    rw [Multiset.count_cons_self, ref]
    push_cast
    rfl
  | @close s after held spare f earlier holder returned inductionHypothesis =>
    obtain ⟨opened, inv⟩ := inductionHypothesis
    obtain ⟨file, isFile, ref⟩ := inv.object f ((inv.listed f).mpr holder)
    have positive := Multiset.count_pos.mpr holder
    by_cases last : held.count f = 1
    · obtain ⟨vfs, put, rfl⟩ := (returns_fileclose_last isFile (by omega)).mp returned
      exact inv.closes isFile put last
    · obtain rfl := (returns_fileclose_earlier isFile (by omega)).mp returned
      refine ⟨opened, inv.setFile isFile ?_ (fun g differs => Multiset.count_erase_of_ne differs ..)
        ?_ rfl⟩
      · rw [Multiset.count_erase_self, ref]
        push_cast [positive]
        rfl
      · rw [← Multiset.count_pos, Multiset.count_erase_self]
        omega

/-- In every state of a run: the list holds exactly the files with a positive count, each
once, the count is the number of references and each open file owns one reference to its
inode. Only the close of the last reference calls the hook, gives the inode back and frees
the object, once each. So an object is freed once for each time it was handed out, except
for the time it is still open. -/
theorem file_table_counted (run : FileRun s held spare) :
    (∃ opened : List Nat, opened.Nodup ∧ Ring s.links .head (opened.map .file) ∧
      s.count = opened.length ∧ (∀ f, f ∈ opened ↔ ∃ file, s.files f = some file ∧ 0 < file.ref) ∧
      Counted s.vfs.root s.vfs (spare + attached s.files opened)) ∧
    (∀ f file, s.files f = some file → file.ref = held.count f ∧ 0 < file.ref) ∧
    (∀ f ∈ held, ∃ file, s.files f = some file ∧ ∀ after,
      Returns (fileclose (some f)) s () after ↔
        if held.count f = 1 then ∃ vfs, InodePut file.inode s.vfs vfs ∧ after = s.closed f file vfs
        else after = s.setFile f (some { file with ref := file.ref - 1 })) ∧
    (∀ f ∈ held, ∀ r after, Returns (filedup (some f)) s r after → after.calls = s.calls) ∧
    (∀ object r after, Returns (filealloc object) s r after →
      after.calls = s.calls ++ object.toList.map .cacheAlloc) ∧
    ∀ f, s.calls.count (.cacheFree f) + (if f ∈ held then 1 else 0) =
      s.calls.count (.cacheAlloc f) := by
  obtain ⟨opened, inv⟩ := TableInv.of_run run
  have positive : ∀ f file, s.files f = some file → file.ref = held.count f ∧ 0 < file.ref := by
    intro f file isFile
    have ref := inv.ref_eq isFile
    have holder := Multiset.count_pos.mpr ((inv.listed f).mp (inv.open_of_file isFile))
    exact ⟨ref, by omega⟩
  refine ⟨⟨opened, inv.nodup, inv.ring, inv.count, fun f => ⟨fun member => ?_, ?_⟩, inv.counted⟩,
    positive, fun f holder => ?_, fun f holder r after returned => ?_, ?_, fun f => ?_⟩
  · obtain ⟨file, isFile, -⟩ := inv.object f member
    exact ⟨file, isFile, (positive f file isFile).2⟩
  · rintro ⟨file, isFile, -⟩
    exact inv.open_of_file isFile
  · obtain ⟨file, isFile, ref⟩ := inv.object f ((inv.listed f).mpr holder)
    have some := Multiset.count_pos.mpr holder
    refine ⟨file, isFile, fun after => ?_⟩
    split
    · exact returns_fileclose_last isFile (by omega)
    · exact returns_fileclose_earlier isFile (by omega)
  · obtain ⟨file, isFile, -⟩ := inv.object f ((inv.listed f).mpr holder)
    obtain ⟨-, -, rfl⟩ := (returns_filedup isFile).mp returned
    rfl
  · intro object r after returned
    cases object with
    | none =>
      obtain ⟨-, rfl⟩ := returns_pure.mp returned
      exact (List.append_nil _).symm
    | some f =>
      obtain ⟨-, rfl⟩ := returns_filealloc.mp returned
      rfl
  · have freed := inv.freed f
    by_cases holder : f ∈ held
    · rw [if_pos ((inv.listed f).mpr holder)] at freed
      rw [if_pos holder, freed]
    · rw [if_neg ((inv.listed f).not.mpr holder)] at freed
      rw [if_neg holder, freed]

/-- The table after mount. -/
def mountedTable (vfs : Vfs) : FileTable where
  vfs := vfs
  files _ := none
  links := { next := fun node => node, prev := fun node => node }
  count := 0
  calls := []

/-- A file is created, and its inode is given back. -/
def createAndPut : FsProg (Int × Option Nat) := do
  let code ← ext2FsInit
  let created ← FsOp.exec (.create 1 [0x61] 0x1A4)
  iput 2
  return (code, created)

/-- The theorem for a file of the disk that is opened and shared: one close leaves it open, with
its inode, and the last close frees the object. -/
theorem shared_file_closed : ∃ s after file,
    FileRun s {0x80400000} 0 ∧ s.files 0x80400000 = some file ∧ file.inode = some 2 ∧
      s.calls.count (.cacheFree 0x80400000) + 1 = s.calls.count (.cacheAlloc 0x80400000) ∧
    Returns (fileclose (some 0x80400000)) s () after ∧ FileRun after 0 0 ∧ after.count = 0 ∧
      after.calls.count (.cacheFree 0x80400000) = after.calls.count (.cacheAlloc 0x80400000) := by
  have computed : (createAndPut (unmounted smallDisk)).toOption.map Prod.fst =
      some (0, some 2) := by decide +kernel
  obtain ⟨result, ran, values⟩ := Option.map_eq_some_iff.mp computed
  obtain ⟨code, vfs, mounted, returned⟩ := returns_bind.mp (returns_of_toOption ran)
  obtain ⟨made, held, isCreated, returned⟩ := returns_bind.mp returned
  obtain ⟨⟨⟩, put, isPut, returned⟩ := returns_bind.mp returned
  obtain ⟨isResult, -⟩ := returns_pure.mp returned
  rw [values, Prod.mk.injEq] at isResult
  obtain ⟨rfl, rfl⟩ := isResult
  have booted := @FileRun.init (mountedTable vfs) _ 0 (.mount mounted) (fun _ => rfl) rfl true rfl
  have created : FileRun _ 0 {2} :=
    booted.fs (.create 1 [0x61] 0x1A4) trivial (returns_onPart.mpr ⟨held, isCreated, rfl⟩)
  have fresh : ∀ f, some 0x80400000 = some f →
      (none : Option File) = none ∧ 0 < f ∧ f < 2 ^ 64 := by
    rintro f same
    obtain rfl := Option.some.inj same
    decide
  have opened : FileRun _ {0x80400000} {2} :=
    created.alloc (some 0x80400000) fresh (returns_filealloc.mpr ⟨rfl, rfl⟩)
  have named : FileRun _ {0x80400000} 0 :=
    opened.attach (opened_self _ _) rfl (some 2)
      (fun v same => Option.some.inj same ▸ Multiset.mem_singleton_self 2) (some .ext2) 2
  have shared := named.dup (Multiset.mem_singleton_self _)
    ((returns_filedup (setFile_self _ _ _)).mpr ⟨by decide, rfl, rfl⟩)
  obtain ⟨s, file, closed, isFile, single, isInode, isVfs⟩ : ∃ s file, FileRun s {0x80400000} 0 ∧
      s.files 0x80400000 = some file ∧ file.ref = 1 ∧ file.inode = some 2 ∧ s.vfs = held :=
    ⟨_, _, Multiset.erase_cons_head 0x80400000 {0x80400000} ▸ shared.close (Multiset.mem_cons_self ..)
      ((returns_fileclose_earlier (setFile_self _ _ _) (by decide)).mpr rfl),
      setFile_self _ _ _, rfl, rfl, rfl⟩
  have once := (file_table_counted closed).2.2.2.2.2 0x80400000
  rw [if_pos (Multiset.mem_singleton_self _)] at once
  have isPut' : InodePut file.inode s.vfs put := by rwa [isInode, isVfs]
  have ended := (returns_fileclose_last isFile (by omega)).mpr ⟨put, isPut', rfl⟩
  have last : FileRun _ 0 0 := closed.close (Multiset.mem_singleton_self _) ended
  obtain ⟨⟨left, -, -, count, files, -⟩, positive, -, -, -, freed⟩ := file_table_counted last
  have isEmpty : left = [] := by
    refine List.eq_nil_iff_forall_not_mem.mpr fun f member => ?_
    obtain ⟨file, isFile, more⟩ := (files f).mp member
    have ref := (positive f file isFile).1
    rw [Multiset.count_zero] at ref
    omega
  rw [isEmpty] at count
  have gone := freed 0x80400000
  rw [if_neg (Multiset.notMem_zero _)] at gone
  exact ⟨s, _, file, closed, isFile, isInode, once, ended, last, count, gone⟩

end CuteCore.Fs

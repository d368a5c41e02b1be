import CuteCore.Kernel

/-!
# The block cache

`bread`, `bwrite`, `brelse` and `bsync` over the fixed array of cache slots,
with the disk as a map from block numbers to contents. `blkread` and `blkwrite`
transfer a whole block. Contents are of an arbitrary type: no code of this layer
looks inside a block.

`Represents` relates the slots and the disk to a plain map of the contents last
stored. It is stated up to a relation on contents, so that a client may leave
some bytes of a block unspecified. One specification for each operation says
how the map, the held blocks and the blocks with a pending change develop.
-/

namespace CuteCore.BlkCache

open Hoare

variable {α : Type}

/-- `struct blk_cache`: one slot. `refcnt` counts the references handed out and stays an `i32`:
`bread` has no meaning where adding one would leave its range. -/
structure Slot (α : Type) where
  blkNo : Nat
  valid : Bool
  dirty : Bool
  refcnt : Int
  data : α

/-- The slot array `blk_caches` and the disk behind it. -/
structure Caches (α : Type) where
  slot : Fin nBlkNum → Slot α
  disk : Nat → α

abbrev CacheProg (α β : Type) := Prog (Caches α) Fault β

def Caches.setSlot (s : Caches α) (i : Fin nBlkNum) (entry : Slot α) : Caches α :=
  { s with slot := Function.update s.slot i entry }

/-- `blkwrite` transfers the whole block. -/
def Caches.blkwrite (s : Caches α) (no : Nat) (data : α) : Caches α :=
  { s with disk := Function.update s.disk no data }

/-- The first slot that caches `no`. -/
def Caches.hit (s : Caches α) (no : Nat) : Option (Fin nBlkNum) :=
  (List.finRange nBlkNum).find? fun i => (s.slot i).valid && (s.slot i).blkNo == no

/-- The first slot that nobody holds. -/
def Caches.firstFree (s : Caches α) : Option (Fin nBlkNum) :=
  (List.finRange nBlkNum).find? fun i => (s.slot i).refcnt == 0

/-- Write the slot's block back if it has an unwritten change. -/
def Caches.writeBack (s : Caches α) (i : Fin nBlkNum) : Caches α :=
  if (s.slot i).valid && (s.slot i).dirty then s.blkwrite (s.slot i).blkNo (s.slot i).data else s

/-- A hit adds one to the slot's `i32` reference count. Signed overflow has no meaning. -/
def bread (no : Nat) : CacheProg α (Fin nBlkNum) := do
  let s ← get
  match s.hit no with
  | some i =>
    if (s.slot i).refcnt + 1 < 2 ^ 31 then do
      set (s.setSlot i { s.slot i with refcnt := (s.slot i).refcnt + 1 })
      return i
    else throw .badAccess
  | none =>
    match s.firstFree with
    | none => throw (.panic "no free block cache")
    | some i =>
      let written := s.writeBack i
      set (written.setSlot i
        { blkNo := no, valid := true, dirty := false, refcnt := 1, data := written.disk no })
      return i

/-- In-place modification of a buffer by its holder. -/
def modifyData (i : Fin nBlkNum) (f : α → α) : CacheProg α Unit :=
  modify fun s => s.setSlot i { s.slot i with data := f (s.slot i).data }

def bwrite (i : Fin nBlkNum) : CacheProg α Unit :=
  modify fun s => if (s.slot i).valid then s.setSlot i { s.slot i with dirty := true } else s

def brelse (i : Fin nBlkNum) : CacheProg α Unit := do
  let s ← get
  if (s.slot i).refcnt ≤ 0 then throw (.panic "brelse")
  else set (s.setSlot i { s.slot i with refcnt := (s.slot i).refcnt - 1 })

/-- One iteration of `bsync`. -/
def Caches.syncSlot (s : Caches α) (i : Fin nBlkNum) : Caches α :=
  if (s.slot i).valid && (s.slot i).dirty then
    (s.blkwrite (s.slot i).blkNo (s.slot i).data).setSlot i { s.slot i with dirty := false }
  else s

def bsync : CacheProg α Unit :=
  modify fun s => (List.finRange nBlkNum).foldl Caches.syncSlot s

/-- The zero-initialized array in front of a disk. -/
def boot (zero : α) (disk : Nat → α) : Caches α where
  slot _ := { blkNo := 0, valid := false, dirty := false, refcnt := 0, data := zero }
  disk := disk

@[simp] theorem setSlot_disk (s : Caches α) (i : Fin nBlkNum) (entry : Slot α) :
    (s.setSlot i entry).disk = s.disk := rfl

@[simp] theorem setSlot_self (s : Caches α) (i : Fin nBlkNum) (entry : Slot α) :
    (s.setSlot i entry).slot i = entry := by simp [Caches.setSlot]

theorem setSlot_ne (s : Caches α) (i j : Fin nBlkNum) (entry : Slot α) (differs : j ≠ i) :
    (s.setSlot i entry).slot j = s.slot j := by simp [Caches.setSlot, differs]

@[simp] theorem blkwrite_slot (s : Caches α) (no : Nat) (data : α) :
    (s.blkwrite no data).slot = s.slot := rfl

@[simp] theorem blkwrite_disk_self (s : Caches α) (no : Nat) (data : α) :
    (s.blkwrite no data).disk no = data := by simp [Caches.blkwrite]

theorem blkwrite_disk_ne (s : Caches α) (no other : Nat) (data : α) (differs : other ≠ no) :
    (s.blkwrite no data).disk other = s.disk other := by simp [Caches.blkwrite, differs]

@[simp] theorem writeBack_slot (s : Caches α) (i : Fin nBlkNum) :
    (s.writeBack i).slot = s.slot := by
  unfold Caches.writeBack
  split <;> rfl

theorem hit_some (s : Caches α) (no : Nat) (i : Fin nBlkNum) (found : s.hit no = some i) :
    (s.slot i).valid = true ∧ (s.slot i).blkNo = no := by
  have test := List.find?_some found
  simpa using test

theorem hit_none (s : Caches α) (no : Nat) (missed : s.hit no = none) (i : Fin nBlkNum)
    (valid : (s.slot i).valid = true) : (s.slot i).blkNo ≠ no := by
  have test := List.find?_eq_none.mp missed i (List.mem_finRange i)
  simpa [valid] using test

theorem firstFree_some (s : Caches α) (i : Fin nBlkNum) (found : s.firstFree = some i) :
    (s.slot i).refcnt = 0 := by
  have test := List.find?_some found
  simpa using test

theorem firstFree_none (s : Caches α) (missed : s.firstFree = none) (i : Fin nBlkNum) :
    (s.slot i).refcnt ≠ 0 := by
  have test := List.find?_eq_none.mp missed i (List.mem_finRange i)
  simpa using test

/-- The slots and the disk hold the contents `stored`, up to `agree`, for the
holders counted in `held`; the blocks in `pending` have a change that no
`bwrite` has recorded yet. -/
structure Represents (agree : Nat → α → α → Prop) (s : Caches α) (stored : Nat → α)
    (pending : Nat → Prop) (held : Multiset Nat) : Prop where
  distinct : ∀ i j, (s.slot i).valid = true → (s.slot j).valid = true →
    (s.slot i).blkNo = (s.slot j).blkNo → i = j
  counted : ∀ i, (s.slot i).refcnt =
    if (s.slot i).valid then (held.count (s.slot i).blkNo : Int) else 0
  cached : ∀ no ∈ held, ∃ i, (s.slot i).valid = true ∧ (s.slot i).blkNo = no
  data : ∀ i, (s.slot i).valid = true → agree (s.slot i).blkNo (s.slot i).data (stored (s.slot i).blkNo)
  clean : ∀ i, (s.slot i).valid = true → (s.slot i).dirty = false →
    ¬ pending (s.slot i).blkNo → agree (s.slot i).blkNo (s.disk (s.slot i).blkNo) (stored (s.slot i).blkNo)
  absent : ∀ no, (∀ i, (s.slot i).valid = true → (s.slot i).blkNo ≠ no) →
    agree no (s.disk no) (stored no)
  pendingHeld : ∀ no, pending no → no ∈ held

variable {agree : Nat → α → α → Prop} {s : Caches α} {stored : Nat → α}
  {pending : Nat → Prop} {held : Multiset Nat}

/-- Slot `i` is a valid buffer of block `no`. -/
def Caches.Buffers (s : Caches α) (i : Fin nBlkNum) (no : Nat) : Prop :=
  (s.slot i).valid = true ∧ (s.slot i).blkNo = no

/-- Every held slot keeps its block, its contents and its flags. -/
def KeepsHeld (before after : Caches α) : Prop :=
  ∀ i, (before.slot i).refcnt ≠ 0 → (after.slot i).valid = (before.slot i).valid ∧
    (after.slot i).blkNo = (before.slot i).blkNo ∧ (after.slot i).data = (before.slot i).data ∧
    (after.slot i).dirty = (before.slot i).dirty

namespace Represents

/-- A slot with references is a valid buffer of a held block. -/
theorem held_of_refcnt (rep : Represents agree s stored pending held) (i : Fin nBlkNum)
    (counted : (s.slot i).refcnt ≠ 0) :
    (s.slot i).valid = true ∧ (s.slot i).blkNo ∈ held := by
  rw [rep.counted i] at counted
  by_cases valid : (s.slot i).valid = true
  · rw [if_pos valid] at counted
    refine ⟨valid, ?_⟩
    rw [← Multiset.count_pos]
    omega
  · rw [if_neg valid] at counted
    exact absurd rfl counted

/-- The slot of a held block has references. -/
theorem refcnt_pos (rep : Represents agree s stored pending held) (i : Fin nBlkNum) (no : Nat)
    (buffers : s.Buffers i no) (member : no ∈ held) : 0 < (s.slot i).refcnt := by
  rw [rep.counted i, if_pos buffers.1, buffers.2]
  have occurs := Multiset.count_pos.mpr member
  omega

/-- The block of a slot without references has no pending change. -/
theorem not_pending_of_free (rep : Represents agree s stored pending held) (i : Fin nBlkNum)
    (valid : (s.slot i).valid = true) (free : (s.slot i).refcnt = 0) :
    ¬ pending (s.slot i).blkNo := by
  intro waiting
  have references := rep.refcnt_pos i _ ⟨valid, rfl⟩ (rep.pendingHeld _ waiting)
  omega

/-- A slot is free as long as fewer blocks are held than there are slots: held
blocks are cached in distinct slots. -/
theorem exists_free (rep : Represents agree s stored pending held)
    (room : held.toFinset.card < nBlkNum) : s.firstFree ≠ none := by
  intro full
  have references := firstFree_none s full
  have into : ∀ i ∈ (Finset.univ : Finset (Fin nBlkNum)), (s.slot i).blkNo ∈ held.toFinset :=
    fun i _ => Multiset.mem_toFinset.mpr (rep.held_of_refcnt i (references i)).2
  have injective : Set.InjOn (fun i => (s.slot i).blkNo) (Finset.univ : Finset (Fin nBlkNum)) := by
    intro i _ j _ same
    exact rep.distinct i j (rep.held_of_refcnt i (references i)).1
      (rep.held_of_refcnt j (references j)).1 same
  have enough := Finset.card_le_card_of_injOn _ into injective
  rw [Finset.card_univ, Fintype.card_fin] at enough
  omega

/-- After the write-back of a free slot, its block on disk is up to date. -/
theorem disk_after_writeBack (rep : Represents agree s stored pending held) (i : Fin nBlkNum)
    (free : (s.slot i).refcnt = 0) (no : Nat)
    (unbuffered : ∀ j, j ≠ i → (s.slot j).valid = true → (s.slot j).blkNo ≠ no) :
    agree no ((s.writeBack i).disk no) (stored no) := by
  by_cases valid : (s.slot i).valid = true
  · by_cases same : (s.slot i).blkNo = no
    · subst same
      by_cases dirty : (s.slot i).dirty = true
      · simpa [Caches.writeBack, valid, dirty] using rep.data i valid
      · have isClean : (s.slot i).dirty = false := by simpa using dirty
        simpa [Caches.writeBack, dirty] using
          rep.clean i valid isClean (rep.not_pending_of_free i valid free)
    · have kept : (s.writeBack i).disk no = s.disk no := by
        unfold Caches.writeBack
        split
        · exact blkwrite_disk_ne _ _ _ _ (Ne.symm same)
        · rfl
      rw [kept]
      apply rep.absent
      intro j jValid
      by_cases isI : j = i
      · exact isI ▸ same
      · exact unbuffered j isI jValid
  · have kept : s.writeBack i = s := by simp [Caches.writeBack, valid]
    rw [kept]
    apply rep.absent
    intro j jValid
    by_cases isI : j = i
    · exact absurd (isI ▸ jValid) valid
    · exact unbuffered j isI jValid

/-- A write-back leaves the disk of every other block as it was. -/
theorem writeBack_disk_ne (s : Caches α) (i : Fin nBlkNum) (no : Nat)
    (differs : (s.slot i).blkNo ≠ no) : (s.writeBack i).disk no = s.disk no := by
  unfold Caches.writeBack
  split
  · exact blkwrite_disk_ne _ _ _ _ differs.symm
  · rfl

/-- Rewriting the slot of one block. The other blocks keep their map entry,
their relation, their pending mark and their holders; for the block itself the
new slot decides. Every operation on a buffer is an instance. -/
theorem update_slot (rep : Represents agree s stored pending held)
    {agree' : Nat → α → α → Prop} {stored' : Nat → α} {pending' : Nat → Prop}
    {held' : Multiset Nat} (i : Fin nBlkNum) (no : Nat) (buffers : s.Buffers i no)
    (entry : Slot α) (valid : entry.valid = true) (number : entry.blkNo = no)
    (others : ∀ m, m ≠ no → agree' m = agree m ∧ stored' m = stored m ∧
      (pending' m ↔ pending m) ∧ held'.count m = held.count m)
    (counted : entry.refcnt = held'.count no)
    (data : agree' no entry.data (stored' no))
    (clean : entry.dirty = false → ¬ pending' no → agree' no (s.disk no) (stored' no))
    (waiting : pending' no → no ∈ held') :
    Represents agree' (s.setSlot i entry) stored' pending' held' := by
  have same : ∀ j, ((s.setSlot i entry).slot j).valid = (s.slot j).valid ∧
      ((s.setSlot i entry).slot j).blkNo = (s.slot j).blkNo := by
    intro j
    by_cases isI : j = i
    · subst isI
      rw [setSlot_self, valid, number, buffers.1, buffers.2]
      exact ⟨rfl, rfl⟩
    · rw [setSlot_ne _ _ _ _ isI]
      exact ⟨rfl, rfl⟩
  have other : ∀ j, j ≠ i → (s.slot j).valid = true → (s.slot j).blkNo ≠ no := by
    intro j differs jValid equal
    exact differs (rep.distinct j i jValid buffers.1 (equal.trans buffers.2.symm))
  refine ⟨?_, ?_, ?_, ?_, ?_, ?_, ?_⟩
  · intro j k jValid kValid equal
    rw [(same j).1] at jValid
    rw [(same k).1] at kValid
    rw [(same j).2, (same k).2] at equal
    exact rep.distinct j k jValid kValid equal
  · intro j
    rw [(same j).1, (same j).2]
    by_cases isI : j = i
    · subst isI
      rw [setSlot_self, if_pos buffers.1, buffers.2, counted]
    · rw [setSlot_ne _ _ _ _ isI, rep.counted j]
      by_cases jValid : (s.slot j).valid = true
      · rw [if_pos jValid, if_pos jValid, (others _ (other j isI jValid)).2.2.2]
      · rw [if_neg jValid, if_neg jValid]
  · intro m member
    by_cases isNo : m = no
    · subst isNo
      exact ⟨i, by rw [(same i).1, (same i).2]; exact buffers⟩
    · have earlier : m ∈ held := by
        rw [← Multiset.count_pos, (others m isNo).2.2.2] at member
        exact Multiset.count_pos.mp member
      obtain ⟨j, jValid, jNo⟩ := rep.cached m earlier
      exact ⟨j, by rw [(same j).1, (same j).2]; exact ⟨jValid, jNo⟩⟩
  · intro j jValid
    rw [(same j).1] at jValid
    rw [(same j).2]
    by_cases isI : j = i
    · subst isI
      rw [setSlot_self, buffers.2]
      exact data
    · obtain ⟨agrees, keeps, -, -⟩ := others _ (other j isI jValid)
      rw [setSlot_ne _ _ _ _ isI, agrees, keeps]
      exact rep.data j jValid
  · intro j jValid isClean notPending
    rw [(same j).1] at jValid
    rw [(same j).2] at notPending ⊢
    by_cases isI : j = i
    · subst isI
      rw [setSlot_self] at isClean
      rw [buffers.2] at notPending ⊢
      exact clean isClean notPending
    · obtain ⟨agrees, keeps, marks, -⟩ := others _ (other j isI jValid)
      rw [setSlot_ne _ _ _ _ isI] at isClean
      rw [setSlot_disk, agrees, keeps]
      exact rep.clean j jValid isClean (fun mark => notPending (marks.mpr mark))
  · intro m unbuffered
    have unbuffered' : ∀ j, (s.slot j).valid = true → (s.slot j).blkNo ≠ m := by
      intro j jValid
      have away := unbuffered j (by rw [(same j).1]; exact jValid)
      rwa [(same j).2] at away
    have isOther : m ≠ no := fun equal => unbuffered' i buffers.1 (buffers.2.trans equal.symm)
    obtain ⟨agrees, keeps, -, -⟩ := others m isOther
    rw [setSlot_disk, agrees, keeps]
    exact rep.absent m unbuffered'
  · intro m mark
    by_cases isNo : m = no
    · subst isNo
      exact waiting mark
    · obtain ⟨-, -, marks, counts⟩ := others m isNo
      rw [← Multiset.count_pos, counts, Multiset.count_pos]
      exact rep.pendingHeld m (marks.mp mark)

/-- Loading an unbuffered block into a free slot, after its write-back. -/
theorem load_slot (rep : Represents agree s stored pending held) (i : Fin nBlkNum) (no : Nat)
    (free : (s.slot i).refcnt = 0)
    (unbuffered : ∀ j, (s.slot j).valid = true → (s.slot j).blkNo ≠ no) :
    Represents agree ((s.writeBack i).setSlot i
      { blkNo := no, valid := true, dirty := false, refcnt := 1,
        data := (s.writeBack i).disk no }) stored pending (no ::ₘ held) := by
  generalize written : s.writeBack i = w
  have slots : w.slot = s.slot := written ▸ writeBack_slot s i
  have loaded : agree no (w.disk no) (stored no) :=
    written ▸ rep.disk_after_writeBack i free no fun j _ => unbuffered j
  have fresh : no ∉ held := by
    intro member
    obtain ⟨j, jValid, jNo⟩ := rep.cached no member
    exact unbuffered j jValid jNo
  have elsewhere : ∀ j, j ≠ i → (s.slot j).valid = true →
      w.disk (s.slot j).blkNo = s.disk (s.slot j).blkNo := by
    intro j isJ jValid
    by_cases iValid : (s.slot i).valid = true
    · rw [← written]
      apply writeBack_disk_ne s i _
      exact fun equal => isJ (rep.distinct j i jValid iValid equal.symm)
    · have kept : s.writeBack i = s := by simp [Caches.writeBack, iValid]
      rw [← written, kept]
  refine ⟨?_, ?_, ?_, ?_, ?_, ?_, ?_⟩
  · intro j k jValid kValid equal
    by_cases jI : j = i
    · by_cases kI : k = i
      · rw [jI, kI]
      · subst jI
        rw [setSlot_self, setSlot_ne _ _ _ _ kI, slots] at equal
        rw [setSlot_ne _ _ _ _ kI, slots] at kValid
        exact absurd equal.symm (unbuffered k kValid)
    · rw [setSlot_ne _ _ _ _ jI, slots] at jValid equal
      by_cases kI : k = i
      · subst kI
        rw [setSlot_self] at equal
        exact absurd equal (unbuffered j jValid)
      · rw [setSlot_ne _ _ _ _ kI, slots] at kValid equal
        exact rep.distinct j k jValid kValid equal
  · intro j
    by_cases jI : j = i
    · subst jI
      simp [Multiset.count_eq_zero_of_notMem fresh]
    · rw [setSlot_ne _ _ _ _ jI, slots, rep.counted j]
      by_cases jValid : (s.slot j).valid = true
      · rw [if_pos jValid, if_pos jValid, Multiset.count_cons_of_ne (unbuffered j jValid)]
      · rw [if_neg jValid, if_neg jValid]
  · intro m member
    rcases Multiset.mem_cons.mp member with rfl | earlier
    · exact ⟨i, by simp⟩
    · obtain ⟨j, jValid, jNo⟩ := rep.cached m earlier
      have references := rep.refcnt_pos j m ⟨jValid, jNo⟩ earlier
      have jI : j ≠ i := by
        rintro rfl
        omega
      exact ⟨j, by rw [setSlot_ne _ _ _ _ jI, slots]; exact ⟨jValid, jNo⟩⟩
  · intro j jValid
    by_cases jI : j = i
    · subst jI
      rw [setSlot_self]
      exact loaded
    · rw [setSlot_ne _ _ _ _ jI, slots] at jValid ⊢
      exact rep.data j jValid
  · intro j jValid isClean notPending
    by_cases jI : j = i
    · subst jI
      rw [setSlot_self]
      exact loaded
    · rw [setSlot_ne _ _ _ _ jI, slots] at jValid isClean notPending ⊢
      rw [setSlot_disk, elsewhere j jI jValid]
      exact rep.clean j jValid isClean notPending
  · intro m away
    have others : ∀ j, j ≠ i → (s.slot j).valid = true → (s.slot j).blkNo ≠ m := by
      intro j jI jValid
      have outside := away j (by rw [setSlot_ne _ _ _ _ jI, slots]; exact jValid)
      rwa [setSlot_ne _ _ _ _ jI, slots] at outside
    rw [setSlot_disk, ← written]
    exact rep.disk_after_writeBack i free m others
  · intro m mark
    exact Multiset.mem_cons_of_mem (rep.pendingHeld m mark)

end Represents

/-- Fewer references than there are slots never come near the end of an `i32`. -/
theorem count_fits (held : Multiset Nat) (room : Multiset.card held < nBlkNum) (no : Nat) :
    held.count no + 1 < 2 ^ 31 := by
  have few := Multiset.count_le_card no held
  have slots : nBlkNum = 64 := rfl
  omega

/-- `bread` returns a buffer of the block, takes one reference to it and
changes nothing that anyone holds. It finds a slot whenever the block is held
already or fewer blocks are held than there are slots, and it counts as long as
the references to the block fit an `i32`. -/
theorem bread_spec (rep : Represents agree s stored pending held) (no : Nat)
    (room : no ∈ held ∨ held.toFinset.card < nBlkNum) (few : held.count no + 1 < 2 ^ 31) :
    wp (bread no) (fun i after => after.Buffers i no ∧
      Represents agree after stored pending (no ::ₘ held) ∧ KeepsHeld s after) s := by
  rw [bread, wp_bind, wp_get]
  cases hit : s.hit no with
  | some i =>
    obtain ⟨valid, number⟩ := hit_some s no i hit
    have countable : (s.slot i).refcnt + 1 < 2 ^ 31 := by
      rw [rep.counted i, if_pos valid, number]
      omega
    simp only [if_pos countable, wp_bind, wp_set, wp_pure]
    refine ⟨by simp [Caches.Buffers, valid, number], ?_, ?_⟩
    · apply rep.update_slot i no ⟨valid, number⟩
      · exact valid
      · exact number
      · intro m differs
        exact ⟨rfl, rfl, Iff.rfl, Multiset.count_cons_of_ne differs _⟩
      · have counted := rep.counted i
        rw [if_pos valid, number] at counted
        simp [counted]
      · exact number ▸ rep.data i valid
      · intro isClean notPending
        exact number ▸ rep.clean i valid isClean (number ▸ notPending)
      · intro mark
        exact Multiset.mem_cons_self ..
    · intro j references
      by_cases jI : j = i
      · subst jI
        simp
      · simp [setSlot_ne _ _ _ _ jI]
  | none =>
    have unbuffered := hit_none s no hit
    have notHeld : no ∉ held := by
      intro member
      obtain ⟨j, jValid, jNo⟩ := rep.cached no member
      exact unbuffered j jValid jNo
    cases found : s.firstFree with
    | none => exact absurd found (rep.exists_free (room.resolve_left notHeld))
    | some i =>
      have free := firstFree_some s i found
      simp only [wp_bind, wp_set, wp_pure]
      refine ⟨by simp [Caches.Buffers], rep.load_slot i no free unbuffered, ?_⟩
      intro j references
      have jI : j ≠ i := by
        rintro rfl
        exact references free
      simp [setSlot_ne _ _ _ _ jI]

/-- A holder may change its buffer to contents that stand for a new map entry.
The entry's relation may change too; the change is pending until `bwrite`. -/
theorem modifyData_spec (rep : Represents agree s stored pending held) (i : Fin nBlkNum)
    (no : Nat) (buffers : s.Buffers i no) (member : no ∈ held) (f : α → α)
    (agree' : Nat → α → α → Prop) (stored' : Nat → α)
    (others : ∀ m, m ≠ no → agree' m = agree m ∧ stored' m = stored m)
    (data : agree' no (f (s.slot i).data) (stored' no)) :
    wp (modifyData i f) (fun _ after => after.Buffers i no ∧
      Represents agree' after stored' (fun m => m = no ∨ pending m) held ∧
      (after.slot i).data = f (s.slot i).data ∧ ∀ j, j ≠ i → after.slot j = s.slot j) s := by
  rw [modifyData, wp_modify]
  refine ⟨⟨by simpa using buffers.1, by simpa using buffers.2⟩, ?_, by simp, ?_⟩
  · apply rep.update_slot i no buffers
    · exact buffers.1
    · exact buffers.2
    · intro m differs
      exact ⟨(others m differs).1, (others m differs).2, by simp [differs], rfl⟩
    · have counted := rep.counted i
      rwa [if_pos buffers.1, buffers.2] at counted
    · exact data
    · intro _ notPending
      exact absurd (Or.inl rfl) notPending
    · intro _
      exact member
  · intro j differs
    exact setSlot_ne _ _ _ _ differs

/-- `bwrite` records the buffer's changes: none is pending any more. -/
theorem bwrite_spec (rep : Represents agree s stored pending held) (i : Fin nBlkNum) (no : Nat)
    (buffers : s.Buffers i no) :
    wp (bwrite i) (fun _ after => after.Buffers i no ∧
      Represents agree after stored (fun m => m ≠ no ∧ pending m) held ∧
      (after.slot i).data = (s.slot i).data ∧ ∀ j, j ≠ i → after.slot j = s.slot j) s := by
  rw [bwrite, wp_modify, if_pos buffers.1]
  refine ⟨⟨by simpa using buffers.1, by simpa using buffers.2⟩, ?_, by simp, ?_⟩
  · apply rep.update_slot i no buffers
    · exact buffers.1
    · exact buffers.2
    · intro m differs
      exact ⟨rfl, rfl, by simp [differs], rfl⟩
    · have counted := rep.counted i
      rwa [if_pos buffers.1, buffers.2] at counted
    · exact buffers.2 ▸ rep.data i buffers.1
    · intro isClean _
      cases isClean
    · intro mark
      exact absurd rfl mark.1
  · intro j differs
    exact setSlot_ne _ _ _ _ differs

/-- `brelse` returns one reference. The last one may go only when nothing is
pending; the other references to the block, if any, stay. -/
theorem brelse_spec (rep : Represents agree s stored pending held) (i : Fin nBlkNum) (no : Nat)
    (buffers : s.Buffers i no) (member : no ∈ held) (recorded : pending no → no ∈ held.erase no) :
    wp (brelse i) (fun _ after => after.Buffers i no ∧
      Represents agree after stored pending (held.erase no) ∧
      (after.slot i).data = (s.slot i).data ∧ ∀ j, j ≠ i → after.slot j = s.slot j) s := by
  have references := rep.refcnt_pos i no buffers member
  rw [brelse, wp_bind, wp_get, if_neg (by omega), wp_set]
  refine ⟨⟨by simpa using buffers.1, by simpa using buffers.2⟩, ?_, by simp, ?_⟩
  · apply rep.update_slot i no buffers
    · exact buffers.1
    · exact buffers.2
    · intro m differs
      exact ⟨rfl, rfl, Iff.rfl, Multiset.count_erase_of_ne differs _⟩
    · have counted := rep.counted i
      rw [if_pos buffers.1, buffers.2] at counted
      have occurs := Multiset.count_pos.mpr member
      change (s.slot i).refcnt - 1 = _
      rw [Multiset.count_erase_self, counted]
      omega
    · exact buffers.2 ▸ rep.data i buffers.1
    · intro isClean notPending
      exact buffers.2 ▸ rep.clean i buffers.1 isClean (buffers.2 ▸ notPending)
    · exact recorded
  · intro j differs
    exact setSlot_ne _ _ _ _ differs

/-- What `bsync` keeps of every slot: all but the dirty flag. -/
def SameButDirty (before after : Caches α) : Prop :=
  ∀ j, (after.slot j).valid = (before.slot j).valid ∧
    (after.slot j).blkNo = (before.slot j).blkNo ∧
    (after.slot j).refcnt = (before.slot j).refcnt ∧ (after.slot j).data = (before.slot j).data

theorem syncSlot_same (s : Caches α) (i : Fin nBlkNum) : SameButDirty s (s.syncSlot i) := by
  intro j
  unfold Caches.syncSlot
  split
  · by_cases jI : j = i
    · subst jI
      simp
    · simp [setSlot_ne _ _ _ _ jI]
  · simp

/-- Syncing a slot leaves it clean and makes no slot dirty. -/
theorem syncSlot_dirty (s : Caches α) (i j : Fin nBlkNum)
    (valid : ((s.syncSlot i).slot j).valid = true)
    (dirty : ((s.syncSlot i).slot j).dirty = true) : j ≠ i ∧ (s.slot j).dirty = true := by
  rw [(syncSlot_same s i j).1] at valid
  unfold Caches.syncSlot at dirty
  split at dirty
  · by_cases jI : j = i
    · subst jI
      simp at dirty
    · rw [setSlot_ne _ _ _ _ jI] at dirty
      exact ⟨jI, dirty⟩
  · rename_i notBoth
    refine ⟨?_, dirty⟩
    rintro rfl
    simp [valid, dirty] at notBoth

/-- Writing one slot back keeps the represented map. -/
theorem Represents.syncSlot_step (rep : Represents agree s stored pending held)
    (i : Fin nBlkNum) : Represents agree (s.syncSlot i) stored pending held := by
  have same := syncSlot_same s i
  have disk : ∀ no, (s.syncSlot i).disk no =
      if (s.slot i).valid = true ∧ (s.slot i).dirty = true ∧ (s.slot i).blkNo = no then
        (s.slot i).data else s.disk no := by
    intro no
    unfold Caches.syncSlot
    by_cases both : (s.slot i).valid = true ∧ (s.slot i).dirty = true
    · rw [if_pos (by simpa using both), setSlot_disk]
      by_cases number : (s.slot i).blkNo = no
      · subst number
        simp [both]
      · rw [blkwrite_disk_ne _ _ _ _ (Ne.symm number)]
        simp [number]
    · rw [if_neg (by simpa using both), if_neg (by rintro ⟨v, d, -⟩; exact both ⟨v, d⟩)]
  refine ⟨?_, ?_, ?_, ?_, ?_, ?_, rep.pendingHeld⟩
  · intro j k jValid kValid equal
    rw [(same j).1] at jValid
    rw [(same k).1] at kValid
    rw [(same j).2.1, (same k).2.1] at equal
    exact rep.distinct j k jValid kValid equal
  · intro j
    rw [(same j).1, (same j).2.1, (same j).2.2.1]
    exact rep.counted j
  · intro no member
    obtain ⟨j, jValid, jNo⟩ := rep.cached no member
    exact ⟨j, by rw [(same j).1, (same j).2.1]; exact ⟨jValid, jNo⟩⟩
  · intro j jValid
    rw [(same j).1] at jValid
    rw [(same j).2.1, (same j).2.2.2]
    exact rep.data j jValid
  · intro j jValid isClean notPending
    rw [(same j).1] at jValid
    rw [(same j).2.1] at notPending ⊢
    rw [disk]
    split
    · rename_i written
      have isI : i = j := rep.distinct i j written.1 jValid written.2.2
      subst isI
      exact rep.data i jValid
    · rename_i kept
      have wasClean : (s.slot j).dirty = false := by
        by_cases jI : j = i
        · subst jI
          simpa [jValid] using kept
        · have notDirty : ¬ (s.slot j).dirty = true := by
            intro dirty
            unfold Caches.syncSlot at isClean
            split at isClean
            · rw [setSlot_ne _ _ _ _ jI, blkwrite_slot, dirty] at isClean
              cases isClean
            · rw [dirty] at isClean
              cases isClean
          simpa using notDirty
      exact rep.clean j jValid wasClean notPending
  · intro no unbuffered
    have away : ∀ j, (s.slot j).valid = true → (s.slot j).blkNo ≠ no := by
      intro j jValid
      have outside := unbuffered j (by rw [(same j).1]; exact jValid)
      rwa [(same j).2.1] at outside
    rw [disk, if_neg (by rintro ⟨v, -, number⟩; exact away i v number)]
    exact rep.absent no away

/-- `bsync` over the listed slots: the map is kept and these slots end clean. -/
theorem Represents.sync_run (slots : List (Fin nBlkNum))
    (rep : Represents agree s stored pending held) :
    let after := slots.foldl Caches.syncSlot s
    Represents agree after stored pending held ∧ SameButDirty s after ∧
      ∀ j, (after.slot j).valid = true → (after.slot j).dirty = true →
        j ∉ slots ∧ (s.slot j).dirty = true := by
  induction slots generalizing s with
  | nil => exact ⟨rep, fun _ => ⟨rfl, rfl, rfl, rfl⟩, fun j _ dirty => ⟨by simp, dirty⟩⟩
  | cons i rest inductionHypothesis =>
    obtain ⟨kept, same, cleaned⟩ := inductionHypothesis (rep.syncSlot_step i)
    refine ⟨kept, ?_, ?_⟩
    · intro j
      obtain ⟨v, n, r, d⟩ := same j
      obtain ⟨v', n', r', d'⟩ := syncSlot_same s i j
      exact ⟨v.trans v', n.trans n', r.trans r', d.trans d'⟩
    · intro j valid dirty
      obtain ⟨absent, wasDirty⟩ := cleaned j valid dirty
      have valid' : ((s.syncSlot i).slot j).valid = true := (same j).1 ▸ valid
      obtain ⟨differs, before⟩ := syncSlot_dirty s i j valid' wasDirty
      exact ⟨by simp [differs, absent], before⟩

/-- Right after `bsync`, every block without a pending change is on the disk. -/
theorem bsync_spec (rep : Represents agree s stored pending held) :
    wp bsync (fun _ after => Represents agree after stored pending held ∧ SameButDirty s after ∧
      ∀ no, ¬ pending no → agree no (after.disk no) (stored no)) s := by
  rw [bsync, wp_modify]
  obtain ⟨kept, same, cleaned⟩ := rep.sync_run (List.finRange nBlkNum)
  refine ⟨kept, same, ?_⟩
  intro no notPending
  by_cases buffered : ∃ j, ((List.finRange nBlkNum).foldl Caches.syncSlot s).Buffers j no
  · obtain ⟨j, valid, rfl⟩ := buffered
    apply kept.clean j valid _ notPending
    have notDirty : ¬ (((List.finRange nBlkNum).foldl Caches.syncSlot s).slot j).dirty = true :=
      fun dirty => (cleaned j valid dirty).1 (List.mem_finRange j)
    simpa using notDirty
  · apply kept.absent
    intro j valid number
    exact buffered ⟨j, valid, number⟩

/-- The zero-initialized cache represents the initial disk. -/
theorem boot_represents (zero : α) (disk : Nat → α) :
    Represents (fun _ => Eq) (boot zero disk) disk (fun _ => False) 0 := by
  refine ⟨?_, ?_, ?_, ?_, ?_, ?_, ?_⟩ <;> simp [boot]

end CuteCore.BlkCache

import CuteCore.Mm.Kalloc
import CuteCore.Library.DoublyLinked

/-!
# The slab allocator

A cache hands out objects of one size from slab pages. Field offsets:

* `struct slab`: `next` 0, `prev` 8, `list` 16, `freenum` 24, `objectsnum` 28,
  `cache` 32, objects from 40 on;
* `struct cache`: `objsz` 0, `slabs_full` 8, `slabs_partial` 16, `slabs_empty`
  24, `empty_slabs` 32.

`freenum`, `objectsnum` and `empty_slabs` are 32-bit integers.
-/

namespace CuteCore

open Hoare Bytes DoublyLinked

/-- `sizeof(struct slab)` -/
def slabHeader : Nat := 40

/-- `MAX_EMPTY_SLABS` -/
def maxEmptySlabs : Nat := 2

/-- `list_remove`; `head` is the address of the list head. -/
def listRemove (head s : Nat) : KernelProg Unit := do
  let prev ← loadField (s + 8) 8
  let next ← loadField s 8
  (if prev ≠ 0 then storeField prev 8 next else storeField head 8 next)
  let next ← loadField s 8
  onlyIf (next ≠ 0) do
    let prev ← loadField (s + 8) 8
    storeField (next + 8) 8 prev

/-- `list_insert`; `head` is the address of the list head. -/
def listInsert (head s : Nat) : KernelProg Unit := do
  let first ← loadField head 8
  storeField s 8 first
  storeField (s + 8) 8 0
  let first ← loadField head 8
  onlyIf (first ≠ 0) (storeField (first + 8) 8 s)
  storeField head 8 s

def cacheCreate (size : Nat) : KernelProg Nat := do
  let cache ← kalloc
  if cache = 0 then return 0
  else do
    storeField cache 4 ((size + 7) / 8 * 8)
    storeField (cache + 8) 8 0
    storeField (cache + 16) 8 0
    storeField (cache + 24) 8 0
    storeField (cache + 32) 4 0
    return cache

/-- The loop of `slabinit`: each object's first word names the next position. -/
def chainObjects (objsz : Nat) : Nat → Nat → KernelProg Nat
  | 0, p => return p
  | n + 1, p => do
    storeField p 8 (p + objsz)
    chainObjects objsz n (p + objsz)

def slabinit (cache s : Nat) : KernelProg Unit := do
  storeField (s + 16) 8 (s + slabHeader)
  let objsz ← loadField cache 4
  storeField (s + 28) 4 ((pgSize - slabHeader) / objsz)
  let objectsnum ← loadField (s + 28) 4
  storeField (s + 24) 4 objectsnum
  storeField s 8 0
  storeField (s + 8) 8 0
  storeField (s + 32) 8 cache
  let last ← chainObjects objsz objectsnum (s + slabHeader)
  storeField last 8 0

/-- The slab `cache_alloc` takes an object from, on the partial list. -/
def pickSlab (cache : Nat) : KernelProg Nat := do
  let s ← loadField (cache + 16) 8
  if s ≠ 0 then return s
  else do
    let s ← loadField (cache + 24) 8
    if s = 0 then do
      let s ← kalloc
      if s = 0 then return 0
      else do
        slabinit cache s
        listInsert (cache + 16) s
        return s
    else do
      listRemove (cache + 24) s
      let empty ← loadField (cache + 32) 4
      storeField (cache + 32) 4 (empty + (2 ^ 32 - 1))
      listInsert (cache + 16) s
      return s

/-- The rest of `cache_alloc`: the first free object of the slab. -/
def takeObject (cache s : Nat) : KernelProg Nat := do
  let obj ← loadField (s + 16) 8
  let next ← loadField obj 8
  storeField (s + 16) 8 next
  let freenum ← loadField (s + 24) 4
  storeField (s + 24) 4 (freenum + (2 ^ 32 - 1))
  let freenum ← loadField (s + 24) 4
  onlyIf (freenum = 0) do
    listRemove (cache + 16) s
    listInsert (cache + 8) s
  return obj

def cacheAlloc (cache : Nat) : KernelProg Nat := do
  let s ← pickSlab cache
  if s = 0 then return 0 else takeObject cache s

/-- `empty_slabs > MAX_EMPTY_SLABS` on a signed 32-bit counter. -/
def tooManyEmpty (count : Nat) : Prop := maxEmptySlabs < count ∧ count < 2 ^ 31

instance (count : Nat) : Decidable (tooManyEmpty count) := inferInstanceAs (Decidable (_ ∧ _))

variable (layout : Layout)

/-- The loop of `cache_shrink`. Each pass lowers `empty_slabs` by one, so its
value bounds the number of passes. -/
def shrinkFrom (cache : Nat) : Nat → Nat → KernelProg Unit
  | 0, _ => return ()
  | budget + 1, s => do
    let empty ← loadField (cache + 32) 4
    onlyIf (s ≠ 0 ∧ tooManyEmpty empty) do
      let next ← loadField s 8
      listRemove (cache + 24) s
      let empty ← loadField (cache + 32) 4
      storeField (cache + 32) 4 (empty + (2 ^ 32 - 1))
      kfree layout s
      shrinkFrom cache budget next

def cacheShrink (cache : Nat) : KernelProg Unit := do
  let s ← loadField (cache + 24) 8
  let empty ← loadField (cache + 32) 4
  shrinkFrom layout cache empty s

/-- `PGROUNDDOWN` -/
def pgRoundDown (a : Nat) : Nat := a / pgSize * pgSize

/-- The first part of `cache_free`: the object heads the slab's chain again. -/
def giveObject (s obj : Nat) : KernelProg Unit := do
  let list ← loadField (s + 16) 8
  storeField obj 8 list
  storeField (s + 16) 8 obj
  let freenum ← loadField (s + 24) 4
  storeField (s + 24) 4 (freenum + 1)

/-- The rest of `cache_free`: the slab moves to the list of its class. -/
def classify (cache s : Nat) : KernelProg Unit := do
  let freenum ← loadField (s + 24) 4
  let objectsnum ← loadField (s + 28) 4
  if freenum = 1 then do
    listRemove (cache + 8) s
    listInsert (cache + 16) s
  else if freenum = objectsnum then do
    listRemove (cache + 16) s
    listInsert (cache + 24) s
    let empty ← loadField (cache + 32) 4
    storeField (cache + 32) 4 (empty + 1)
    let empty ← loadField (cache + 32) 4
    onlyIf (tooManyEmpty empty) (cacheShrink layout cache)
  else return ()

def cacheFree (cache obj : Nat) : KernelProg Unit := do
  giveObject (pgRoundDown obj) obj
  classify layout cache (pgRoundDown obj)

/-- The links of the slabs in memory. -/
def slabNext (mem : ByteMap) (s : Nat) : Nat := load mem s 8
def slabPrev (mem : ByteMap) (s : Nat) : Nat := load mem (s + 8) 8

/-- The list whose head is stored at `head` holds these slabs. -/
def SlabList (mem : ByteMap) (head : Nat) (slabs : List Nat) : Prop :=
  Linked 0 (slabNext mem) (slabPrev mem) 0 (load mem head 8) slabs

/-- The bytes list surgery may write: the list head and the links of the listed slabs. -/
def LinksOnly (mem after : ByteMap) (head : Nat) (slabs : List Nat) : Prop :=
  ∀ x, (x < head ∨ head + 8 ≤ x) → (∀ s ∈ slabs, x < s ∨ s + 16 ≤ x) → after x = mem x

/-- Where a list head and its slabs may lie: each slab is a page, and the head is
a word of memory on none of these pages. -/
structure ListPlace (head : Nat) (slabs : List Nat) : Prop where
  pages : ∀ s ∈ slabs, layout.IsPage s
  distinct : slabs.Nodup
  inRam : InRam head 8
  aligned : head % 8 = 0
  apart : ∀ s ∈ slabs, head + 8 ≤ s ∨ s + pgSize ≤ head

/-- The word `list_remove` redirects to the next slab: the previous slab's link
or the list head. -/
def unlinkTarget (mem : ByteMap) (head node : Nat) : Nat :=
  if slabPrev mem node ≠ 0 then slabPrev mem node else head

variable {layout}

/-- The memory `list_remove` leaves. -/
def unlinked (mem : ByteMap) (head node : Nat) : ByteMap :=
  let relinked := store mem (unlinkTarget mem head node) 8 (slabNext mem node)
  if slabNext mem node ≠ 0 then store relinked (slabNext mem node + 8) 8 (slabPrev mem node)
  else relinked

/-- A word after a removal: the back link of the next node, the word that pointed to the node, or
unchanged. -/
theorem unlinked_word (mem : ByteMap) (head node a : Nat) (aligned : a % 8 = 0)
    (targetAligned : unlinkTarget mem head node % 8 = 0) (nextAligned : slabNext mem node % 8 = 0) :
    load (unlinked mem head node) a 8 =
      if slabNext mem node ≠ 0 ∧ a = slabNext mem node + 8 then slabPrev mem node
      else if a = unlinkTarget mem head node then slabNext mem node
      else load mem a 8 := by
  have nextFits : slabNext mem node < 2 ^ 64 := word_lt mem node
  have prevFits : slabPrev mem node < 2 ^ 64 := word_lt mem (node + 8)
  have relinked := load_store_word mem (unlinkTarget mem head node) a (slabNext mem node)
    targetAligned aligned nextFits
  unfold unlinked
  by_cases null : slabNext mem node = 0
  · rw [if_neg (fun nonnull => nonnull null), if_neg (fun both => both.1 null)]
    exact relinked
  · rw [if_pos null, load_store_word _ (slabNext mem node + 8) a _ (by omega) aligned prevFits,
      relinked]
    by_cases atNext : a = slabNext mem node + 8
    · rw [if_pos atNext, if_pos ⟨null, atNext⟩]
    · have neither : ¬ (slabNext mem node ≠ 0 ∧ a = slabNext mem node + 8) :=
        fun both => atNext both.2
      rw [if_neg neither, if_neg atNext]

/-- `list_remove` on a node whose neighbours are null or other pages. -/
theorem listRemove_runs {s : Kernel} {head node : Nat}
    (nodePage : layout.IsPage node) (headRam : InRam head 8)
    (headApart : head + 8 ≤ node ∨ node + pgSize ≤ head)
    (nextPage : slabNext s.mem node ≠ 0 → layout.IsPage (slabNext s.mem node))
    (prevPage : slabPrev s.mem node ≠ 0 → layout.IsPage (slabPrev s.mem node))
    (nextNe : slabNext s.mem node ≠ node) (prevNe : slabPrev s.mem node ≠ node) :
    wp (listRemove head node) (fun _ after => after = s.withMem (unlinked s.mem head node)) s := by
  have nodeAligned := nodePage.1
  have targetApart : unlinkTarget s.mem head node + 8 ≤ node ∨
      node + 16 ≤ unlinkTarget s.mem head node := by
    unfold unlinkTarget
    split
    · rename_i nonnull
      have prevAligned := (prevPage nonnull).1
      simp only [pgSize] at *
      omega
    · simp only [pgSize] at *
      omega
  have targetRam : InRam (unlinkTarget s.mem head node) 8 := by
    unfold unlinkTarget
    split
    · rename_i nonnull
      exact (prevPage nonnull).headInRam
    · exact headRam
  have sameNext : load (store s.mem (unlinkTarget s.mem head node) 8 (slabNext s.mem node))
      node 8 = slabNext s.mem node := load_store_apart _ _ _ _ _ _ (by omega)
  have samePrev : load (store s.mem (unlinkTarget s.mem head node) 8 (slabNext s.mem node))
      (node + 8) 8 = slabPrev s.mem node := load_store_apart _ _ _ _ _ _ (by omega)
  have redirect : (if slabPrev s.mem node ≠ 0 then storeField (slabPrev s.mem node) 8
      (slabNext s.mem node) else storeField head 8 (slabNext s.mem node)) =
      storeField (unlinkTarget s.mem head node) 8 (slabNext s.mem node) := by
    unfold unlinkTarget
    split <;> rfl
  rw [listRemove, wp_bind, wp_loadField]
  refine ⟨nodePage.inRam 8 8 (by simp [pgSize]), ?_⟩
  rw [wp_bind, wp_loadField]
  refine ⟨nodePage.headInRam, ?_⟩
  change wp ((if slabPrev s.mem node ≠ 0 then storeField (slabPrev s.mem node) 8
      (slabNext s.mem node) else storeField head 8 (slabNext s.mem node)) >>= _) _ _
  rw [redirect, wp_bind, wp_storeField]
  refine ⟨targetRam, ?_⟩
  rw [wp_bind, wp_loadField]
  refine ⟨nodePage.headInRam, ?_⟩
  rw [withMem_mem, sameNext, wp_onlyIf]
  by_cases null : slabNext s.mem node = 0
  · rw [if_neg (fun nonnull => nonnull null)]
    simp [unlinked, null]
  · rw [if_pos null, wp_bind, wp_loadField]
    refine ⟨nodePage.inRam 8 8 (by simp [pgSize]), ?_⟩
    rw [withMem_mem, samePrev, wp_storeField]
    refine ⟨(nextPage null).inRam 8 8 (by simp [pgSize]), ?_⟩
    simp [unlinked, null]

/-! ### Removal -/

section

variable {mem : ByteMap} {head node : Nat} {front back : List Nat}

/-- The word that is redirected: the link of the previous node, or the head. -/
theorem unlinkTarget_cases (mem : ByteMap) (head node : Nat) :
    (slabPrev mem node ≠ 0 ∧ unlinkTarget mem head node = slabPrev mem node) ∨
      (slabPrev mem node = 0 ∧ unlinkTarget mem head node = head) := by
  unfold unlinkTarget
  split <;> simp_all

theorem next_mem (linked : SlabList mem head (front ++ node :: back))
    (nonnull : slabNext mem node ≠ 0) : slabNext mem node ∈ back := by
  have names := linked.neighbours
  rw [names.2] at nonnull ⊢
  cases back with
  | nil => exact absurd rfl nonnull
  | cons first rest => simp

theorem prev_mem (linked : SlabList mem head (front ++ node :: back))
    (nonnull : slabPrev mem node ≠ 0) : slabPrev mem node ∈ front := by
  have names := linked.neighbours
  rw [names.1] at nonnull ⊢
  by_cases nil : front = []
  · subst nil
    exact absurd rfl nonnull
  · rw [List.getLastD_eq_getLast?, List.getLast?_eq_some_getLast nil]
    exact List.getLast_mem nil

/-- A node without a previous one is the first. -/
theorem front_nil_iff (linked : SlabList mem head (front ++ node :: back)) :
    front = [] ↔ slabPrev mem node = 0 := by
  have names := linked.neighbours
  constructor
  · rintro rfl
    exact names.1
  · intro null
    by_contra nonempty
    rw [names.1, List.getLastD_eq_getLast?, List.getLast?_eq_some_getLast nonempty] at null
    exact linked.ne_null (front.getLast nonempty) (by simp) null

variable (place : ListPlace layout head (front ++ node :: back))
  (linked : SlabList mem head (front ++ node :: back))

include place linked

/-- The neighbours are pages, as far as there are any. -/
theorem neighbours_isPage :
    (slabNext mem node ≠ 0 → layout.IsPage (slabNext mem node)) ∧
      (slabPrev mem node ≠ 0 → layout.IsPage (slabPrev mem node)) :=
  ⟨fun nonnull => place.pages _ (by simp [next_mem linked nonnull]),
    fun nonnull => place.pages _ (by simp [prev_mem linked nonnull])⟩

/-- No node is its own neighbour. -/
theorem neighbours_ne : slabNext mem node ≠ node ∧ slabPrev mem node ≠ node := by
  have nodePage := place.pages node (by simp)
  have distinct := place.distinct
  have nodeOut : node ∉ front ++ back := by
    rw [List.nodup_middle, List.nodup_cons] at distinct
    exact distinct.1
  constructor
  · intro same
    have nonnull : slabNext mem node ≠ 0 := by
      rw [same]
      exact nodePage.ne_zero
    exact nodeOut (List.mem_append_right _ (same ▸ next_mem linked nonnull))
  · intro same
    have nonnull : slabPrev mem node ≠ 0 := by
      rw [same]
      exact nodePage.ne_zero
    exact nodeOut (List.mem_append_left _ (same ▸ prev_mem linked nonnull))

/-- The words after the removal of a listed node. -/
theorem unlinked_listed_word (a : Nat) (aligned : a % 8 = 0) :
    load (unlinked mem head node) a 8 =
      if slabNext mem node ≠ 0 ∧ a = slabNext mem node + 8 then slabPrev mem node
      else if a = unlinkTarget mem head node then slabNext mem node
      else load mem a 8 := by
  obtain ⟨nextPage, prevPage⟩ := neighbours_isPage place linked
  have headAligned := place.aligned
  have nextAligned : slabNext mem node % pgSize = 0 := by
    by_cases null : slabNext mem node = 0
    · rw [null]; rfl
    · exact (nextPage null).1
  have targetAligned : unlinkTarget mem head node % 8 = 0 := by
    rcases unlinkTarget_cases mem head node with ⟨nonnull, target⟩ | ⟨-, target⟩
    · have prevAligned := (prevPage nonnull).1
      rw [target]
      simp only [pgSize] at prevAligned
      omega
    · rw [target]
      exact headAligned
  refine unlinked_word mem head node a aligned targetAligned ?_
  simp only [pgSize] at nextAligned
  omega

/-- The head leads to the next node where the first one was removed. -/
theorem unlinked_head : load (unlinked mem head node) head 8 =
    if front = [] then slabNext mem node else load mem head 8 := by
  have nextApart : ¬ (slabNext mem node ≠ 0 ∧ head = slabNext mem node + 8) := by
    rintro ⟨nonnull, same⟩
    have apart := place.apart (slabNext mem node) (by simp [next_mem linked nonnull])
    simp only [pgSize] at apart
    omega
  rw [unlinked_listed_word place linked head place.aligned, if_neg nextApart]
  rcases unlinkTarget_cases mem head node with ⟨nonnull, target⟩ | ⟨null, target⟩
  · have apart := place.apart (slabPrev mem node) (by simp [prev_mem linked nonnull])
    have differs : head ≠ slabPrev mem node := by
      simp only [pgSize] at apart
      omega
    rw [target, if_neg differs, if_neg (fun nil => nonnull ((front_nil_iff linked).mp nil))]
  · rw [target, if_pos rfl, if_pos ((front_nil_iff linked).mpr null)]

/-- The other nodes are linked in their order. -/
theorem unlinked_list : SlabList (unlinked mem head node) head (front ++ back) := by
  have words := unlinked_listed_word place linked
  have others : ∀ other ∈ front ++ back, other % pgSize = 0 ∧ other ≠ 0 ∧
      (head + 8 ≤ other ∨ other + pgSize ≤ head) := by
    intro other member
    have listed : other ∈ front ++ node :: back := by
      simp only [List.mem_append, List.mem_cons] at member ⊢
      tauto
    exact ⟨(place.pages other listed).1, (place.pages other listed).ne_zero,
      place.apart other listed⟩
  have prevAligned : slabPrev mem node % pgSize = 0 := by
    by_cases null : slabPrev mem node = 0
    · rw [null]; rfl
    · exact ((neighbours_isPage place linked).2 null).1
  have nextAligned : slabNext mem node % pgSize = 0 := by
    by_cases null : slabNext mem node = 0
    · rw [null]; rfl
    · exact ((neighbours_isPage place linked).1 null).1
  have targetCases := unlinkTarget_cases mem head node
  change Linked 0 _ _ 0 (load (unlinked mem head node) head 8) (front ++ back)
  rw [unlinked_head place linked]
  refine Linked.remove linked place.distinct (fun member => (place.pages 0 member).ne_zero rfl) ?_ ?_
  · intro other member
    obtain ⟨aligned, nonzero, apart⟩ := others other member
    simp only [pgSize] at *
    rw [slabNext, words other (by omega), if_neg (by omega)]
    rcases targetCases with ⟨nonnull, target⟩ | ⟨null, target⟩
    · rw [target]
      rfl
    · rw [target, if_neg (by omega), if_neg (by omega)]
      rfl
  · intro other member
    obtain ⟨aligned, nonzero, apart⟩ := others other member
    simp only [pgSize] at *
    rw [slabPrev, words (other + 8) (by omega)]
    by_cases isNext : other = slabNext mem node
    · rw [if_pos ⟨by omega, by omega⟩, if_pos isNext]
    · rw [if_neg (by omega), if_neg isNext, if_neg (by omega)]
      rfl

omit place in
/-- Only the head and the links of the other nodes are written. -/
theorem unlinked_linksOnly : LinksOnly mem (unlinked mem head node) head (front ++ back) := by
  intro x outsideHead outside
  have notTarget : x < unlinkTarget mem head node ∨ unlinkTarget mem head node + 8 ≤ x := by
    rcases unlinkTarget_cases mem head node with ⟨nonnull, target⟩ | ⟨null, target⟩
    · have away := outside (slabPrev mem node) (by simp [prev_mem linked nonnull])
      omega
    · omega
  unfold unlinked
  by_cases null : slabNext mem node = 0
  · rw [if_neg (fun nonnull => nonnull null)]
    exact copy_outside _ _ _ _ _ notTarget
  · have away := outside (slabNext mem node) (by simp [next_mem linked null])
    rw [if_pos null]
    exact (copy_outside _ _ _ _ _ (by omega)).trans (copy_outside _ _ _ _ _ notTarget)

end

/-- `list_remove` takes a node out of its list wherever it stands, at the head too, and writes link
words of the list only. -/
theorem listRemove_spec {s : Kernel} {head node : Nat} {front back : List Nat}
    (place : ListPlace layout head (front ++ node :: back))
    (linked : SlabList s.mem head (front ++ node :: back)) :
    wp (listRemove head node) (fun _ after => ∃ mem, after = s.withMem mem ∧
      SlabList mem head (front ++ back) ∧ LinksOnly s.mem mem head (front ++ back)) s := by
  obtain ⟨nextPage, prevPage⟩ := neighbours_isPage place linked
  obtain ⟨nextNe, prevNe⟩ := neighbours_ne place linked
  refine wp_mono (listRemove_runs (place.pages node (by simp)) place.inRam
    (place.apart node (by simp)) nextPage prevPage nextNe prevNe) ?_
  rintro - _ rfl
  exact ⟨_, rfl, unlinked_list place linked, unlinked_linksOnly linked⟩

/-- The memory `list_insert` leaves. -/
def inserted (mem : ByteMap) (head node : Nat) : ByteMap :=
  let first := load mem head 8
  let linked := store (store mem node 8 first) (node + 8) 8 0
  let backed := if first ≠ 0 then store linked (first + 8) 8 node else linked
  store backed head 8 node

/-- A word after an insertion: the head, the back link of the old first node, the two links of the
new one, or unchanged. -/
theorem inserted_word (mem : ByteMap) (head node a : Nat) (aligned : a % 8 = 0)
    (headAligned : head % 8 = 0) (nodeAligned : node % 8 = 0)
    (firstAligned : load mem head 8 % 8 = 0) (fits : node < 2 ^ 64) :
    load (inserted mem head node) a 8 =
      if a = head then node
      else if load mem head 8 ≠ 0 ∧ a = load mem head 8 + 8 then node
      else if a = node + 8 then 0
      else if a = node then load mem head 8
      else load mem a 8 := by
  have firstFits : load mem head 8 < 2 ^ 64 := word_lt mem head
  have linked : load (store (store mem node 8 (load mem head 8)) (node + 8) 8 0) a 8 =
      if a = node + 8 then 0 else if a = node then load mem head 8 else load mem a 8 := by
    rw [load_store_word _ (node + 8) a 0 (by omega) aligned (by decide),
      load_store_word mem node a _ nodeAligned aligned firstFits]
  unfold inserted
  rw [load_store_word _ head a node headAligned aligned fits]
  by_cases atHead : a = head
  · rw [if_pos atHead, if_pos atHead]
  rw [if_neg atHead, if_neg atHead]
  by_cases null : load mem head 8 = 0
  · have neither : ¬ (load mem head 8 ≠ 0 ∧ a = load mem head 8 + 8) := fun both => both.1 null
    have notFirst : ¬ load mem head 8 ≠ 0 := fun nonnull => nonnull null
    rw [if_neg neither, if_neg notFirst, linked]
  · rw [if_pos null, load_store_word _ (load mem head 8 + 8) a node (by omega) aligned fits, linked]
    by_cases atFirst : a = load mem head 8 + 8
    · have both : load mem head 8 ≠ 0 ∧ a = load mem head 8 + 8 := ⟨null, atFirst⟩
      rw [if_pos atFirst, if_pos both]
    · have neither : ¬ (load mem head 8 ≠ 0 ∧ a = load mem head 8 + 8) := fun both => atFirst both.2
      rw [if_neg neither, if_neg atFirst]

/-- `list_insert` of a page that is not the first slab. -/
theorem listInsert_runs {s : Kernel} {head node : Nat}
    (nodePage : layout.IsPage node) (headRam : InRam head 8)
    (headApart : head + 8 ≤ node ∨ node + pgSize ≤ head)
    (firstPage : load s.mem head 8 ≠ 0 → layout.IsPage (load s.mem head 8)) :
    wp (listInsert head node) (fun _ after => after = s.withMem (inserted s.mem head node)) s := by
  have sameHead : load (store (store s.mem node 8 (load s.mem head 8)) (node + 8) 8 0) head 8 =
      load s.mem head 8 := by
    simp only [pgSize] at headApart
    rw [load_store_apart _ _ _ _ _ _ (by omega), load_store_apart _ _ _ _ _ _ (by omega)]
  rw [listInsert, wp_bind, wp_loadField]
  refine ⟨headRam, ?_⟩
  rw [wp_bind, wp_storeField]
  refine ⟨nodePage.headInRam, ?_⟩
  rw [wp_bind, wp_storeField]
  refine ⟨nodePage.inRam 8 8 (by simp [pgSize]), ?_⟩
  rw [wp_bind, wp_loadField]
  refine ⟨headRam, ?_⟩
  rw [withMem_withMem, withMem_mem, withMem_mem, sameHead, wp_bind, wp_onlyIf]
  by_cases null : load s.mem head 8 = 0
  · rw [if_neg (fun nonnull => nonnull null), wp_storeField]
    exact ⟨headRam, by simp [inserted, null]⟩
  · rw [if_pos null, wp_storeField]
    refine ⟨(firstPage null).inRam 8 8 (by simp [pgSize]), ?_⟩
    rw [wp_storeField]
    exact ⟨headRam, by simp [inserted, null]⟩

/-- `list_insert` puts a new slab in front of the list. -/
theorem listInsert_spec {s : Kernel} {head node : Nat} {slabs : List Nat}
    (place : ListPlace layout head (node :: slabs)) (linked : SlabList s.mem head slabs) :
    wp (listInsert head node) (fun _ after => ∃ mem, after = s.withMem mem ∧
      SlabList mem head (node :: slabs) ∧ LinksOnly s.mem mem head (node :: slabs)) s := by
  have nodePage := place.pages node (List.mem_cons_self ..)
  have nodeApart := place.apart node (List.mem_cons_self ..)
  have nodeOut : node ∉ slabs := (List.nodup_cons.mp place.distinct).1
  have firstIn : load s.mem head 8 ≠ 0 → load s.mem head 8 ∈ slabs := by
    intro nonnull
    have atHead := linked.head_eq
    cases slabs with
    | nil => exact absurd atHead nonnull
    | cons first rest =>
      rw [atHead]
      exact List.mem_cons_self ..
  have firstPage : load s.mem head 8 ≠ 0 → layout.IsPage (load s.mem head 8) :=
    fun nonnull => place.pages _ (List.mem_cons_of_mem _ (firstIn nonnull))
  apply wp_mono (listInsert_runs nodePage place.inRam nodeApart firstPage)
  rintro - _ rfl
  have fits : node < 2 ^ 64 := by
    have high := nodePage.2.2
    unfold phyEnd at high
    omega
  have firstAligned : load s.mem head 8 % pgSize = 0 := by
    by_cases null : load s.mem head 8 = 0
    · rw [null]; rfl
    · exact (firstPage null).1
  have nodeAligned := nodePage.1
  have nodeNonzero := nodePage.ne_zero
  have headAligned := place.aligned
  have words := fun a aligned => inserted_word s.mem head node a aligned headAligned
    nodePage.aligned8 (by simp only [pgSize] at *; omega) fits
  have firstNe : load s.mem head 8 ≠ node := by
    intro same
    exact nodeOut (same ▸ firstIn (same ▸ nodeNonzero))
  refine ⟨_, rfl, ?_, ?_⟩
  · change Linked 0 _ _ 0 (load (inserted s.mem head node) head 8) (node :: slabs)
    rw [words head headAligned, if_pos rfl]
    refine linked.insert (List.nodup_cons.mp place.distinct).2 nodeNonzero ?_ ?_ ?_ ?_
    · simp only [pgSize] at *
      rw [slabNext, words node (by omega), if_neg (by omega), if_neg (by omega), if_neg (by omega),
        if_pos rfl]
    · simp only [pgSize] at *
      rw [slabPrev, words (node + 8) (by omega), if_neg (by omega), if_neg (by omega), if_pos rfl]
    · intro other member
      have otherAligned := (place.pages other (List.mem_cons_of_mem _ member)).1
      have apart := place.apart other (List.mem_cons_of_mem _ member)
      have differs : other ≠ node := fun same => nodeOut (same ▸ member)
      simp only [pgSize] at *
      rw [slabNext, words other (by omega), if_neg (by omega), if_neg (by omega),
        if_neg (by omega), if_neg differs]
      rfl
    · intro other member
      have otherPage := place.pages other (List.mem_cons_of_mem _ member)
      have otherAligned := otherPage.1
      have otherNonzero := otherPage.ne_zero
      have apart := place.apart other (List.mem_cons_of_mem _ member)
      have differs : other ≠ node := fun same => nodeOut (same ▸ member)
      simp only [pgSize] at *
      rw [slabPrev, words (other + 8) (by omega), if_neg (by omega)]
      by_cases isFirst : other = load s.mem head 8
      · rw [if_pos ⟨by omega, by omega⟩, if_pos isFirst]
      · rw [if_neg (by omega), if_neg (by omega), if_neg (by omega), if_neg isFirst]
        rfl
  · intro x outsideHead outside
    have notNode := outside node (List.mem_cons_self ..)
    unfold inserted
    apply (copy_outside _ _ _ _ _ outsideHead).trans
    by_cases null : load s.mem head 8 = 0
    · rw [if_neg (fun nonnull => nonnull null)]
      exact (copy_outside _ _ _ _ _ (by omega)).trans (copy_outside _ _ _ _ _ (by omega))
    · have away := outside (load s.mem head 8) (List.mem_cons_of_mem _ (firstIn null))
      rw [if_pos null]
      exact (copy_outside _ _ _ _ _ (by omega)).trans
        ((copy_outside _ _ _ _ _ (by omega)).trans (copy_outside _ _ _ _ _ (by omega)))

end CuteCore

import CuteCore.Mm.Slab

/-!
# What the slab allocator keeps

A cache is described by its three lists and, for each slab, the free objects in
the order the chain visits them. The objects on no chain are the taken ones.
`cache_alloc` takes one more object and `cache_free` gives one back, and neither
writes outside the cache, its slabs and the pages it moves to or from the free
list.
-/

namespace CuteCore

open Hoare Bytes DoublyLinked

variable {layout : Layout}

/-- The three lists of a cache. -/
inductive SlabClass where
  | full
  | partly
  | empty
  deriving DecidableEq

/-- Offset of the list head in `struct cache`. -/
def SlabClass.offset : SlabClass → Nat
  | .full => 8
  | .partly => 16
  | .empty => 24

abbrev SlabLists := SlabClass → List Nat

/-- The slabs on each list, all on pages of their own. -/
structure Listed (layout : Layout) (mem : ByteMap) (cache : Nat) (lists : SlabLists) : Prop where
  cachePage : layout.IsPage cache
  pages : ∀ c, ∀ s ∈ lists c, layout.IsPage s ∧ s ≠ cache
  distinct : ∀ c, (lists c).Nodup
  disjoint : ∀ c d, c ≠ d → ∀ s ∈ lists c, s ∉ lists d
  linked : ∀ c, SlabList mem (cache + c.offset) (lists c)

/-- The bytes that moving slabs between lists may write. -/
def HeadersOnly (mem after : ByteMap) (cache : Nat) (slabs : Nat → Prop) : Prop :=
  ∀ x, (x < cache + 8 ∨ cache + 32 ≤ x) → (∀ s, slabs s → x < s ∨ s + 16 ≤ x) → after x = mem x

/-- The slab is on one of the lists. -/
def SlabLists.Has (lists : SlabLists) (s : Nat) : Prop := ∃ c, s ∈ lists c

namespace Listed

variable {mem after : ByteMap} {cache : Nat} {lists : SlabLists}

/-- The head of a list in the cache lies on none of the slabs. -/
theorem place (listed : Listed layout mem cache lists) (c : SlabClass) (slabs : List Nat)
    (pages : ∀ s ∈ slabs, layout.IsPage s ∧ s ≠ cache) (distinct : slabs.Nodup) :
    ListPlace layout (cache + c.offset) slabs := by
  have cachePage := listed.cachePage
  have cacheAligned := cachePage.1
  refine ⟨fun s member => (pages s member).1, distinct, ?_, ?_, ?_⟩
  · apply cachePage.inRam
    cases c <;> simp [SlabClass.offset, pgSize]
  · have aligned := cachePage.aligned8
    cases c <;> simp only [SlabClass.offset] <;> omega
  · intro s member
    obtain ⟨page, differs⟩ := pages s member
    have aligned := page.1
    simp only [pgSize] at *
    cases c <;> simp only [SlabClass.offset] <;> omega

/-- A list keeps its links when another list is changed. -/
theorem keep (listed : Listed layout mem cache lists) (c d : SlabClass) (differs : c ≠ d)
    (slabs : List Nat) (pages : ∀ s ∈ slabs, layout.IsPage s ∧ s ≠ cache)
    (apart : ∀ s ∈ slabs, s ∉ lists c) (only : LinksOnly mem after (cache + d.offset) slabs) :
    SlabList after (cache + c.offset) (lists c) := by
  have cacheAligned := listed.cachePage.1
  have sameHead : load after (cache + c.offset) 8 = load mem (cache + c.offset) 8 := by
    refine load_congr fun x low high => only x ?_ ?_
    · cases c <;> cases d <;> simp only [SlabClass.offset, ne_eq, not_true] at * <;> omega
    · intro s member
      obtain ⟨page, notCache⟩ := pages s member
      have aligned := page.1
      simp only [pgSize] at *
      cases c <;> simp only [SlabClass.offset] at * <;> omega
  have sameLinks : ∀ s ∈ lists c, SameOn after mem s 16 := by
    intro s member x low high
    obtain ⟨page, notCache⟩ := listed.pages c s member
    have aligned := page.1
    refine only x ?_ ?_
    · simp only [pgSize] at *
      cases d <;> simp only [SlabClass.offset] at * <;> omega
    · intro t inSlabs
      have tPage := (pages t inSlabs).1.1
      have tNe : t ≠ s := fun same => apart t inSlabs (same ▸ member)
      simp only [pgSize] at *
      omega
  unfold SlabList
  rw [sameHead]
  refine (listed.linked c).congr fun s member => ⟨?_, ?_⟩
  · exact load_congr ((sameLinks s member).sub (Nat.le_refl _) (by omega))
  · exact load_congr ((sameLinks s member).sub (by omega) (by omega))

/-- `list_remove` takes a slab off its list. -/
theorem remove_spec {s : Kernel} (listed : Listed layout s.mem cache lists) (c : SlabClass)
    (node : Nat) (member : node ∈ lists c) :
    wp (listRemove (cache + c.offset) node) (fun _ later => ∃ mem, later = s.withMem mem ∧
      Listed layout mem cache (Function.update lists c ((lists c).erase node)) ∧
      HeadersOnly s.mem mem cache lists.Has) s := by
  obtain ⟨front, back, split⟩ := List.append_of_mem member
  have distinct := listed.distinct c
  have erased : (lists c).erase node = front ++ back := by
    rw [split] at distinct ⊢
    have notFront : node ∉ front := by
      intro inFront
      rw [List.nodup_middle, List.nodup_cons] at distinct
      exact distinct.1 (List.mem_append_left _ inFront)
    rw [List.erase_append_right _ notFront, List.erase_cons_head]
  have fewer : ∀ t ∈ front ++ back, t ∈ lists c := by
    intro t inside
    rw [split]
    simp only [List.mem_append, List.mem_cons] at inside ⊢
    tauto
  have place := listed.place c (lists c) (listed.pages c) distinct
  have linked := listed.linked c
  rw [split] at place linked
  refine wp_mono (listRemove_spec place linked) ?_
  rintro - _ ⟨mem, rfl, relinked, only⟩
  refine ⟨mem, rfl, ⟨listed.cachePage, ?_, ?_, ?_, ?_⟩, ?_⟩
  · intro d t inside
    by_cases same : d = c
    · subst same
      rw [Function.update_self, erased] at inside
      exact listed.pages d t (fewer t inside)
    · rw [Function.update_of_ne same] at inside
      exact listed.pages d t inside
  · intro d
    by_cases same : d = c
    · subst same
      rw [Function.update_self]
      exact distinct.erase node
    · rw [Function.update_of_ne same]
      exact listed.distinct d
  · have shrinks : ∀ d t, t ∈ Function.update lists c ((lists c).erase node) d → t ∈ lists d := by
      intro d t inside
      by_cases same : d = c
      · subst same
        rw [Function.update_self] at inside
        exact List.mem_of_mem_erase inside
      · rwa [Function.update_of_ne same] at inside
    intro d e differs t inside outside
    exact listed.disjoint d e differs t (shrinks d t inside) (shrinks e t outside)
  · intro d
    by_cases same : d = c
    · subst same
      rw [Function.update_self, erased]
      exact relinked
    · rw [Function.update_of_ne same]
      exact listed.keep d c same (front ++ back) (fun t inside => listed.pages c t (fewer t inside))
        (fun t inside => listed.disjoint c d (Ne.symm same) t (fewer t inside)) only
  · intro x outside away
    refine only x ?_ fun t inside => away t ⟨c, fewer t inside⟩
    cases c <;> simp only [SlabClass.offset] <;> omega

/-- `list_insert` puts a slab that is on no list in front of one. -/
theorem insert_spec {s : Kernel} (listed : Listed layout s.mem cache lists) (c : SlabClass)
    (node : Nat) (page : layout.IsPage node) (notCache : node ≠ cache) (fresh : ¬ lists.Has node) :
    wp (listInsert (cache + c.offset) node) (fun _ later => ∃ mem, later = s.withMem mem ∧
      Listed layout mem cache (Function.update lists c (node :: lists c)) ∧
      HeadersOnly s.mem mem cache (fun t => t = node ∨ lists.Has t)) s := by
  have pages : ∀ t ∈ node :: lists c, layout.IsPage t ∧ t ≠ cache := by
    intro t inside
    rcases List.mem_cons.mp inside with rfl | inside
    · exact ⟨page, notCache⟩
    · exact listed.pages c t inside
  have distinct : (node :: lists c).Nodup :=
    List.nodup_cons.mpr ⟨fun inside => fresh ⟨c, inside⟩, listed.distinct c⟩
  refine wp_mono (listInsert_spec (listed.place c (node :: lists c) pages distinct)
    (listed.linked c)) ?_
  rintro - _ ⟨mem, rfl, linked, only⟩
  refine ⟨mem, rfl, ⟨listed.cachePage, ?_, ?_, ?_, ?_⟩, ?_⟩
  · intro d t inside
    by_cases same : d = c
    · subst same
      rw [Function.update_self] at inside
      exact pages t inside
    · rw [Function.update_of_ne same] at inside
      exact listed.pages d t inside
  · intro d
    by_cases same : d = c
    · subst same
      rw [Function.update_self]
      exact distinct
    · rw [Function.update_of_ne same]
      exact listed.distinct d
  · have grows : ∀ d t, t ∈ Function.update lists c (node :: lists c) d →
        (d = c ∧ t = node) ∨ t ∈ lists d := by
      intro d t inside
      by_cases same : d = c
      · subst same
        rw [Function.update_self] at inside
        rcases List.mem_cons.mp inside with isNode | inside
        · exact Or.inl ⟨rfl, isNode⟩
        · exact Or.inr inside
      · rw [Function.update_of_ne same] at inside
        exact Or.inr inside
    intro d e differs t inside outside
    rcases grows d t inside with ⟨atC, isNode⟩ | before
    · rcases grows e t outside with ⟨alsoC, -⟩ | onOther
      · exact differs (atC.trans alsoC.symm)
      · exact fresh ⟨e, isNode ▸ onOther⟩
    · rcases grows e t outside with ⟨-, isNode⟩ | onOther
      · exact fresh ⟨d, isNode ▸ before⟩
      · exact listed.disjoint d e differs t before onOther
  · intro d
    by_cases same : d = c
    · subst same
      rw [Function.update_self]
      exact linked
    · rw [Function.update_of_ne same]
      refine listed.keep d c same (node :: lists c) pages ?_ only
      intro t inside onList
      rcases List.mem_cons.mp inside with rfl | inside
      · exact fresh ⟨d, onList⟩
      · exact listed.disjoint c d (Ne.symm same) t inside onList
  · intro x outside away
    refine only x ?_ ?_
    · cases c <;> simp only [SlabClass.offset] <;> omega
    · intro t inside
      rcases List.mem_cons.mp inside with rfl | inside
      · exact away t (Or.inl rfl)
      · exact away t (Or.inr ⟨c, inside⟩)

end Listed

/-- How many objects a slab holds. -/
def objectsPerSlab (objsz : Nat) : Nat := (pgSize - slabHeader) / objsz

/-- An object size for which the null word behind the last object still lies in
the page. -/
structure ObjSize (objsz : Nat) : Prop where
  word : 8 ≤ objsz
  small : objsz ≤ pgSize
  some : 1 ≤ objectsPerSlab objsz
  sentinel : slabHeader + objectsPerSlab objsz * objsz + 8 ≤ pgSize

/-- The objects of a slab. -/
def IsObject (objsz s p : Nat) : Prop := ∃ k < objectsPerSlab objsz, p = s + slabHeader + k * objsz

/-- From `head` on, the first words lead through these objects. What follows the
last one does not matter, since the allocator counts. -/
def FreeObjects (mem : ByteMap) : Nat → List Nat → Prop
  | _, [] => True
  | head, p :: rest => head = p ∧ FreeObjects mem (load mem p 8) rest

/-- The fields of a slab, with its free objects. -/
structure SlabOk (mem : ByteMap) (cache objsz s : Nat) (avail : List Nat) : Prop where
  chain : FreeObjects mem (load mem (s + 16) 8) avail
  nodup : avail.Nodup
  objects : ∀ p ∈ avail, IsObject objsz s p
  freenum : load mem (s + 24) 4 = avail.length
  objectsnum : load mem (s + 28) 4 = objectsPerSlab objsz
  owner : load mem (s + 32) 8 = cache

theorem IsObject.inside {objsz s p : Nat} (size : ObjSize objsz) (object : IsObject objsz s p) :
    s + slabHeader ≤ p ∧ p + objsz ≤ s + pgSize := by
  obtain ⟨k, bound, rfl⟩ := object
  have upTo : (k + 1) * objsz ≤ objectsPerSlab objsz * objsz := Nat.mul_le_mul_right _ bound
  have sentinel := size.sentinel
  rw [Nat.add_mul, Nat.one_mul] at upTo
  omega

/-- Distinct objects do not overlap. -/
theorem IsObject.apart {objsz s p q : Nat} (object : IsObject objsz s p)
    (other : IsObject objsz s q) (differs : p ≠ q) : p + objsz ≤ q ∨ q + objsz ≤ p := by
  obtain ⟨k, -, rfl⟩ := object
  obtain ⟨l, -, rfl⟩ := other
  rcases Nat.lt_trichotomy k l with less | rfl | greater
  · have upTo : (k + 1) * objsz ≤ l * objsz := Nat.mul_le_mul_right _ less
    rw [Nat.add_mul, Nat.one_mul] at upTo
    omega
  · exact absurd rfl differs
  · have upTo : (l + 1) * objsz ≤ k * objsz := Nat.mul_le_mul_right _ greater
    rw [Nat.add_mul, Nat.one_mul] at upTo
    omega

/-- There are no more free objects than objects. -/
theorem avail_length_le {objsz s : Nat} {avail : List Nat} (size : ObjSize objsz)
    (nodup : avail.Nodup) (objects : ∀ p ∈ avail, IsObject objsz s p) :
    avail.length ≤ objectsPerSlab objsz := by
  have positive := size.word
  have into : ∀ p ∈ avail.toFinset, (p - (s + slabHeader)) / objsz ∈
      Finset.range (objectsPerSlab objsz) := by
    intro p member
    obtain ⟨k, bound, rfl⟩ := objects p (List.mem_toFinset.mp member)
    rw [Nat.add_sub_cancel_left, Nat.mul_div_cancel _ (by omega)]
    exact Finset.mem_range.mpr bound
  have injective : Set.InjOn (fun p => (p - (s + slabHeader)) / objsz) avail.toFinset := by
    intro p pMember q qMember same
    obtain ⟨k, -, rfl⟩ := objects p (List.mem_toFinset.mp pMember)
    obtain ⟨l, -, rfl⟩ := objects q (List.mem_toFinset.mp qMember)
    simp only [Nat.add_sub_cancel_left] at same
    rw [Nat.mul_div_cancel _ (by omega), Nat.mul_div_cancel _ (by omega)] at same
    rw [same]
  have bound := Finset.card_le_card_of_injOn _ into injective
  rwa [List.toFinset_card_of_nodup nodup, Finset.card_range] at bound

theorem FreeObjects.congr {mem after : ByteMap} {head : Nat} {avail : List Nat}
    (chain : FreeObjects mem head avail) (same : ∀ p ∈ avail, SameOn after mem p 8) :
    FreeObjects after head avail := by
  induction avail generalizing head with
  | nil => trivial
  | cons p rest inductionHypothesis =>
    obtain ⟨atHead, tail⟩ := chain
    refine ⟨atHead, ?_⟩
    rw [load_congr (same p (List.mem_cons_self ..))]
    exact inductionHypothesis tail fun q member => same q (List.mem_cons_of_mem _ member)

/-- A slab depends on its header behind the links and on its free objects. -/
theorem SlabOk.congr_free {mem after : ByteMap} {cache objsz s : Nat} {avail : List Nat}
    (slab : SlabOk mem cache objsz s avail) (header : SameOn after mem (s + 16) 24)
    (objects : ∀ p ∈ avail, SameOn after mem p 8) : SlabOk after cache objsz s avail := by
  refine ⟨?_, slab.nodup, slab.objects, ?_, ?_, ?_⟩
  · rw [load_congr (header.sub (Nat.le_refl _) (by omega))]
    exact slab.chain.congr objects
  · rw [load_congr (header.sub (by omega) (by omega)), slab.freenum]
  · rw [load_congr (header.sub (by omega) (by omega)), slab.objectsnum]
  · rw [load_congr (header.sub (by omega) (by omega)), slab.owner]

/-- A slab depends on the bytes of its page behind the links. -/
theorem SlabOk.congr {mem after : ByteMap} {cache objsz s : Nat} {avail : List Nat}
    (slab : SlabOk mem cache objsz s avail) (size : ObjSize objsz)
    (same : SameOn after mem (s + 16) (pgSize - 16)) : SlabOk after cache objsz s avail := by
  have wide : pgSize - 16 = 4080 := rfl
  rw [wide] at same
  refine slab.congr_free (same.sub (Nat.le_refl _) (by omega)) fun p member => ?_
  have inside := (slab.objects p member).inside size
  have word := size.word
  simp only [slabHeader, pgSize] at inside
  exact same.sub (by omega) (by omega)

/-- The objects of a run of `n` from `p` on. -/
def objectRun (objsz : Nat) : Nat → Nat → List Nat
  | 0, _ => []
  | n + 1, p => p :: objectRun objsz n (p + objsz)

/-- An object of a run lies a multiple of the size behind the first one. -/
theorem mem_objectRun (objsz n p q : Nat) :
    q ∈ objectRun objsz n p ↔ ∃ k < n, q = p + k * objsz := by
  induction n generalizing p with
  | zero => simp [objectRun]
  | succ n inductionHypothesis =>
    rw [objectRun, List.mem_cons, inductionHypothesis]
    constructor
    · rintro (rfl | ⟨k, bound, rfl⟩)
      · exact ⟨0, by omega, by simp⟩
      · exact ⟨k + 1, by omega, by ring⟩
    · rintro ⟨k, bound, rfl⟩
      cases k with
      | zero => exact Or.inl (by simp)
      | succ k => exact Or.inr ⟨k, by omega, by ring⟩

theorem length_objectRun (objsz n p : Nat) : (objectRun objsz n p).length = n := by
  induction n generalizing p with
  | zero => rfl
  | succ n inductionHypothesis => rw [objectRun, List.length_cons, inductionHypothesis]

theorem nodup_objectRun (objsz n p : Nat) (positive : 0 < objsz) :
    (objectRun objsz n p).Nodup := by
  induction n generalizing p with
  | zero => exact List.nodup_nil
  | succ n inductionHypothesis =>
    refine List.nodup_cons.mpr ⟨?_, inductionHypothesis _⟩
    rw [mem_objectRun]
    rintro ⟨k, -, same⟩
    omega

/-- The loop of `slabinit` chains the objects of the run in order. -/
theorem chainObjects_spec (objsz n p : Nat) (s : Kernel) (word : 8 ≤ objsz) (low : phyStart ≤ p)
    (high : p + n * objsz ≤ phyEnd) :
    wp (chainObjects objsz n p) (fun last after => last = p + n * objsz ∧
      ∃ mem, after = s.withMem mem ∧ FreeObjects mem p (objectRun objsz n p) ∧
        ∀ x, x < p ∨ p + n * objsz ≤ x → mem x = s.mem x) s := by
  induction n generalizing p s with
  | zero =>
    rw [chainObjects, wp_pure]
    exact ⟨by simp, s.mem, rfl, trivial, fun _ _ => rfl⟩
  | succ n inductionHypothesis =>
    have total : (n + 1) * objsz = objsz + n * objsz := by ring
    rw [total] at high ⊢
    rw [chainObjects, wp_bind, wp_storeField]
    refine ⟨⟨low, by omega⟩, ?_⟩
    apply wp_mono (inductionHypothesis (p + objsz) _ (by omega) (by omega))
    rintro last _ ⟨rfl, mem, rfl, chain, frame⟩
    refine ⟨by omega, mem, rfl, ⟨rfl, ?_⟩, ?_⟩
    · have kept : load mem p 8 = load (store s.mem p 8 (p + objsz)) p 8 :=
        load_congr fun x first last => frame x (Or.inl (by omega))
      have fits : p + objsz < 2 ^ 64 := by
        unfold phyEnd at high
        omega
      rw [kept, load_store_same, show 256 ^ 8 = 2 ^ 64 by norm_num, Nat.mod_eq_of_lt fits]
      exact chain
    · intro x outside
      rw [frame x (by omega)]
      exact copy_outside _ _ _ _ _ (by omega)

theorem objectsPerSlab_lt (objsz : Nat) : objectsPerSlab objsz < 2 ^ 32 := by
  have bound := Nat.div_le_self (pgSize - slabHeader) objsz
  have wide : pgSize - slabHeader = 4056 := rfl
  rw [wide] at bound
  unfold objectsPerSlab
  rw [wide]
  omega

/-- The place behind the last object, where `slabinit` stores null. -/
def slabEnd (objsz page : Nat) : Nat := page + slabHeader + objectsPerSlab objsz * objsz

/-- A slab whose objects are chained, but for the null behind the last one. -/
structure FilledSlab (cache objsz page : Nat) (mem filled : ByteMap) : Prop where
  list : load filled (page + 16) 8 = page + slabHeader
  freenum : load filled (page + 24) 4 = objectsPerSlab objsz
  objectsnum : load filled (page + 28) 4 = objectsPerSlab objsz
  owner : load filled (page + 32) 8 = cache
  chain : FreeObjects filled (page + slabHeader)
    (objectRun objsz (objectsPerSlab objsz) (page + slabHeader))
  outside : ∀ x, x < page ∨ page + pgSize ≤ x → filled x = mem x

theorem slabEnd_le (objsz page : Nat) : slabEnd objsz page ≤ page + pgSize := by
  have objects := Nat.div_mul_le_self (pgSize - slabHeader) objsz
  simp only [slabEnd, objectsPerSlab, slabHeader, pgSize] at *
  omega

/-- Everything but the last store stays in the page, whatever the size of the objects. -/
theorem slabinit_fills {s : Kernel} {cache page objsz : Nat} (word : 8 ≤ objsz)
    (cachePage : layout.IsPage cache) (isPage : layout.IsPage page) (_ : page ≠ cache)
    (stored : load s.mem cache 4 = objsz) : ∃ filled, FilledSlab cache objsz page s.mem filled ∧
      ∀ post, wp (slabinit cache page) post s ↔
        InRam (slabEnd objsz page) 8 ∧ post () (s.withMem (store filled (slabEnd objsz page) 8 0)) := by
  have cacheAligned : cache % 4096 = 0 := cachePage.1
  have pageAligned : page % 4096 = 0 := isPage.1
  have cacheFits : cache < 256 ^ 8 := cachePage.lt
  have pageFits : page + slabHeader < 256 ^ 8 := by
    have high := isPage.2.2
    simp only [phyEnd, slabHeader] at *
    omega
  have count := objectsPerSlab_lt objsz
  have whole := isPage.inRam 0 pgSize (by simp)
  have ends := slabEnd_le objsz page
  have sizes : pgSize = 4096 := rfl
  have header : slabHeader = 40 := rfl
  have sameObjsz : load (store s.mem (page + 16) 8 (page + slabHeader)) cache 4 = objsz := by
    rw [load_store_apart _ _ _ _ _ _ (by omega), stored]
  have counted : (pgSize - slabHeader) / objsz % 256 ^ 4 = objectsPerSlab objsz :=
    Nat.mod_eq_of_lt (by rw [show 256 ^ 4 = 2 ^ 32 by norm_num]; exact count)
  obtain ⟨mem, headered⟩ : ∃ mem, mem = store (store (store (store (store (store s.mem (page + 16) 8
    (page + slabHeader)) (page + 28) 4 ((pgSize - slabHeader) / objsz)) (page + 24) 4
    (objectsPerSlab objsz)) page 8 0) (page + 8) 8 0) (page + 32) 8 cache := ⟨_, rfl⟩
  have inRam : InRam (page + slabHeader) (objectsPerSlab objsz * objsz) := by
    simp only [InRam, slabEnd] at whole ends ⊢
    omega
  obtain ⟨last, _, chained, rfl, filled, rfl, chain, frame⟩ := chainObjects_spec objsz
    (objectsPerSlab objsz) (page + slabHeader) (s.withMem mem) word inRam.1 inRam.2
  simp only [withMem_mem] at frame
  have field : ∀ offset n, offset + n ≤ slabHeader →
      load filled (page + offset) n = load mem (page + offset) n := fun offset n inHeader =>
    load_congr fun x low high => frame x (Or.inl (by omega))
  refine ⟨filled, ⟨?_, ?_, ?_, ?_, chain, ?_⟩, fun post => ?_⟩
  · rw [field 16 8 (by omega), headered]
    simp (disch := omega) only [load_store_apart, load_store_same]
    exact Nat.mod_eq_of_lt pageFits
  · rw [field 24 4 (by omega), headered]
    simp (disch := omega) only [load_store_apart, load_store_same]
    rw [show 256 ^ 4 = 2 ^ 32 by norm_num, Nat.mod_eq_of_lt count]
  · rw [field 28 4 (by omega), headered]
    simp (disch := omega) only [load_store_apart, load_store_same]
    exact counted
  · rw [field 32 8 (by omega), headered, load_store_same, Nat.mod_eq_of_lt cacheFits]
  · intro x outside
    rw [frame x (by unfold slabEnd at ends; omega), headered]
    simp (disch := omega) only [store, copy_outside]
  · have places : InRam (page + 16) 8 ∧ InRam cache 4 ∧ InRam (page + 28) 4 ∧ InRam (page + 24) 4 ∧
        InRam page 8 ∧ InRam (page + 8) 8 ∧ InRam (page + 32) 8 :=
      ⟨isPage.inRam 16 8 (by simp [pgSize]), cachePage.inRam 0 4 (by simp [pgSize]),
        isPage.inRam 28 4 (by simp [pgSize]), isPage.inRam 24 4 (by simp [pgSize]), isPage.headInRam,
        isPage.inRam 8 8 (by simp [pgSize]), isPage.inRam 32 8 (by simp [pgSize])⟩
    obtain ⟨list, objszField, objectsnum, freenum, next, prev, owner⟩ := places
    rw [slabinit, wp_bind, wp_storeField, and_iff_right list, wp_bind, wp_loadField,
      and_iff_right objszField, withMem_mem, sameObjsz, wp_bind, wp_storeField,
      and_iff_right objectsnum, wp_bind, wp_loadField, and_iff_right objectsnum, withMem_withMem,
      withMem_mem, load_store_same, counted, wp_bind, wp_storeField, and_iff_right freenum, wp_bind,
      wp_storeField, and_iff_right next, wp_bind, wp_storeField, and_iff_right prev, wp_bind,
      wp_storeField, and_iff_right owner]
    simp only [withMem_withMem, withMem_mem]
    rw [← headered, wp_bind, chained.wp_iff, wp_storeField, withMem_withMem, withMem_mem]
    rfl

/-- A fresh slab page becomes a slab with all its objects free. Nothing outside
the page is written, since the null word fits. -/
theorem slabinit_spec {s : Kernel} {cache page objsz : Nat} (size : ObjSize objsz)
    (cachePage : layout.IsPage cache) (isPage : layout.IsPage page) (differs : page ≠ cache)
    (stored : load s.mem cache 4 = objsz) :
    wp (slabinit cache page) (fun _ after => ∃ mem, after = s.withMem mem ∧
      SlabOk mem cache objsz page
        (objectRun objsz (objectsPerSlab objsz) (page + slabHeader)) ∧
      ∀ x, x < page ∨ page + pgSize ≤ x → mem x = s.mem x) s := by
  obtain ⟨filled, slab, runs⟩ := slabinit_fills size.word cachePage isPage differs stored
  have word := size.word
  have sentinel : slabEnd objsz page + 8 ≤ page + pgSize := by
    have fits := size.sentinel
    unfold slabEnd
    omega
  have header : slabHeader = 40 := rfl
  have low : page + slabHeader ≤ slabEnd objsz page := Nat.le_add_right _ _
  have whole := isPage.inRam 0 pgSize (by simp)
  have field : ∀ offset n, offset + n ≤ slabHeader →
      load (store filled (slabEnd objsz page) 8 0) (page + offset) n =
        load filled (page + offset) n := fun offset n inHeader =>
    load_store_apart _ _ _ _ _ _ (by omega)
  refine (runs _).mpr ⟨?_, _, rfl, ⟨?_, nodup_objectRun _ _ _ (by omega), ?_, ?_, ?_, ?_⟩, ?_⟩
  · simp only [InRam] at whole ⊢
    omega
  · rw [field 16 8 (by omega), slab.list]
    refine slab.chain.congr fun p member => sameOn_store _ _ _ _ _ _ (Or.inl ?_)
    obtain ⟨k, bound, rfl⟩ := (mem_objectRun ..).mp member
    have upTo : (k + 1) * objsz ≤ objectsPerSlab objsz * objsz := Nat.mul_le_mul_right _ bound
    rw [Nat.add_mul, Nat.one_mul] at upTo
    unfold slabEnd
    omega
  · intro p member
    exact (mem_objectRun ..).mp member
  · rw [field 24 4 (by omega), length_objectRun, slab.freenum]
  · rw [field 28 4 (by omega), slab.objectsnum]
  · rw [field 32 8 (by omega), slab.owner]
  · intro x outside
    rw [store, copy_outside _ _ _ _ _ (by omega), slab.outside x outside]

end CuteCore

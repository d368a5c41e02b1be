import CuteCore.Mm.CacheRuns

/-!
# A fresh slab

`slabinit` links each object to the place behind it and stores null behind the last one.
Where the objects fill the page, that place is in the next page.

For sizes that leave a rest at the end of the page nothing outside of it is written. The
other sizes are those that divide what is left behind the header. Both are stated exactly,
for every rounded size and every memory.
-/

namespace CuteCore

open Hoare Bytes

variable {layout : Layout}

/-- The objects of a slab in the order of their places. -/
def slabObjects (objsz page : Nat) : List Nat :=
  (List.range (objectsPerSlab objsz)).map fun k => page + slabHeader + k * objsz

/-- The objects of a run lie one size apart. -/
theorem objectRun_eq (objsz n p : Nat) :
    objectRun objsz n p = (List.range n).map fun k => p + k * objsz := by
  induction n generalizing p with
  | zero => rfl
  | succ n inductionHypothesis =>
    rw [objectRun, inductionHypothesis, List.range_succ_eq_map, List.map_cons, List.map_map]
    congr 1
    · omega
    · apply List.map_congr_left
      intro k _
      rw [Function.comp_apply, Nat.succ_mul]
      omega

/-- What a request leads to: a size of words that fits into a slab. -/
theorem roundedSize_bounds {size : Nat} (least : 1 ≤ size) (most : size ≤ 4056) :
    8 ≤ roundedSize size ∧ roundedSize size ≤ 4056 ∧ roundedSize size % 8 = 0 := by
  unfold roundedSize
  omega

/-- There is room for the null, unless the objects fill the slab. -/
theorem slabEnd_room {objsz : Nat} (page : Nat) (words : objsz % 8 = 0)
    (room : ¬ objsz ∣ pgSize - slabHeader) : slabEnd objsz page + 8 ≤ page + pgSize := by
  have wide : pgSize - slabHeader = 4056 := rfl
  have header : slabHeader = 40 := rfl
  have sizes : pgSize = 4096 := rfl
  have rest : 4056 % objsz ≠ 0 := fun none => room (Nat.dvd_of_mod_eq_zero (wide ▸ none))
  have split := Nat.mod_add_div 4056 objsz
  have objects : objectsPerSlab objsz * objsz = objsz * (4056 / objsz) := by
    rw [objectsPerSlab, wide, Nat.mul_comm]
  obtain ⟨k, isWords⟩ := Nat.dvd_of_mod_eq_zero words
  have whole : objsz * (4056 / objsz) = 8 * (k * (4056 / objsz)) := by
    rw [isWords, Nat.mul_assoc]
  unfold slabEnd
  omega

/-- The chain is there, whatever stands behind the last object. -/
theorem FilledSlab.visits {cache objsz page : Nat} {mem filled : ByteMap}
    (slab : FilledSlab cache objsz page mem filled) (word : 8 ≤ objsz) :
    FreeObjects (store filled (slabEnd objsz page) 8 0)
      (load (store filled (slabEnd objsz page) 8 0) (page + 16) 8) (slabObjects objsz page) := by
  have header : slabHeader = 40 := rfl
  have low : page + slabHeader ≤ slabEnd objsz page := Nat.le_add_right _ _
  rw [load_store_apart _ _ _ _ _ _ (by omega), slab.list, slabObjects, ← objectRun_eq]
  refine slab.chain.congr fun p member => sameOn_store _ _ _ _ _ _ (Or.inl ?_)
  obtain ⟨k, bound, rfl⟩ := (mem_objectRun ..).mp member
  have upTo : (k + 1) * objsz ≤ objectsPerSlab objsz * objsz := Nat.mul_le_mul_right _ bound
  rw [Nat.add_mul, Nat.one_mul] at upTo
  unfold slabEnd
  omega

/-- A slab whose objects fill it stores the null in the next page, or outside of memory. A memory
of ones shows it, also where the object size stands in the next page. -/
theorem slabinit_leaves_page {cache page size : Nat} (cachePage : layout.IsPage cache)
    (isPage : layout.IsPage page) (differs : page ≠ cache) (least : 1 ≤ size)
    (most : size ≤ 4056) (divides : roundedSize size ∣ pgSize - slabHeader) :
    ∃ s : Kernel, load s.mem cache 4 = roundedSize size ∧
      ¬ wp (slabinit cache page) (fun _ after =>
        ∀ x, x < page ∨ page + pgSize ≤ x → after.mem x = s.mem x) s := by
  obtain ⟨word, small, -⟩ := roundedSize_bounds least most
  have atEnd : slabEnd (roundedSize size) page = page + pgSize := by
    have slab : slabHeader + (pgSize - slabHeader) = pgSize := rfl
    have objects := Nat.div_mul_cancel divides
    rw [slabEnd, objectsPerSlab, objects]
    omega
  have stored : load (Kernel.boot (store (fun _ => 1) cache 4 (roundedSize size))).mem cache 4 =
      roundedSize size := by
    change load (store _ cache 4 _) cache 4 = _
    rw [load_store_same]
    exact Nat.mod_eq_of_lt (Nat.lt_of_le_of_lt small (by decide))
  refine ⟨_, stored, fun stays => ?_⟩
  obtain ⟨filled, -, runs⟩ := slabinit_fills word cachePage isPage differs stored
  obtain ⟨-, same⟩ := (runs _).mp stays
  have last := same (page + pgSize + 7) (Or.inr (by omega))
  rw [atEnd, withMem_mem, store, copy_inside _ _ _ _ _ (by omega) (by omega)] at last
  change byteOf 0 _ = store _ cache 4 _ _ at last
  have apart : page + pgSize + 7 < cache ∨ cache + 4 ≤ page + pgSize + 7 := by
    have cacheAligned := cachePage.1
    have pageAligned := isPage.1
    simp only [pgSize] at *
    omega
  rw [store, copy_outside _ _ _ _ _ apart] at last
  simp [byteOf] at last

/-- Whatever stands in memory, the bytes outside of the page stay as they are and the chain leads
through all objects in order: this holds where the objects do not fill the slab, and only there. -/
theorem slabinit_stays_iff (cache page size : Nat) (cachePage : layout.IsPage cache)
    (isPage : layout.IsPage page) (differs : page ≠ cache) (least : 1 ≤ size)
    (most : size ≤ 4056) :
    (∀ s : Kernel, load s.mem cache 4 = roundedSize size →
      wp (slabinit cache page) (fun _ after =>
        (∀ x, x < page ∨ page + pgSize ≤ x → after.mem x = s.mem x) ∧
        FreeObjects after.mem (load after.mem (page + 16) 8) (slabObjects (roundedSize size) page))
        s) ↔
    ¬ roundedSize size ∣ pgSize - slabHeader := by
  constructor
  · intro stays divides
    obtain ⟨s, stored, leaves⟩ := slabinit_leaves_page cachePage isPage differs least most divides
    exact leaves (wp_mono (stays s stored) fun _ _ both => both.1)
  · intro room s stored
    obtain ⟨word, -, words⟩ := roundedSize_bounds least most
    have whole := isPage.inRam 0 pgSize (by simp)
    obtain ⟨filled, slab, runs⟩ := slabinit_fills word cachePage isPage differs stored
    have fits := slabEnd_room page words room
    have low : page ≤ slabEnd (roundedSize size) page := by
      unfold slabEnd
      omega
    refine (runs _).mpr ⟨?_, ?_, slab.visits word⟩
    · simp only [InRam] at whole ⊢
      omega
    · intro x outside
      rw [withMem_mem, store, copy_outside _ _ _ _ _ (by omega), slab.outside x outside]

theorem first_pages : smallImage.IsPage smallImage.ekernel ∧
    smallImage.IsPage (smallImage.ekernel + 4096) :=
  ⟨⟨by decide, by decide, by decide⟩, by decide, by decide, by decide⟩

/-- A cache of 16-byte objects in the first page. -/
def sixteenBytes : Kernel := .boot (store (fun _ => 0) smallImage.ekernel 4 (roundedSize 16))

/-- Its slabs stay in their page. -/
theorem sixteen_stays :
    wp (slabinit smallImage.ekernel (smallImage.ekernel + 4096)) (fun _ after =>
      (∀ x, x < smallImage.ekernel + 4096 ∨ smallImage.ekernel + 4096 + pgSize ≤ x →
        after.mem x = sixteenBytes.mem x) ∧
      FreeObjects after.mem (load after.mem (smallImage.ekernel + 4096 + 16) 8)
        (slabObjects (roundedSize 16) (smallImage.ekernel + 4096))) sixteenBytes := by
  have stays := (slabinit_stays_iff smallImage.ekernel (smallImage.ekernel + 4096) 16 first_pages.1
    first_pages.2 (by decide) (by decide) (by decide)).mpr (by decide)
  exact stays sixteenBytes (load_store_same ..)

/-- Slabs of 8-byte objects do not. -/
theorem eight_leaves_page : ¬ ∀ (layout : Layout) (cache page size : Nat), layout.IsPage cache →
    layout.IsPage page → page ≠ cache → 1 ≤ size → size ≤ 4056 →
    ∀ s : Kernel, load s.mem cache 4 = roundedSize size →
      wp (slabinit cache page) (fun _ after =>
        (∀ x, x < page ∨ page + pgSize ≤ x → after.mem x = s.mem x) ∧
        FreeObjects after.mem (load after.mem (page + 16) 8) (slabObjects (roundedSize size) page))
        s := by
  intro always
  obtain ⟨cachePage, isPage⟩ := first_pages
  have divides : roundedSize 8 ∣ pgSize - slabHeader := by decide
  obtain ⟨s, stored, leaves⟩ := slabinit_leaves_page cachePage isPage (by decide) (by decide)
    (by decide) divides
  exact leaves (wp_mono (always smallImage _ _ 8 cachePage isPage (by decide) (by decide) (by decide)
    s stored) fun _ _ both => both.1)

end CuteCore

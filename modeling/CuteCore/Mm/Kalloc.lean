import CuteCore.Mm.Memory

/-!
# The page allocator

`kfree`, `kalloc` and `freerange`. The free pages form a chain through their own
first words, from `kmem.memlist`. `FreeList` says which pages the chain holds.

A page that is freed is filled with nothing but its link, and one that is handed out is
cleared. The chain ends with a null link. Addresses that are not pages above the kernel
image are refused with a panic before anything is written.
-/

namespace CuteCore

open Hoare Bytes

variable (layout : Layout)

def kfree (pa : Nat) : KernelProg Unit := do
  if pa % pgSize ≠ 0 ∨ pa < layout.ekernel ∨ phyEnd ≤ pa then throw (.panic "kfree")
  else do
    let s ← get
    storeField pa 8 s.memlist
    modify fun s => { s with memlist := pa }

def kalloc : KernelProg Nat := do
  let s ← get
  if s.memlist = 0 then return 0
  else do
    let next ← loadField s.memlist 8
    modify fun s => { s with memlist := next }
    zeroBytes s.memlist pgSize
    return s.memlist

/-- `PGROUNDUP` -/
def pgRoundUp (a : Nat) : Nat := (a + pgSize - 1) % 2 ^ 64 / pgSize * pgSize

/-- The loop of `freerange`, from `p` on. -/
def freerangeFrom (paEnd p : Nat) : KernelProg Unit :=
  if p + pgSize ≤ paEnd then do
    kfree layout p
    freerangeFrom paEnd (p + pgSize)
  else pure ()
termination_by paEnd - p
decreasing_by simp only [pgSize] at *; omega

def freerange (paStart paEnd : Nat) : KernelProg Unit :=
  freerangeFrom layout paEnd (pgRoundUp paStart)

/-- From `head` on, the first words lead through exactly these pages to null. -/
def Chain (mem : ByteMap) : Nat → List Nat → Prop
  | head, [] => head = 0
  | head, page :: rest => head = page ∧ page ≠ 0 ∧ Chain mem (load mem page 8) rest

/-- The free list holds these pages, each once. -/
structure FreeList (s : Kernel) (free : List Nat) : Prop where
  chain : Chain s.mem s.memlist free
  nodup : free.Nodup
  pages : ∀ page ∈ free, layout.IsPage page

/-- Only memory and the free list may change. -/
def SameGlobals (s after : Kernel) : Prop :=
  after = { s with mem := after.mem, memlist := after.memlist }

/-- The state `kfree` leaves. -/
def Kernel.pushPage (s : Kernel) (page : Nat) : Kernel :=
  { s.withMem (store s.mem page 8 s.memlist) with memlist := page }

/-- The state `kalloc` leaves when it takes the head of the list. -/
def Kernel.popPage (s : Kernel) : Kernel :=
  { s.withMem (fill s.mem s.memlist pgSize 0) with memlist := load s.mem s.memlist 8 }

/-- A chain depends on the first words of its pages only. -/
theorem Chain.congr {mem other : ByteMap} {head : Nat} {pages : List Nat}
    (chain : Chain mem head pages) (same : ∀ page ∈ pages, load other page 8 = load mem page 8) :
    Chain other head pages := by
  induction pages generalizing head with
  | nil => exact chain
  | cons page rest inductionHypothesis =>
    obtain ⟨atHead, nonzero, tail⟩ := chain
    refine ⟨atHead, nonzero, ?_⟩
    rw [same page (List.mem_cons_self ..)]
    exact inductionHypothesis tail fun other member => same other (List.mem_cons_of_mem _ member)

/-- The first words decide the chain. -/
theorem Chain.unique {mem : ByteMap} {head : Nat} {pages other : List Nat}
    (chain : Chain mem head pages) (also : Chain mem head other) : pages = other := by
  induction pages generalizing head other with
  | nil =>
    cases other with
    | nil => rfl
    | cons page rest => exact absurd (also.1.symm.trans chain) also.2.1
  | cons page rest inductionHypothesis =>
    obtain ⟨rfl, nonzero, tail⟩ := chain
    cases other with
    | nil => exact absurd also nonzero
    | cons first more =>
      obtain ⟨rfl, -, alsoTail⟩ := also
      rw [inductionHypothesis tail alsoTail]

variable {layout} {s : Kernel} {free : List Nat}

/-- Writes that miss the free pages keep the free list. -/
theorem FreeList.congr {after : Kernel} (holds : FreeList layout s free)
    (memlist : after.memlist = s.memlist)
    (same : ∀ page ∈ free, SameOn after.mem s.mem page 8) : FreeList layout after free := by
  refine ⟨?_, holds.nodup, holds.pages⟩
  rw [memlist]
  exact holds.chain.congr fun page member => load_congr (same page member)

/-- Pushing a page that is not on the list yet. -/
theorem FreeList.push (holds : FreeList layout s free) (page : Nat) (isPage : layout.IsPage page)
    (fresh : page ∉ free) (bounded : s.memlist < 2 ^ 64) :
    FreeList layout (s.pushPage page) (page :: free) := by
  refine ⟨⟨rfl, isPage.ne_zero, ?_⟩, List.nodup_cons.mpr ⟨fresh, holds.nodup⟩, ?_⟩
  · change Chain (store s.mem page 8 s.memlist) (load (store s.mem page 8 s.memlist) page 8) free
    rw [load_store_word _ _ _ _ isPage.aligned8 isPage.aligned8 bounded, if_pos rfl]
    refine holds.chain.congr fun other member => load_store_apart _ _ _ _ _ _ ?_
    have otherPage := holds.pages other member
    have differs : other ≠ page := fun same => fresh (same ▸ member)
    exact apart_pages otherPage.1 isPage.1 differs (by simp [pgSize]) (by simp [pgSize])
  · intro other member
    rcases List.mem_cons.mp member with rfl | member
    · exact isPage
    · exact holds.pages other member

/-- The list head is null or a page, so it fits its word. -/
theorem FreeList.memlist_lt (holds : FreeList layout s free) : s.memlist < 2 ^ 64 := by
  have chain := holds.chain
  cases free with
  | nil =>
    rw [show s.memlist = 0 from chain]
    decide
  | cons page rest =>
    have inside := (holds.pages page (List.mem_cons_self ..)).2.2
    rw [chain.1]
    unfold phyEnd at inside
    omega

/-- Popping the head leaves the rest of the list. -/
theorem FreeList.pop {page : Nat} {rest : List Nat} (holds : FreeList layout s (page :: rest)) :
    s.memlist = page ∧ FreeList layout s.popPage rest := by
  obtain ⟨atHead, -, tail⟩ := holds.chain
  refine ⟨atHead, ?_, (List.nodup_cons.mp holds.nodup).2,
    fun other member => holds.pages other (List.mem_cons_of_mem _ member)⟩
  change Chain (fill s.mem s.memlist pgSize 0) (load s.mem s.memlist 8) rest
  rw [atHead]
  refine tail.congr fun other member => load_fill_apart _ _ _ _ _ _ ?_
  have isPage := holds.pages page (List.mem_cons_self ..)
  have otherPage := holds.pages other (List.mem_cons_of_mem _ member)
  have differs : other ≠ page := fun same => (List.nodup_cons.mp holds.nodup).1 (same ▸ member)
  exact apart_pages otherPage.1 isPage.1 differs (by simp [pgSize]) (by simp [pgSize])

/-- `kalloc` writes into the page that it takes only, -/
theorem FreeList.popPage_outside {page : Nat} {rest : List Nat}
    (holds : FreeList layout s (page :: rest)) (x : Nat) (outside : x < page ∨ page + pgSize ≤ x) :
    s.popPage.mem x = s.mem x := by
  change fill s.mem s.memlist pgSize 0 x = s.mem x
  rw [holds.pop.1]
  exact copy_outside _ _ _ _ _ outside

/-- and clears it. -/
theorem FreeList.popPage_inside {page : Nat} {rest : List Nat}
    (holds : FreeList layout s (page :: rest)) (x : Nat) (low : page ≤ x)
    (high : x < page + pgSize) : s.popPage.mem x = 0 := by
  change fill s.mem s.memlist pgSize 0 x = 0
  rw [holds.pop.1]
  exact copy_inside _ _ _ _ _ low high

theorem FreeList.popPage_other {page other : Nat} {rest : List Nat}
    (holds : FreeList layout s (page :: rest)) (otherPage : layout.IsPage other)
    (differs : other ≠ page) : SameOn s.popPage.mem s.mem other pgSize := by
  have isPage := holds.pages page (List.mem_cons_self ..)
  change SameOn (fill s.mem s.memlist pgSize 0) s.mem other pgSize
  rw [holds.pop.1]
  apply sameOn_fill
  exact apart_pages otherPage.1 isPage.1 differs (by omega) (by omega)

/-- `kfree` puts the page in front of the free list. -/
theorem kfree_spec (holds : FreeList layout s free) (page : Nat) (isPage : layout.IsPage page)
    (fresh : page ∉ free) :
    wp (kfree layout page) (fun _ after => after = s.pushPage page ∧
      FreeList layout after (page :: free)) s := by
  have inRam := isPage.inRam 0 8 (by simp [pgSize])
  have legal : ¬ (page % pgSize ≠ 0 ∨ page < layout.ekernel ∨ phyEnd ≤ page) := by
    have := isPage
    unfold Layout.IsPage at this
    omega
  rw [kfree, if_neg legal, wp_bind, wp_get, wp_bind, wp_storeField, wp_modify]
  exact ⟨inRam, rfl, holds.push page isPage fresh holds.memlist_lt⟩

/-- `kalloc` on an empty list returns null and changes nothing. -/
theorem kalloc_empty (holds : FreeList layout s []) :
    wp kalloc (fun page after => page = 0 ∧ after = s) s := by
  have none : s.memlist = 0 := holds.chain
  rw [kalloc, wp_bind, wp_get, if_pos none, wp_pure]
  exact ⟨rfl, rfl⟩

/-- Otherwise it returns the head, zeroed. -/
theorem kalloc_cons {page : Nat} {rest : List Nat} (holds : FreeList layout s (page :: rest)) :
    wp kalloc (fun got after => got = page ∧ after = s.popPage ∧ FreeList layout after rest) s := by
  obtain ⟨atHead, popped⟩ := holds.pop
  have isPage := holds.pages page (List.mem_cons_self ..)
  have inRam := isPage.inRam 0
  rw [kalloc, wp_bind, wp_get, if_neg (by rw [atHead]; exact isPage.ne_zero), wp_bind,
    wp_loadField]
  refine ⟨by rw [atHead]; exact inRam 8 (by simp [pgSize]), ?_⟩
  rw [wp_bind, wp_modify, wp_bind, wp_zeroBytes]
  refine ⟨by rw [atHead]; exact inRam pgSize (Nat.le_of_eq (Nat.zero_add _)), ?_⟩
  rw [wp_pure]
  exact ⟨atHead, rfl, popped⟩

/-- The pages `freerange` frees, in the order it frees them. -/
def pagesFrom (paEnd p : Nat) : List Nat :=
  if p + pgSize ≤ paEnd then p :: pagesFrom paEnd (p + pgSize) else []
termination_by paEnd - p
decreasing_by simp only [pgSize] at *; omega

theorem mem_pagesFrom (paEnd p page : Nat) :
    page ∈ pagesFrom paEnd p ↔ p ≤ page ∧ page + pgSize ≤ paEnd ∧ (page - p) % pgSize = 0 := by
  induction p using pagesFrom.induct paEnd with
  | case1 p fits inductionHypothesis =>
    rw [pagesFrom, if_pos fits, List.mem_cons, inductionHypothesis]
    simp only [pgSize] at *
    omega
  | case2 p full =>
    rw [pagesFrom, if_neg full]
    simp only [pgSize, List.not_mem_nil, false_iff] at *
    omega

/-- `freerange` pushes the pages of the range one after the other. -/
theorem freerangeFrom_spec (paEnd p : Nat) (holds : FreeList layout s free)
    (aligned : p % pgSize = 0) (low : layout.ekernel ≤ p) (high : paEnd ≤ phyEnd)
    (below : ∀ page ∈ free, page < p) :
    wp (freerangeFrom layout paEnd p) (fun _ after => SameGlobals s after ∧
      FreeList layout after ((pagesFrom paEnd p).reverse ++ free)) s := by
  induction p using pagesFrom.induct paEnd generalizing s free with
  | case1 p fits inductionHypothesis =>
    have isPage : layout.IsPage p := by
      refine ⟨aligned, low, ?_⟩
      simp only [pgSize] at *
      omega
    have fresh : p ∉ free := fun member => Nat.lt_irrefl _ (below p member)
    rw [freerangeFrom, if_pos fits, pagesFrom, if_pos fits]
    apply wp_seq (kfree_spec holds p isPage fresh)
    rintro - _ ⟨rfl, pushed⟩
    have rest := inductionHypothesis pushed (by simp only [pgSize] at *; omega)
      (by omega) (by
        intro page member
        rcases List.mem_cons.mp member with rfl | member
        · simp [pgSize]
        · have before := below page member
          omega)
    apply wp_mono rest
    rintro - after ⟨same, freed⟩
    refine ⟨?_, by simpa using freed⟩
    unfold SameGlobals at same ⊢
    rw [same]
    rfl
  | case2 p full =>
    rw [freerangeFrom, if_neg full, pagesFrom, if_neg full, wp_pure]
    exact ⟨rfl, holds⟩

/-- From an empty list, `freerange` leaves exactly the pages of the range. -/
theorem freerange_spec (empty : FreeList layout s []) :
    wp (freerange layout layout.ekernel phyEnd) (fun _ after => SameGlobals s after ∧
      FreeList layout after (pagesFrom phyEnd layout.ekernel).reverse) s := by
  have aligned := layout.ekernelAligned
  have rounded : pgRoundUp layout.ekernel = layout.ekernel := by
    have inside := layout.kernelEnd
    simp only [pgRoundUp, pgSize, phyEnd] at *
    omega
  rw [freerange, rounded]
  have freed := freerangeFrom_spec phyEnd layout.ekernel empty aligned (Nat.le_refl _)
    (Nat.le_refl _) (by simp)
  simpa using freed

end CuteCore

import CuteCore.Mm.Mapping
import CuteCore.Library.Frames

/-!
# The kernel root and the roots of processes

`kvmmake` builds the base table and `mapproc` copies its entries into a new root.
Mapping a page keeps what the tables say about device registers, whichever root
it goes through.

A new root starts as a copy of the kernel's, so both share the tables behind its entries.
The trees of all roots together form one forest over the kernel root, and each function
that builds a root keeps it. What is mapped behind the shared entries is seen through
every root.
-/

namespace CuteCore

open Hoare Bytes RadixForest

variable {layout : Layout}

/-- The pages of user addresses. -/
def userPages : Nat := kernBase / pgSize

theorem SameGlobals.kvmroot {s after : Kernel} (same : SameGlobals s after) :
    after.kvmroot = s.kvmroot := by
  unfold SameGlobals at same
  rw [same]

namespace PageTables

variable {s : Kernel} {base : Nat} {roots : List Nat} {kind : Nat → PageKind} {free : List Nat}

/-- The tops stay tops. -/
theorem stillTop {after : Kernel} {kind' : Nat → PageKind} {free' : List Nat}
    (tables : PageTables layout userPages s base roots kind free)
    (afterTables : PageTables layout userPages after base roots kind' free') (r : Nat)
    (isTop : kind r = .table []) : kind' r = .table [] :=
  (afterTables.forest.tops r).mpr ((tables.forest.tops r).mp isTop)

/-- What a mapping operation keeps: the invariant, the leaves of devices, and the
pages held for other uses. -/
def Extends (layout : Layout) (s after : Kernel) (base : Nat) (roots : List Nat)
    (kind : Nat → PageKind) (used : Nat → Prop) : Prop :=
  ∃ kind' free', PageTables layout userPages after base roots kind' free' ∧
    after.kvmroot = s.kvmroot ∧ KeepsDevices layout s after kind ∧
    (∀ page, IsClient (kind page) → IsClient (kind' page)) ∧
    ∀ page, kind page = .other .held → ¬ used page → kind' page = .other .held

theorem extends_refl (tables : PageTables layout userPages s base roots kind free)
    (used : Nat → Prop) : Extends layout s s base roots kind used :=
  ⟨kind, free, tables, rfl, fun _ _ _ _ _ _ was _ => was, fun _ isClient => isClient,
    fun _ isHeld _ => isHeld⟩

/-- Mapping one page, at any address. Where the base table has no link, no other
root sees it. -/
theorem mapPage_extends (tables : PageTables layout userPages s base roots kind free) {root : Nat}
    (va pa perm : Nat) (isTop : kind root = .table []) (unbased : root = base → roots = [])
    (aligned : pa % pgSize = 0) (inside : pa < phyEnd) (small : perm < 2 ^ 10)
    (allowed : va / pgSize % 2 ^ 27 < userPages → pa < layout.ekernel ∨ kind pa = .other .held) :
    wlp (mapPage root va pa perm) (fun mapped after =>
      Extends layout s after base roots kind (fun page => mapped = true ∧ page = pa) ∧
      (mapped = true → leafAt after.mem root va = some (leafEntry pa perm)) ∧
      (roots ≠ [] → (tableSlots s.mem).link base (index 2 va) = none →
        Isolated s after base root kind)) s := by
  intro mapped after returned
  by_cases vacant : leafAt s.mem root va = none
  · obtain ⟨kind', free', afterTables, changed, devices, clients, -, -, outcome⟩ :=
      (tables.mapPage_spec va pa perm isTop unbased aligned
        (Nat.lt_trans inside (by decide)) small vacant allowed).of_returns
        returned
    refine ⟨⟨kind', free', afterTables, changed.globals.kvmroot, devices, clients, ?_⟩, ?_, ?_⟩
    · intro page isHeld notUsed
      rcases outcome with ⟨-, -, stillHeld, -⟩ | ⟨isMapped, -⟩
      · exact stillHeld page isHeld
      · rw [(changed.keeps page (Or.inl isHeld) fun same => notUsed ⟨isMapped, same⟩).1, isHeld]
    · rintro rfl
      rcases outcome with ⟨no, -⟩ | ⟨-, -, leaves⟩
      · cases no
      · rw [leafAt, leaves (upper va) (index 0 va) rfl, if_pos ⟨rfl, rfl⟩]
    · intro some noLink
      refine ⟨fun i => (slots_of_entry (changed.baseSlots some i)).1, fun r va' isTop' differs => ?_⟩
      rcases changed.leaves r (upper va') (index 0 va') isTop' rfl with same | ⟨⟨samePath, -⟩, seen⟩
      · exact same
      · rcases seen with isRoot | ⟨j, rest, isPath, isShared⟩
        · exact absurd isRoot differs
        · rw [samePath, upper, List.cons.injEq] at isPath
          rw [← isPath.1] at isShared
          exact absurd noLink isShared
  · obtain ⟨rfl, kind', free', afterTables, grown⟩ :=
      tables.mapPage_remap va pa perm isTop unbased vacant returned
    have notMapped : false = true → leafAt after.mem root va = some (leafEntry pa perm) :=
      fun no => absurd no Bool.false_ne_true
    refine ⟨⟨kind', free', afterTables, grown.globals.kvmroot, ?_, ?_, ?_⟩, notMapped, ?_⟩
    · intro r path k e isTop' full was _
      rw [grown.lookup r path k isTop' full, was]
    · intro page isClient
      rwa [grown.used page (by rcases isClient with is | is <;> simp [is])]
    · intro page isHeld _
      rw [grown.used page (by simp [isHeld]), isHeld]
    · intro some _
      exact ⟨fun i => (slots_of_entry (grown.baseSlots some i)).1,
        fun r va' isTop' _ => grown.lookup r _ _ isTop' rfl⟩

end PageTables

/-- The kernel root has no link for the addresses from `low` to `high`. -/
def Vacant (s : Kernel) (base low high : Nat) : Prop :=
  ∀ va, low ≤ va → va < high → (tableSlots s.mem).link base (index 2 va) = none

theorem Vacant.sub {s : Kernel} {base low high low' high' : Nat} (vacant : Vacant s base low high)
    (less : low ≤ low') (more : high' ≤ high) : Vacant s base low' high' :=
  fun va above below => vacant va (by omega) (by omega)

theorem Vacant.kept {s after : Kernel} {base root low high : Nat} {kind : Nat → PageKind}
    (vacant : Vacant s base low high) (isolated : Isolated s after base root kind) :
    Vacant after base low high := by
  intro va above below
  rw [isolated.1]
  exact vacant va above below

/-- What unmapping the pages from `low` to `high` through `root` keeps. -/
def Unmaps (layout : Layout) (s after : Kernel) (base : Nat) (roots : List Nat)
    (kind : Nat → PageKind) (root : Nat) (release : Bool) (low high : Nat) : Prop :=
  ∃ kind' free', PageTables layout userPages after base roots kind' free' ∧
    after.kvmroot = s.kvmroot ∧ (∀ page, kind page = .other .held → kind' page = .other .held) ∧
    (release = true → KeepsDevices layout s after kind) ∧
    (Vacant s base low high → Isolated s after base root kind)

namespace PageTables

variable {s : Kernel} {base root : Nat} {roots : List Nat} {kind : Nat → PageKind} {free : List Nat}

theorem unmaps_refl (tables : PageTables layout userPages s base roots kind free) (release : Bool)
    (low high : Nat) : Unmaps layout s s base roots kind root release low high :=
  ⟨kind, free, tables, rfl, fun _ isHeld => isHeld, fun _ _ _ _ _ _ _ was _ => was,
    fun _ => ⟨fun _ => rfl, fun _ _ _ _ => rfl⟩⟩

/-- The loop of `uvmunmap`. -/
theorem unmapPages_spec (tables : PageTables layout userPages s base roots kind free)
    (isTop : kind root = .table []) (release : Bool) (stop va : Nat) (user : stop ≤ kernBase) :
    wlp (unmapPages layout root release stop va) (fun _ after =>
      Unmaps layout s after base roots kind root release va stop) s := by
  induction va using unmapPages.induct stop generalizing s kind free with
  | case1 va more inductionHypothesis =>
    rw [unmapPages, if_pos more]
    have inside : va / pgSize % 2 ^ 27 < userPages := by
      simp only [userPages, kernBase, pgSize] at *
      omega
    refine wlp_seq (fun _ _ => tables.unmapPage_spec va release isTop inside) ?_
    rintro - mid ⟨kind₁, free₁, midTables, sameRoot, stillHeld, devices, isolates⟩
    have stillTop := tables.stillTop midTables
    refine wlp_mono (inductionHypothesis midTables (stillTop root isTop)) ?_
    rintro - after ⟨kind₂, free₂, afterTables, sameRoot', stillHeld', devices', isolates'⟩
    refine ⟨kind₂, free₂, afterTables, sameRoot'.trans sameRoot,
      fun page isHeld => stillHeld' page (stillHeld page isHeld), ?_, fun vacant => ?_⟩
    · intro isRelease r path k e isTop' full was device
      exact devices' isRelease r path k e (stillTop r isTop') full
        (devices isRelease r path k e isTop' full was device) device
    · have isolated := isolates (vacant va (Nat.le_refl _) more)
      have later := isolates'
        ((vacant.kept isolated).sub (Nat.le_add_right va pgSize) (Nat.le_refl stop))
      exact ⟨fun i => (later.1 i).trans (isolated.1 i), fun r va' isTop' differs =>
        (later.2 r va' (stillTop r isTop') differs).trans (isolated.2 r va' isTop' differs)⟩
  | case2 va done =>
    rw [unmapPages, if_neg done, wlp_pure]
    exact tables.unmaps_refl _ _ _

/-- `uvmunmap` clears the leaves of its range, and keeps every other translation and all tables. -/
theorem uvmunmap_spec (tables : PageTables layout userPages s base roots kind free)
    (isTop : kind root = .table []) (release : Bool) (va pagenum : Nat)
    (user : va + pagenum * pgSize ≤ kernBase) :
    wlp (uvmunmap layout root va pagenum release) (fun _ after =>
      Unmaps layout s after base roots kind root release va (va + pagenum * pgSize)) s := by
  have small : va + pagenum * pgSize < 2 ^ 64 := by
    simp only [kernBase] at user
    omega
  rw [uvmunmap, Nat.mod_eq_of_lt small]
  split
  · rw [wlp_throw]
    trivial
  · exact tables.unmapPages_spec isTop release _ va user

end PageTables

theorem Layout.kernBase_lt (layout : Layout) : kernBase < layout.ekernel := by
  obtain ⟨low, text, rodata, data, bss, -⟩ := layout.ordered
  omega

namespace PageTables

variable {s : Kernel} {base : Nat} {kind : Nat → PageKind} {free : List Nat}

/-- `mapPages` for an identity mapping into the base table. -/
theorem mapPages_identity (tables : PageTables layout userPages s base [] kind free) (perm passes
    start : Nat) (aligned : start % pgSize = 0) (inside : start + passes * pgSize ≤ phyEnd)
    (small : perm < 2 ^ 10) :
    wlp (mapPages base perm passes start start) (fun mapped after =>
      Extends layout s after base [] kind (fun _ => True) ∧
      (mapped = true → 0 < passes → start < layout.ekernel →
        leafAt after.mem base start = some (leafEntry start perm))) s := by
  induction passes generalizing s kind free start with
  | zero =>
    rw [mapPages, wlp_pure]
    exact ⟨tables.extends_refl _, fun _ no => absurd no (Nat.lt_irrefl 0)⟩
  | succ passes inductionHypothesis =>
    have next : (start + pgSize) % 2 ^ 64 = start + pgSize := by
      simp only [pgSize, phyEnd] at *
      omega
    have below : start < phyEnd := by
      simp only [pgSize] at *
      omega
    have low := layout.kernBase_lt
    have isTop := tables.forest.baseTop
    rw [mapPages, next]
    refine wlp_seq (tables.mapPage_extends start start perm isTop (fun _ => rfl) aligned below small
      ?_) ?_
    · intro user
      simp only [userPages, kernBase, pgSize, phyEnd] at *
      omega
    · rintro mapped mid ⟨⟨kind₁, free₁, midTables, sameRoot, devices, clients, -⟩, leaf, -⟩
      cases mapped with
      | false =>
        rw [if_neg Bool.false_ne_true, wlp_pure]
        exact ⟨⟨kind₁, free₁, midTables, sameRoot, devices, clients,
          fun _ _ no => absurd trivial no⟩, fun no => by cases no⟩
      | true =>
        rw [if_pos rfl]
        refine wlp_mono (inductionHypothesis midTables (start + pgSize) ?_ ?_) ?_
        · simp only [pgSize] at *
          omega
        · simp only [pgSize] at *
          omega
        · rintro last after ⟨⟨kind₂, free₂, afterTables, sameRoot', devices', clients', -⟩, -⟩
          refine ⟨⟨kind₂, free₂, afterTables, sameRoot'.trans sameRoot,
            fun r path k e isTop' full was device => ?_,
            fun page isClient => clients' page (clients page isClient),
            fun _ _ no => absurd trivial no⟩, ?_⟩
          · exact devices' r path k e (tables.stillTop midTables r isTop') full
              (devices r path k e isTop' full was device) device
          · intro _ _ isDevice
            refine devices' base _ _ _ midTables.forest.baseTop rfl (leaf rfl) ?_
            rwa [pte2pa_leafEntry aligned (Nat.lt_trans below (by decide)) small]

/-- `kvmmap` extends the kernel's tree, and a range that starts in the image gets its leaf. -/
theorem kvmmap_spec (tables : PageTables layout userPages s base [] kind free)
    (start size perm : Nat)
    (inside : start + size ≤ phyEnd) (small : perm < 2 ^ 10) :
    wlp (kvmmap base start start size perm) (fun _ after =>
      Extends layout s after base [] kind (fun _ => True) ∧
      (start < layout.ekernel → leafAt after.mem base start = some (leafEntry start perm))) s := by
  rw [kvmmap, vmmap]
  split
  · rw [wlp_bind, wlp_throw]
    trivial
  · rename_i legal
    simp only [not_or, not_not] at legal
    obtain ⟨aligned, whole, positive⟩ := legal
    have upTo : start + size / pgSize * pgSize ≤ phyEnd := by
      have fewer := Nat.div_mul_le_self size pgSize
      omega
    have passes : 0 < size / pgSize := by
      simp only [pgSize] at *
      omega
    refine wlp_seq (tables.mapPages_identity perm _ start aligned upTo small) ?_
    rintro mapped after ⟨extended, leaf⟩
    cases mapped with
    | false =>
      rw [if_neg Bool.false_ne_true, wlp_throw]
      trivial
    | true =>
      rw [if_pos rfl, wlp_pure]
      exact ⟨extended, leaf rfl passes⟩

/-- `mapRegions` maps every region, and later regions keep the devices. -/
theorem mapRegions_spec (tables : PageTables layout userPages s base [] kind free)
    (regions : List (Nat × Nat × Nat))
    (legal : ∀ region ∈ regions, region.1 + region.2.1 ≤ phyEnd ∧ region.2.2 < 2 ^ 10) :
    wlp (mapRegions base regions) (fun _ after =>
      Extends layout s after base [] kind (fun _ => True) ∧
      ∀ region ∈ regions, region.1 < layout.ekernel → region.1 % pgSize = 0 →
        leafAt after.mem base region.1 = some (leafEntry region.1 region.2.2)) s := by
  induction regions generalizing s kind free with
  | nil =>
    rw [mapRegions, wlp_pure]
    exact ⟨tables.extends_refl _, fun _ no => absurd no (List.not_mem_nil)⟩
  | cons region rest inductionHypothesis =>
    obtain ⟨start, size, perm⟩ := region
    obtain ⟨inside, small⟩ := legal _ (List.mem_cons_self ..)
    rw [mapRegions]
    refine wlp_seq (tables.kvmmap_spec start size perm inside small) ?_
    rintro - mid ⟨⟨kind₁, free₁, midTables, sameRoot, devices, clients, -⟩, leaf⟩
    refine wlp_mono (inductionHypothesis midTables fun region member =>
      legal region (List.mem_cons_of_mem _ member)) ?_
    rintro - after ⟨⟨kind₂, free₂, afterTables, sameRoot', devices', clients', -⟩, leaves⟩
    refine ⟨⟨kind₂, free₂, afterTables, sameRoot'.trans sameRoot,
      fun r path k e isTop' full was device => ?_,
      fun page isClient => clients' page (clients page isClient),
      fun _ _ no => absurd trivial no⟩, ?_⟩
    · exact devices' r path k e (tables.stillTop midTables r isTop') full
        (devices r path k e isTop' full was device) device
    · intro region member isDevice aligned
      rcases List.mem_cons.mp member with rfl | member
      · refine devices' base _ _ _ midTables.forest.baseTop rfl (leaf isDevice) ?_
        have high := layout.kernelEnd
        rw [pte2pa_leafEntry aligned (show _ < 2 ^ 64 by simp only [phyEnd] at *; omega) small]
        exact isDevice
      · exact leaves region member isDevice aligned

end PageTables

/-- A zeroed page taken from the free list is a forest of one table. The pages on no
list are held. -/
theorem PageTables.single {s : Kernel} {page : Nat} {free : List Nat} {bound : Nat}
    (holds : FreeList layout s (page :: free)) :
    ∃ kind, PageTables layout bound s.popPage page [] kind free ∧
      ∀ other, layout.IsPage other → other ∉ page :: free → kind other = .other .held := by
  classical
  have popped := holds.pop.2
  have isPage := holds.pages page (List.mem_cons_self ..)
  have notAgain := (List.nodup_cons.mp holds.nodup).1
  let kind : Nat → PageKind := fun p =>
    if p = page then .table [] else if p ∈ free then .other .free
    else if layout.IsPage p then .other .held else .other .outside
  have onlyTable : ∀ t path, kind t = .table path → t = page ∧ path = [] := by
    intro t path isTable
    simp only [kind] at isTable
    split at isTable
    · exact ⟨‹_›, (Kind.table.inj isTable).symm⟩
    · split at isTable
      · cases isTable
      · split at isTable <;> cases isTable
  have isTop : kind page = .table [] := if_pos rfl
  have zeroed := holds.popPage_entry
  have noLink : ∀ t path i, kind t = .table path → (tableSlots s.popPage.mem).link t i = none := by
    intro t path i isTable
    obtain ⟨rfl, -⟩ := onlyTable t path isTable
    refine link_of_invalid ?_
    rw [zeroed]
    exact pteValid_zero
  have notLast : ∀ t path, kind t = .table path → path.length ≠ 2 := by
    rintro t path isTable full
    rw [(onlyTable t path isTable).2] at full
    cases full
  refine ⟨kind, ⟨⟨?_, ?_, ?_, ?_, ?_, ?_, ?_⟩, popped, ?_, ?_, ?_⟩, ?_⟩
  · intro r
    simp only [List.not_mem_nil, or_false]
    exact ⟨fun isTable => (onlyTable r [] isTable).1, fun same => same ▸ isTop⟩
  · intro t path isTable
    rw [(onlyTable t path isTable).2]
    exact Nat.zero_le _
  · intro t path i child isTable _ linked
    rw [noLink t path i isTable] at linked
    cases linked
  · intro t path i e isTable full
    exact absurd full (notLast t path isTable)
  · intro r member
    exact absurd member (List.not_mem_nil)
  · intro t t' path i child isTable _ _ linked
    rw [noLink t path i isTable] at linked
    cases linked
  · intro t t' path path' i i' e e' isTable _ full
    exact absurd full (notLast t path isTable)
  · intro other
    simp only [kind]
    by_cases isSame : other = page
    · subst isSame
      simp [notAgain]
    · rw [if_neg isSame]
      by_cases isFree : other ∈ free
      · simp [isFree]
      · rw [if_neg isFree]
        split <;> simp [isFree]
  · intro other used
    simp only [kind] at used
    split at used
    · rename_i isSame
      exact isSame ▸ isPage
    · split at used
      · exact holds.pages other (List.mem_cons_of_mem _ ‹_›)
      · split at used
        · assumption
        · exact absurd rfl used
  · intro t path i isTable _ valid
    obtain ⟨rfl, -⟩ := onlyTable t path isTable
    rw [zeroed] at valid
    exact absurd valid pteValid_zero
  · intro other otherPage unlisted
    rw [List.mem_cons, not_or] at unlisted
    simp only [kind, if_neg unlisted.1, if_neg unlisted.2, if_pos otherPage]

/-- The leaf of the test device, seen from a root. -/
def deviceLeaf (mem : ByteMap) (root : Nat) : Option Nat := leafAt mem root sifiveTestAddr

/-- Nothing is mapped through a null root: the first table would lie outside of memory. -/
theorem not_mapPages_null (perm passes va pa : Nat) {s : Kernel} :
    wlp (mapPages 0 perm (passes + 1) va pa) (fun _ _ => False) s := by
  intro mapped after returned
  rw [mapPages, returns_bind] at returned
  obtain ⟨_, _, mappedPage, -⟩ := returned
  rw [mapPage, returns_bind] at mappedPage
  obtain ⟨_, _, walked, -⟩ := mappedPage
  rw [walk, returns_bind] at walked
  obtain ⟨_, _, level, -⟩ := walked
  rw [walkLevel, returns_bind] at level
  obtain ⟨_, _, loaded, -⟩ := level
  have inRam := (returns_loadField.mp loaded).1.1
  have small : px 2 va < 512 := Nat.mod_lt _ (by decide)
  simp only [phyStart] at inRam
  omega

/-- After `kvmmake` the base table shows the test device. -/
theorem kvmmake_spec {s : Kernel} {free : List Nat} (holds : FreeList layout s free) :
    wlp (kvmmake layout) (fun kroot after => ∃ kind free',
      PageTables layout userPages after kroot [] kind free' ∧
      (∀ page, layout.IsPage page → page ∉ free → IsClient (kind page)) ∧
      deviceLeaf after.mem kroot = some (leafEntry sifiveTestAddr (pteR ||| pteW))) s := by
  obtain ⟨order, text, rodata, data, bss, kernelEnd⟩ := layout.ordered
  rw [kvmmake]
  cases free with
  | nil =>
    refine wlp_bind.mpr fun kroot mid taken => ?_
    obtain ⟨rfl, rfl⟩ := (kalloc_empty holds).of_returns taken
    -- The table at address 0 is not in memory.
    rintro kroot after returned
    obtain ⟨_, _, mapped, -⟩ := returns_bind.mp returned
    rw [kernelRegions, mapRegions, returns_bind] at mapped
    obtain ⟨_, _, first, -⟩ := mapped
    rw [kvmmap, returns_bind] at first
    obtain ⟨got, _, first, -⟩ := first
    rw [vmmap] at first
    split at first
    · exact (returns_throw.mp first).elim
    · rename_i legal
      simp only [not_or, not_not] at legal
      obtain ⟨passes, isPasses⟩ : ∃ passes, (layout.etext - layout.stext) / pgSize = passes + 1 := by
        refine ⟨(layout.etext - layout.stext) / pgSize - 1, ?_⟩
        simp only [pgSize] at *
        omega
      rw [isPasses] at first
      exact (not_mapPages_null _ _ _ _ _ _ first).elim
  | cons page free =>
    refine wlp_bind.mpr fun kroot mid taken => ?_
    obtain ⟨rfl, rfl, -⟩ := (kalloc_cons holds).of_returns taken
    obtain ⟨kind, tables, areHeld⟩ : ∃ kind,
        PageTables layout userPages s.popPage kroot [] kind free ∧
        ∀ other, layout.IsPage other → other ∉ kroot :: free → kind other = .other .held :=
      PageTables.single holds
    refine wlp_seq (tables.mapRegions_spec (kernelRegions layout) ?_) ?_
    · intro region member
      simp only [kernelRegions, List.mem_cons, List.not_mem_nil, or_false] at member
      rcases member with rfl | rfl | rfl | rfl | rfl | rfl | rfl | rfl <;>
        refine ⟨?_, by simp only [pteR, pteW, pteX]; decide⟩ <;>
        simp only [uart0, virtioBlk0, sifiveTestAddr, pgSize, phyEnd] at * <;> omega
    · rintro - after ⟨⟨kind', free', afterTables, -, -, clients, -⟩, leaves⟩
      rw [wlp_pure]
      refine ⟨kind', free', afterTables, fun page isPage unlisted =>
        clients page (Or.inl (areHeld page isPage unlisted)), ?_⟩
      have low := layout.kernBase_lt
      refine leaves (sifiveTestAddr, pgSize, pteR ||| pteW) ?_ ?_ (by decide)
      · simp [kernelRegions]
      · simp only [sifiveTestAddr, kernBase] at *
        omega

/-! ## Roots of processes -/

/-- The loop of `uvmmapkernel` copies the valid entries of the base table. -/
theorem copyEntries_spec {s : Kernel} {r : Nat} (aligned : r % pgSize = 0)
    (baseAligned : s.kvmroot % pgSize = 0) (differs : s.kvmroot ≠ r) (passes i : Nat)
    (upTo : i + passes = 512) :
    wlp (copyEntries r passes i) (fun _ after => after = s.withMem after.mem ∧
      (∀ page, page % pgSize = 0 → page ≠ r → SameOn after.mem s.mem page pgSize) ∧
      ∀ j : Fin 512, entry after.mem r j =
        if i ≤ j.val ∧ pteValid (entry s.mem s.kvmroot j) then entry s.mem s.kvmroot j
        else entry s.mem r j) s := by
  induction passes generalizing i s with
  | zero =>
    rw [copyEntries, wlp_pure]
    refine ⟨rfl, fun _ _ _ _ _ _ => rfl, fun j => ?_⟩
    have bound := j.isLt
    rw [if_neg (by omega)]
  | succ passes inductionHypothesis =>
    have small : i < 512 := by omega
    have value : entry s.mem s.kvmroot ⟨i, small⟩ < 2 ^ 64 := load_lt _ _ 8
    rw [copyEntries, wlp_bind, wlp_get, wlp_bind]
    intro kpte mid loaded
    obtain ⟨-, rfl, rfl⟩ := returns_loadField.mp loaded
    have isEntry : load s.mem (s.kvmroot + 8 * i) 8 = entry s.mem s.kvmroot ⟨i, small⟩ := rfl
    rw [isEntry, wlp_bind]
    -- One pass changes at most entry `i` of the new root.
    have pass : wlp (onlyIf (pteValid (entry s.mem s.kvmroot ⟨i, small⟩))
        (storeField (r + 8 * i) 8 (entry s.mem s.kvmroot ⟨i, small⟩))) (fun _ mid =>
        mid = s.withMem mid.mem ∧
        (∀ page, page % pgSize = 0 → page ≠ r → SameOn mid.mem s.mem page pgSize) ∧
        ∀ j : Fin 512, entry mid.mem r j =
          if j.val = i ∧ pteValid (entry s.mem s.kvmroot j) then entry s.mem s.kvmroot j
          else entry s.mem r j) s := by
      rw [wlp_onlyIf]
      split
      · rename_i valid
        rintro ⟨⟩ mid stored
        have isMid := returns_storeField stored
        rw [isMid]
        refine ⟨rfl, fun page pageAligned other =>
          sameOn_entry aligned pageAligned other ⟨i, small⟩ _, fun j => ?_⟩
        change entry (store s.mem (r + 8 * (⟨i, small⟩ : Fin 512).val) 8 _) r j = _
        rw [entry_store aligned aligned ⟨i, small⟩ j value]
        by_cases isI : j = ⟨i, small⟩
        · subst isI
          rw [if_pos ⟨rfl, rfl⟩, if_pos ⟨rfl, valid⟩]
        · have other : j.val ≠ i := fun same => isI (Fin.ext same)
          rw [if_neg fun both => isI both.2, if_neg fun both => other both.1]
      · rename_i invalid
        refine ⟨rfl, fun _ _ _ _ _ _ => rfl, fun j => ?_⟩
        rw [if_neg]
        rintro ⟨isI, valid⟩
        obtain rfl : j = ⟨i, small⟩ := Fin.ext isI
        exact invalid valid
    refine wlp_mono pass ?_
    rintro - mid ⟨isMid, others, entries⟩
    have sameRoot : mid.kvmroot = s.kvmroot := by rw [isMid]; rfl
    have baseSame : ∀ j, entry mid.mem s.kvmroot j = entry s.mem s.kvmroot j :=
      entry_congr (others s.kvmroot baseAligned differs)
    refine wlp_mono (inductionHypothesis (sameRoot ▸ baseAligned) (sameRoot ▸ differs) (i + 1)
      (by omega)) ?_
    rintro - after ⟨isAfter, others', entries'⟩
    refine ⟨?_, fun page pageAligned other =>
      (others' page pageAligned other).trans (others page pageAligned other), fun j => ?_⟩
    · rw [isAfter, isMid]
      rfl
    · rw [entries' j, sameRoot, baseSame, entries j]
      by_cases valid : pteValid (entry s.mem s.kvmroot j)
      · by_cases isI : j.val = i
        · rw [if_neg (by omega), if_pos ⟨isI, valid⟩, if_pos ⟨by omega, valid⟩]
        · by_cases later : i + 1 ≤ j.val
          · rw [if_pos ⟨later, valid⟩, if_pos ⟨by omega, valid⟩]
          · rw [if_neg (by omega), if_neg (by omega), if_neg (by omega)]
      · rw [if_neg fun both => valid both.2, if_neg fun both => valid both.2,
          if_neg fun both => valid both.2]

/-- Tables with the same entries show the same leaves. -/
theorem PageTables.leafAt_congr {s after : Kernel} {base root : Nat} {roots : List Nat}
    {kind : Nat → PageKind} {free : List Nat}
    (tables : PageTables layout userPages s base roots kind free) (isTop : kind root = .table [])
    (same : ∀ t path i, kind t = .table path → entry after.mem t i = entry s.mem t i) (va : Nat) :
    leafAt after.mem root va = leafAt s.mem root va :=
  tables.forest.lookup_congr (fun t path i isTable => slots_of_entry (same t path i isTable))
    (upper va) (index 0 va) isTop rfl

/-- `mapproc` adds one address space of its own to the tables, or returns null and adds none. No
translation of the kernel changes. -/
theorem mapproc_spec {s : Kernel} {roots : List Nat} {kind : Nat → PageKind} {free : List Nat}
    (tables : PageTables layout userPages s s.kvmroot roots kind free) :
    wlp mapproc (fun root after => after.kvmroot = s.kvmroot ∧ root ≠ s.kvmroot ∧ ∃ kind' free',
      PageTables layout userPages after s.kvmroot (if root = 0 then roots else root :: roots)
        kind' free' ∧
      (∀ va, leafAt after.mem s.kvmroot va = leafAt s.mem s.kvmroot va) ∧
      ∀ page, kind page ≠ .other .free → kind' page = kind page) s := by
  have baseTop := tables.forest.baseTop
  rw [mapproc, uvmcreate]
  refine wlp_bind.mpr fun root mid taken => ?_
  cases free with
  | nil =>
    obtain ⟨rfl, rfl⟩ := (kalloc_empty tables.freeList).of_returns taken
    rw [if_pos rfl, wlp_pure]
    exact ⟨rfl, (tables.isPage baseTop).ne_zero.symm, kind, [], by rw [if_pos rfl]; exact tables,
      fun _ => rfl, fun _ _ => rfl⟩
  | cons page free =>
    obtain ⟨rfl, rfl, -⟩ := (kalloc_cons tables.freeList).of_returns taken
    have isPage := tables.freeList.pages root (List.mem_cons_self ..)
    have isFree := (tables.isFree root).mp (List.mem_cons_self ..)
    have takenTables := tables.take
    have basePage := tables.isPage baseTop
    have notBase : s.kvmroot ≠ root := by
      intro same
      rw [same, isFree] at baseTop
      cases baseTop
    have zeroed := tables.freeList.popPage_entry
    rw [if_neg isPage.ne_zero, uvmmapkernel]
    refine wlp_seq (copyEntries_spec (s := s.popPage) isPage.1 basePage.1 notBase 512 0 rfl) ?_
    rintro - after ⟨isAfter, others, entries⟩
    rw [wlp_pure]
    have sameRoot : after.kvmroot = s.kvmroot := by
      rw [isAfter]
      rfl
    have notRoot : ∀ t path, kind t = .table path → t ≠ root := by
      rintro t path isTable rfl
      rw [isFree] at isTable
      cases isTable
    have same : ∀ t path i, kind t = .table path → entry after.mem t i = entry s.mem t i := by
      intro t path i isTable
      rw [← tables.popPage_entries t path i isTable]
      exact entry_congr (others t (tables.isPage isTable).1 (notRoot t path isTable)) i
    have copied : ∀ i, (entry after.mem root i = entry s.mem s.kvmroot i ∧
        pteValid (entry s.mem s.kvmroot i)) ∨ (¬ pteValid (entry after.mem root i) ∧
          ¬ pteValid (entry s.mem s.kvmroot i)) := by
      intro i
      have isEntry := entries i
      change entry after.mem root i = if 0 ≤ i.val ∧ pteValid (entry s.popPage.mem s.kvmroot i) then
        entry s.popPage.mem s.kvmroot i else entry s.popPage.mem root i at isEntry
      rw [tables.popPage_entries _ _ _ baseTop, zeroed] at isEntry
      by_cases valid : pteValid (entry s.mem s.kvmroot i)
      · rw [if_pos ⟨Nat.zero_le _, valid⟩] at isEntry
        exact Or.inl ⟨isEntry, valid⟩
      · rw [if_neg fun both => valid both.2] at isEntry
        rw [isEntry]
        exact Or.inr ⟨pteValid_zero, valid⟩
    have links : ∀ i, (tableSlots after.mem).link root i = (tableSlots s.mem).link s.kvmroot i := by
      intro i
      rcases copied i with ⟨isEntry, valid⟩ | ⟨invalid, baseInvalid⟩
      · rw [link_of_valid valid, link_of_valid (isEntry ▸ valid), isEntry]
      · rw [link_of_invalid invalid, link_of_invalid baseInvalid]
    have tableKinds : ∀ p more, Function.update kind root (.table []) p = .table more ↔
        kind p = .table more ∨ p = root ∧ more = [] := by
      intro p more
      by_cases isRoot : p = root
      · subst isRoot
        rw [Function.update_self, isFree]
        simp [eq_comm]
      · rw [Function.update_of_ne isRoot]
        simp [isRoot]
    refine ⟨sameRoot, notBase.symm, Function.update kind root (.table []), free, ?_,
      tables.leafAt_congr baseTop same, ?_⟩
    · rw [if_neg isPage.ne_zero]
      refine ⟨?_, ?_, ?_, ?_, ?_⟩
      · refine tables.forest.addRoot ⟨_, isFree⟩
          (fun t path i isTable => slots_of_entry (same t path i isTable)) links tableKinds ?_
        intro p isFrame
        rw [Function.update_of_ne, isFrame]
        rintro rfl
        rw [isFree] at isFrame
        cases isFrame
      · refine takenTables.freeList.congr (by rw [isAfter]; rfl) fun p member => ?_
        have listed := takenTables.freeList.pages p member
        have differs : p ≠ root := by
          rintro rfl
          exact (List.nodup_cons.mp tables.freeList.nodup).1 member
        exact (others p listed.1 differs).sub (Nat.le_refl _) (by simp [pgSize])
      · intro p
        by_cases isRoot : p = root
        · subst isRoot
          rw [Function.update_self]
          simp [(List.nodup_cons.mp tables.freeList.nodup).1]
        · rw [Function.update_of_ne isRoot, ← tables.isFree, List.mem_cons]
          simp [isRoot]
      · intro p used
        by_cases isRoot : p = root
        · exact isRoot ▸ isPage
        · rw [Function.update_of_ne isRoot] at used
          exact tables.pages p used
      · intro t path i isTable short valid
        rcases (tableKinds t path).mp isTable with was | ⟨rfl, rfl⟩
        · rw [same t path i was] at valid ⊢
          exact tables.pointers t path i was short valid
        · rcases copied i with ⟨isEntry, baseValid⟩ | ⟨invalid, -⟩
          · rw [isEntry]
            exact tables.pointers _ [] i baseTop short baseValid
          · exact absurd valid invalid
    · intro p used
      refine Function.update_of_ne ?_ _ _
      rintro rfl
      exact used isFree

/-- A root of a process shows what the base table shows. -/
theorem PageTables.leafAt_root {s : Kernel} {base root va e : Nat} {roots : List Nat}
    {kind : Nat → PageKind} {free : List Nat}
    (tables : PageTables layout userPages s base roots kind free) (member : root ∈ roots)
    (found : leafAt s.mem base va = some e) : leafAt s.mem root va = some e := by
  rw [leafAt, Slots.lookup, upper, Slots.reach] at found ⊢
  cases linked : (tableSlots s.mem).link base (index 2 va) with
  | none =>
    rw [linked] at found
    cases found
  | some child =>
    rw [linked] at found
    rw [tables.forest.shared root member _ _ linked]
    exact found

end CuteCore

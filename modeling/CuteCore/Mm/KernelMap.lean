import CuteCore.Mm.AddressSpace
import CuteCore.Mm.PrivateTree
import CuteCore.Mm.HeapRuns

/-!
# The kernel's page table

`kvmmake` maps eight regions onto themselves. Given as many free pages as the
regions need tables, no step fails, and the leaves are those of the regions: the
identity on the kernel, the rest of memory and three device pages.
-/

namespace CuteCore

open Hoare Bytes RadixForest

variable {layout : Layout}

/-- The permissions of an address. The sections are text, rodata, and then data, bss and
free memory. -/
def kernelPerm (layout : Layout) (va : Nat) : Option Nat :=
  if layout.stext ≤ va ∧ va < layout.etext then some (pteR ||| pteX)
  else if layout.etext ≤ va ∧ va < layout.erodata then some pteR
  else if layout.erodata ≤ va ∧ va < phyEnd then some (pteR ||| pteW)
  else if va / pgSize = uart0 / pgSize ∨ va / pgSize = virtioBlk0 / pgSize ∨
    va / pgSize = sifiveTestAddr / pgSize then some (pteR ||| pteW)
  else none

/-- The root, a table for the devices and one for memory, two last tables for the devices,
and a last table for each 2 MiB of memory that the kernel's range meets. -/
def tablesNeeded (layout : Layout) : Nat := 5 + (phyEnd / 2 ^ 21 - layout.stext / 2 ^ 21)

/-- Every address translates to itself with the permissions of its region, or to nothing. No leaf
at any level may be both written and executed, and none is for users. -/
structure KernelMap (layout : Layout) (mem : ByteMap) (root : Nat) : Prop where
  identity : ∀ va < 2 ^ 39, translate mem root va =
    (kernelPerm layout va).map fun perm => (va, perm ||| pteV)
  leaves : ∀ (path : List (Fin 512)) t i, path.length ≤ 2 →
    (tableSlots mem).reach root path = some t → pteValid (entry mem t i) →
    pteLeaf (entry mem t i) →
    ¬ (entry mem t i &&& pteW ≠ 0 ∧ entry mem t i &&& pteX ≠ 0) ∧ entry mem t i &&& pteU = 0

/-! ## Counting tables -/

/-- The free pages suffice for the tables of these paths that are missing. -/
def Supplied (kind : Nat → PageKind) (free : List Nat) (paths : Finset (List (Fin 512))) : Prop :=
  ∃ tables : Finset Nat, (∀ t ∈ tables, ∃ path, kind t = .table path) ∧
    paths.card ≤ tables.card + free.length

section Counting

variable {s after : Kernel} {root : Nat} {kind kind' : Nat → PageKind} {free free' : List Nat}
  {paths : Finset (List (Fin 512))}

/-- A page that is taken becomes a table. -/
theorem Supplied.extended (supplied : Supplied kind free paths)
    (tree : Tree layout s root kind free) (afterTree : Tree layout after root kind' free')
    (extended : Extended layout s after kind kind' free free') : Supplied kind' free' paths := by
  obtain ⟨tables, areTables, enough⟩ := supplied
  obtain ⟨new, isNew⟩ := extended.taken
  have distinct : (new ++ free').Nodup := isNew ▸ tree.tables.freeList.nodup
  have apart := (List.nodup_append.mp distinct).2.2
  have wereFree : ∀ t ∈ new, kind t = .other .free := by
    intro t member
    refine (tree.tables.isFree t).mp ?_
    rw [isNew]
    exact List.mem_append_left _ member
  have disjoint : Disjoint tables new.toFinset := by
    rw [Finset.disjoint_left]
    intro t isTable member
    obtain ⟨path, isPath⟩ := areTables t isTable
    rw [wereFree t (List.mem_toFinset.mp member)] at isPath
    cases isPath
  refine ⟨tables ∪ new.toFinset, fun t member => ?_, ?_⟩
  · rcases Finset.mem_union.mp member with before | member
    · obtain ⟨path, isPath⟩ := areTables t before
      exact ⟨path, by rw [extended.used t (by simp [isPath]), isPath]⟩
    · have listed := List.mem_toFinset.mp member
      refine (extended.spare t (wereFree t listed)).resolve_left fun still => ?_
      exact apart t listed t ((afterTree.tables.isFree t).mpr still) rfl
  · rw [Finset.card_union_of_disjoint disjoint,
      List.toFinset_card_of_nodup (List.nodup_append.mp distinct).1]
    rw [isNew, List.length_append] at enough
    omega

/-- Distinct tables have distinct paths, so with no page left all the paths have tables. -/
theorem Supplied.complete (supplied : Supplied kind [] paths) (tree : Tree layout s root kind free)
    (inside : ∀ t path, kind t = .table path → path ∈ paths) {path : List (Fin 512)}
    (needed : path ∈ paths) : (tableSlots s.mem).reach root path ≠ none := by
  intro missing
  obtain ⟨tables, areTables, enough⟩ := supplied
  choose! pathOf isPath using areTables
  have into : ∀ t ∈ tables, pathOf t ∈ paths.erase path := by
    intro t member
    refine Finset.mem_erase.mpr ⟨?_, inside t _ (isPath t member)⟩
    intro same
    have reached := tree.rooted t _ (isPath t member)
    rw [same, missing] at reached
    cases reached
  have injective : Set.InjOn pathOf tables := by
    intro t member t' member' same
    have reached := tree.rooted t _ (isPath t member)
    have reached' := tree.rooted t' _ (isPath t' member')
    rw [same, reached'] at reached
    exact (Option.some.inj reached).symm
  have few := Finset.card_le_card_of_injOn pathOf into injective
  rw [Finset.card_erase_of_mem needed] at few
  have positive := Finset.card_pos.mpr ⟨path, needed⟩
  rw [List.length_nil] at enough
  omega

end Counting

/-! ## The regions -/

/-- A region as `kvmmap` takes it, with tables for its pages among the paths. -/
structure Region (paths : Finset (List (Fin 512))) (start size perm : Nat) : Prop where
  aligned : start % pgSize = 0
  whole : size % pgSize = 0
  positive : size ≠ 0
  low : start + size ≤ 2 ^ 39
  small : perm < 2 ^ 10
  paths : ∀ v, start ≤ v → v < start + size → ∀ path, path <+: upper v → path ∈ paths

/-- A tree under construction, with pages for its tables. -/
structure Building (layout : Layout) (s : Kernel) (root : Nat) (kind : Nat → PageKind)
    (free : List Nat) (paths : Finset (List (Fin 512))) : Prop where
  tree : Tree layout s root kind free
  inside : ∀ t path, kind t = .table path → path ∈ paths
  supplied : Supplied kind free paths

namespace Building

variable {s : Kernel} {root : Nat} {kind : Nat → PageKind} {free : List Nat}
  {paths : Finset (List (Fin 512))}

/-- One region is mapped onto itself. -/
theorem kvmmap_exact (building : Building layout s root kind free paths) {start size perm : Nat}
    (region : Region paths start size perm)
    (vacant : ∀ v, start ≤ v → v < start + size → leafAt s.mem root v = none) :
    wp (kvmmap root start start size perm) (fun _ after => ∃ kind' free',
      Building layout after root kind' free' paths ∧
      ∀ v < 2 ^ 39, leafAt after.mem root v =
        if start ≤ v ∧ v < start + size then some (leafEntry (v / pgSize * pgSize) perm)
        else leafAt s.mem root v) s := by
  have span : size / pgSize * pgSize = size :=
    Nat.div_mul_cancel (Nat.dvd_of_mod_eq_zero region.whole)
  have low := region.low
  have legal : ¬ (start % pgSize ≠ 0 ∨ size % pgSize ≠ 0 ∨ size = 0) := by
    have aligned := region.aligned
    have whole := region.whole
    have positive := region.positive
    omega
  rw [kvmmap, vmmap, if_neg legal]
  refine wp_seq (Tree.mapPages_spec perm region.small (size / pgSize) start start building.tree
    region.aligned (by rwa [span]) (by omega) (by rwa [span])) ?_
  rintro mapped after ⟨kind', free', afterTree, extended, forRange, n, -, isMapped, shown⟩
  rw [span] at forRange
  have inside : ∀ t path, kind' t = .table path → path ∈ paths := by
    intro t path isTable
    rcases forRange.tables t path isTable with before | ⟨v, inRange, isPrefix⟩
    · exact building.inside t path before
    · exact region.paths v inRange.1 inRange.2 path isPrefix
  have supplied := building.supplied.extended building.tree afterTree extended
  cases mapped with
  | false =>
    obtain ⟨rfl, v, inRange, missing⟩ := forRange.failed rfl
    have needed := region.paths v inRange.1 inRange.2 (upper v) List.prefix_rfl
    exact absurd missing (supplied.complete afterTree inside needed)
  | true =>
    rw [if_pos rfl, wp_pure]
    refine ⟨kind', free', ⟨afterTree, inside, supplied⟩, fun v lowV => ?_⟩
    rw [shown v lowV, isMapped.mp rfl, span]
    by_cases covered : start ≤ v ∧ v < start + size
    · have aligned := region.aligned
      have page : (start + (v - start) / pgSize * pgSize) % 2 ^ 64 = v / pgSize * pgSize := by
        simp only [pgSize] at *
        omega
      rw [if_pos covered, if_pos covered, page]
    · rw [if_neg covered, if_neg covered]

end Building

/-- The permissions of the first region that covers the address. -/
def regionPerm : List (Nat × Nat × Nat) → Nat → Option Nat
  | [], _ => none
  | (start, size, perm) :: rest, va =>
    if start ≤ va ∧ va < start + size then some perm else regionPerm rest va

theorem regionPerm_none {regions : List (Nat × Nat × Nat)} {v : Nat}
    (outside : ∀ r ∈ regions, ¬ (r.1 ≤ v ∧ v < r.1 + r.2.1)) : regionPerm regions v = none := by
  induction regions with
  | nil => rfl
  | cons region rest inductionHypothesis =>
    rw [regionPerm, if_neg (outside region (List.mem_cons_self ..))]
    exact inductionHypothesis fun r member => outside r (List.mem_cons_of_mem _ member)

/-- Two regions share no address. -/
def RegionsApart (r r' : Nat × Nat × Nat) : Prop := r.1 + r.2.1 ≤ r'.1 ∨ r'.1 + r'.2.1 ≤ r.1

/-- The regions are mapped one after the other: a page has the leaf of its region, and a page of no
region keeps what it had. -/
theorem mapRegions_exact (regions : List (Nat × Nat × Nat)) {s : Kernel} {root : Nat}
    {kind : Nat → PageKind} {free : List Nat} {paths : Finset (List (Fin 512))}
    (building : Building layout s root kind free paths)
    (regular : ∀ r ∈ regions, Region paths r.1 r.2.1 r.2.2)
    (apart : regions.Pairwise RegionsApart)
    (vacant : ∀ r ∈ regions, ∀ v, r.1 ≤ v → v < r.1 + r.2.1 → leafAt s.mem root v = none) :
    wp (mapRegions root regions) (fun _ after => ∃ kind' free',
      Building layout after root kind' free' paths ∧ ∀ v < 2 ^ 39, leafAt after.mem root v =
        ((regionPerm regions v).map fun perm => leafEntry (v / pgSize * pgSize) perm).or
          (leafAt s.mem root v)) s := by
  induction regions generalizing s kind free with
  | nil => exact wp_pure.mpr ⟨kind, free, building, fun _ _ => rfl⟩
  | cons region rest inductionHypothesis =>
    obtain ⟨start, size, perm⟩ := region
    rw [mapRegions]
    obtain ⟨first, later⟩ := List.pairwise_cons.mp apart
    have regularFirst := regular _ (List.mem_cons_self ..)
    refine wp_seq (building.kvmmap_exact regularFirst (vacant _ (List.mem_cons_self ..))) ?_
    rintro - mid ⟨kind₁, free₁, midBuilding, shown⟩
    refine wp_mono (inductionHypothesis midBuilding
      (fun r member => regular r (List.mem_cons_of_mem _ member)) later ?_) ?_
    · intro r member v above below
      have lowRegion := (regular r (List.mem_cons_of_mem _ member)).low
      have otherRegion : start + size ≤ r.1 ∨ r.1 + r.2.1 ≤ start := first r member
      have outside : ¬ (start ≤ v ∧ v < start + size) := by omega
      rw [shown v (by omega), if_neg outside]
      exact vacant r (List.mem_cons_of_mem _ member) v above below
    · rintro - after ⟨kind₂, free₂, afterBuilding, shown'⟩
      refine ⟨kind₂, free₂, afterBuilding, fun v lowV => ?_⟩
      rw [shown' v lowV, shown v lowV, regionPerm]
      by_cases covered : start ≤ v ∧ v < start + size
      · have others : regionPerm rest v = none := by
          refine regionPerm_none fun r member => ?_
          have otherRegion : start + size ≤ r.1 ∨ r.1 + r.2.1 ≤ start := first r member
          omega
        rw [others, if_pos covered, if_pos covered]
        rfl
      · rw [if_neg covered, if_neg covered]

/-! ## The paths of the kernel's tables -/

/-- The paths of the tables that the kernel's regions need. -/
def neededPaths (layout : Layout) : Finset (List (Fin 512)) :=
  {[], [index 2 uart0], [index 2 kernBase], upper uart0, upper sifiveTestAddr} ∪
    (Finset.range (phyEnd / 2 ^ 21 - layout.stext / 2 ^ 21)).image fun k =>
      upper (layout.stext + k * 2 ^ 21)

theorem card_neededPaths (layout : Layout) : (neededPaths layout).card ≤ tablesNeeded layout := by
  refine (Finset.card_union_le _ _).trans (Nat.add_le_add Finset.card_le_five ?_)
  exact Finset.card_image_le.trans (Nat.le_of_eq (Finset.card_range _))

theorem prefix_upper {path : List (Fin 512)} {v : Nat} (isPrefix : path <+: upper v) :
    path = [] ∨ path = [index 2 v] ∨ path = upper v := by
  rw [← List.mem_inits] at isPrefix
  simpa [upper] using isPrefix

theorem upper_chunk {v w : Nat} (same : v / 2 ^ 21 = w / 2 ^ 21) : upper v = upper w := by
  have first : index 2 v = index 2 w := by
    apply Fin.ext
    simp only [index, px]
    omega
  have second : index 1 v = index 1 w := by
    apply Fin.ext
    simp only [index, px]
    omega
  rw [upper, upper, first, second]

/-- The table of the 2 MiB around an address of the kernel's range. -/
theorem memory_paths {v : Nat} (above : layout.stext ≤ v) (below : v < phyEnd)
    {path : List (Fin 512)} (isPrefix : path <+: upper v) : path ∈ neededPaths layout := by
  have low := layout.stextLow
  have indexTwo : index 2 v = index 2 kernBase := by
    apply Fin.ext
    simp only [index, px, kernBase, phyEnd] at *
    omega
  have chunk : upper (layout.stext + (v / 2 ^ 21 - layout.stext / 2 ^ 21) * 2 ^ 21) = upper v :=
    upper_chunk (by omega)
  rw [neededPaths, Finset.mem_union, Finset.mem_image]
  rcases prefix_upper isPrefix with rfl | rfl | rfl
  · exact .inl (by simp)
  · rw [indexTwo]
    exact .inl (by simp)
  · refine .inr ⟨v / 2 ^ 21 - layout.stext / 2 ^ 21, Finset.mem_range.mpr ?_, chunk⟩
    simp only [kernBase, phyEnd] at *
    omega

/-- The tables of a device page, which is `uart0`, the page behind it, or the test device. -/
theorem device_paths {v device : Nat} (isDevice : device ∈ [uart0, virtioBlk0, sifiveTestAddr])
    (above : device ≤ v) (below : v < device + pgSize) {path : List (Fin 512)}
    (isPrefix : path <+: upper v) : path ∈ neededPaths layout := by
  have sameUpper : upper v = upper uart0 ∨ upper v = upper sifiveTestAddr := by
    simp only [List.mem_cons, List.not_mem_nil, or_false] at isDevice
    rcases isDevice with rfl | rfl | rfl
    · exact .inl (upper_chunk (by simp only [uart0, pgSize] at *; omega))
    · exact .inl (upper_chunk (by simp only [uart0, virtioBlk0, pgSize] at *; omega))
    · exact .inr (upper_chunk (by simp only [sifiveTestAddr, pgSize] at *; omega))
  have indexTwo : index 2 v = index 2 uart0 := by
    rcases sameUpper with same | same <;> exact (List.cons.inj same).1
  rw [neededPaths, Finset.mem_union]
  refine .inl ?_
  rcases prefix_upper isPrefix with rfl | rfl | rfl
  · simp
  · rw [indexTwo]
    simp
  · rcases sameUpper with same | same <;> rw [same] <;> simp

/-- Every region of the kernel's map is regular: its pages need tables on the counted paths only. -/
theorem kernelRegions_regular (layout : Layout) :
    ∀ r ∈ kernelRegions layout, Region (neededPaths layout) r.1 r.2.1 r.2.2 := by
  obtain ⟨order, text, rodata, data, bss, kernelEnd⟩ := layout.ordered
  have aligned := layout.stextAligned
  have etextAligned := layout.etextAligned
  have erodataAligned := layout.erodataAligned
  have edataAligned := layout.edataAligned
  have ekernelAligned := layout.ekernelAligned
  have section' : ∀ start finish perm, layout.stext ≤ start → start < finish → finish ≤ phyEnd →
      start % pgSize = 0 → finish % pgSize = 0 → perm < 2 ^ 10 →
      Region (neededPaths layout) start (finish - start) perm := by
    intro start finish perm low less high startAligned finishAligned small
    refine ⟨startAligned, ?_, by omega, ?_, small, fun v above below path isPrefix =>
      memory_paths (by omega) (by omega) isPrefix⟩
    · simp only [pgSize] at *
      omega
    · simp only [phyEnd] at *
      omega
  have device : ∀ start, start ∈ [uart0, virtioBlk0, sifiveTestAddr] →
      Region (neededPaths layout) start pgSize (pteR ||| pteW) := by
    intro start isDevice
    have known := isDevice
    simp only [List.mem_cons, List.not_mem_nil, or_false] at known
    refine ⟨?_, rfl, by decide, ?_, by decide, fun v above below path isPrefix =>
      device_paths isDevice above below isPrefix⟩ <;>
      rcases known with rfl | rfl | rfl <;> decide
  intro r member
  simp only [kernelRegions, List.mem_cons, List.not_mem_nil, or_false] at member
  rcases member with rfl | rfl | rfl | rfl | rfl | rfl | rfl | rfl
  · exact section' _ _ _ (by omega) text (by omega) aligned etextAligned
      (show pteR ||| pteX < 2 ^ 10 by decide)
  · exact section' _ _ _ (by omega) rodata (by omega) etextAligned erodataAligned
      (show pteR < 2 ^ 10 by decide)
  · exact section' _ _ _ (by omega) data (by omega) erodataAligned edataAligned
      (show pteR ||| pteW < 2 ^ 10 by decide)
  · exact section' _ _ _ (by omega) bss (by omega) edataAligned ekernelAligned
      (show pteR ||| pteW < 2 ^ 10 by decide)
  · exact section' _ _ _ (by omega) kernelEnd (by omega) ekernelAligned (by decide)
      (show pteR ||| pteW < 2 ^ 10 by decide)
  · exact device _ (by simp)
  · exact device _ (by simp)
  · exact device _ (by simp)

theorem kernelRegions_apart (layout : Layout) : (kernelRegions layout).Pairwise RegionsApart := by
  obtain ⟨order, text, rodata, data, bss, kernelEnd⟩ := layout.ordered
  simp only [kernelRegions, List.pairwise_cons, List.mem_cons, List.not_mem_nil, or_false,
    forall_eq_or_imp, forall_eq, RegionsApart, kernBase, phyEnd, uart0, virtioBlk0, sifiveTestAddr,
    pgSize] at *
  simp
  omega

/-- The regions are those of the permissions. -/
theorem regionPerm_kernel (layout : Layout) (va : Nat) :
    regionPerm (kernelRegions layout) va = kernelPerm layout va := by
  obtain ⟨order, text, rodata, data, bss, kernelEnd⟩ := layout.ordered
  have uart := samePage_iff (show uart0 % pgSize = 0 by decide) va
  have virtio := samePage_iff (show virtioBlk0 % pgSize = 0 by decide) va
  have test := samePage_iff (show sifiveTestAddr % pgSize = 0 by decide) va
  simp only [kernelRegions, regionPerm, kernelPerm, uart, virtio, test,
    Nat.add_sub_cancel' (Nat.le_of_lt text), Nat.add_sub_cancel' (Nat.le_of_lt rodata),
    Nat.add_sub_cancel' (Nat.le_of_lt data), Nat.add_sub_cancel' (Nat.le_of_lt bss),
    Nat.add_sub_cancel' (Nat.le_of_lt kernelEnd)]
  by_cases isText : layout.stext ≤ va ∧ va < layout.etext
  · rw [if_pos isText, if_pos isText]
  rw [if_neg isText, if_neg isText]
  by_cases isRodata : layout.etext ≤ va ∧ va < layout.erodata
  · rw [if_pos isRodata, if_pos isRodata]
  rw [if_neg isRodata, if_neg isRodata]
  by_cases writable : layout.erodata ≤ va ∧ va < phyEnd
  · -- data, bss or free memory
    rw [if_pos writable]
    by_cases isData : layout.erodata ≤ va ∧ va < layout.edata
    · rw [if_pos isData]
    rw [if_neg isData]
    by_cases isBss : layout.edata ≤ va ∧ va < layout.ekernel
    · rw [if_pos isBss]
    rw [if_neg isBss, if_pos ⟨by omega, writable.2⟩]
  rw [if_neg writable, if_neg (by omega), if_neg (by omega), if_neg (by omega)]
  by_cases isUart : uart0 ≤ va ∧ va < uart0 + pgSize
  · rw [if_pos isUart, if_pos (.inl isUart)]
  rw [if_neg isUart]
  by_cases isVirtio : virtioBlk0 ≤ va ∧ va < virtioBlk0 + pgSize
  · rw [if_pos isVirtio, if_pos (.inr (.inl isVirtio))]
  rw [if_neg isVirtio]
  by_cases isTest : sifiveTestAddr ≤ va ∧ va < sifiveTestAddr + pgSize
  · rw [if_pos isTest, if_pos (.inr (.inr isTest))]
  · rw [if_neg isTest, if_neg (by omega)]

/-! ## The finished table -/

/-- A zeroed page is a tree without leaves. -/
theorem Building.start {s : Kernel} {page : Nat} {free : List Nat}
    {paths : Finset (List (Fin 512))} (holds : FreeList layout s (page :: free))
    (hasRoot : [] ∈ paths) (enough : paths.card ≤ free.length + 1) :
    ∃ kind, Building layout s.popPage page kind free paths ∧
      ∀ v, leafAt s.popPage.mem page v = none := by
  have popped := holds.pop.2
  have isPage := holds.pages page (List.mem_cons_self ..)
  have notAgain := (List.nodup_cons.mp holds.nodup).1
  have zeroed := holds.popPage_entry
  have onlyRoot : ∀ (path : List (Fin 512)) t,
      (tableSlots s.popPage.mem).reach page path = some t → path = [] ∧ t = page := by
    intro path t reached
    cases path with
    | nil => exact ⟨rfl, (Option.some.inj reached).symm⟩
    | cons i rest =>
      have noLink : (tableSlots s.popPage.mem).link page i = none :=
        link_of_invalid (by rw [zeroed]; exact pteValid_zero)
      rw [Slots.reach, noLink] at reached
      cases reached
  have isPrivate : PrivateTree layout s.popPage page free := by
    refine ⟨popped, ?_, ?_, ?_⟩
    · rintro t ⟨path, -, reached⟩
      obtain ⟨-, rfl⟩ := onlyRoot path t reached
      exact ⟨isPage, notAgain⟩
    · intro path path' t _ _ reached reached'
      rw [(onlyRoot path t reached).1, (onlyRoot path' t reached').1]
    · intro path t i _ reached valid
      obtain ⟨-, rfl⟩ := onlyRoot path t reached
      rw [zeroed] at valid
      exact absurd valid pteValid_zero
  obtain ⟨kind, tree, -⟩ := isPrivate.labelled
  refine ⟨kind, ⟨tree, fun t path isTable => ?_, {page}, fun t member => ?_, ?_⟩, fun v => ?_⟩
  · rw [(onlyRoot path t (tree.rooted t path isTable)).1]
    exact hasRoot
  · rw [Finset.mem_singleton.mp member]
    exact ⟨[], tree.tables.forest.baseTop⟩
  · rw [Finset.card_singleton]
    omega
  · cases reached : (tableSlots s.popPage.mem).reach page (upper v) with
    | none =>
      rw [leafAt, Slots.lookup, reached]
      rfl
    | some t => cases (onlyRoot _ t reached).1

/-- The kernel maps code to run, constants to read and everything else to read and write. -/
theorem kernelPerm_mem {va perm : Nat} (isPerm : kernelPerm layout va = some perm) :
    perm ∈ [pteR ||| pteX, pteR, pteR ||| pteW] := by
  unfold kernelPerm at isPerm
  split at isPerm
  · simp [← Option.some.inj isPerm]
  · split at isPerm
    · simp [← Option.some.inj isPerm]
    · split at isPerm
      · simp [← Option.some.inj isPerm]
      · split at isPerm
        · simp [← Option.some.inj isPerm]
        · cases isPerm

theorem flags_and {pa perm mask : Nat} (small : perm < 2 ^ 10) (low : mask < 2 ^ 10) :
    leafEntry pa perm &&& mask = (perm ||| pteV) &&& mask := by
  have below : leafEntry pa perm &&& mask < 2 ^ 10 := Nat.and_lt_two_pow _ low
  rw [← Nat.mod_eq_of_lt below, Nat.and_mod_two_pow, leafEntry_flags small, Nat.mod_eq_of_lt low]

/-- The address with these indices. -/
theorem address_indices (a b i : Fin 512) : ∃ v < 2 ^ 39, upper v = [a, b] ∧ index 0 v = i := by
  have smallA := a.isLt
  have smallB := b.isLt
  have smallI := i.isLt
  refine ⟨((a.val * 512 + b.val) * 512 + i.val) * 4096, by omega, ?_, ?_⟩
  · have first : index 2 (((a.val * 512 + b.val) * 512 + i.val) * 4096) = a := by
      apply Fin.ext
      simp only [index, px]
      omega
    have second : index 1 (((a.val * 512 + b.val) * 512 + i.val) * 4096) = b := by
      apply Fin.ext
      simp only [index, px]
      omega
    rw [upper, first, second]
  · apply Fin.ext
    simp only [index, px]
    omega

/-- A tree with exactly the leaves of the regions is the kernel's map. -/
theorem Tree.kernelMap {s : Kernel} {root : Nat} {kind : Nat → PageKind} {free : List Nat}
    (tree : Tree layout s root kind free) (shown : ∀ v < 2 ^ 39, leafAt s.mem root v =
      (kernelPerm layout v).map fun perm => leafEntry (v / pgSize * pgSize) perm) :
    KernelMap layout s.mem root where
  identity va low := by
    rw [translate, shown va low, Option.map_map]
    cases isPerm : kernelPerm layout va with
    | none => rfl
    | some perm =>
      have small : perm < 2 ^ 10 := by
        have known := kernelPerm_mem isPerm
        simp only [List.mem_cons, List.not_mem_nil, or_false] at known
        rcases known with rfl | rfl | rfl <;> decide
      have address : (va / pgSize * pgSize + va % pgSize) % 2 ^ 64 = va := by
        simp only [pgSize] at *
        omega
      simp only [Option.map_some, Function.comp_apply]
      rw [leafEntry_flags small, pte2pa_leafEntry (Nat.mul_mod_left _ _)
        (by simp only [pgSize]; omega) small, address]
  leaves path t i short reached valid leaf := by
    by_cases full : path.length = 2
    · obtain ⟨a, b, rfl⟩ := List.length_eq_two.mp full
      obtain ⟨v, low, isUpper, isIndex⟩ := address_indices a b i
      have isLeaf : leafAt s.mem root v = some (entry s.mem t i) := by
        rw [leafAt, isUpper, isIndex, Slots.lookup, reached]
        exact leaf_of_valid valid
      rw [shown v low] at isLeaf
      obtain ⟨perm, isPerm, isEntry⟩ := Option.map_eq_some_iff.mp isLeaf
      have known := kernelPerm_mem isPerm
      simp only [List.mem_cons, List.not_mem_nil, or_false] at known
      have small : perm < 2 ^ 10 := by rcases known with rfl | rfl | rfl <;> decide
      rw [← isEntry, flags_and small (by decide), flags_and small (by decide),
        flags_and small (by decide)]
      rcases known with rfl | rfl | rfl <;> decide
    · exact absurd leaf (tree.isPrivate.pointers path t i (by omega) reached valid)

/-- With a page for every table, `kvmmake` returns the kernel's map. -/
theorem kvmmake_maps (layout : Layout) {s : Kernel} {free : List Nat}
    (holds : FreeList layout s free) (enough : tablesNeeded layout ≤ free.length) :
    wp (kvmmake layout) (fun root after => KernelMap layout after.mem root) s := by
  rw [kvmmake]
  cases free with
  | nil => exact absurd enough (by simp [tablesNeeded])
  | cons page free =>
    apply wp_seq (kalloc_cons holds)
    rintro root _ ⟨rfl, rfl, -⟩
    obtain ⟨kind, building, vacant⟩ : ∃ kind,
        Building layout s.popPage root kind free (neededPaths layout) ∧
        ∀ v, leafAt s.popPage.mem root v = none :=
      Building.start holds (by simp [neededPaths]) ((card_neededPaths layout).trans enough)
    refine wp_seq (mapRegions_exact (kernelRegions layout) building (kernelRegions_regular layout)
      (kernelRegions_apart layout) fun _ _ v _ _ => vacant v) ?_
    rintro - after ⟨kind', free', done, shown⟩
    refine wp_pure.mpr (done.tree.kernelMap fun v low => ?_)
    rw [shown v low, vacant v, regionPerm_kernel, Option.or_none]

/-- After `kinit` on the small image there are pages enough. -/
theorem smallImage_mapped : ∃ s free, FreeList smallImage s free ∧
    tablesNeeded smallImage ≤ free.length ∧
    wp (kvmmake smallImage) (fun root after => KernelMap smallImage after.mem root) s := by
  obtain ⟨⟨⟩, s, -, idle, -⟩ := kinit_spec smallImage fun _ => 0
  have enough : tablesNeeded smallImage ≤ (bootFree smallImage).length := by
    rw [bootFree, List.length_drop, List.length_reverse, length_pagesFrom]
    decide
  exact ⟨s, _, idle.freeList, enough, kvmmake_maps smallImage idle.freeList enough⟩

end CuteCore

import CuteCore.Task.Proc
import CuteCore.Mm.AddressSpace
import CuteCore.Mm.PageRuns

/-!
# Taking a process apart

The top entry of a user root for the lowest gigabyte is the one of the kernel, and
the kernel has device registers there. `freewalk` descends into that entry and
stops at the first leaf, so no process is ever taken apart.
-/

namespace CuteCore

open Hoare Bytes RadixForest

variable {layout : Layout}

/-! ## A leaf that `freewalk` cannot pass -/

section Blocked

variable {t k e : Nat} (aligned : t % pgSize = 0) (inside : k < 512) (valid : pteValid e)
  (isLeaf : pteLeaf e)

include aligned inside valid isLeaf

/-- The loop over a table keeps the leaf, and does not pass it. -/
theorem freeEntries_blocked (freeChild : Nat → KernelProg Unit)
    (child : ∀ r s, r % pgSize = 0 → load s.mem (t + 8 * k) 8 = e →
      wlp (freeChild r) (fun _ after => load after.mem (t + 8 * k) 8 = e ∧ r ≠ t) s)
    {r : Nat} (rAligned : r % pgSize = 0) (passes i : Nat) (upTo : i + passes ≤ 512) {s : Kernel}
    (present : load s.mem (t + 8 * k) 8 = e) :
    wlp (freeEntries freeChild r passes i) (fun _ after => load after.mem (t + 8 * k) 8 = e ∧
      (r = t → k < i ∨ i + passes ≤ k)) s := by
  induction passes generalizing i s with
  | zero =>
    rw [freeEntries, wlp_pure]
    exact ⟨present, fun _ => by omega⟩
  | succ passes inductionHypothesis =>
    rw [freeEntries, wlp_bind]
    intro pte mid loaded
    obtain ⟨-, rfl, rfl⟩ := returns_loadField.mp loaded
    by_cases isPointer : pteValid (load s.mem (r + 8 * i) 8) ∧ ¬ pteLeaf (load s.mem (r + 8 * i) 8)
    · have elsewhere : ¬ (r = t ∧ i = k) := by
        rintro ⟨rfl, rfl⟩
        rw [present] at isPointer
        exact isPointer.2 isLeaf
      rw [if_pos isPointer]
      have childAligned : pte2pa (load s.mem (r + 8 * i) 8) % pgSize = 0 := by
        simp only [pte2pa, pgSize]
        omega
      refine wlp_seq (child _ s childAligned present) ?_
      rintro - mid ⟨still, -⟩
      rw [wlp_bind]
      intro u stored returned
      have keeps : load stored.mem (t + 8 * k) 8 = e := by
        have apart : t + 8 * k + 8 ≤ r + 8 * i ∨ r + 8 * i + 8 ≤ t + 8 * k := by
          simp only [pgSize] at aligned rAligned
          omega
        rw [returns_storeField returned, withMem_mem, load_store_apart _ _ _ _ _ _ (by omega), still]
      refine wlp_mono (inductionHypothesis (i + 1) (by omega) keeps) ?_
      rintro - after ⟨stays, past⟩
      refine ⟨stays, fun same => ?_⟩
      have differs : i ≠ k := fun isK => elsewhere ⟨same, isK⟩
      have rest := past same
      omega
    · rw [if_neg isPointer]
      by_cases isValid : pteValid (load s.mem (r + 8 * i) 8)
      · rw [if_pos isValid, wlp_throw]
        trivial
      · rw [if_neg isValid]
        refine wlp_mono (inductionHypothesis (i + 1) (by omega) present) ?_
        rintro - after ⟨stays, past⟩
        refine ⟨stays, fun same => ?_⟩
        have differs : i ≠ k := by
          rintro rfl
          rw [same, present] at isValid
          exact isValid valid
        have rest := past same
        omega

/-- `freewalk` keeps the leaf, and never returns from its table. -/
theorem freewalk_blocked (depth r : Nat) (rAligned : r % pgSize = 0) {s : Kernel}
    (present : load s.mem (t + 8 * k) 8 = e) :
    wlp (freewalk layout depth r)
      (fun _ after => load after.mem (t + 8 * k) 8 = e ∧ r ≠ t) s := by
  induction depth generalizing r s with
  | zero =>
    rw [freewalk, wlp_throw]
    trivial
  | succ depth inductionHypothesis =>
    rw [freewalk]
    refine wlp_seq (freeEntries_blocked aligned inside valid isLeaf _
      (fun r s rAligned present => inductionHypothesis r rAligned present) rAligned 512 0
      (Nat.le_refl _) present) ?_
    rintro - mid ⟨still, past⟩
    have differs : r ≠ t := fun same => by have reached := past same; omega
    rintro ⟨⟩ after freed
    obtain ⟨-, rfl⟩ := returns_kfree freed
    refine ⟨?_, differs⟩
    have apart : t + 8 * k + 8 ≤ r ∨ r + 8 ≤ t + 8 * k := by
      simp only [pgSize] at aligned rAligned
      omega
    change load (store mid.mem r 8 mid.memlist) (t + 8 * k) 8 = e
    rw [load_store_apart _ _ _ _ _ _ (by omega), still]

end Blocked

section Blocked

variable {s : Kernel} {base : Nat} {roots : List Nat} {kind : Nat → PageKind} {free : List Nat}

/-- The entries that lead to a leaf. -/
theorem leafAt_entries {mem : ByteMap} {root va e : Nat} (found : leafAt mem root va = some e) :
    ∃ t l, (tableSlots mem).link root (index 2 va) = some t ∧
      (tableSlots mem).link t (index 1 va) = some l ∧
      (tableSlots mem).leaf l (index 0 va) = some e := by
  rw [leafAt, Slots.lookup] at found
  obtain ⟨l, reached, isLeaf⟩ := Option.bind_eq_some_iff.mp found
  rw [upper, Slots.reach] at reached
  obtain ⟨t, linked, reached⟩ := Option.bind_eq_some_iff.mp reached
  rw [Slots.reach] at reached
  obtain ⟨l', linked', isL⟩ := Option.bind_eq_some_iff.mp reached
  cases isL
  exact ⟨t, l, linked, linked', isLeaf⟩

theorem link_some {mem : ByteMap} {t child : Nat} {i : Fin 512}
    (linked : (tableSlots mem).link t i = some child) :
    pteValid (entry mem t i) ∧ pte2pa (entry mem t i) = child := by
  simpa [tableSlots] using linked

theorem leaf_some {mem : ByteMap} {l e : Nat} {i : Fin 512}
    (isLeaf : (tableSlots mem).leaf l i = some e) : pteValid (entry mem l i) ∧ entry mem l i = e := by
  simpa [tableSlots] using isLeaf

/-- `uvmfreewalk` descends to the leaf of the device. -/
theorem uvmfreewalk_blocked (tables : PageTables layout userPages s base roots kind free)
    {root e : Nat} (isTop : kind root = .table []) (device : deviceLeaf s.mem root = some e)
    (isLeaf : pteLeaf e) (depth : Nat) :
    wlp (uvmfreewalk layout depth root) (fun _ _ => False) s := by
  obtain ⟨t, l, toT, toL, atLeaf⟩ := leafAt_entries device
  have tTable := tables.forest.links root [] _ t isTop (by simp) toT
  have lTable := tables.forest.links t _ _ l tTable (by simp) toL
  have tPointer := tables.pointers root [] _ isTop (by decide) (link_some toT).1
  have lPointer := tables.pointers t _ _ tTable (by decide) (link_some toL).1
  obtain ⟨tValid, isT⟩ := link_some toT
  obtain ⟨lValid, isL⟩ := link_some toL
  obtain ⟨eValid, isE⟩ := leaf_some atLeaf
  rw [isE] at eValid
  -- Both tables are entered through their first entries.
  have walkDown : wlp (freewalk layout depth t) (fun _ _ => False) s := by
    cases depth with
    | zero =>
      rw [freewalk, wlp_throw]
      trivial
    | succ depth =>
      rw [freewalk, show (512 : Nat) = 511 + 1 from rfl, freeEntries, wlp_bind, wlp_bind]
      intro pte mid loaded
      obtain ⟨-, rfl, rfl⟩ := returns_loadField.mp loaded
      have isEntry : load s.mem (t + 8 * 0) 8 = entry s.mem t (index 1 sifiveTestAddr) := rfl
      rw [isEntry, if_pos ⟨lValid, lPointer⟩, wlp_bind]
      rw [isL]
      refine wlp_mono (freewalk_blocked (tables.isPage lTable).1 (index 0 sifiveTestAddr).isLt eValid
        isLeaf depth l (tables.isPage lTable).1 isE) ?_
      rintro - mid ⟨-, notL⟩
      exact absurd rfl notL
  rw [uvmfreewalk, show (512 : Nat) = 511 + 1 from rfl, uvmfreeEntries, wlp_bind, wlp_bind]
  intro pte mid loaded
  obtain ⟨-, rfl, rfl⟩ := returns_loadField.mp loaded
  have isEntry : load s.mem (root + 8 * 0) 8 = entry s.mem root (index 2 sifiveTestAddr) := rfl
  rw [isEntry, if_neg (not_not.mpr tValid), if_neg (by decide), if_pos tPointer, isT, wlp_bind]
  exact wlp_mono walkDown fun _ _ never => never.elim

/-- No user root is ever taken apart. -/
theorem uvmfree_blocked (tables : PageTables layout userPages s base roots kind free)
    {root e : Nat} (isTop : kind root = .table []) (device : deviceLeaf s.mem root = some e)
    (isDevice : pte2pa e < layout.ekernel) (isLeaf : pteLeaf e)
    (depth sz stackBottom stackTop : Nat)
    (low : sz ≤ kernBase) (stackLow : stackTop ≤ kernBase) :
    wlp (uvmfree layout depth root sz stackBottom stackTop) (fun _ _ => False) s := by
  have segment : ∀ (c : Prop) [Decidable c] (va pagenum : Nat) (s : Kernel) kind free,
      (c → va + pagenum * pgSize ≤ kernBase) →
      PageTables layout userPages s base roots kind free → kind root = .table [] →
      wlp (onlyIf c (uvmunmap layout root va pagenum true)) (fun _ after =>
        Unmaps layout s after base roots kind root true va (va + pagenum * pgSize)) s := by
    intro c _ va pagenum s kind free user tables isTop
    rw [wlp_onlyIf]
    split
    · exact tables.uvmunmap_spec isTop true va pagenum (user ‹_›)
    · exact tables.unmaps_refl _ _ _
  rw [uvmfree]
  refine wlp_seq (segment _ 0 (pgRoundUp sz / pgSize) s kind free ?_ tables isTop) ?_
  · intro _
    simp only [pgRoundUp, pgSize, kernBase] at *
    omega
  rintro - mid ⟨kind₁, free₁, midTables, -, -, keeps, -⟩
  have midTop := tables.stillTop midTables root isTop
  have midDevice : deviceLeaf mid.mem root = some e := keeps rfl root _ _ e isTop rfl device isDevice
  refine wlp_seq (segment _ stackBottom ((stackTop - stackBottom) / pgSize) mid kind₁ free₁ ?_
    midTables midTop) ?_
  · intro grows
    simp only [pgSize, kernBase] at *
    omega
  rintro - last ⟨kind₂, free₂, lastTables, -, -, keeps', -⟩
  exact uvmfreewalk_blocked lastTables (midTables.stillTop lastTables root midTop)
    (keeps' rfl root _ _ e midTop rfl midDevice isDevice) isLeaf depth

end Blocked

/-! ## Runs after boot -/

/-- What happens to pages and address spaces after boot. -/
inductive ProcOp where
  | kalloc
  | kfree (page : Nat)
  | write (a : Nat) (value : Byte)
  | mapproc
  | vmmap (root va pa perm : Nat)

variable (layout) in
/-- Clients free the pages they hold and map them at user addresses. They write these
pages, the pages that are shared, and what is in no page. -/
def ProcOp.Legal (roots held shared : List Nat) : ProcOp → Prop
  | .kalloc => True
  | .kfree page => page ∈ held
  | .write a _ => ∀ page, layout.IsPage page → page ≤ a → a < page + pgSize →
      page ∈ held ∨ page ∈ shared
  | .mapproc => True
  | .vmmap root va pa perm => root ∈ roots ∧ va < kernBase ∧ pa ∈ held ∧ perm < 2 ^ 8

variable (layout) in
def ProcOp.exec : ProcOp → KernelProg Nat
  | .kalloc => CuteCore.kalloc
  | .kfree page => do
    CuteCore.kfree layout page
    return 0
  | .write a value => do
    modify fun s => s.withMem (copy s.mem a 1 fun _ => value)
    return 0
  | .mapproc => CuteCore.mapproc
  | .vmmap root va pa perm => do
    let _ ← CuteCore.vmmap root va pgSize pa perm
    return 0

/-- The roots after an operation that returned `result`. -/
def ProcOp.rootsAfter (roots : List Nat) (result : Nat) : ProcOp → List Nat
  | .mapproc => if result = 0 then roots else result :: roots
  | _ => roots

/-- The pages held after an operation that returned `result`. A page given to
`vmmap` is not held any more. -/
def ProcOp.heldAfter (held : List Nat) (result : Nat) : ProcOp → List Nat
  | .kalloc => if result = 0 then held else result :: held
  | .kfree page => held.erase page
  | .write _ _ => held
  | .mapproc => held
  | .vmmap _ _ pa _ => held.erase pa

/-- The pages shared after an operation. A process writes what is mapped for it. -/
def ProcOp.sharedAfter (shared : List Nat) : ProcOp → List Nat
  | .vmmap _ _ pa _ => pa :: shared
  | _ => shared

/-- Runs from boot through `kinit` and `kvminit`, with the roots `mapproc` made, the
pages held and the pages shared. The allocator writes into its first cache pages. -/
inductive ProcRun (layout : Layout) : Kernel → List Nat → List Nat → List Nat → Prop where
  | boot {mem : ByteMap} {mid s : Kernel} (heap : Returns (kinit layout) (Kernel.boot mem) () mid)
      (mapped : Returns (kvminit layout) mid () s) : ProcRun layout s [] [] (cachePages mid)
  | step {s after : Kernel} {roots held shared : List Nat} {result : Nat}
      (earlier : ProcRun layout s roots held shared) (op : ProcOp)
      (legal : op.Legal layout roots held shared) (returned : Returns (op.exec layout) s result after) :
      ProcRun layout after (op.rootsAfter roots result) (op.heldAfter held result)
        (op.sharedAfter shared)

/-- The tables are in order, and the base table shows the test device. -/
structure Spaces (layout : Layout) (s : Kernel) (roots held shared : List Nat) : Prop where
  tables : ∃ kind free, PageTables layout userPages s s.kvmroot roots kind free ∧
    (∀ page ∈ held, kind page = .other .held) ∧ ∀ page ∈ shared, IsClient (kind page)
  distinct : held.Nodup
  unshared : ∀ page ∈ shared, page ∉ held
  apart : s.kvmroot ∉ roots
  device : ∃ e, deviceLeaf s.mem s.kvmroot = some e ∧ pte2pa e < layout.ekernel ∧ pteLeaf e

namespace Spaces

variable {s : Kernel} {roots held shared : List Nat}

/-- The pages held are in order without the shared ones. -/
theorem forget (spaces : Spaces layout s roots held shared) : Spaces layout s roots held [] := by
  obtain ⟨kind, free, tables, areHeld, -⟩ := spaces.tables
  exact ⟨⟨kind, free, tables, areHeld, fun _ none => absurd none List.not_mem_nil⟩, spaces.distinct,
    fun _ none => absurd none List.not_mem_nil, spaces.apart, spaces.device⟩

/-- After boot there is no address space but the kernel's. -/
theorem of_boot {mem : ByteMap} {mid : Kernel}
    (heap : Returns (kinit layout) (Kernel.boot mem) () mid)
    (mapped : Returns (kvminit layout) mid () s) : Spaces layout s [] [] (cachePages mid) := by
  have partition := Partition.of_kinit heap
  rw [kvminit, returns_bind] at mapped
  obtain ⟨kroot, last, made, recorded⟩ := mapped
  obtain rfl := returns_modify.mp recorded
  obtain ⟨kind, free, tables, clients, device⟩ :=
    kvmmake_spec partition.freeList kroot last made
  refine ⟨⟨kind, free, ?_, fun page none => absurd none List.not_mem_nil, fun page member => ?_⟩,
    List.nodup_nil, fun _ _ => List.not_mem_nil, List.not_mem_nil,
    leafEntry sifiveTestAddr (pteR ||| pteW), device, ?_, by decide⟩
  · exact ⟨tables.forest, tables.freeList.congr rfl fun _ _ _ _ _ => rfl, tables.isFree, tables.pages,
      tables.pointers⟩
  · have isPage := partition.allocatedPages page member
    exact clients page isPage fun listed => (partition.covered page isPage).mp listed member
  · have low := layout.kernBase_lt
    have isDevice : pte2pa (leafEntry sifiveTestAddr (pteR ||| pteW)) = sifiveTestAddr := by decide
    rw [isDevice]
    exact Nat.lt_trans (by decide) low

/-- An operation that writes into no table. -/
theorem of_entries (spaces : Spaces layout s roots held shared) {after : Kernel} {held' : List Nat}
    (sameRoot : after.kvmroot = s.kvmroot) (fewer : held'.Sublist held)
    (moved : ∀ kind free, PageTables layout userPages s s.kvmroot roots kind free →
      (∀ page ∈ held, kind page = .other .held) → (∀ page ∈ shared, IsClient (kind page)) →
      (∃ kind' free', PageTables layout userPages after s.kvmroot roots kind' free' ∧
        (∀ page ∈ held', kind' page = .other .held) ∧ ∀ page ∈ shared, IsClient (kind' page)) ∧
      ∀ t path i, kind t = .table path → entry after.mem t i = entry s.mem t i) :
    Spaces layout after roots held' shared := by
  obtain ⟨kind, free, tables, areHeld, clients⟩ := spaces.tables
  obtain ⟨⟨kind', free', afterTables, still⟩, same⟩ := moved kind free tables areHeld clients
  refine ⟨⟨kind', free', sameRoot ▸ afterTables, still⟩, spaces.distinct.sublist fewer,
    fun page isShared member => spaces.unshared page isShared (fewer.subset member),
    sameRoot ▸ spaces.apart, ?_⟩
  rw [sameRoot, deviceLeaf, tables.leafAt_congr tables.forest.baseTop same]
  exact spaces.device

/-- `kalloc` takes a page that no address space uses. -/
theorem kalloc_step (spaces : Spaces layout s roots held shared) :
    wlp kalloc (fun page after =>
      Spaces layout after roots (if page = 0 then held else page :: held) shared) s := by
  intro page after returned
  obtain ⟨kind, free, tables, areHeld, clients⟩ := spaces.tables
  cases free with
  | nil =>
    obtain ⟨rfl, rfl⟩ := (kalloc_empty tables.freeList).of_returns returned
    rw [if_pos rfl]
    exact spaces
  | cons first free =>
    obtain ⟨rfl, rfl, -⟩ := (kalloc_cons tables.freeList).of_returns returned
    have isPage := tables.freeList.pages page (List.mem_cons_self ..)
    have isFree := (tables.isFree page).mp (List.mem_cons_self ..)
    have fresh : page ∉ held := by
      intro member
      rw [areHeld page member] at isFree
      cases isFree
    have freshShared : page ∉ shared := by
      intro member
      rcases clients page member with is | is <;>
      · rw [is] at isFree
        cases isFree
    rw [if_neg isPage.ne_zero]
    refine ⟨⟨_, free, tables.take, ?_, ?_⟩, List.nodup_cons.mpr ⟨fresh, spaces.distinct⟩, ?_,
      spaces.apart, ?_⟩
    · intro other member
      rcases List.mem_cons.mp member with rfl | before
      · exact Function.update_self ..
      · have differs : other ≠ page := by
          rintro rfl
          exact fresh before
        rw [Function.update_of_ne differs, areHeld other before]
    · intro other member
      have differs : other ≠ page := by
        rintro rfl
        exact freshShared member
      rw [Function.update_of_ne differs]
      exact clients other member
    · intro other member isHeld
      rcases List.mem_cons.mp isHeld with rfl | before
      · exact freshShared member
      · exact spaces.unshared other member before
    · change ∃ e, leafAt s.popPage.mem s.kvmroot sifiveTestAddr = some e ∧ _
      rw [tables.leafAt_congr tables.forest.baseTop tables.popPage_entries]
      exact spaces.device

/-- To free a held page touches no address space. -/
theorem kfree_step (spaces : Spaces layout s roots held shared) {page : Nat}
    (member : page ∈ held) : wlp (kfree layout page)
      (fun _ after => Spaces layout after roots (held.erase page) shared) s := by
  rintro ⟨⟩ after returned
  obtain ⟨isPage, rfl⟩ := returns_kfree returned
  refine spaces.of_entries rfl List.erase_sublist fun kind free tables areHeld clients => ?_
  refine ⟨⟨_, _, tables.give page (areHeld page member), ?_, ?_⟩,
    tables.pushPage_entries isPage (by simp [areHeld page member])⟩
  · intro other rest
    obtain ⟨differs, was⟩ := (spaces.distinct.mem_erase_iff).mp rest
    rw [Function.update_of_ne differs, areHeld other was]
  · intro other isShared
    have differs : other ≠ page := by
      rintro rfl
      exact spaces.unshared other isShared member
    rw [Function.update_of_ne differs]
    exact clients other isShared

/-- Writing into pages that clients may write. -/
theorem write_step (spaces : Spaces layout s roots held shared) {a : Nat} (value : Byte)
    (legal : ProcOp.Legal layout roots held shared (.write a value)) :
    Spaces layout (s.withMem (copy s.mem a 1 fun _ => value)) roots held shared := by
  refine spaces.of_entries rfl (List.Sublist.refl _) fun kind free tables areHeld clients => ?_
  have others : ∀ other, layout.IsPage other → ¬ IsClient (kind other) →
      SameOn (copy s.mem a 1 fun _ => value) s.mem other pgSize := by
    intro other isPage notClient
    refine sameOn_copy _ _ _ _ _ _ ?_
    by_contra overlaps
    rcases legal other isPage (by omega) (by omega) with isHeld | isShared
    · exact notClient (Or.inl (areHeld other isHeld))
    · exact notClient (clients other isShared)
  have same : ∀ t path i, kind t = .table path →
      entry (copy s.mem a 1 fun _ => value) t i = entry s.mem t i := by
    intro t path i isTable
    refine entry_congr (others t (tables.isPage isTable) ?_) i
    simp [IsClient, isTable]
  refine ⟨⟨kind, free, tables.rearrange ?_ tables.isFree tables.pages (fun _ _ => Iff.rfl)
    (fun _ isFrame => isFrame) same, areHeld, clients⟩, same⟩
  refine tables.freeList.congr rfl fun other listed => ?_
  refine (others other (tables.freeList.pages other listed) ?_).sub (Nat.le_refl _)
    (by simp [pgSize])
  simp [IsClient, (tables.isFree other).mp listed]

/-- `mapproc` adds an address space to those of the run, or none. -/
theorem mapproc_step (spaces : Spaces layout s roots held shared) :
    wlp mapproc (fun root after =>
      Spaces layout after (if root = 0 then roots else root :: roots) held shared) s := by
  obtain ⟨kind, free, tables, areHeld, clients⟩ := spaces.tables
  refine wlp_mono (mapproc_spec tables) ?_
  rintro root after ⟨sameRoot, notBase, kind', free', afterTables, leaves, kept⟩
  refine ⟨⟨kind', free', sameRoot ▸ afterTables, fun page member => ?_, fun page member => ?_⟩,
    spaces.distinct, spaces.unshared, ?_, ?_⟩
  · have isHeld := areHeld page member
    rw [kept page (by simp [isHeld]), isHeld]
  · have isClient := clients page member
    rwa [kept page (by rcases isClient with is | is <;> simp [is])]
  · rw [sameRoot]
    split
    · exact spaces.apart
    · rw [List.mem_cons, not_or]
      exact ⟨notBase.symm, spaces.apart⟩
  · rw [sameRoot, deviceLeaf, leaves]
    exact spaces.device

/-- A held page that is mapped in an address space is held no more and counts as shared. -/
theorem vmmap_step (spaces : Spaces layout s roots held shared) {root va pa perm : Nat}
    (legal : ProcOp.Legal layout roots held shared (.vmmap root va pa perm)) :
    wlp (vmmap root va pgSize pa perm)
      (fun _ after => Spaces layout after roots (held.erase pa) (pa :: shared)) s := by
  obtain ⟨member, user, isHeld, small⟩ := legal
  obtain ⟨kind, free, tables, areHeld, clients⟩ := spaces.tables
  have isPage : layout.IsPage pa := tables.pages pa (by simp [areHeld pa isHeld])
  have isTop := tables.forest.rootTop root member
  have notBase : root = s.kvmroot → roots = [] := fun same => absurd (same ▸ member) spaces.apart
  have mapped := tables.mapPage_extends va pa perm isTop notBase isPage.1 isPage.2.2 (by omega)
    fun _ => Or.inr (areHeld pa isHeld)
  have kept : ∀ mapped after, PageTables.Extends layout s after s.kvmroot roots kind
      (fun page => mapped = true ∧ page = pa) →
        Spaces layout after roots (held.erase pa) (pa :: shared) := by
    rintro mapped after ⟨kind', free', afterTables, sameRoot, devices, still, stillHeld⟩
    obtain ⟨e, shown, isDevice, isLeaf⟩ := spaces.device
    refine ⟨⟨kind', free', sameRoot ▸ afterTables, fun page rest => ?_, fun page rest => ?_⟩,
      spaces.distinct.erase pa, fun page rest erased => ?_, sameRoot ▸ spaces.apart, e, ?_, isDevice,
      isLeaf⟩
    · obtain ⟨differs, was⟩ := (spaces.distinct.mem_erase_iff).mp rest
      exact stillHeld page (areHeld page was) fun both => differs both.2
    · rcases List.mem_cons.mp rest with rfl | isShared
      · exact still page (Or.inl (areHeld page isHeld))
      · exact still page (clients page isShared)
    · obtain ⟨differs, was⟩ := (spaces.distinct.mem_erase_iff).mp erased
      rcases List.mem_cons.mp rest with rfl | isShared
      · exact differs rfl
      · exact spaces.unshared page isShared was
    · rw [sameRoot]
      exact devices _ _ _ e tables.forest.baseTop rfl shown isDevice
  rw [vmmap]
  split
  · rw [wlp_throw]
    trivial
  · rw [Nat.div_self (by decide : 0 < pgSize), mapPages]
    refine wlp_seq mapped ?_
    rintro done after ⟨extended, -⟩
    rw [mapPages, wlp_ite]
    split
    · exact wlp_pure.mpr (kept done after extended)
    · exact wlp_pure.mpr (kept done after extended)

/-- Each call of a run keeps the address spaces apart. -/
theorem step (spaces : Spaces layout s roots held shared) (op : ProcOp)
    (legal : op.Legal layout roots held shared) :
    wlp (op.exec layout) (fun result after => Spaces layout after (op.rootsAfter roots result)
      (op.heldAfter held result) (op.sharedAfter shared)) s := by
  cases op with
  | kalloc => exact spaces.kalloc_step
  | kfree page =>
    refine wlp_seq (spaces.kfree_step legal) fun _ _ kept => ?_
    exact wlp_pure.mpr kept
  | write a value =>
    rw [ProcOp.exec, wlp_bind, wlp_modify]
    exact wlp_pure.mpr (spaces.write_step value legal)
  | mapproc => exact spaces.mapproc_step
  | vmmap root va pa perm =>
    refine wlp_seq (spaces.vmmap_step legal) fun _ _ kept => ?_
    exact wlp_pure.mpr kept

theorem of_run (run : ProcRun layout s roots held shared) :
    Spaces layout s roots held shared := by
  induction run with
  | boot heap mapped => exact of_boot heap mapped
  | step earlier op legal returned inductionHypothesis =>
    exact inductionHypothesis.step op legal _ _ returned

end Spaces

/-- A process with a root from `mapproc` is not taken apart: the root shows the test
device through tables that `freewalk` enters. -/
theorem Spaces.freeproc_blocked {s : Kernel} {roots held shared : List Nat}
    (spaces : Spaces layout s roots held shared) (p : Proc) (member : p.root ∈ roots)
    (low : p.sz ≤ kernBase)
    (stackLow : p.stackTop ≤ kernBase) (depth : Nat) :
    wlp (freeproc layout depth p) (fun _ _ => False) s := by
  obtain ⟨kind, free, tables, -, -⟩ := spaces.tables
  obtain ⟨e, shown, isDevice, isLeaf⟩ := spaces.device
  rw [freeproc, wlp_bind]
  exact wlp_mono (uvmfree_blocked tables (tables.forest.rootTop p.root member)
    (tables.leafAt_root member shown) isDevice isLeaf depth p.sz p.stackBottom p.stackTop low stackLow)
    fun _ _ never => never.elim

/-- In every state of a run, and for every process with a root from `mapproc` and
its memory at user addresses, `freeproc` does not return. -/
theorem freeproc_never_returns {s : Kernel} {roots held shared : List Nat}
    (run : ProcRun layout s roots held shared) (p : Proc) (member : p.root ∈ roots)
    (low : p.sz ≤ kernBase)
    (stackLow : p.stackTop ≤ kernBase) (depth : Nat) (after : Kernel) :
    ¬ Returns (freeproc layout depth p) s () after :=
  (Spaces.of_run run).freeproc_blocked p member low stackLow depth () after

/-! ## Running `mapproc` on a kernel root with few entries -/

/-- Entries copied in two parts are copied. -/
theorem copyEntries_add (root : Nat) (first second i : Nat) {s after : Kernel}
    (returned : ∃ mid, Returns (copyEntries root first i) s () mid ∧
      Returns (copyEntries root second (i + first)) mid () after) :
    Returns (copyEntries root (first + second) i) s () after := by
  induction first generalizing i s with
  | zero =>
    obtain ⟨mid, headed, rest⟩ := returned
    obtain ⟨-, rfl⟩ := returns_pure.mp headed
    rwa [Nat.zero_add]
  | succ first inductionHypothesis =>
    obtain ⟨mid, headed, rest⟩ := returned
    rw [copyEntries, returns_bind] at headed
    obtain ⟨s', _, got, headed⟩ := headed
    obtain ⟨rfl, rfl⟩ := returns_get.mp got
    obtain ⟨kpte, loaded, isEntry, headed⟩ := returns_bind.mp headed
    obtain ⟨⟨⟩, stored, copied, headed⟩ := returns_bind.mp headed
    rw [Nat.add_right_comm, copyEntries]
    refine returns_bind.mpr ⟨_, _, got, returns_bind.mpr ⟨kpte, loaded, isEntry,
      returns_bind.mpr ⟨(), stored, copied, ?_⟩⟩⟩
    rw [← Nat.add_assoc, Nat.add_right_comm] at rest
    exact inductionHypothesis (i + 1) ⟨mid, headed, rest⟩

/-- The kernel root has no valid entry from `n` on: the lowest bit of each is 0. -/
def UnsetFrom (n : Nat) (s : Kernel) : Prop :=
  ∀ i < 512 - n, InRam (s.kvmroot + 8 * (n + i)) 8 ∧
    (s.mem (s.kvmroot + 8 * (n + i))).toNat % 2 = 0

instance (n : Nat) (s : Kernel) : Decidable (UnsetFrom n s) :=
  inferInstanceAs (Decidable (∀ i < 512 - n, _ ∧ _))

/-- Entries that are not set are not copied. -/
theorem copyEntries_unset (root passes i : Nat) {s : Kernel}
    (unset : ∀ j < passes, InRam (s.kvmroot + 8 * (i + j)) 8 ∧
      (s.mem (s.kvmroot + 8 * (i + j))).toNat % 2 = 0) :
    Returns (copyEntries root passes i) s () s := by
  induction passes generalizing i with
  | zero => exact returns_pure.mpr ⟨rfl, rfl⟩
  | succ passes inductionHypothesis =>
    obtain ⟨inRam, even⟩ := unset 0 (Nat.succ_pos passes)
    rw [Nat.add_zero] at inRam even
    have invalid : ¬ pteValid (load s.mem (s.kvmroot + 8 * i) 8) := by
      rw [pteValid_iff, load]
      omega
    rw [copyEntries]
    refine returns_bind.mpr ⟨s, s, returns_get.mpr ⟨rfl, rfl⟩, returns_bind.mpr
      ⟨_, s, returns_loadField.mpr ⟨inRam, rfl, rfl⟩, returns_bind.mpr ⟨(), s, ?_, ?_⟩⟩⟩
    · rw [onlyIf, if_neg invalid]
      exact returns_pure.mpr ⟨rfl, rfl⟩
    · refine inductionHypothesis (i + 1) fun j less => ?_
      rw [Nat.add_assoc, Nat.add_comm 1 j]
      exact unset (j + 1) (Nat.succ_lt_succ less)

/-- `mapproc` where the kernel root has its entries before `n`: the others are looked
at once and not copied. -/
def mapprocBefore (n : Nat) : KernelProg Nat := do
  let root ← uvmcreate
  if root = 0 then return 0
  else do
    copyEntries root n 0
    let s ← get
    if UnsetFrom n s then return root else throw .badAccess

/-- The copy of the first entries is the whole copy where the others are empty. -/
theorem mapproc_of_before {n root : Nat} {s after : Kernel} (few : n ≤ 512)
    (returned : Returns (mapprocBefore n) s root after) : Returns mapproc s root after := by
  rw [mapprocBefore, returns_bind] at returned
  obtain ⟨made, mid, created, returned⟩ := returned
  refine returns_bind.mpr ⟨made, mid, created, ?_⟩
  split at returned
  · rwa [if_pos ‹_›]
  · obtain ⟨⟨⟩, copied, headed, returned⟩ := returns_bind.mp returned
    obtain ⟨s', _, got, returned⟩ := returns_bind.mp returned
    obtain ⟨rfl, rfl⟩ := returns_get.mp got
    split at returned
    · rename_i unset
      obtain ⟨rfl, rfl⟩ := returns_pure.mp returned
      rw [if_neg ‹_›]
      refine returns_bind.mpr ⟨(), _, ?_, returns_pure.mpr ⟨rfl, rfl⟩⟩
      have whole := copyEntries_add made n (512 - n) 0 ⟨_, headed,
        copyEntries_unset made (512 - n) (0 + n) (by rwa [Nat.zero_add])⟩
      rwa [Nat.add_sub_cancel' few] at whole
    · exact (returns_throw.mp returned).elim

/-- A kernel image at the end of memory, with 20 pages after it, so that boot can be evaluated.
`linker.ld` never gives this one: it starts the image at `0x80200000`. -/
def tinyLayout : Layout where
  stext := 0x87FE8000
  etext := 0x87FE9000
  erodata := 0x87FEA000
  edata := 0x87FEB000
  ekernel := 0x87FEC000
  stextLow := by decide
  text := by decide
  rodata := by decide
  data := by decide
  bss := by decide
  kernelEnd := by decide
  stextAligned := by decide
  etextAligned := by decide
  erodataAligned := by decide
  edataAligned := by decide
  ekernelAligned := by decide

/-- Boot and the pages of the first process. -/
def firstProc : KernelProg Proc := do
  kinit tinyLayout
  kvminit tinyLayout
  let kstack ← kalloc
  let root ← mapproc
  return ⟨0, 1, kstack, root, 0, 0, 0⟩

/-- The same where only the first three entries of the kernel root are copied. -/
def firstProcBefore : KernelProg Proc := do
  kinit tinyLayout
  kvminit tinyLayout
  let kstack ← kalloc
  let root ← mapprocBefore 3
  return ⟨0, 1, kstack, root, 0, 0, 0⟩

theorem firstProc_of_before {s after : Kernel} {p : Proc}
    (returned : Returns firstProcBefore s p after) : Returns firstProc s p after := by
  obtain ⟨⟨⟩, mid, heap, returned⟩ := returns_bind.mp returned
  obtain ⟨⟨⟩, last, mapped, returned⟩ := returns_bind.mp returned
  obtain ⟨kstack, stacked, taken, returned⟩ := returns_bind.mp returned
  obtain ⟨root, rooted, made, returned⟩ := returns_bind.mp returned
  exact returns_bind.mpr ⟨(), mid, heap, returns_bind.mpr ⟨(), last, mapped, returns_bind.mpr
    ⟨kstack, stacked, taken, returns_bind.mpr
      ⟨root, rooted, mapproc_of_before (by decide) made, returned⟩⟩⟩⟩

/-- The message of a panic. -/
def panicText {α : Type} : Except Fault α → Option String
  | .error (.panic text) => some text
  | _ => none

/-- The first process exists, and taking it apart panics. -/
theorem exists_firstProc : ∃ s p held shared, ProcRun tinyLayout s [p.root] held shared ∧
    p.sz = 0 ∧ p.stackTop = 0 ∧ panicText (freeproc tinyLayout 3 p s) = some "freewalk: leaf" := by
  have booted : ((firstProcBefore (Kernel.boot fun _ => 0)).toOption.map fun result =>
      (decide (result.1.root = 0), panicText (freeproc tinyLayout 3 result.1 result.2))) =
      some (false, some "freewalk: leaf") := by
    decide +kernel
  cases ran : firstProcBefore (Kernel.boot fun _ => 0) with
  | error fault =>
    rw [ran] at booted
    cases booted
  | ok result =>
    obtain ⟨p, s⟩ := result
    rw [ran] at booted
    simp only [Except.toOption, Option.map_some, Option.some.injEq, Prod.mk.injEq,
      decide_eq_false_iff_not] at booted
    have returned : Returns firstProc (Kernel.boot fun _ => 0) p s := firstProc_of_before ran
    rw [firstProc, returns_bind] at returned
    obtain ⟨⟨⟩, mid, heap, returned⟩ := returned
    obtain ⟨⟨⟩, last, mapped, returned⟩ := returns_bind.mp returned
    obtain ⟨kstack, stacked, taken, returned⟩ := returns_bind.mp returned
    obtain ⟨root, rooted, made, returned⟩ := returns_bind.mp returned
    obtain ⟨rfl, rfl⟩ := returns_pure.mp returned
    have run := ((ProcRun.boot heap mapped).step .kalloc trivial taken).step .mapproc trivial made
    have roots : ProcOp.rootsAfter (ProcOp.rootsAfter [] kstack .kalloc) root .mapproc = [root] :=
      if_neg booted.1
    rw [roots] at run
    exact ⟨rooted, _, _, _, run, rfl, rfl, booted.2⟩

/-- The theorem for a process with nothing mapped yet. -/
theorem firstProc_never_returns : ∃ s p held shared, ProcRun tinyLayout s [p.root] held shared ∧
    ∀ depth after, ¬ Returns (freeproc tinyLayout depth p) s () after := by
  obtain ⟨s, p, held, shared, run, isSz, isTop, -⟩ := exists_firstProc
  refine ⟨s, p, held, shared, run, fun depth after => ?_⟩
  exact freeproc_never_returns run p (List.mem_cons_self ..) (by rw [isSz]; exact Nat.zero_le _)
    (by rw [isTop]; exact Nat.zero_le _) depth after

/-- Not every process is taken apart: the first one ends in a panic. -/
theorem firstProc_panics : ¬ ∀ (layout : Layout) s roots held shared,
    ProcRun layout s roots held shared → ∀ p, p.root ∈ roots → p.sz ≤ kernBase → p.stackTop ≤ kernBase →
      ∀ depth text, freeproc layout depth p s ≠ .error (.panic text) := by
  intro safe
  obtain ⟨s, p, held, shared, run, isSz, isTop, panics⟩ := exists_firstProc
  cases ended : freeproc tinyLayout 3 p s with
  | ok result =>
    rw [ended] at panics
    cases panics
  | error fault =>
    cases fault with
    | panic text =>
      exact safe tinyLayout s [p.root] held shared run p (List.mem_cons_self ..)
        (by rw [isSz]; exact Nat.zero_le _) (by rw [isTop]; exact Nat.zero_le _) 3 text ended
    | badAccess =>
      rw [ended] at panics
      cases panics
    | outOfFuel =>
      rw [ended] at panics
      cases panics

end CuteCore

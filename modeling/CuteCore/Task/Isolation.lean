import CuteCore.Task.Teardown

/-!
# Isolation of address spaces

A root shares the tables of the kernel behind every link of the kernel root. A
mapping made through one root is seen through no other as long as it stays in
the slots that the kernel root leaves empty. The user stack ends at `KERNBASE`,
in the slot of the kernel image, and is seen by all.
-/

namespace CuteCore

open Hoare Bytes RadixForest

variable {layout : Layout}

/-- What an operation on `root` keeps when it stays in vacant slots. -/
def Private (layout : Layout) (s after : Kernel) (base : Nat) (roots : List Nat)
    (kind : Nat → PageKind) (root : Nat) (used : Nat → Prop) : Prop :=
  ∃ kind' free', PageTables layout userPages after base roots kind' free' ∧
    after.kvmroot = s.kvmroot ∧ Isolated s after base root kind ∧
    ∀ page, kind page = .other .held → ¬ used page → kind' page = .other .held

section Operations

variable {s : Kernel} {base root : Nat} {roots : List Nat} {kind : Nat → PageKind} {free : List Nat}

theorem private_refl (tables : PageTables layout userPages s base roots kind free)
    (used : Nat → Prop) : Private layout s s base roots kind root used :=
  ⟨kind, free, tables, rfl, ⟨fun _ => rfl, fun _ _ _ _ => rfl⟩, fun _ isHeld _ => isHeld⟩

/-- Two operations one after the other. -/
theorem Private.trans {mid after : Kernel} {used more : Nat → Prop} {kind₁ : Nat → PageKind}
    {free₁ : List Nat} (tables : PageTables layout userPages s base roots kind free)
    (midTables : PageTables layout userPages mid base roots kind₁ free₁)
    (sameRoot : mid.kvmroot = s.kvmroot) (isolated : Isolated s mid base root kind)
    (stillHeld : ∀ page, kind page = .other .held → ¬ used page → kind₁ page = .other .held)
    (second : Private layout mid after base roots kind₁ root more) :
    Private layout s after base roots kind root (fun page => used page ∨ more page) := by
  obtain ⟨kind₂, free₂, afterTables, sameRoot', isolated', stillHeld'⟩ := second
  refine ⟨kind₂, free₂, afterTables, sameRoot'.trans sameRoot, ⟨fun i => ?_, ?_⟩, ?_⟩
  · exact (isolated'.1 i).trans (isolated.1 i)
  · intro r va isTop differs
    exact (isolated'.2 r va (tables.stillTop midTables r isTop) differs).trans
      (isolated.2 r va isTop differs)
  · intro page isHeld notUsed
    rw [not_or] at notUsed
    exact stillHeld' page (stillHeld page isHeld notUsed.1) notUsed.2

theorem Private.weaken {after : Kernel} {used more : Nat → Prop}
    (is : Private layout s after base roots kind root used) (sub : ∀ page, used page → more page) :
    Private layout s after base roots kind root more := by
  obtain ⟨kind', free', tables, sameRoot, isolated, stillHeld⟩ := is
  exact ⟨kind', free', tables, sameRoot, isolated, fun page isHeld notMore =>
    stillHeld page isHeld fun used => notMore (sub page used)⟩

/-- Unmapping in vacant slots. -/
theorem private_of_unmaps {after : Kernel} {release : Bool} {low high : Nat}
    (unmaps : Unmaps layout s after base roots kind root release low high)
    (vacant : Vacant s base low high) :
    Private layout s after base roots kind root (fun _ => False) := by
  obtain ⟨kind', free', afterTables, sameRoot, stillHeld, -, isolates⟩ := unmaps
  exact ⟨kind', free', afterTables, sameRoot, isolates vacant, fun page isHeld _ =>
    stillHeld page isHeld⟩

variable (tables : PageTables layout userPages s base roots kind free) (isTop : kind root = .table [])
  (notBase : root ≠ base) (some : roots ≠ [])

include tables isTop notBase some

/-- One page of `vmmap`. -/
theorem mapPage_private (va pa perm : Nat) (isHeld : kind pa = .other .held) (small : perm < 2 ^ 10)
    (vacant : (tableSlots s.mem).link base (index 2 va) = none) :
    wlp (mapPage root va pa perm) (fun mapped after =>
      Private layout s after base roots kind root (fun page => mapped = true ∧ page = pa)) s := by
  have isPage : layout.IsPage pa := tables.pages pa (by simp [isHeld])
  refine wlp_mono (tables.mapPage_extends va pa perm isTop (fun same => absurd same notBase)
    isPage.1 isPage.2.2 small fun _ => Or.inr isHeld) ?_
  rintro mapped after ⟨⟨kind', free', afterTables, sameRoot, -, -, stillHeld⟩, -, isolated⟩
  exact ⟨kind', free', afterTables, sameRoot, isolated some vacant, stillHeld⟩

/-- The loop of `vmmap`. -/
theorem mapPages_private (perm passes va pa : Nat) (user : va + passes * pgSize ≤ kernBase)
    (small : perm < 2 ^ 10) (areHeld : ∀ i < passes, kind (pa + i * pgSize) = .other .held)
    (vacant : Vacant s base va (va + passes * pgSize)) :
    wlp (mapPages root perm passes va pa) (fun _ after =>
      Private layout s after base roots kind root
        (fun page => ∃ i < passes, page = pa + i * pgSize)) s := by
  induction passes generalizing s kind free va pa with
  | zero =>
    rw [mapPages, wlp_pure]
    exact private_refl tables _
  | succ passes inductionHypothesis =>
    have first : kind pa = .other .held := by
      have isHeld := areHeld 0 (Nat.succ_pos _)
      rwa [Nat.zero_mul, Nat.add_zero] at isHeld
    have isPage : layout.IsPage pa := tables.pages pa (by simp [first])
    have inside := isPage.2.2
    have next : (va + pgSize) % 2 ^ 64 = va + pgSize := by
      simp only [pgSize, kernBase] at *
      omega
    have nextPage : (pa + pgSize) % 2 ^ 64 = pa + pgSize := by
      simp only [pgSize, phyEnd] at *
      omega
    have here := vacant va (Nat.le_refl _) (by simp only [pgSize]; omega)
    rw [mapPages, next, nextPage]
    refine wlp_seq (mapPage_private tables isTop notBase some va pa perm first small here) ?_
    rintro mapped mid is
    obtain ⟨kind₁, free₁, midTables, sameRoot, isolated, stillHeld⟩ := is
    cases mapped with
    | false =>
      rw [if_neg Bool.false_ne_true, wlp_pure]
      exact ⟨kind₁, free₁, midTables, sameRoot, isolated, fun page isHeld _ =>
        stillHeld page isHeld fun both => Bool.false_ne_true both.1⟩
    | true =>
      have later : ∀ i < passes, kind₁ (pa + pgSize + i * pgSize) = .other .held := by
        intro i less
        have isHeld := areHeld (i + 1) (by omega)
        have same : pa + (i + 1) * pgSize = pa + pgSize + i * pgSize := by
          rw [Nat.add_mul, Nat.one_mul]
          omega
        rw [same] at isHeld
        refine stillHeld _ isHeld fun both => ?_
        have equal := both.2
        simp only [pgSize] at equal
        omega
      have upTo : va + pgSize + passes * pgSize = va + (passes + 1) * pgSize := by
        rw [Nat.add_mul, Nat.one_mul]
        omega
      rw [if_pos rfl]
      refine wlp_mono (inductionHypothesis midTables (tables.stillTop midTables root isTop)
        (va + pgSize) (pa + pgSize) (by rw [upTo]; exact user) later
        ((vacant.kept isolated).sub (Nat.le_add_right ..) (Nat.le_of_eq upTo))) ?_
      rintro - after rest
      refine (Private.trans tables midTables sameRoot isolated stillHeld rest).weaken ?_
      rintro page (⟨-, rfl⟩ | ⟨i, less, rfl⟩)
      · exact ⟨0, Nat.succ_pos _, by rw [Nat.zero_mul, Nat.add_zero]⟩
      · refine ⟨i + 1, by omega, ?_⟩
        rw [Nat.add_mul, Nat.one_mul]
        omega

/-- `vmmap` of held pages in empty slots of the kernel's root stays inside the tree it was called
for. -/
theorem vmmap_private (va size pa perm : Nat) (user : va + size ≤ kernBase) (small : perm < 2 ^ 10)
    (areHeld : ∀ i < size / pgSize, kind (pa + i * pgSize) = .other .held)
    (vacant : Vacant s base va (va + size)) :
    wlp (vmmap root va size pa perm) (fun _ after =>
      Private layout s after base roots kind root
        (fun page => ∃ i < size / pgSize, page = pa + i * pgSize)) s := by
  have whole := Nat.div_mul_le_self size pgSize
  rw [vmmap]
  split
  · rw [wlp_throw]
    trivial
  · exact mapPages_private tables isTop notBase some perm _ va pa (by omega) small areHeld
      (vacant.sub (Nat.le_refl _) (by omega))

/-- `vmmap` of one page keeps the page when it fails. -/
theorem vmmapPage_private (va pa perm : Nat) (isHeld : kind pa = .other .held)
    (small : perm < 2 ^ 10) (vacant : (tableSlots s.mem).link base (index 2 va) = none) :
    wlp (vmmap root va pgSize pa perm) (fun mapped after =>
      Private layout s after base roots kind root (fun page => mapped = true ∧ page = pa)) s := by
  rw [vmmap]
  split
  · rw [wlp_throw]
    trivial
  · rw [Nat.div_self (by decide : 0 < pgSize), mapPages]
    refine wlp_seq (mapPage_private tables isTop notBase some va pa perm isHeld small vacant) ?_
    rintro mapped after is
    cases mapped with
    | false =>
      rw [if_neg Bool.false_ne_true, wlp_pure]
      exact is
    | true =>
      rw [if_pos rfl, mapPages, wlp_pure]
      exact is

omit notBase some

/-- `uvmdealloc` in empty slots of the kernel's root stays inside the tree it was called for. -/
theorem uvmdealloc_private (oldsz newsz : Nat) (user : pgRoundUp oldsz ≤ kernBase)
    (vacant : Vacant s base (pgRoundUp newsz) (pgRoundUp oldsz)) :
    wlp (uvmdealloc layout root oldsz newsz) (fun _ after =>
      Private layout s after base roots kind root (fun _ => False)) s := by
  rw [uvmdealloc]
  split
  · rw [wlp_pure]
    exact private_refl tables _
  · have pages : wlp (onlyIf (pgRoundUp newsz < pgRoundUp oldsz)
        (uvmunmap layout root (pgRoundUp newsz)
          (toI32 ((pgRoundUp oldsz - pgRoundUp newsz) / pgSize)) true)) (fun _ after =>
        Private layout s after base roots kind root (fun _ => False)) s := by
      rw [wlp_onlyIf]
      split
      · rename_i shrinks
        have fewer := Nat.div_mul_le_self (pgRoundUp oldsz - pgRoundUp newsz) pgSize
        have isCount : toI32 ((pgRoundUp oldsz - pgRoundUp newsz) / pgSize) =
            (pgRoundUp oldsz - pgRoundUp newsz) / pgSize := by
          have small : (pgRoundUp oldsz - pgRoundUp newsz) / pgSize < 2 ^ 31 := by
            simp only [kernBase, pgSize] at *
            omega
          rw [toI32, Nat.mod_eq_of_lt (by omega), if_pos small]
        rw [isCount]
        refine wlp_mono (tables.uvmunmap_spec isTop true _ _ (by omega)) ?_
        rintro - after unmaps
        exact private_of_unmaps unmaps (vacant.sub (Nat.le_refl _) (by omega))
      · exact private_refl tables _
    refine wlp_seq pages ?_
    rintro - after is
    exact wlp_pure.mpr is

end Operations

/-- Operations that write into no table. -/
theorem PageTables.isolated_of_entries {s after : Kernel} {base : Nat} {roots : List Nat}
    {kind : Nat → PageKind} {free : List Nat}
    (tables : PageTables layout userPages s base roots kind free) (root : Nat)
    (same : ∀ t path i, kind t = .table path → entry after.mem t i = entry s.mem t i) :
    Isolated s after base root kind :=
  ⟨fun i => (slots_of_entry (same base [] i tables.forest.baseTop)).1,
    fun _ va isTop _ => tables.leafAt_congr isTop same va⟩

theorem pgRoundUp_aligned {a : Nat} (aligned : a % pgSize = 0) (small : a < 2 ^ 63) :
    pgRoundUp a = a := by
  simp only [pgRoundUp, pgSize] at *
  omega

/-- The loop of `uvmalloc`. The pages it takes become frames or go back. -/
theorem allocPages_private {s : Kernel} {base root : Nat} {roots : List Nat} {kind : Nat → PageKind}
    {free : List Nat} (tables : PageTables layout userPages s base roots kind free)
    (isTop : kind root = .table []) (notBase : root ≠ base) (some : roots ≠ [])
    (oldsz newsz perm size : Nat) (user : newsz ≤ kernBase) (small : perm < 2 ^ 10)
    (rounded : oldsz % pgSize = 0) (aligned : size % pgSize = 0) (start : oldsz ≤ size)
    (vacant : Vacant s base oldsz newsz) :
    wlp (allocPages layout root oldsz newsz perm size) (fun _ after =>
      Private layout s after base roots kind root (fun _ => False)) s := by
  have flags : pteR ||| pteV ||| perm < 2 ^ 10 := Nat.or_lt_two_pow (by decide) small
  induction gap : newsz - size using Nat.strong_induction_on generalizing s kind free size with
  | _ gap inductionHypothesis =>
    rw [allocPages]
    split
    · rename_i more
      -- The pages mapped so far are unmapped when the loop gives up.
      have undo : ∀ mid kind₁ free₁, PageTables layout userPages mid base roots kind₁ free₁ →
          kind₁ root = .table [] → Vacant mid base oldsz newsz →
          wlp (uvmdealloc layout root size oldsz) (fun _ after =>
            Private layout mid after base roots kind₁ root (fun _ => False)) mid := by
        intro mid kind₁ free₁ midTables midTop midVacant
        simp only [kernBase] at user
        have isSize : pgRoundUp size = size := pgRoundUp_aligned aligned (by omega)
        have isOld : pgRoundUp oldsz = oldsz := pgRoundUp_aligned rounded (by omega)
        refine uvmdealloc_private midTables midTop size oldsz ?_ ?_
        · rw [isSize, kernBase]
          omega
        · rw [isSize, isOld]
          exact midVacant.sub (Nat.le_refl _) (by omega)
      refine wlp_bind.mpr fun mem mid taken => ?_
      cases free with
      | nil =>
        obtain ⟨isNull, isMid⟩ := (kalloc_empty tables.freeList).of_returns taken
        rw [if_pos isNull, isMid]
        refine wlp_seq (undo s kind [] tables isTop vacant) ?_
        rintro - after is
        exact wlp_pure.mpr is
      | cons page free =>
        obtain ⟨rfl, rfl, -⟩ := (kalloc_cons tables.freeList).of_returns taken
        have isPage := tables.freeList.pages mem (List.mem_cons_self ..)
        have isFree := (tables.isFree mem).mp (List.mem_cons_self ..)
        have takenTables := tables.take
        have isolated := tables.isolated_of_entries root tables.popPage_entries
        have takenTop := tables.stillTop takenTables root isTop
        have takenVacant := vacant.kept isolated
        have memHeld : Function.update kind mem (.other .held) mem = .other .held :=
          Function.update_self ..
        rw [if_neg isPage.ne_zero]
        have rest : wlp (do
            let mapped ← vmmap root size pgSize mem (pteR ||| pteV ||| perm)
            if mapped then allocPages layout root oldsz newsz perm (size + pgSize)
            else do
              kfree layout mem
              let _ ← uvmdealloc layout root size oldsz
              return 0) (fun _ after => Private layout s.popPage after base roots
                (Function.update kind mem (.other .held)) root (fun page => page = mem))
            s.popPage := by
          refine wlp_seq (vmmapPage_private takenTables takenTop notBase some size mem _ memHeld flags
            (takenVacant size start more)) ?_
          rintro mapped mid ⟨kind₁, free₁, midTables, sameRoot, isolated₁, stillHeld₁⟩
          have midTop := takenTables.stillTop midTables root takenTop
          have midVacant := takenVacant.kept isolated₁
          cases mapped with
          | false =>
            have stillMem := stillHeld₁ mem memHeld fun both => Bool.false_ne_true both.1
            rw [if_neg Bool.false_ne_true, wlp_bind]
            rintro ⟨⟩ freed returned
            obtain ⟨memPage, rfl⟩ := returns_kfree returned
            have freedTables := midTables.give mem stillMem
            have isolated₂ := midTables.isolated_of_entries root
              (midTables.pushPage_entries memPage (by simp [stillMem]))
            refine wlp_seq (undo _ _ _ freedTables (midTables.stillTop freedTables root midTop)
              (midVacant.kept isolated₂)) ?_
            rintro - after is
            rw [wlp_pure]
            have second : Private layout mid after base roots kind₁ root
                (fun page => page = mem ∨ False) :=
              Private.trans midTables freedTables rfl isolated₂
                (fun page isHeld other => by rw [Function.update_of_ne other, isHeld]) is
            refine (Private.trans takenTables midTables sameRoot isolated₁ stillHeld₁ second).weaken ?_
            rintro page (⟨-, same⟩ | same | no)
            · exact same
            · exact same
            · exact no.elim
          | true =>
            rw [if_pos rfl]
            have nextAligned : (size + pgSize) % pgSize = 0 := by
              rw [Nat.add_mod_right, aligned]
            refine wlp_mono (inductionHypothesis (newsz - (size + pgSize))
              (by simp only [pgSize]; omega) midTables midTop (size + pgSize) nextAligned (by omega)
              midVacant rfl) ?_
            rintro - after is
            refine (Private.trans takenTables midTables sameRoot isolated₁ stillHeld₁ is).weaken ?_
            rintro page (⟨-, same⟩ | no)
            · exact same
            · exact no.elim
        refine wlp_mono rest ?_
        rintro - after is
        have stillHeld : ∀ page, kind page = .other .held → ¬ False →
            Function.update kind mem (.other .held) page = .other .held := by
          intro page isHeld _
          by_cases same : page = mem
          · subst same
            exact memHeld
          · rw [Function.update_of_ne same, isHeld]
        obtain ⟨kind', free', afterTables, sameRoot, isolated', kept⟩ :=
          Private.trans tables takenTables rfl isolated stillHeld is
        refine ⟨kind', free', afterTables, sameRoot, isolated', fun page isHeld _ => kept page isHeld ?_⟩
        rintro (no | rfl)
        · exact no
        · rw [isFree] at isHeld
          cases isHeld
    · rw [wlp_pure]
      exact private_refl tables _

/-- `uvmalloc` in empty slots of the kernel's root stays inside the tree it was called for. -/
theorem uvmalloc_private {s : Kernel} {base root : Nat} {roots : List Nat} {kind : Nat → PageKind}
    {free : List Nat} (tables : PageTables layout userPages s base roots kind free)
    (isTop : kind root = .table []) (notBase : root ≠ base) (some : roots ≠ [])
    (oldsz newsz perm : Nat) (user : newsz ≤ kernBase) (small : perm < 2 ^ 10)
    (vacant : Vacant s base (pgRoundUp oldsz) newsz) :
    wlp (uvmalloc layout root oldsz newsz perm) (fun _ after =>
      Private layout s after base roots kind root (fun _ => False)) s := by
  have aligned : pgRoundUp oldsz % pgSize = 0 := Nat.mul_mod_left _ _
  rw [uvmalloc]
  split
  · rw [wlp_pure]
    exact private_refl tables _
  · exact allocPages_private tables isTop notBase some _ newsz perm _ user small aligned aligned
      (Nat.le_refl _) vacant

/-! ## Runs of mappings through one root -/

/-- What is mapped and unmapped through a root, and the pages taken for it. -/
inductive MapOp where
  | kalloc
  | vmmap (va size pa perm : Nat)
  | uvmalloc (oldsz newsz perm : Nat)
  | uvmunmap (va pagenum : Nat) (release : Bool)

/-- User addresses, and pages that are held. -/
def MapOp.Legal (held : List Nat) : MapOp → Prop
  | .kalloc => True
  | .vmmap va size pa perm => va + size ≤ kernBase ∧ perm < 2 ^ 8 ∧
      ∀ i < size / pgSize, pa + i * pgSize ∈ held
  | .uvmalloc _ newsz perm => newsz ≤ kernBase ∧ perm < 2 ^ 8
  | .uvmunmap va pagenum _ => va + pagenum * pgSize ≤ kernBase

/-- The addresses lie in slots that the kernel root leaves empty. -/
def MapOp.Stays (s : Kernel) : MapOp → Prop
  | .kalloc => True
  | .vmmap va size _ _ => Vacant s s.kvmroot va (va + size)
  | .uvmalloc oldsz newsz _ => Vacant s s.kvmroot (pgRoundUp oldsz) newsz
  | .uvmunmap va pagenum _ => Vacant s s.kvmroot va (va + pagenum * pgSize)

variable (layout) in
def MapOp.exec (root : Nat) : MapOp → KernelProg Nat
  | .kalloc => CuteCore.kalloc
  | .vmmap va size pa perm => do
    let _ ← CuteCore.vmmap root va size pa perm
    return 0
  | .uvmalloc oldsz newsz perm => CuteCore.uvmalloc layout root oldsz newsz perm
  | .uvmunmap va pagenum release => do
    CuteCore.uvmunmap layout root va pagenum release
    return 0

def MapOp.heldAfter (held : List Nat) (result : Nat) : MapOp → List Nat
  | .kalloc => if result = 0 then held else result :: held
  | .vmmap _ size pa _ => held.filter fun page => decide (∀ i < size / pgSize, page ≠ pa + i * pgSize)
  | _ => held

/-- Calls on one root from `start` on, each under the condition `allowed`. -/
inductive MapRun (layout : Layout) (allowed : Kernel → MapOp → Prop) (root : Nat) (start : Kernel)
    (initial : List Nat) : Kernel → List Nat → Prop where
  | start : MapRun layout allowed root start initial start initial
  | step {s after : Kernel} {held : List Nat} {result : Nat}
      (earlier : MapRun layout allowed root start initial s held) (op : MapOp)
      (legal : op.Legal held) (stays : allowed s op)
      (returned : Returns (op.exec layout root) s result after) :
      MapRun layout allowed root start initial after (op.heldAfter held result)

/-- The kernel root and the other roots show what they showed. -/
def OthersSame (s after : Kernel) (roots : List Nat) (root : Nat) : Prop :=
  after.kvmroot = s.kvmroot ∧ ∀ q va, q = s.kvmroot ∨ q ∈ roots ∧ q ≠ root →
    leafAt after.mem q va = leafAt s.mem q va

namespace Spaces

variable {s : Kernel} {root : Nat} {roots held : List Nat}

/-- An operation in vacant slots. -/
theorem of_private (spaces : Spaces layout s roots held []) (member : root ∈ roots)
    {kind : Nat → PageKind} {free : List Nat}
    (tables : PageTables layout userPages s s.kvmroot roots kind free)
    (areHeld : ∀ page ∈ held, kind page = .other .held) {after : Kernel} {used : Nat → Prop}
    {held' : List Nat} (is : Private layout s after s.kvmroot roots kind root used)
    (distinct : held'.Nodup) (rest : ∀ page ∈ held', page ∈ held ∧ ¬ used page) :
    Spaces layout after roots held' [] ∧ OthersSame s after roots root := by
  obtain ⟨kind', free', afterTables, sameRoot, isolated, stillHeld⟩ := is
  have notBase : s.kvmroot ≠ root := by
    rintro same
    exact spaces.apart (same ▸ member)
  have baseTop := tables.forest.baseTop
  refine ⟨⟨⟨kind', free', sameRoot ▸ afterTables, fun page still => ?_,
    fun _ none => absurd none List.not_mem_nil⟩, distinct, fun _ none => absurd none List.not_mem_nil,
    sameRoot ▸ spaces.apart, ?_⟩, sameRoot, ?_⟩
  · obtain ⟨was, notUsed⟩ := rest page still
    exact stillHeld page (areHeld page was) notUsed
  · rw [sameRoot, deviceLeaf, isolated.2 _ _ baseTop notBase]
    exact spaces.device
  · rintro q va (rfl | ⟨isRoot, differs⟩)
    · exact isolated.2 _ va baseTop notBase
    · exact isolated.2 q va (tables.forest.rootTop q isRoot) differs

/-- One mapping call on a root in empty slots keeps the address spaces apart and changes no
translation of the others. -/
theorem map_step (spaces : Spaces layout s roots held []) (member : root ∈ roots) (op : MapOp)
    (legal : op.Legal held) (stays : op.Stays s) :
    wlp (op.exec layout root) (fun result after =>
      Spaces layout after roots (op.heldAfter held result) [] ∧ OthersSame s after roots root) s := by
  obtain ⟨kind, free, tables, areHeld, -⟩ := spaces.tables
  have isTop := tables.forest.rootTop root member
  have notBase : root ≠ s.kvmroot := by
    rintro rfl
    exact spaces.apart member
  have some : roots ≠ [] := List.ne_nil_of_mem member
  have all : ∀ page ∈ held, page ∈ held ∧ ¬ False := fun page isHeld => ⟨isHeld, not_false⟩
  cases op with
  | kalloc =>
    intro page after returned
    refine ⟨spaces.kalloc_step page after returned, ?_⟩
    cases free with
    | nil =>
      obtain ⟨-, rfl⟩ := (kalloc_empty tables.freeList).of_returns returned
      exact ⟨rfl, fun _ _ _ => rfl⟩
    | cons first free =>
      obtain ⟨-, rfl, -⟩ := (kalloc_cons tables.freeList).of_returns returned
      refine ⟨rfl, fun q va other => tables.leafAt_congr ?_ tables.popPage_entries va⟩
      rcases other with rfl | ⟨isRoot, -⟩
      · exact tables.forest.baseTop
      · exact tables.forest.rootTop q isRoot
  | vmmap va size pa perm =>
    obtain ⟨user, flags, pages⟩ := legal
    have small : perm < 2 ^ 10 := Nat.lt_trans flags (by decide)
    refine wlp_seq (vmmap_private tables isTop notBase some va size pa perm user small
      (fun i less => areHeld _ (pages i less)) stays) ?_
    rintro mapped after is
    rw [wlp_pure]
    refine spaces.of_private member tables areHeld is (spaces.distinct.filter _) fun page rest => ?_
    obtain ⟨isHeld, notUsed⟩ := List.mem_filter.mp rest
    refine ⟨isHeld, ?_⟩
    rintro ⟨i, less, rfl⟩
    exact of_decide_eq_true notUsed i less rfl
  | uvmalloc oldsz newsz perm =>
    refine wlp_mono (uvmalloc_private tables isTop notBase some oldsz newsz perm legal.1
      (Nat.lt_trans legal.2 (by decide)) stays) ?_
    rintro size after is
    exact spaces.of_private member tables areHeld is spaces.distinct all
  | uvmunmap va pagenum release =>
    refine wlp_seq (tables.uvmunmap_spec isTop release va pagenum legal) ?_
    rintro - after unmaps
    rw [wlp_pure]
    exact spaces.of_private member tables areHeld (private_of_unmaps unmaps stays) spaces.distinct all

/-- A run of mapping calls on one root keeps the address spaces apart and changes nothing of the
others. -/
theorem of_mapRun {start : Kernel} {initial : List Nat}
    (spaces : Spaces layout start roots initial []) (member : root ∈ roots)
    (run : MapRun layout (fun s op => op.Stays s) root start initial s held) :
    Spaces layout s roots held [] ∧ OthersSame start s roots root := by
  induction run with
  | start => exact ⟨spaces, rfl, fun _ _ _ => rfl⟩
  | step earlier op legal stays returned inductionHypothesis =>
    obtain ⟨before, sameRoot, same⟩ := inductionHypothesis
    obtain ⟨afterSpaces, sameRoot', same'⟩ :=
      before.map_step member op legal stays _ _ returned
    refine ⟨afterSpaces, sameRoot'.trans sameRoot, fun q va other => ?_⟩
    refine (same' q va ?_).trans (same q va other)
    rwa [sameRoot]

end Spaces

/-- Calls on one root in slots that the kernel root leaves empty change the
translation of no address under another root or under the kernel root. -/
theorem mappings_isolated {start s : Kernel} {root : Nat} {roots initial shared held : List Nat}
    (booted : ProcRun layout start roots initial shared) (member : root ∈ roots)
    (run : MapRun layout (fun s op => op.Stays s) root start initial s held) (q va : Nat)
    (other : q = start.kvmroot ∨ q ∈ roots ∧ q ≠ root) :
    leafAt s.mem q va = leafAt start.mem q va :=
  ((Spaces.of_run booted).forget.of_mapRun member run).2.2 q va other

/-- Boot, two address spaces and a page, on an image that `linker.ld` never gives: it leaves few
pages to boot with. The code that fails does not read where the image stands. -/
def twoSpaces : KernelProg (Nat × Nat × Nat) := do
  kinit tinyLayout
  kvminit tinyLayout
  let p ← mapproc
  let q ← mapproc
  let page ← kalloc
  return (p, q, page)

/-- The same where only the first three entries of the kernel root are copied. -/
def twoSpacesBefore : KernelProg (Nat × Nat × Nat) := do
  kinit tinyLayout
  kvminit tinyLayout
  let p ← mapprocBefore 3
  let q ← mapprocBefore 3
  let page ← kalloc
  return (p, q, page)

theorem twoSpaces_of_before {s after : Kernel} {result : Nat × Nat × Nat}
    (returned : Returns twoSpacesBefore s result after) : Returns twoSpaces s result after := by
  obtain ⟨⟨⟩, mid, heap, returned⟩ := returns_bind.mp returned
  obtain ⟨⟨⟩, last, mapped, returned⟩ := returns_bind.mp returned
  obtain ⟨p, s₁, madeP, returned⟩ := returns_bind.mp returned
  obtain ⟨q, s₂, madeQ, returned⟩ := returns_bind.mp returned
  exact returns_bind.mpr ⟨(), mid, heap, returns_bind.mpr ⟨(), last, mapped, returns_bind.mpr
    ⟨p, s₁, mapproc_of_before (by decide) madeP, returns_bind.mpr
      ⟨q, s₂, mapproc_of_before (by decide) madeQ, returned⟩⟩⟩⟩

/-- The upper page of the user stack. -/
def stackPage : Nat := kernBase - pgSize

/-- The first page of the slot that the kernel leaves empty. -/
def privatePage : Nat := 2 ^ 30

def mapUser (root va page : Nat) : KernelProg Bool :=
  vmmap root va pgSize page (pteR ||| pteW ||| pteU ||| pteV)

/-- The root `q` shows the stack page only after it was mapped. -/
def StackSeen (p q page : Nat) (s after : Kernel) : Prop :=
  (p ≠ 0 ∧ q ≠ 0 ∧ page ≠ 0 ∧ p ≠ q) ∧ leafAt s.mem q stackPage = none ∧
    leafAt after.mem q stackPage ≠ none ∧
    (tableSlots s.mem).link s.kvmroot (index 2 privatePage) = none

instance (p q page : Nat) (s after : Kernel) : Decidable (StackSeen p q page s after) :=
  inferInstanceAs (Decidable (_ ∧ _))

theorem twoSpaces_computed : ((twoSpacesBefore (Kernel.boot fun _ => 0)).toOption.bind fun result =>
    (mapUser result.1.1 stackPage result.1.2.2 result.2).toOption.bind fun seen =>
    (mapUser result.1.1 privatePage result.1.2.2 result.2).toOption.map fun _ =>
      decide (StackSeen result.1.1 result.1.2.1 result.1.2.2 result.2 seen.2)) = some true := by
  decide +kernel

/-- Two spaces and a page, and what mapping the page in the first one returns. -/
structure TwoSpaces (s : Kernel) (p q page : Nat) : Prop where
  run : ∃ shared, ProcRun tinyLayout s [q, p] [page] shared
  differs : q ≠ p
  stack : ∃ mapped after, Returns (mapUser p stackPage page) s mapped after ∧
    leafAt s.mem q stackPage = none ∧ leafAt after.mem q stackPage ≠ none
  hidden : ∃ mapped after, Returns (mapUser p privatePage page) s mapped after
  empty : (tableSlots s.mem).link s.kvmroot (index 2 privatePage) = none

/-- Boot and two address spaces, evaluated. -/
theorem exists_twoSpaces : ∃ s p q page, TwoSpaces s p q page := by
  obtain ⟨⟨⟨p, q, page⟩, s⟩, ran, computed⟩ := Option.bind_eq_some_iff.mp twoSpaces_computed
  obtain ⟨⟨mapped, after⟩, stored, computed⟩ := Option.bind_eq_some_iff.mp computed
  obtain ⟨⟨mapped', after'⟩, stored', computed⟩ := Option.map_eq_some_iff.mp computed
  obtain ⟨⟨pMade, qMade, pageMade, differs⟩, absent, present, empty⟩ := of_decide_eq_true computed
  have returned : Returns twoSpaces (Kernel.boot fun _ => 0) (p, q, page) s :=
    twoSpaces_of_before (returns_of_toOption ran)
  rw [twoSpaces, returns_bind] at returned
  obtain ⟨⟨⟩, mid, heap, returned⟩ := returned
  obtain ⟨⟨⟩, last, kernel, returned⟩ := returns_bind.mp returned
  obtain ⟨p', s₁, madeP, returned⟩ := returns_bind.mp returned
  obtain ⟨q', s₂, madeQ, returned⟩ := returns_bind.mp returned
  obtain ⟨page', s₃, taken, returned⟩ := returns_bind.mp returned
  obtain ⟨isResult, rfl⟩ := returns_pure.mp returned
  obtain ⟨rfl, rfl, rfl⟩ : p' = p ∧ q' = q ∧ page' = page := by simpa using isResult
  have run := (((ProcRun.boot heap kernel).step .mapproc trivial madeP).step .mapproc trivial
    madeQ).step .kalloc trivial taken
  simp only [ProcOp.rootsAfter, ProcOp.heldAfter, if_neg pMade, if_neg qMade, if_neg pageMade]
    at run
  exact ⟨s₃, p', q', page', ⟨_, run⟩, differs.symm, ⟨mapped, after, returns_of_toOption stored, absent,
    present⟩, ⟨mapped', after', returns_of_toOption stored'⟩, empty⟩

/-- A call of `vmmap` for one page that is held. -/
def MapOp.userPage (va page : Nat) : MapOp :=
  .vmmap va pgSize page (pteR ||| pteW ||| pteU ||| pteV)

theorem MapOp.userPage_legal {va page : Nat} (user : va + pgSize ≤ kernBase) :
    (MapOp.userPage va page).Legal [page] := by
  refine ⟨user, by decide, fun i less => ?_⟩
  obtain rfl : i = 0 := by
    rw [Nat.div_self (by decide : 0 < pgSize)] at less
    omega
  rw [Nat.zero_mul, Nat.add_zero]
  exact List.mem_singleton_self page

theorem MapOp.userPage_exec {s after : Kernel} {root va page : Nat} {mapped : Bool}
    (stored : Returns (mapUser root va page) s mapped after) :
    Returns ((MapOp.userPage va page).exec layout root) s 0 after :=
  returns_bind.mpr ⟨mapped, after, stored, returns_pure.mpr ⟨rfl, rfl⟩⟩

/-- The theorem for a page in the empty slot. -/
theorem twoSpaces_isolated : ∃ s p q page after, (∃ mapped,
    Returns (mapUser p privatePage page) s mapped after) ∧ q ≠ p ∧
    leafAt after.mem q privatePage = leafAt s.mem q privatePage := by
  obtain ⟨s, p, q, page, spaces⟩ := exists_twoSpaces
  obtain ⟨shared, booted⟩ := spaces.run
  obtain ⟨mapped, after, stored⟩ := spaces.hidden
  have stays : (MapOp.userPage privatePage page).Stays s := by
    intro va low high
    have sameSlot : index 2 va = index 2 privatePage := by
      refine Fin.ext ?_
      simp only [index, px, privatePage, pgSize] at *
      omega
    rw [sameSlot]
    exact spaces.empty
  exact ⟨s, p, q, page, after, ⟨mapped, stored⟩, spaces.differs,
    mappings_isolated booted (List.mem_cons_of_mem _ (List.mem_singleton_self p))
      (.step .start _ (MapOp.userPage_legal (by decide)) stays (MapOp.userPage_exec stored)) q
      privatePage (Or.inr ⟨List.mem_cons_self .., spaces.differs⟩)⟩

/-- Without the condition the user stack is seen through the other root. -/
theorem stack_not_isolated : ¬ ∀ (layout : Layout) start s root roots initial shared held,
    ProcRun layout start roots initial shared → root ∈ roots →
    MapRun layout (fun _ _ => True) root start initial s held → ∀ q va,
      q = start.kvmroot ∨ q ∈ roots ∧ q ≠ root → leafAt s.mem q va = leafAt start.mem q va := by
  intro claimed
  obtain ⟨s, p, q, page, spaces⟩ := exists_twoSpaces
  obtain ⟨shared, booted⟩ := spaces.run
  obtain ⟨mapped, after, stored, absent, present⟩ := spaces.stack
  have same := claimed tinyLayout s after p [q, p] [page] shared _ booted
    (List.mem_cons_of_mem _ (List.mem_singleton_self p))
    (.step .start _ (MapOp.userPage_legal (by decide)) trivial (MapOp.userPage_exec stored)) q
    stackPage (Or.inr ⟨List.mem_cons_self .., spaces.differs⟩)
  rw [absent] at same
  exact present same

end CuteCore

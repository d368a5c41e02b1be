import CuteCore.Mm.PrivateTree

/-!
# Copying to user memory

`copyout` of `vm.c` writes through a page table, page by page. The tables and the
source lie apart from the user frames, so every page is found as before and the
bytes written are the ones of the source.
-/

namespace CuteCore

open Hoare Bytes RadixForest

/-- `memcpy` between objects that do not overlap. -/
def memcpy (dst src n : Nat) : KernelProg Unit := do
  let s ← get
  if InRam dst n ∧ InRam src n then
    set (s.withMem (copy s.mem dst n fun i => s.mem (src + i)))
  else throw .badAccess

/-- `copyout` for addresses so far below `2 ^ 64` that none of them wraps. -/
def copyout (pagetable dstva src len : Nat) : KernelProg Bool :=
  if len = 0 then return true
  else do
    let va := dstva / pgSize * pgSize
    match ← walk pagetable va false with
    | none => return false
    | some pte => do
      let entry ← loadField pte 8
      if ¬ pteValid entry ∨ entry &&& pteU = 0 then return false
      else do
        memcpy (pte2pa entry + (dstva - va)) src (min (pgSize - (dstva - va)) len)
        copyout pagetable (dstva + min (pgSize - (dstva - va)) len)
          (src + min (pgSize - (dstva - va)) len) (len - min (pgSize - (dstva - va)) len)
termination_by len
decreasing_by simp only [pgSize] at *; omega

/-- The frame of the page of a user address: its leaf has `PTE_U`. -/
def userFrame (mem : ByteMap) (root va : Nat) : Option Nat :=
  (leafAt mem root va).bind fun e => if e &&& pteU = 0 then none else some (pte2pa e)

/-- Where a user address lies in memory. -/
def userByte (mem : ByteMap) (root va : Nat) : Option Nat :=
  (userFrame mem root va).map (· + va % pgSize)

/-- The tables and the frames of user pages lie in memory. Distinct user pages have
frames of their own, apart from the tables and from the source. -/
structure Copyable (mem : ByteMap) (root src len : Nat) : Prop where
  tables : ∀ t, IsTable mem root t → t % pgSize = 0 ∧ InRam t pgSize
  frames : ∀ va page, userFrame mem root va = some page → InRam page pgSize
  distinct : ∀ va va' page, va < 2 ^ 39 → va' < 2 ^ 39 → userFrame mem root va = some page →
    userFrame mem root va' = some page → va / pgSize = va' / pgSize
  apart : ∀ va page, userFrame mem root va = some page → ¬ IsTable mem root page
  source : ∀ va page, userFrame mem root va = some page → page + pgSize ≤ src ∨ src + len ≤ page
  sourceInRam : InRam src len

theorem userFrame_page {mem : ByteMap} {root va va' : Nat} (samePage : va / pgSize = va' / pgSize) :
    userFrame mem root va = userFrame mem root va' := by
  rw [userFrame, userFrame, leafAt_page samePage]

/-- A frame is a page address. -/
theorem userFrame_aligned {mem : ByteMap} {root va page : Nat}
    (found : userFrame mem root va = some page) : page % pgSize = 0 := by
  obtain ⟨e, -, isPage⟩ := Option.bind_eq_some_iff.mp found
  split at isPage
  · cases isPage
  · cases isPage
    simp only [pte2pa, pgSize]
    omega

namespace Copyable

variable {mem : ByteMap} {root src len : Nat}

/-- Writing into a user frame keeps the tables. -/
theorem written (view : Copyable mem root src len) {va page off n : Nat} (source : Nat → Byte)
    (found : userFrame mem root va = some page) (inside : off + n ≤ pgSize) (t : Nat)
    (isTable : IsTable mem root t) : SameOn (copy mem (page + off) n source) mem t pgSize := by
  apply sameOn_copy
  have differs : t ≠ page := fun same => view.apart va page found (same ▸ isTable)
  have aligned := userFrame_aligned found
  exact apart_pages (view.tables t isTable).1 aligned differs ⟨Nat.le_refl _, Nat.le_refl _⟩
    ⟨Nat.le_add_right .., by omega⟩

/-- What is left to copy can be copied after the tables were kept. -/
theorem rest (view : Copyable mem root src len) {after : ByteMap} {n : Nat} (part : n ≤ len)
    (same : ∀ t, IsTable mem root t → SameOn after mem t pgSize) :
    Copyable after root (src + n) (len - n) := by
  have frames : ∀ va, userFrame after root va = userFrame mem root va := by
    intro va
    rw [userFrame, userFrame, leafAt_of_same same]
  have tables : ∀ t, IsTable after root t → IsTable mem root t := by
    rintro t ⟨path, short, reached⟩
    refine ⟨path, short, ?_⟩
    rw [← reach_of_same same [] path rfl (by simpa using short)]
    exact reached
  have inRam := view.sourceInRam
  refine ⟨fun t isTable => view.tables t (tables t isTable), ?_, ?_, ?_, ?_, ?_⟩
  · intro va page found
    exact view.frames va page (frames va ▸ found)
  · intro va va' page low low' found found'
    exact view.distinct va va' page low low' (frames va ▸ found) (frames va' ▸ found')
  · intro va page found isTable
    exact view.apart va page (frames va ▸ found) (tables page isTable)
  · intro va page found
    have apart := view.source va page (frames va ▸ found)
    omega
  · unfold InRam at *
    omega

/-- `walk` without allocation reads the tables. -/
theorem walk_spec {s : Kernel} (view : Copyable s.mem root src len) (va : Nat) :
    wp (walk root va false) (fun got after => after = s ∧
      got = ((tableSlots s.mem).reach root (upper va)).map (· + 8 * (index 0 va).val)) s :=
  walk_view va fun path t i short reached => by
    have small := i.isLt
    have inRam := (view.tables t ⟨path, by omega, reached⟩).2
    simp only [InRam, pgSize] at *
    omega

end Copyable

/-- What `copyout` has done when it has written the first `n` bytes. -/
structure Copied (before after : ByteMap) (root dstva src n : Nat) : Prop where
  translation : ∀ va, leafAt after root va = leafAt before root va
  bytes : ∀ i < n, ∃ a, userByte before root (dstva + i) = some a ∧ after a = before (src + i)
  others : ∀ a, after a ≠ before a → ∃ i < n, userByte before root (dstva + i) = some a

namespace Copyable

variable {mem : ByteMap} {root src len : Nat}

/-- The entry that `walk` finds decides the frame. -/
theorem frame_spec {s : Kernel} (view : Copyable s.mem root src len) (va : Nat) :
    wp (walk root va false) (fun got after => after = s ∧
      (got = none → userFrame s.mem root va = none) ∧
      ∀ pte, got = some pte → InRam pte 8 ∧ userFrame s.mem root va =
        if pteValid (load s.mem pte 8) ∧ load s.mem pte 8 &&& pteU ≠ 0 then
          some (pte2pa (load s.mem pte 8))
        else none) s := by
  apply wp_mono (view.walk_spec va)
  rintro got after ⟨same, walked⟩
  refine ⟨same, ?_⟩
  rw [walked, userFrame, leafAt, Slots.lookup]
  cases reached : (tableSlots s.mem).reach root (upper va) with
  | none =>
    refine ⟨fun _ => rfl, fun pte isPte => ?_⟩
    cases isPte
  | some l =>
    refine ⟨fun missing => absurd missing (Option.some_ne_none _), fun pte isPte => ?_⟩
    obtain rfl : l + 8 * (index 0 va).val = pte := Option.some.inj isPte
    have isTable : IsTable s.mem root l := ⟨_, by simp [upper], reached⟩
    have small := (index 0 va).isLt
    have inRam := (view.tables l isTable).2
    refine ⟨by simp only [InRam, pgSize] at *; omega, ?_⟩
    change ((tableSlots s.mem).leaf l (index 0 va)).bind _ = if pteValid (entry s.mem l (index 0 va)) ∧
      entry s.mem l (index 0 va) &&& pteU ≠ 0 then some (pte2pa (entry s.mem l (index 0 va))) else none
    by_cases valid : pteValid (entry s.mem l (index 0 va))
    · rw [leaf_of_valid valid]
      by_cases user : entry s.mem l (index 0 va) &&& pteU = 0
      · simp [user]
      · simp [valid, user]
    · rw [leaf_of_invalid valid]
      simp [valid]

/-- Different user addresses lie at different places. -/
theorem userByte_injective (view : Copyable mem root src len) {va va' a : Nat} (low : va < 2 ^ 39)
    (low' : va' < 2 ^ 39) (first : userByte mem root va = some a)
    (second : userByte mem root va' = some a) : va = va' := by
  obtain ⟨page, isFrame, isByte⟩ := Option.map_eq_some_iff.mp first
  obtain ⟨page', isFrame', isByte'⟩ := Option.map_eq_some_iff.mp second
  have aligned := userFrame_aligned isFrame
  have aligned' := userFrame_aligned isFrame'
  have samePage : page = page' := by
    simp only [pgSize] at *
    omega
  have sameVa := view.distinct va va' page low low' isFrame (samePage ▸ isFrame')
  simp only [pgSize] at *
  omega

/-- No byte of the source is a user byte. -/
theorem source_apart (view : Copyable mem root src len) {va i : Nat} (inside : i < len) :
    userByte mem root va ≠ some (src + i) := by
  intro isByte
  obtain ⟨page, isFrame, isAt⟩ := Option.map_eq_some_iff.mp isByte
  have apart := view.source va page isFrame
  have offset : va % pgSize < pgSize := Nat.mod_lt _ (by decide)
  omega

/-- The part of the copy in one page. -/
theorem page_copied (view : Copyable mem root src len) {dstva page n : Nat}
    (found : userFrame mem root dstva = some page) (inPage : dstva % pgSize + n ≤ pgSize) :
    Copied mem (copy mem (page + dstva % pgSize) n fun i => mem (src + i)) root dstva src n := by
  have here : ∀ i < n, userByte mem root (dstva + i) = some (page + dstva % pgSize + i) := by
    intro i less
    have isPage : (dstva + i) / pgSize = dstva / pgSize := by
      simp only [pgSize] at *
      omega
    have isOffset : (dstva + i) % pgSize = dstva % pgSize + i := by
      simp only [pgSize] at *
      omega
    rw [userByte, userFrame_page isPage, found, Option.map_some, isOffset, Nat.add_assoc]
  have same := fun t isTable => view.written (t := t) (n := n) (fun i => mem (src + i)) found inPage
    isTable
  refine ⟨leafAt_of_same same, fun i less => ⟨_, here i less, ?_⟩, fun a differs => ?_⟩
  · rw [copy_inside _ _ _ _ _ (by omega) (by omega)]
    congr 1
    omega
  · by_cases inside : page + dstva % pgSize ≤ a ∧ a < page + dstva % pgSize + n
    · refine ⟨a - (page + dstva % pgSize), by omega, ?_⟩
      rw [here _ (by omega), Option.some.injEq]
      omega
    · exact absurd (copy_outside _ _ _ _ _ (by omega)) differs

/-- Two parts of a copy make one: the second neither touches what the first wrote nor does
the first touch what the second reads. -/
theorem copied_append (view : Copyable mem root src len) {mid after : ByteMap} {dstva n more : Nat}
    (first : Copied mem mid root dstva src n)
    (second : Copied mid after root (dstva + n) (src + n) more) (part : n + more ≤ len)
    (low : dstva + len ≤ 2 ^ 39) : Copied mem after root dstva src (n + more) := by
  have bytes : ∀ va, userByte mid root va = userByte mem root va := by
    intro va
    rw [userByte, userByte, userFrame, userFrame, first.translation]
  refine ⟨fun va => (second.translation va).trans (first.translation va), ?_, ?_⟩
  · intro i less
    by_cases isHere : i < n
    · obtain ⟨a, isByte, isCopy⟩ := first.bytes i isHere
      refine ⟨a, isByte, ?_⟩
      rw [← isCopy]
      by_contra changed
      obtain ⟨j, jLess, later⟩ := second.others a changed
      rw [bytes] at later
      have same := view.userByte_injective (by omega) (by omega) isByte later
      omega
    · obtain ⟨a, isByte, isCopy⟩ := second.bytes (i - n) (by omega)
      rw [bytes, show dstva + n + (i - n) = dstva + i by omega] at isByte
      refine ⟨a, isByte, isCopy.trans ?_⟩
      rw [show src + n + (i - n) = src + i by omega]
      by_contra changed
      obtain ⟨j, -, written⟩ := first.others _ changed
      exact view.source_apart (by omega) written
  · intro a differs
    by_cases early : mid a = mem a
    · obtain ⟨i, less, isByte⟩ := second.others a (early ▸ differs)
      rw [bytes, show dstva + n + i = dstva + (n + i) by omega] at isByte
      exact ⟨n + i, by omega, isByte⟩
    · obtain ⟨i, less, isByte⟩ := first.others a early
      exact ⟨i, by omega, isByte⟩

end Copyable

/-- `copyout` returns. It succeeds exactly when all user bytes are mapped, and writes a
prefix of them in any case. -/
theorem copyout_exact {s : Kernel} {root dstva src len : Nat}
    (view : Copyable s.mem root src len) (low : dstva + len ≤ 2 ^ 39) :
    wp (copyout root dstva src len) (fun done after => after = s.withMem after.mem ∧
      (done = true ↔ ∀ va, dstva ≤ va → va < dstva + len → userFrame s.mem root va ≠ none) ∧
      ∃ n ≤ len, (done = true → n = len) ∧ Copied s.mem after.mem root dstva src n) s := by
  induction len using Nat.strong_induction_on generalizing s dstva src with
  | _ len inductionHypothesis =>
    have nothing : Copied s.mem s.mem root dstva src 0 :=
      ⟨fun _ => rfl, fun i none => absurd none (Nat.not_lt_zero i), fun a differs => absurd rfl differs⟩
    rw [copyout]
    split
    · rename_i empty
      subst empty
      exact wp_pure.mpr ⟨rfl, ⟨fun _ va high below => by omega, fun _ => rfl⟩, 0, Nat.le_refl _,
        fun _ => rfl, nothing⟩
    · rename_i nonempty
      have isOffset : dstva - dstva / pgSize * pgSize = dstva % pgSize := by
        simp only [pgSize]
        omega
      have samePage : userFrame s.mem root (dstva / pgSize * pgSize) = userFrame s.mem root dstva :=
        userFrame_page (Nat.mul_div_cancel _ (by decide))
      -- The page of the first byte is not mapped for users.
      have refused : userFrame s.mem root dstva = none → wp (pure false : KernelProg Bool)
          (fun done after => after = s.withMem after.mem ∧
            (done = true ↔ ∀ va, dstva ≤ va → va < dstva + len → userFrame s.mem root va ≠ none) ∧
            ∃ n ≤ len, (done = true → n = len) ∧ Copied s.mem after.mem root dstva src n) s := by
        intro missing
        refine wp_pure.mpr ⟨rfl, ⟨fun no => absurd no Bool.false_ne_true, fun all =>
          absurd missing ?_⟩, 0, Nat.zero_le _, fun no => absurd no Bool.false_ne_true, nothing⟩
        exact all dstva (Nat.le_refl _) (by omega)
      simp only [isOffset]
      apply wp_seq (view.frame_spec _)
      rintro got mid ⟨isMid, isMissing, isFound⟩
      rw [isMid]
      cases got with
      | none => exact refused (samePage.symm.trans (isMissing rfl))
      | some pte =>
        obtain ⟨inRam, isFrame⟩ := isFound pte rfl
        rw [samePage] at isFrame
        simp only
        rw [wp_bind, wp_loadField]
        refine ⟨inRam, ?_⟩
        split
        · rename_i bad
          apply refused
          rw [isFrame, if_neg]
          tauto
        · rename_i good
          rw [not_or, not_not] at good
          have found : userFrame s.mem root dstva = some (pte2pa (load s.mem pte 8)) := by
            rw [isFrame, if_pos good]
          generalize pte2pa (load s.mem pte 8) = page at found
          obtain ⟨n, isN⟩ : ∃ n, n = min (pgSize - dstva % pgSize) len := ⟨_, rfl⟩
          rw [← isN]
          have offsetLess : dstva % pgSize < pgSize := Nat.mod_lt _ (by decide)
          have positive : 0 < n := by omega
          have part : n ≤ len := by omega
          have inPage : dstva % pgSize + n ≤ pgSize := by omega
          have frameInRam := view.frames dstva _ found
          have sourceInRam := view.sourceInRam
          rw [memcpy, wp_bind, wp_bind, wp_get, if_pos ⟨by unfold InRam at *; omega,
            by unfold InRam at *; omega⟩, wp_set]
          have same := fun t isTable => view.written (t := t) (n := n) (fun i => s.mem (src + i)) found
            inPage isTable
          have first := view.page_copied found inPage
          apply wp_mono (inductionHypothesis (len - n) (by omega) (view.rest part same) (by omega))
          rintro done after ⟨isAfter, complete, more, bound, whole, second⟩
          simp only [withMem_mem] at complete second
          refine ⟨by rw [isAfter]; rfl, ?_, n + more, by omega, fun isDone => ?_,
            view.copied_append first second (by omega) low⟩
          · have frames : ∀ va, userFrame (copy s.mem (page + dstva % pgSize) n fun i =>
                s.mem (src + i)) root va = userFrame s.mem root va := by
              intro va
              rw [userFrame, userFrame, first.translation]
            rw [complete]
            constructor
            · intro later va high below
              by_cases isHere : va < dstva + n
              · have isPage : va / pgSize = dstva / pgSize := by
                  simp only [pgSize] at *
                  omega
                rw [userFrame_page isPage, found]
                exact Option.some_ne_none _
              · rw [← frames]
                exact later va (by omega) (by omega)
            · intro all va high below
              rw [frames]
              exact all va (by omega) (by omega)
          · have rest := whole isDone
            omega

/-! ## One page -/

/-- The tree has one user frame, for the first page. -/
theorem onePage_frame {va page : Nat} (found : userFrame onePage 0x80400000 va = some page) :
    page = 0x80403000 ∧ index 2 va = 0 ∧ index 1 va = 0 ∧ index 0 va = 0 := by
  obtain ⟨e, isLeaf, isPage⟩ := Option.bind_eq_some_iff.mp found
  obtain ⟨l, reached, isLeaf⟩ := Option.bind_eq_some_iff.mp isLeaf
  obtain ⟨place, zeros⟩ := onePage_reach (by simp [upper]) reached
  have isL : l = 0x80402000 := by simpa [upper] using place
  subst isL
  obtain ⟨valid, isEntry⟩ : pteValid (entry onePage 0x80402000 (index 0 va)) ∧
      entry onePage 0x80402000 (index 0 va) = e := by
    simpa [tableSlots] using isLeaf
  rw [onePage_entry (by decide)] at valid isEntry
  by_cases isZero : index 0 va = 0
  · rw [if_pos ⟨rfl, isZero⟩] at isEntry
    subst isEntry
    refine ⟨?_, zeros _ (by simp [upper]), zeros _ (by simp [upper]), isZero⟩
    rw [if_neg (by decide)] at isPage
    exact (Option.some.inj isPage).symm.trans (by decide)
  · simp only [isZero, and_false, if_false] at valid
    exact absurd valid pteValid_zero

/-- The tree with one user page meets the conditions of the theorem. -/
theorem onePage_copyable : Copyable onePage 0x80400000 0x80404000 3 := by
  have frame : ∀ va page, userFrame onePage 0x80400000 va = some page → page = 0x80403000 :=
    fun va page found => (onePage_frame found).1
  refine ⟨?_, ?_, ?_, ?_, ?_, by unfold InRam; decide⟩
  · rintro t ⟨path, short, reached⟩
    obtain ⟨⟨-, rfl⟩ | ⟨-, rfl⟩ | ⟨-, rfl⟩, -⟩ := onePage_reach short reached <;>
      exact ⟨by decide, by unfold InRam; decide⟩
  · intro va page found
    rw [frame va page found]
    unfold InRam
    decide
  · intro va va' page low low' found found'
    obtain ⟨-, two, one, zero⟩ := onePage_frame found
    obtain ⟨-, two', one', zero'⟩ := onePage_frame found'
    refine (same_place low low').mp ⟨?_, zero.trans zero'.symm⟩
    simp only [upper, two, two', one, one']
  · rintro va page found ⟨path, short, reached⟩
    have isFrame := frame va page found
    obtain ⟨⟨-, isT⟩ | ⟨-, isT⟩ | ⟨-, isT⟩, -⟩ := onePage_reach short reached <;>
    · rw [isT] at isFrame
      exact absurd isFrame (by decide)
  · intro va page found
    rw [frame va page found]
    decide

/-- The theorem for three bytes that fit the page. -/
theorem onePage_copied : ∃ after : Kernel,
    Returns (copyout 0x80400000 5 0x80404000 3) ⟨onePage, 0, fun _ => 0, 0, 0, fun _ => 0, 0⟩ true
      after ∧ Copied onePage after.mem 0x80400000 5 0x80404000 3 := by
  obtain ⟨done, after, returned, -, complete, n, -, whole, copied⟩ :=
    @copyout_exact ⟨onePage, 0, fun _ => 0, 0, 0, fun _ => 0, 0⟩ 0x80400000 5 0x80404000 3
      onePage_copyable (by decide)
  have mapped : userFrame onePage 0x80400000 0 = some 0x80403000 := by
    have first : (tableSlots onePage).link 0x80400000 0 = some 0x80401000 := by
      rw [link_of_valid (by rw [onePage_entry (by decide)]; decide), onePage_entry (by decide)]
      decide
    have second : (tableSlots onePage).link 0x80401000 0 = some 0x80402000 := by
      rw [link_of_valid (by rw [onePage_entry (by decide)]; decide), onePage_entry (by decide)]
      decide
    have last : (tableSlots onePage).leaf 0x80402000 0 =
        some (leafEntry 0x80403000 (pteR ||| pteW ||| pteU)) := by
      rw [leaf_of_valid (by rw [onePage_entry (by decide)]; decide), onePage_entry (by decide)]
      decide
    have reached : (tableSlots onePage).reach 0x80400000 (upper 0) = some 0x80402000 := by
      change ((tableSlots onePage).link 0x80400000 0).bind (fun t =>
        ((tableSlots onePage).link t 0).bind fun l => some l) = _
      rw [first, Option.bind_some, second, Option.bind_some]
    rw [userFrame, leafAt, Slots.lookup, reached]
    change ((tableSlots onePage).leaf 0x80402000 0).bind _ = _
    rw [last]
    decide
  have isDone : done = true := by
    refine complete.mpr fun va low below => ?_
    have samePage : va / pgSize = 0 / pgSize := by
      simp only [pgSize]
      omega
    rw [userFrame_page samePage, mapped]
    exact Option.some_ne_none _
  subst isDone
  obtain rfl := whole rfl
  exact ⟨after, returned, copied⟩

end CuteCore

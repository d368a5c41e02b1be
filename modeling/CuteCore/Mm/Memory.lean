import CuteCore.Kernel
import CuteCore.Library.Bytes

/-!
# Kernel memory

The state the memory manager and the process table work on: physical memory as
bytes, and the global variables of `kalloc.c`, `kmalloc.c`, `vm.c` and `proc.c`.
A C object lives at an address, and its fields are little-endian words at fixed
offsets from it.
-/

namespace CuteCore

open Hoare Bytes

/-- `PHYSTART` -/
def phyStart : Nat := 0x80000000

/-- `PHYEND`, 128 MiB above `PHYSTART` -/
def phyEnd : Nat := 0x88000000

/-- `KERNBASE` -/
def kernBase : Nat := 0x80200000

/-- `NUM_CACHES` -/
def numCaches : Nat := 9

/-- The section symbols of the linker script. Each section ends where the next
one starts, on a page boundary, and the kernel ends inside physical memory. -/
structure Layout where
  stext : Nat
  etext : Nat
  erodata : Nat
  edata : Nat
  ekernel : Nat
  stextLow : kernBase ≤ stext
  text : stext < etext
  rodata : etext < erodata
  data : erodata < edata
  bss : edata < ekernel
  kernelEnd : ekernel < phyEnd
  stextAligned : stext % pgSize = 0
  etextAligned : etext % pgSize = 0
  erodataAligned : erodata % pgSize = 0
  edataAligned : edata % pgSize = 0
  ekernelAligned : ekernel % pgSize = 0

theorem Layout.ordered (layout : Layout) : kernBase ≤ layout.stext ∧ layout.stext < layout.etext ∧
    layout.etext < layout.erodata ∧ layout.erodata < layout.edata ∧
    layout.edata < layout.ekernel ∧ layout.ekernel < phyEnd :=
  ⟨layout.stextLow, layout.text, layout.rodata, layout.data, layout.bss, layout.kernelEnd⟩

structure Kernel where
  mem : ByteMap
  /-- `kmem.memlist` -/
  memlist : Nat
  /-- `caches` of `kmalloc.c` -/
  caches : Fin numCaches → Nat
  kvmroot : Nat
  /-- `proc_cache` -/
  procCache : Nat
  /-- `pid_bitmap` -/
  pidBitmap : ByteMap
  /-- `last_pid` -/
  lastPid : Nat

abbrev KernelProg (α : Type) := Prog Kernel Fault α

def Kernel.withMem (s : Kernel) (mem : ByteMap) : Kernel := { s with mem := mem }

@[simp] theorem withMem_mem (s : Kernel) (mem : ByteMap) : (s.withMem mem).mem = mem := rfl
@[simp] theorem withMem_memlist (s : Kernel) (mem : ByteMap) :
    (s.withMem mem).memlist = s.memlist := rfl
@[simp] theorem withMem_caches (s : Kernel) (mem : ByteMap) :
    (s.withMem mem).caches = s.caches := rfl
@[simp] theorem withMem_kvmroot (s : Kernel) (mem : ByteMap) :
    (s.withMem mem).kvmroot = s.kvmroot := rfl
@[simp] theorem withMem_withMem (s : Kernel) (mem other : ByteMap) :
    (s.withMem mem).withMem other = s.withMem other := rfl
@[simp] theorem withMem_self (s : Kernel) : s.withMem s.mem = s := rfl

/-- The `n` bytes at `a` lie in physical memory. -/
def InRam (a n : Nat) : Prop := phyStart ≤ a ∧ a + n ≤ phyEnd

instance (a n : Nat) : Decidable (InRam a n) := inferInstanceAs (Decidable (_ ∧ _))

def loadField (a n : Nat) : KernelProg Nat := do
  let s ← get
  if InRam a n then return load s.mem a n else throw .badAccess

def storeField (a n value : Nat) : KernelProg Unit := do
  let s ← get
  if InRam a n then set (s.withMem (store s.mem a n value)) else throw .badAccess

/-- `memset(a, 0, n)` -/
def zeroBytes (a n : Nat) : KernelProg Unit := do
  let s ← get
  if InRam a n then set (s.withMem (fill s.mem a n 0)) else throw .badAccess

@[simp] theorem wp_loadField {a n : Nat} {post : Nat → Kernel → Prop} {s : Kernel} :
    wp (loadField a n) post s ↔ InRam a n ∧ post (load s.mem a n) s := by
  rw [loadField, wp_bind, wp_get, wp_ite]
  split <;> simp [*]

/-- A read whose address is in memory leaves the rest of the run. -/
theorem run_loadField {α : Type} {a n : Nat} {rest : Nat → KernelProg α} {s : Kernel}
    (inRam : InRam a n) : (loadField a n >>= rest) s = rest (load s.mem a n) s := by
  have ran : loadField a n s = .ok (load s.mem a n, s) := by
    change (if InRam a n then pure (load s.mem a n) else throw .badAccess : KernelProg Nat) s = _
    rw [if_pos inRam]
    rfl
  simp only [bind, StateT.bind, ran, Except.bind]

@[simp] theorem wp_storeField {a n value : Nat} {post : Unit → Kernel → Prop} {s : Kernel} :
    wp (storeField a n value) post s ↔
      InRam a n ∧ post () (s.withMem (store s.mem a n value)) := by
  rw [storeField, wp_bind, wp_get, wp_ite]
  split <;> simp [*]

@[simp] theorem wp_zeroBytes {a n : Nat} {post : Unit → Kernel → Prop} {s : Kernel} :
    wp (zeroBytes a n) post s ↔ InRam a n ∧ post () (s.withMem (fill s.mem a n 0)) := by
  rw [zeroBytes, wp_bind, wp_get, wp_ite]
  split <;> simp [*]

@[simp] theorem returns_loadField {a n v : Nat} {s after : Kernel} :
    Returns (loadField a n) s v after ↔ InRam a n ∧ load s.mem a n = v ∧ s = after := by
  rw [loadField, returns_bind]
  constructor
  · rintro ⟨_, _, got, returned⟩
    obtain ⟨rfl, rfl⟩ := returns_get.mp got
    split at returned
    · exact ⟨‹_›, returns_pure.mp returned⟩
    · exact (returns_throw.mp returned).elim
  · rintro ⟨inRam, rfl, rfl⟩
    exact ⟨s, s, returns_get.mpr ⟨rfl, rfl⟩, by rw [if_pos inRam]; exact returns_pure.mpr ⟨rfl, rfl⟩⟩

/-- A page the kernel hands out: aligned, above the kernel image, inside memory. -/
def Layout.IsPage (layout : Layout) (page : Nat) : Prop :=
  page % pgSize = 0 ∧ layout.ekernel ≤ page ∧ page < phyEnd

/-- A page of the allocator lies in memory whole. -/
theorem Layout.IsPage.inRam {layout : Layout} {page : Nat} (isPage : layout.IsPage page)
    (offset n : Nat) (inside : offset + n ≤ pgSize) : InRam (page + offset) n := by
  obtain ⟨aligned, low, high⟩ := isPage
  obtain ⟨order, text, rodata, data, bss, -⟩ := layout.ordered
  simp only [kernBase, pgSize, phyEnd] at order aligned inside high
  unfold InRam phyEnd phyStart
  omega

theorem Layout.IsPage.headInRam {layout : Layout} {page : Nat} (isPage : layout.IsPage page) :
    InRam page 8 := isPage.inRam 0 8 (by simp [pgSize])

theorem Layout.IsPage.ne_zero {layout : Layout} {page : Nat} (isPage : layout.IsPage page) :
    page ≠ 0 := by
  have inside := isPage.inRam 0 0 (Nat.zero_le _)
  simp only [InRam, phyStart] at inside
  omega

theorem Layout.IsPage.aligned8 {layout : Layout} {page : Nat} (isPage : layout.IsPage page) :
    page % 8 = 0 := by
  have aligned := isPage.1
  simp only [pgSize] at aligned
  omega

theorem Layout.IsPage.lt {layout : Layout} {page : Nat} (isPage : layout.IsPage page) :
    page < 2 ^ 64 := Nat.lt_trans isPage.2.2 (by decide)

/-- Distinct pages do not overlap. -/
theorem apart_pages {page other a b n k : Nat} (aligned : page % pgSize = 0)
    (otherAligned : other % pgSize = 0) (differs : page ≠ other)
    (inside : page ≤ a ∧ a + n ≤ page + pgSize) (otherInside : other ≤ b ∧ b + k ≤ other + pgSize) :
    a + n ≤ b ∨ b + k ≤ a := by
  simp only [pgSize] at *
  omega

end CuteCore

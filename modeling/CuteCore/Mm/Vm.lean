import CuteCore.Mm.Kalloc

/-!
# Virtual memory

Sv39 page tables as `vm.c` builds and takes them apart. A table is a page of 512
entries of 8 bytes, and a virtual address has one index of 9 bits for each of
the three levels.

An entry has a valid bit, flags and a page number, and it is a link to a table where it
has none of the flags that allow an access. The functions are translated with their loops:
the budget of a loop is the number of pages or entries that it goes through.
-/

namespace CuteCore

open Hoare Bytes

/-- `PTE_V`, `PTE_R`, `PTE_W`, `PTE_X`, `PTE_U` -/
def pteV : Nat := 1
def pteR : Nat := 2
def pteW : Nat := 4
def pteX : Nat := 8
def pteU : Nat := 16

/-- `PX(level, va)` -/
def px (level va : Nat) : Nat := va / 2 ^ (12 + 9 * level) % 512

/-- `PA2PTE` -/
def pa2pte (pa : Nat) : Nat := pa / 2 ^ 12 * 2 ^ 10

/-- `PTE2PA` -/
def pte2pa (pte : Nat) : Nat := pte / 2 ^ 10 * 2 ^ 12 % 2 ^ 64

/-- `*pte & PTE_V` -/
def pteValid (pte : Nat) : Prop := pte &&& pteV ≠ 0

/-- `*pte & (PTE_R | PTE_W | PTE_X)` -/
def pteLeaf (pte : Nat) : Prop := pte &&& (pteR ||| pteW ||| pteX) ≠ 0

instance (pte : Nat) : Decidable (pteValid pte) := inferInstanceAs (Decidable (_ ≠ _))
instance (pte : Nat) : Decidable (pteLeaf pte) := inferInstanceAs (Decidable (_ ≠ _))

/-- One pass of `walk`'s loop: the table the entry at `pte` leads to. -/
def walkLevel (pte : Nat) (alloc : Bool) : KernelProg (Option Nat) := do
  let entry ← loadField pte 8
  if pteValid entry then return some (pte2pa entry)
  else if alloc then do
    let ptes ← kalloc
    if ptes = 0 then return none
    else do
      storeField pte 8 (pa2pte ptes ||| pteV)
      return some ptes
  else return none

/-- The address of the entry for `va` in the last table. -/
def walk (root va : Nat) (alloc : Bool) : KernelProg (Option Nat) := do
  match ← walkLevel (root + 8 * px 2 va) alloc with
  | none => return none
  | some ptes => do
    match ← walkLevel (ptes + 8 * px 1 va) alloc with
    | none => return none
    | some ptes => return some (ptes + 8 * px 0 va)

/-- The body of `vmmap`'s loop. -/
def mapPage (root vaddr paddr perm : Nat) : KernelProg Bool := do
  match ← walk root vaddr true with
  | none => return false
  | some pte => do
    let entry ← loadField pte 8
    if pteValid entry then throw (.panic "map: remap")
    else do
      storeField pte 8 (pa2pte paddr ||| perm ||| pteV)
      return true

/-- The loop of `vmmap`. It ends at the page `va + size - PGSIZE`, after
`size / PGSIZE` passes. -/
def mapPages (root perm : Nat) : Nat → Nat → Nat → KernelProg Bool
  | 0, _, _ => return true
  | passes + 1, vaddr, paddr => do
    let mapped ← mapPage root vaddr paddr perm
    if mapped then mapPages root perm passes ((vaddr + pgSize) % 2 ^ 64) ((paddr + pgSize) % 2 ^ 64)
    else return false

def vmmap (root va size pa perm : Nat) : KernelProg Bool :=
  if va % pgSize ≠ 0 ∨ size % pgSize ≠ 0 ∨ size = 0 then throw (.panic "map")
  else mapPages root perm (size / pgSize) va pa

def kvmmap (kroot va pa size perm : Nat) : KernelProg Unit := do
  let mapped ← vmmap kroot va size pa perm
  if mapped then return () else throw (.panic "kvmmap")

/-- `UART0`, `VIRTIO_BLK0`, `SIFIVE_TEST_ADDR` -/
def uart0 : Nat := 0x10000000
def virtioBlk0 : Nat := 0x10001000
def sifiveTestAddr : Nat := 0x100000

/-- The regions `kvmmake` maps: start, size, permissions. -/
def kernelRegions (layout : Layout) : List (Nat × Nat × Nat) :=
  [(layout.stext, layout.etext - layout.stext, pteR ||| pteX),
   (layout.etext, layout.erodata - layout.etext, pteR),
   (layout.erodata, layout.edata - layout.erodata, pteR ||| pteW),
   (layout.edata, layout.ekernel - layout.edata, pteR ||| pteW),
   (layout.ekernel, phyEnd - layout.ekernel, pteR ||| pteW),
   (uart0, pgSize, pteR ||| pteW),
   (virtioBlk0, pgSize, pteR ||| pteW),
   (sifiveTestAddr, pgSize, pteR ||| pteW)]

/-- The calls of `kvmmap` in `kvmmake`, each an identity mapping. -/
def mapRegions (kroot : Nat) : List (Nat × Nat × Nat) → KernelProg Unit
  | [] => return ()
  | (start, size, perm) :: rest => do
    kvmmap kroot start start size perm
    mapRegions kroot rest

def kvmmake (layout : Layout) : KernelProg Nat := do
  let kroot ← kalloc
  mapRegions kroot (kernelRegions layout)
  return kroot

def kvminit (layout : Layout) : KernelProg Unit := do
  let kroot ← kvmmake layout
  modify fun s => { s with kvmroot := kroot }

/-- `uvmcreate` returns the page as it is. -/
def uvmcreate : KernelProg Nat := kalloc

/-- The loop of `uvmmapkernel`, from entry `i` on. -/
def copyEntries (uroot : Nat) : Nat → Nat → KernelProg Unit
  | 0, _ => return ()
  | passes + 1, i => do
    let s ← get
    let kpte ← loadField (s.kvmroot + 8 * i) 8
    onlyIf (pteValid kpte) (storeField (uroot + 8 * i) 8 kpte)
    copyEntries uroot passes (i + 1)

def uvmmapkernel (uroot : Nat) : KernelProg Unit := copyEntries uroot 512 0

variable (layout : Layout)

/-- The body of `uvmunmap`'s loop. -/
def unmapPage (root vaddr : Nat) (free : Bool) : KernelProg Unit := do
  match ← walk root vaddr false with
  | none => return ()
  | some pte => do
    let entry ← loadField pte 8
    onlyIf (pteValid entry) do
      onlyIf (free = true) (kfree layout (pte2pa entry))
      storeField pte 8 0

/-- The loop of `uvmunmap`, from `vaddr` on. Both bounds are aligned, so `vaddr`
does not wrap. -/
def unmapPages (root : Nat) (free : Bool) (stop vaddr : Nat) : KernelProg Unit :=
  if vaddr < stop then do
    unmapPage layout root vaddr free
    unmapPages root free stop (vaddr + pgSize)
  else return ()
termination_by stop - vaddr
decreasing_by simp only [pgSize] at *; omega

def uvmunmap (root va pagenum : Nat) (free : Bool) : KernelProg Unit :=
  if va % pgSize ≠ 0 then throw (.panic "uvmunmap: not aligned")
  else unmapPages layout root free ((va + pagenum * pgSize) % 2 ^ 64) va

/-- Conversion to `i32` and back to `u64`. -/
def toI32 (n : Nat) : Nat :=
  if n % 2 ^ 32 < 2 ^ 31 then n % 2 ^ 32 else n % 2 ^ 32 + (2 ^ 64 - 2 ^ 32)

def uvmdealloc (root oldsz newsz : Nat) : KernelProg Nat := do
  if oldsz ≤ newsz then return oldsz
  else do
    onlyIf (pgRoundUp newsz < pgRoundUp oldsz)
      (uvmunmap layout root (pgRoundUp newsz)
        (toI32 ((pgRoundUp oldsz - pgRoundUp newsz) / pgSize)) true)
    return newsz

/-- The loop of `uvmalloc`, for sizes so far below `2 ^ 64` that `size` does not
wrap. `oldsz` is rounded up already. -/
def allocPages (root oldsz newsz perm size : Nat) : KernelProg Nat :=
  if size < newsz then do
    let mem ← kalloc
    if mem = 0 then do
      let _ ← uvmdealloc layout root size oldsz
      return 0
    else do
      let mapped ← vmmap root size pgSize mem (pteR ||| pteV ||| perm)
      if mapped then allocPages root oldsz newsz perm (size + pgSize)
      else do
        kfree layout mem
        let _ ← uvmdealloc layout root size oldsz
        return 0
  else return newsz
termination_by newsz - size
decreasing_by simp only [pgSize] at *; omega

def uvmalloc (root oldsz newsz perm : Nat) : KernelProg Nat :=
  if newsz < oldsz then return oldsz
  else allocPages layout root (pgRoundUp oldsz) newsz perm (pgRoundUp oldsz)

/-- The loop of `freewalk`, from entry `i` on; `freeChild` is the recursive call. -/
def freeEntries (freeChild : Nat → KernelProg Unit) (root : Nat) : Nat → Nat → KernelProg Unit
  | 0, _ => return ()
  | passes + 1, i => do
    let pte ← loadField (root + 8 * i) 8
    if pteValid pte ∧ ¬ pteLeaf pte then do
      freeChild (pte2pa pte)
      storeField (root + 8 * i) 8 0
      freeEntries freeChild root passes (i + 1)
    else if pteValid pte then throw (.panic "freewalk: leaf")
    else freeEntries freeChild root passes (i + 1)

/-- `freewalk` with a bound on the depth of the recursion. -/
def freewalk : Nat → Nat → KernelProg Unit
  | 0, _ => throw .outOfFuel
  | depth + 1, root => do
    freeEntries (freewalk depth) root 512 0
    kfree layout root

/-- The loop of `uvmfreewalk`, from entry `i` on. -/
def uvmfreeEntries (depth root : Nat) : Nat → Nat → KernelProg Unit
  | 0, _ => return ()
  | passes + 1, i => do
    let pte ← loadField (root + 8 * i) 8
    if ¬ pteValid pte then uvmfreeEntries depth root passes (i + 1)
    else if px 2 kernBase ≤ i then do
      storeField (root + 8 * i) 8 0
      uvmfreeEntries depth root passes (i + 1)
    else if ¬ pteLeaf pte then do
      freewalk layout depth (pte2pa pte)
      storeField (root + 8 * i) 8 0
      uvmfreeEntries depth root passes (i + 1)
    else throw (.panic "uvmfreewalk: leaf in top-level")

def uvmfreewalk (depth root : Nat) : KernelProg Unit := do
  uvmfreeEntries layout depth root 512 0
  kfree layout root

def uvmfree (depth root sz stackBottom stackTop : Nat) : KernelProg Unit := do
  onlyIf (0 < sz) (uvmunmap layout root 0 (pgRoundUp sz / pgSize) true)
  onlyIf (stackBottom < stackTop)
    (uvmunmap layout root stackBottom ((stackTop - stackBottom) / pgSize) true)
  uvmfreewalk layout depth root

/-- `mapproc` of `proc.c` -/
def mapproc : KernelProg Nat := do
  let root ← uvmcreate
  if root = 0 then return 0
  else do
    uvmmapkernel root
    return root

end CuteCore

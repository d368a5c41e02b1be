import CuteCore.Mm.SlabFree

/-!
# kmalloc

Requests up to `MAX_CACHE_SIZE` come from one of nine slab caches, larger ones
take a whole page with a magic word in front. `kmfree` tells the two apart by
the first word of the page.
-/

namespace CuteCore

open Hoare Bytes DoublyLinked

/-- `MAX_CACHE_SIZE` -/
def maxCacheSize : Nat := 2048

/-- `LARGE_ALLOC_MAGIC` -/
def largeAllocMagic : Nat := 0xDEADBEEFCAFEBABE

def sizes : Fin numCaches → Nat := ![8, 16, 32, 64, 128, 256, 512, 1024, 2048]

/-- The loop of `kmallocinit`. -/
def createCaches : List (Fin numCaches) → KernelProg Unit
  | [] => return ()
  | i :: rest => do
    let cache ← cacheCreate (sizes i)
    modify fun s => { s with caches := Function.update s.caches i cache }
    createCaches rest

def kmallocinit : KernelProg Unit := createCaches (List.finRange numCaches)

/-- The first cache whose objects are large enough. -/
def cacheFor (size : Nat) : Option (Fin numCaches) :=
  (List.finRange numCaches).find? fun i => size ≤ sizes i

def kmalloc (size : Nat) : KernelProg Nat := do
  if size = 0 then return 0
  else if maxCacheSize < size then do
    let page ← kalloc
    if page = 0 then return 0
    else do
      storeField page 8 largeAllocMagic
      return page + 8
  else do
    let s ← get
    match cacheFor size with
    | some i => cacheAlloc (s.caches i)
    | none => return 0

variable (layout : Layout)

def kmfree (ptr : Nat) : KernelProg Unit := do
  if ptr = 0 then return ()
  else do
    let page := pgRoundDown ptr
    let magic ← loadField page 8
    if magic = largeAllocMagic then kfree layout page
    else do
      let cache ← loadField (page + 32) 8
      cacheFree layout cache ptr

def kinit : KernelProg Unit := do
  freerange layout layout.ekernel phyEnd
  kmallocinit

end CuteCore

import CuteCore.Mm.Vm
import CuteCore.Mm.Slab
import CuteCore.Library.Bits

/-!
# Processes

Process numbers, and what `freeproc` takes apart. A process is known by the
fields of its object that are read here.

The numbers are kept in a bitmap with a cursor. What `freeproc` takes apart are the memory
of the process, its page tables and its own pages; the number and the object go back to
where they came from.
-/

namespace CuteCore

open Hoare Bytes

/-- `RESERVEDPID` -/
def reservedPid : Nat := 300

/-- `MAXPID` -/
def maxPid : Nat := 32768

/-- The fields of `struct proc`, and the address of the object. -/
structure Proc where
  addr : Nat
  pid : Nat
  kstack : Nat
  root : Nat
  sz : Nat
  stackBottom : Nat
  stackTop : Nat

def setpid (pid : Nat) : KernelProg Unit :=
  modify fun s => { s with pidBitmap := setBit s.pidBitmap pid }

def checkpid (pid : Nat) : KernelProg Bool := do
  let s ← get
  return bitAt s.pidBitmap pid

/-- The loop of `allocpid`. -/
def allocpidFrom : Nat → Nat → KernelProg Int
  | 0, _ => return -1
  | passes + 1, last => do
    let pid := if maxPid ≤ last + 1 then reservedPid else last + 1
    let taken ← checkpid pid
    if taken = true then allocpidFrom passes pid
    else do
      setpid pid
      modify fun s => { s with lastPid := pid }
      return pid

def allocpid : KernelProg Int := do
  let s ← get
  allocpidFrom maxPid s.lastPid

/-- Conversions between `i32` and `u64`. -/
def asI32 (n : Nat) : Int := (BitVec.ofNat 32 n).toInt
def asU64 (n : Int) : Nat := (BitVec.ofInt 64 n).toNat

/-- `freepid`. A shift by a negative number has no meaning, and a number from
`MAXPID` on has no byte. -/
def freepid (pid : Int) : KernelProg Unit :=
  if 0 ≤ pid ∧ pid < maxPid then
    modify fun s => { s with pidBitmap := clearBit s.pidBitmap pid.toNat }
  else throw .badAccess

/-- How `freeproc` gives the number of a process back. -/
def releasePid (pid : Nat) : KernelProg Unit := onlyIf (reservedPid < pid) (freepid (asI32 pid))

variable (layout : Layout)

/-- `freeproc` of a process that is not null. The other fields it resets are gone
with the object. -/
def freeproc (depth : Nat) (p : Proc) : KernelProg Unit := do
  uvmfree layout depth p.root p.sz p.stackBottom p.stackTop
  onlyIf (p.kstack ≠ 0) (kfree layout p.kstack)
  releasePid p.pid
  let s ← get
  cacheFree layout s.procCache p.addr

end CuteCore

import CuteCore.Fs.SharedFiles

/-!
# System calls

The table of `syscall.c` with the calls behind it. A caller traps with registers, open files
and memory of its own. The calls that find an open file read and write it; all others are
answered without one.

A call is known by the number in `a7` and the arguments in the registers behind it. An
argument is taken as an `int` or as an address, as the call wants it. Numbers without an
entry in the table and descriptors without a file are answered with -1. The buffers of a
read or a write are memory of the caller.
-/

namespace CuteCore.Fs

open Hoare Bytes ByteFiles

/-- The registers that the calls read. -/
structure Trapframe where
  a0 : BitVec 64
  a1 : BitVec 64
  a2 : BitVec 64
  a3 : BitVec 64
  a4 : BitVec 64
  a5 : BitVec 64
  a7 : BitVec 64

/-- What the current process shows to a call. -/
structure Caller where
  trapframe : Trapframe
  fdtable : Nat → Option Nat
  memory : ByteMap

/-- `NOFILE` -/
def nofile : Nat := 16

def argraw (tf : Trapframe) : Nat → BitVec 64
  | 0 => tf.a0
  | 1 => tf.a1
  | 2 => tf.a2
  | 3 => tf.a3
  | 4 => tf.a4
  | 5 => tf.a5
  | _ => -1

def argint (tf : Trapframe) (n : Nat) : BitVec 32 := (argraw tf n).setWidth 32

def argaddr (tf : Trapframe) (n : Nat) : BitVec 64 := argraw tf n

def argfd (p : Caller) (n : Nat) : Option Nat :=
  let fd := (argint p.trapframe n).toInt
  if fd < 0 ∨ nofile ≤ fd then none else p.fdtable fd.toNat

/-- Memory from `a` on, as a buffer. -/
def Caller.view (p : Caller) (a : Nat) : ByteMap := fun i => p.memory (a + i)

/-- Memory with this buffer from `a` on. -/
def Caller.stored (p : Caller) (a : Nat) (buf : ByteMap) : ByteMap :=
  fun x => if a ≤ x then buf (x - a) else p.memory x

/-- The second and third argument of `sys_read` and `sys_write`; the length becomes a `usize`. -/
def Caller.addr (p : Caller) : Nat := (argaddr p.trapframe 1).toNat
def Caller.len (p : Caller) : Nat := ((argint p.trapframe 2).signExtend 64).toNat

/-- The value for `a0`, and the caller's memory. -/
abbrev SyscallProg := FileProg (BitVec 64 × ByteMap)

def sysRead (p : Caller) : SyscallProg :=
  match argfd p 0 with
  | none => return (-1, p.memory)
  | some f => do
    let got ← fileread (some f) (p.view p.addr) p.len
    return (BitVec.ofInt 64 got.1, p.stored p.addr got.2)

def sysWrite (p : Caller) : SyscallProg :=
  match argfd p 0 with
  | none => return (-1, p.memory)
  | some f => do
    let ret ← filewrite (some f) (p.view p.addr) p.len
    return (BitVec.ofInt 64 ret, p.memory)

def sysExecve (p : Caller) : SyscallProg := return (0, p.memory)

/-- `syscalls`; the other entries are null. -/
def syscalls (num : Nat) : Option (Caller → SyscallProg) :=
  if num = 63 then some sysRead
  else if num = 64 then some sysWrite
  else if num = 221 then some sysExecve
  else none

/-- `NELEM(syscalls)` -/
def numSyscalls : Nat := 279

/-- `num` of `syscall`. -/
def Caller.num (p : Caller) : Int := (p.trapframe.a7.setWidth 32).toInt

def syscall (p : Caller) : SyscallProg :=
  if 0 < p.num ∧ p.num < numSyscalls then
    match syscalls p.num.toNat with
    | some call => call p
    | none => return (-1, p.memory)
  else return (-1, p.memory)

/-- Calls in the order in which they come, each from a process. -/
def serve : List Caller → FileProg (List (BitVec 64 × ByteMap))
  | [] => return []
  | p :: rest => do
    let result ← syscall p
    let results ← serve rest
    return result :: results

/-! ## Calls that reach a file -/

/-- What a call asks of an open file, if it asks anything. -/
def Caller.io (p : Caller) : Option FileIo :=
  if p.num = 63 then (argfd p 0).map fun f => .read f p.len (p.view p.addr)
  else if p.num = 64 then (argfd p 0).map fun f => .write f p.len (p.view p.addr)
  else none

/-- What it is answered. -/
def Caller.result (p : Caller) (got : Int × ByteMap) : BitVec 64 × ByteMap :=
  (BitVec.ofInt 64 got.1, p.stored p.addr got.2)

/-- The answer to a call without a file. -/
def Caller.plain (p : Caller) : BitVec 64 × ByteMap := (if p.num = 221 then 0 else -1, p.memory)

/-- The answers to all calls from those of the files. -/
def results : List Caller → List (Int × ByteMap) → List (BitVec 64 × ByteMap)
  | [], _ => []
  | p :: rest, gots =>
    match p.io, gots with
    | none, gots => p.plain :: results rest gots
    | some _, [] => []
    | some _, got :: more => p.result got :: results rest more

section

variable {groups : Groups} {loose : Nat → Nat → Prop} {held : Multiset Nat} {left : Nat}
  {s : OpenFiles} {view : Nat → ByteMap} {p : Caller}

theorem stored_view (p : Caller) (a : Nat) : p.stored a (p.view a) = p.memory := by
  funext x
  rw [Caller.stored]
  split
  · rename_i least
    rw [Caller.view, Nat.add_sub_cancel' least]
  · rfl

/-- A read or write on an open descriptor is the call of the file layer, with its result and data
for the caller. -/
theorem syscall_io {io : FileIo} (isIo : p.io = some io) :
    syscall p = do
      let got ← io.exec
      return p.result got := by
  rw [Caller.io] at isIo
  split at isIo
  · rename_i isRead
    obtain ⟨f, found, rfl⟩ := Option.map_eq_some_iff.mp isIo
    have served : syscall p = sysRead p := by
      rw [syscall, isRead]
      rfl
    rw [served, sysRead, found]
    rfl
  · split at isIo
    · rename_i isWrite
      obtain ⟨f, found, rfl⟩ := Option.map_eq_some_iff.mp isIo
      have served : syscall p = sysWrite p := by
        rw [syscall, isWrite]
        rfl
      rw [served, sysWrite, found, FileIo.exec, bind_assoc]
      simp only [pure_bind, Caller.result, stored_view]
    · cases isIo

/-- A call that moves no bytes is answered from its number and arguments alone. -/
theorem syscall_plain (noIo : p.io = none) : syscall p = return p.plain := by
  rw [Caller.io] at noIo
  split at noIo
  · rename_i isRead
    have closed : argfd p 0 = none := Option.map_eq_none_iff.mp noIo
    have served : syscall p = sysRead p := by
      rw [syscall, isRead]
      rfl
    have notExecve : ¬ p.num = 221 := by omega
    rw [served, sysRead, closed, Caller.plain, if_neg notExecve]
  · rename_i notRead
    split at noIo
    · rename_i isWrite
      have closed : argfd p 0 = none := Option.map_eq_none_iff.mp noIo
      have served : syscall p = sysWrite p := by
        rw [syscall, isWrite]
        rfl
      have notExecve : ¬ p.num = 221 := by omega
      rw [served, sysWrite, closed, Caller.plain, if_neg notExecve]
    · rename_i notWrite
      by_cases isExecve : p.num = 221
      · rw [syscall, Caller.plain, isExecve]
        rfl
      · rw [syscall, Caller.plain, if_neg isExecve]
        split
        · rename_i inTable
          have others : syscalls p.num.toNat = none := by
            rw [syscalls, if_neg (by omega), if_neg (by omega), if_neg (by omega)]
          rw [others]
        · rfl

/-- A length that is not negative stays what it is. -/
theorem len_short (notNegative : 0 ≤ (argint p.trapframe 2).toInt) : p.len < 2 ^ 31 := by
  have msb : (argint p.trapframe 2).msb = false := by
    rw [← Bool.not_eq_true, BitVec.msb_eq_toInt, decide_eq_true_eq]
    exact Int.not_lt.mpr notNegative
  have small : (argint p.trapframe 2).toNat < 2 ^ 31 := by
    rw [BitVec.msb_eq_false_iff_two_mul_lt] at msb
    omega
  rw [Caller.len, BitVec.signExtend_eq_setWidth_of_msb_false msb, BitVec.toNat_setWidth]
  exact Nat.lt_of_le_of_lt (Nat.mod_le _ _) small

/-- What a call reaches is open, and the length is its own. -/
theorem io_open {io : FileIo} (isIo : p.io = some io) :
    (∃ fd, p.fdtable fd = some io.file) ∧ io.len = p.len := by
  have found : ∀ f, argfd p 0 = some f → ∃ fd, p.fdtable fd = some f := by
    intro f isOpen
    rw [argfd] at isOpen
    split at isOpen
    · cases isOpen
    · exact ⟨_, isOpen⟩
  rw [Caller.io] at isIo
  split at isIo
  · obtain ⟨f, isOpen, rfl⟩ := Option.map_eq_some_iff.mp isIo
    exact ⟨found f isOpen, rfl⟩
  · split at isIo
    · obtain ⟨f, isOpen, rfl⟩ := Option.map_eq_some_iff.mp isIo
      exact ⟨found f isOpen, rfl⟩
    · cases isIo

/-- The calls are those of the files, with their answers spread over all. -/
theorem serve_eq (calls : List Caller) : serve calls = do
    let gots ← execAll (calls.filterMap Caller.io)
    return results calls gots := by
  induction calls with
  | nil => rfl
  | cons p rest inductionHypothesis =>
    rw [serve, inductionHypothesis]
    cases isIo : p.io with
    | none =>
      have next : ∀ gots, results (p :: rest) gots = p.plain :: results rest gots := by
        intro gots
        simp only [results, isIo]
      rw [syscall_plain isIo, List.filterMap_cons_none isIo]
      simp only [pure_bind, bind_assoc, next]
    | some io =>
      have next : ∀ got more,
          results (p :: rest) (got :: more) = p.result got :: results rest more := by
        intro got more
        simp only [results, isIo]
      rw [syscall_io isIo, List.filterMap_cons_some isIo, execAll]
      simp only [pure_bind, bind_assoc, next]

/-- A call on descriptor 3, which leads to this file. -/
def onThree (num len : BitVec 64) (f : Nat) : Caller where
  trapframe := { a0 := 3, a1 := 0x1000, a2 := len, a3 := 0, a4 := 0, a5 := 0, a7 := num }
  fdtable fd := if fd = 3 then some f else none
  memory := fun _ => 7

/-- A write of one process, a read of another and a `close`, which is not there. -/
def threeCalls : List Caller := [onThree 64 5 0, onThree 63 9 1, onThree 57 0 0]

/-- The descriptors of the three calls lead to open files. -/
theorem threeCalls_isFile (fs : Vfs) (p : Caller) (member : p ∈ threeCalls) (fd f : Nat)
    (isOpen : p.fdtable fd = some f) : ((openedTwice fs).file f).isSome := by
  have among : f = 0 ∨ f = 1 := by
    simp only [threeCalls, List.mem_cons, List.not_mem_nil, or_false] at member
    rcases member with rfl | rfl | rfl
    all_goals
      simp only [onThree] at isOpen
      split at isOpen
      · obtain rfl := Option.some.inj isOpen
        decide
      · cases isOpen
  rcases among with rfl | rfl
  · rfl
  · rfl

end

end CuteCore.Fs

import CuteCore.Library.Hoare

/-!
# Constants and faults

The compile-time constants of `config.h` that several subsystems share, and the
ways kernel code stops. `panic` prints and shuts the machine down, so nothing
runs after it. An access outside the object or the memory it is meant for is a
fault of its own: the language gives it no meaning. A recursion of the source
without a bound of its own runs on fuel and stops when it is used up.
-/

namespace CuteCore

/-- `PGSIZE` -/
def pgSize : Nat := 4096

/-- `BLKSZ` -/
def blkSz : Nat := pgSize

/-- `NBLKNUM` -/
def nBlkNum : Nat := 64

inductive Fault where
  | panic (message : String)
  | badAccess
  | outOfFuel
  deriving DecidableEq, Repr

end CuteCore

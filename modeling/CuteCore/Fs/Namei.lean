import CuteCore.Fs.Dir

/-!
# Path resolution

`namex` walks a path component by component. A path is the list of its bytes
without the terminator.

Components are separated by one slash or more. A component is copied to a buffer of
`MAXPATHLEN` bytes and cut off to fit it. The walk holds one reference at a time: that to
the inode it has come to, which it gives back when it goes on.
-/

namespace CuteCore.Fs

open Hoare

/-- `MAXPATHLEN` -/
def maxPathLen : Nat := 256

def slash : Bytes.Byte := 0x2F

def skipSlash (path : List Bytes.Byte) : List Bytes.Byte := path.dropWhile (· = slash)

/-- The next component, cut off to fit its buffer, and what follows it. -/
def pathNext (path : List Bytes.Byte) : Option (List Bytes.Byte × List Bytes.Byte) :=
  if path = [] then none
  else some ((path.takeWhile (· ≠ slash)).take (maxPathLen - 1), path.dropWhile (· ≠ slash))

/-- The loop of `namex`: the inode with the last component in parent mode. Each
pass consumes a byte of the path at least. -/
def namexFrom (parent : Bool) : Nat → Nat → List Bytes.Byte → FsProg (Option (Nat × List Bytes.Byte))
  | 0, _, _ => throw .outOfFuel
  | budget + 1, cur, path =>
    match pathNext path with
    | none =>
      if parent = true then do
        iput cur
        return none
      else return some (cur, [])
    | some (name, rest) =>
      if parent = true ∧ skipSlash rest = [] then return some (cur, name)
      else do
        let inode ← derefInode cur
        if inode.type ≠ .dir then do
          iput cur
          return none
        else do
          let next ← ext2Lookup cur name
          iput cur
          match next with
          | none => return none
          | some next => namexFrom parent budget next (skipSlash rest)

def namex (path : List Bytes.Byte) (parent : Bool) : FsProg (Option (Nat × List Bytes.Byte)) :=
  match path with
  | [] => return none
  | first :: rest =>
    if first ≠ slash then return none
    else do
      let s ← get
      addRef s.root
      namexFrom parent (rest.length + 1) s.root (skipSlash rest)

def namei (path : List Bytes.Byte) : FsProg (Option Nat) := do
  let found ← namex path false
  return found.map Prod.fst

def nameiparent (path : List Bytes.Byte) : FsProg (Option (Nat × List Bytes.Byte)) := namex path true

end CuteCore.Fs

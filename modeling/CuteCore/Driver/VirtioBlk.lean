import CuteCore.Library.Bytes

/-!
# The polled block driver

`virtio_blk_submit`, `blkread` and `blkwrite` beside a device that follows the rules of
the split ring. Driver and device take turns in any order, one access of shared memory
at a time. The device reads the descriptors and the header again at each of its steps and
transfers the bytes of a sector in any order. A history records the calls, the requests
they publish and the requests the device completes.
-/

namespace CuteCore.Virtio

open Bytes

/-- `VIRTIO_BLK_T_IN` and `VIRTIO_BLK_T_OUT` -/
def virtioBlkTIn : BitVec 32 := 0
def virtioBlkTOut : BitVec 32 := 1

/-- `VIRTQ_DESC_F_NEXT` and `VIRTQ_DESC_F_WRITE` -/
def virtqDescFNext : BitVec 16 := 1
def virtqDescFWrite : BitVec 16 := 2

/-- `QSIZE` -/
def qSize : Nat := 8

/-- `BLKSZ / 512` -/
abbrev sectorsPerBlock : Nat := 8

abbrev Sector := Fin 512 → Byte
abbrev Block := Fin sectorsPerBlock → Sector

/-- What a descriptor points at: a part of `disk_io` or a buffer of the caller. -/
inductive BufAddr where
  | hdr
  | data (p : Nat)
  | status
  deriving DecidableEq

/-- `struct virtq_desc` -/
structure Desc where
  addr : BufAddr
  len : BitVec 32
  flags : BitVec 16
  next : BitVec 16

/-- The memory that driver and device share: `disk_io`, `disk_queue` and the buffers. -/
structure Shared where
  hdrType : BitVec 32
  hdrReserved : BitVec 32
  hdrSector : BitVec 64
  status : Byte
  desc : Nat → Desc
  availIdx : BitVec 16
  availRing : Nat → BitVec 16
  usedIdx : BitVec 16
  usedRing : Nat → BitVec 32 × BitVec 32
  mem : ByteMap

def Shared.setDesc (s : Shared) (i : Nat) (change : Desc → Desc) : Shared :=
  { s with desc := Function.update s.desc i (change (s.desc i)) }

/-- A call of `blkwrite` or `blkread`. -/
structure Call where
  writes : Bool
  no : BitVec 64
  data : Nat

def Call.type (call : Call) : BitVec 32 := if call.writes then virtioBlkTOut else virtioBlkTIn

/-- The sector and the buffer of pass `i`. -/
def Call.sector (call : Call) (i : Nat) : BitVec 64 := call.no * 8 + BitVec.ofNat 64 i
def Call.buffer (call : Call) (i : Nat) : Nat := call.data + i * 512

/-- The stores of `virtio_blk_submit` before it reads `used.idx`, in order. -/
def prepare (type : BitVec 32) (sector : BitVec 64) (data : Nat) : List (Shared → Shared) :=
  [fun s => { s with hdrType := type },
    fun s => { s with hdrReserved := 0 },
    fun s => { s with hdrSector := sector },
    fun s => { s with status := 0xff },
    fun s => s.setDesc 0 fun desc => { desc with addr := .hdr },
    fun s => s.setDesc 0 fun desc => { desc with len := 16 },
    fun s => s.setDesc 0 fun desc => { desc with flags := virtqDescFNext },
    fun s => s.setDesc 0 fun desc => { desc with next := 1 },
    fun s => s.setDesc 1 fun desc => { desc with addr := .data data },
    fun s => s.setDesc 1 fun desc => { desc with len := 512 },
    fun s => s.setDesc 1 fun desc => { desc with
      flags := virtqDescFNext ||| (if type = virtioBlkTIn then virtqDescFWrite else 0) },
    fun s => s.setDesc 1 fun desc => { desc with next := 2 },
    fun s => s.setDesc 2 fun desc => { desc with addr := .status },
    fun s => s.setDesc 2 fun desc => { desc with len := 1 },
    fun s => s.setDesc 2 fun desc => { desc with flags := virtqDescFWrite },
    fun s => s.setDesc 2 fun desc => { desc with next := 0 }]

/-- Where the driver is inside `virtio_blk_submit`; `lastUsed` is its `last_used`. -/
inductive Stage where
  | preparing (stores : Nat)
  | sampling
  | filling (lastUsed : BitVec 16)
  | publishing (lastUsed : BitVec 16)
  | notifying (lastUsed : BitVec 16)
  | polling (lastUsed : BitVec 16)
  | checking

inductive Driver where
  | idle
  | submitting (call : Call) (i : Nat) (stage : Stage)
  | panicked

/-- A request the device has taken and not completed. -/
structure Job where
  head : BitVec 16
  moved : Fin 512 → Bool
  answered : Bool

inductive Event where
  | called (call : Call) (given : Block)
  | published (type : BitVec 32) (sector : BitVec 64)
  | completed (type : BitVec 32) (sector : BitVec 64) (bytes : Sector)
  | returned (call : Call) (block : Block)

/-- The shared memory and the device, with its own index into the available ring and the
requests it has taken. -/
structure Machine where
  shared : Shared
  lastAvail : BitVec 16
  active : List Job
  disk : BitVec 64 → Sector

structure State extends Machine where
  driver : Driver
  history : List Event

def sectorAt (mem : ByteMap) (p : Nat) : Sector := fun k => mem (p + k)

def Call.blockAt (call : Call) (mem : ByteMap) : Block := fun i => sectorAt mem (call.buffer i)

/-! ## The driver -/

/-- One step of the loop body of a call, in pass `i`. -/
def State.submitStep (s : State) (call : Call) (i : Nat) : Stage → State
  | .preparing stores =>
    match (prepare call.type (call.sector i) (call.buffer i))[stores]? with
    | some store =>
      { s with shared := store s.shared, driver := .submitting call i (.preparing (stores + 1)) }
    | none => { s with driver := .submitting call i .sampling }
  | .sampling => { s with driver := .submitting call i (.filling s.shared.usedIdx) }
  | .filling lastUsed =>
    { s with
      shared := { s.shared with
        availRing := Function.update s.shared.availRing (s.shared.availIdx.toNat % qSize) 0 }
      driver := .submitting call i (.publishing lastUsed) }
  | .publishing lastUsed =>
    { s with
      shared := { s.shared with availIdx := s.shared.availIdx + 1 }
      driver := .submitting call i (.notifying lastUsed)
      history := s.history ++ [.published call.type (call.sector i)] }
  | .notifying lastUsed => { s with driver := .submitting call i (.polling lastUsed) }
  | .polling lastUsed =>
    if s.shared.usedIdx = lastUsed then s else { s with driver := .submitting call i .checking }
  | .checking =>
    if s.shared.status ≠ 0 then { s with driver := .panicked }
    else if i + 1 < sectorsPerBlock then
      { s with driver := .submitting call (i + 1) (.preparing 0) }
    else
      { s with
        driver := .idle
        history := s.history ++ [.returned call (call.blockAt s.shared.mem)] }

/-- While no call runs, the kernel uses its memory and may start one. -/
inductive DriverStep : State → State → Prop where
  | write {s : State} (idle : s.driver = .idle) (mem : ByteMap) :
      DriverStep s { s with shared := { s.shared with mem := mem } }
  | call {s : State} (idle : s.driver = .idle) (call : Call) :
      DriverStep s { s with
        driver := .submitting call 0 (.preparing 0)
        history := s.history ++ [.called call (call.blockAt s.shared.mem)] }
  | submit {s : State} {call : Call} {i : Nat} {stage : Stage}
      (isAt : s.driver = .submitting call i stage) : DriverStep s (s.submitStep call i stage)

/-! ## The device -/

/-- The request behind a descriptor: its type, sector and buffer, as memory has them now. -/
def Shared.chain (s : Shared) (head : BitVec 16) : Option (BitVec 32 × BitVec 64 × Nat) :=
  let first := s.desc head.toNat
  let second := s.desc first.next.toNat
  let third := s.desc second.next.toNat
  match second.addr with
  | .data p =>
    if first.addr = .hdr ∧ first.len = 16 ∧ first.flags = virtqDescFNext ∧ second.len = 512 ∧
        (s.hdrType = virtioBlkTIn ∧ second.flags = virtqDescFNext ||| virtqDescFWrite ∨
          s.hdrType = virtioBlkTOut ∧ second.flags = virtqDescFNext) ∧
        third.addr = .status ∧ third.len = 1 ∧ third.flags = virtqDescFWrite then
      some (s.hdrType, s.hdrSector, p)
    else none
  | .hdr => none
  | .status => none

inductive DeviceStep : State → State → Prop where
  | fetch {s : State} (new : s.lastAvail ≠ s.shared.availIdx) :
      DeviceStep s { s with
        lastAvail := s.lastAvail + 1
        active := s.active ++ [{
          head := s.shared.availRing (s.lastAvail.toNat % qSize)
          moved := fun _ => false
          answered := false }] }
  | toDisk {s : State} {front rest : List Job} {job : Job} {sector : BitVec 64} {p : Nat}
      (among : s.active = front ++ job :: rest) (pending : job.answered = false)
      (described : s.shared.chain job.head = some (virtioBlkTOut, sector, p)) (k : Fin 512) :
      DeviceStep s { s with
        disk := Function.update s.disk sector
          (Function.update (s.disk sector) k (s.shared.mem (p + k)))
        active := front ++ { job with moved := Function.update job.moved k true } :: rest }
  | fromDisk {s : State} {front rest : List Job} {job : Job} {sector : BitVec 64} {p : Nat}
      (among : s.active = front ++ job :: rest) (pending : job.answered = false)
      (described : s.shared.chain job.head = some (virtioBlkTIn, sector, p)) (k : Fin 512) :
      DeviceStep s { s with
        shared := { s.shared with mem := Function.update s.shared.mem (p + k) (s.disk sector k) }
        active := front ++ { job with moved := Function.update job.moved k true } :: rest }
  | answer {s : State} {front rest : List Job} {job : Job} {type : BitVec 32}
      {sector : BitVec 64} {p : Nat} (among : s.active = front ++ job :: rest)
      (described : s.shared.chain job.head = some (type, sector, p))
      (whole : ∀ k, job.moved k = true) :
      DeviceStep s { s with
        shared := { s.shared with status := 0 }
        active := front ++ { job with answered := true } :: rest }
  | complete {s : State} {front rest : List Job} {job : Job} {type : BitVec 32}
      {sector : BitVec 64} {p : Nat} (among : s.active = front ++ job :: rest)
      (described : s.shared.chain job.head = some (type, sector, p))
      (answered : job.answered = true) (len : BitVec 32) :
      DeviceStep s { s with
        shared := { s.shared with
          usedRing := Function.update s.shared.usedRing (s.shared.usedIdx.toNat % qSize)
            (job.head.setWidth 32, len)
          usedIdx := s.shared.usedIdx + 1 }
        active := front ++ rest
        history := s.history ++ [.completed type sector (sectorAt s.shared.mem p)] }

/-- Reachable from a state after `blkinit`, in any order of the steps. -/
inductive Reachable (disk : BitVec 64 → Sector) : State → Prop where
  | init {s : State} (avail : s.shared.availIdx = 0) (used : s.shared.usedIdx = 0)
      (seen : s.lastAvail = 0) (none : s.active = []) (idle : s.driver = .idle)
      (isDisk : s.disk = disk) (start : s.history = []) : Reachable disk s
  | driver {s after : State} (earlier : Reachable disk s) (step : DriverStep s after) :
      Reachable disk after
  | device {s after : State} (earlier : Reachable disk s) (step : DeviceStep s after) :
      Reachable disk after

end CuteCore.Virtio

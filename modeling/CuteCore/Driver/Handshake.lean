import Mathlib

/-!
# Bringing the block device up

`blkinit` against a device that follows the initialization of the transport: status bits are
only added, features are settled before `FEATURES_OK`, the queue is set up behind it and
before `DRIVER_OK`, and a device may refuse the features and take its time for a reset. The
device notes when a rule is broken.
-/

namespace CuteCore.Virtio

/-! ## The registers of the device -/

inductive Register where
  | magic | version | deviceId
  | deviceFeatures | deviceFeaturesSel | driverFeatures | driverFeaturesSel
  | queueSel | queueNumMax | queueNum | queueReady | status
  | queueDescLow | queueDescHigh | queueDriverLow | queueDriverHigh
  | queueDeviceLow | queueDeviceHigh

def magicValue : BitVec 32 := 0x74726976
def mmioVersion : BitVec 32 := 2
def deviceIdBlk : BitVec 32 := 2

/-- `VIRTIO_STATUS_*` -/
def statusAcknowledge : BitVec 32 := 1
def statusDriver : BitVec 32 := 2
def statusDriverOk : BitVec 32 := 4
def statusFeaturesOk : BitVec 32 := 8

/-- `VIRTIO_F_VERSION_1`, in the second word of the features -/
def featureVersion1 : BitVec 32 := 1

/-- `QSIZE` -/
def queueSize : BitVec 32 := 8

/-- What a device is. Until a reset is done its status reads as something else than 0. -/
structure Traits where
  magic : BitVec 32
  version : BitVec 32
  deviceId : BitVec 32
  features : BitVec 32 → BitVec 32
  accepts : (BitVec 32 → BitVec 32) → Bool
  offered : ∀ chosen, accepts chosen = true → ∀ i, chosen i &&& ~~~ features i = 0
  numMax : BitVec 32 → BitVec 32
  resetReads : Nat
  busy : Nat → BitVec 32
  isBusy : ∀ n, busy n ≠ 0

structure Queue where
  num : BitVec 32
  ready : BitVec 32
  desc : BitVec 64
  driver : BitVec 64
  device : BitVec 64

structure Mmio where
  traits : Traits
  resetting : Option Nat
  status : BitVec 32
  deviceSel : BitVec 32
  driverSel : BitVec 32
  chosen : BitVec 32 → BitVec 32
  queueSel : BitVec 32
  queue : BitVec 32 → Queue
  broken : Bool

def noQueue : Queue := ⟨0, 0, 0, 0, 0⟩

/-- Behind a reset. -/
def Mmio.fresh (traits : Traits) (broken : Bool) : Mmio where
  traits := traits
  resetting := none
  status := 0
  deviceSel := 0
  driverSel := 0
  chosen := fun _ => 0
  queueSel := 0
  queue := fun _ => noQueue
  broken := broken

/-- A step outside the rules. -/
def Mmio.breach (device : Mmio) (allowed : Bool) : Mmio :=
  { device with broken := device.broken || !allowed }

def Mmio.selected (device : Mmio) : Queue := device.queue device.queueSel

def Mmio.setQueue (device : Mmio) (queue : Queue) : Mmio :=
  { device with queue := Function.update device.queue device.queueSel queue }

/-- The driver may set up a queue between `FEATURES_OK` and `DRIVER_OK`, while it is not ready. -/
def Mmio.mayConfigure (device : Mmio) : Bool :=
  device.resetting.isNone && device.status &&& statusFeaturesOk != 0 &&
    device.status &&& statusDriverOk == 0 && device.selected.ready == 0

/-- The driver may choose features as long as it has not set `FEATURES_OK`. -/
def Mmio.mayChoose (device : Mmio) : Bool :=
  device.resetting.isNone && device.status &&& statusDriver != 0 &&
    device.status &&& statusFeaturesOk == 0

/-- Bits are added to the status and none taken back, `DRIVER_OK` behind `FEATURES_OK` only. -/
def Mmio.mayAdd (device : Mmio) (value : BitVec 32) : Bool :=
  device.resetting.isNone && device.status &&& value == device.status &&
    (value &&& statusDriverOk == 0 || device.status &&& statusFeaturesOk != 0)

def Mmio.read (device : Mmio) : Register → BitVec 32 × Mmio
  | .magic => (device.traits.magic, device)
  | .version => (device.traits.version, device)
  | .deviceId => (device.traits.deviceId, device)
  | .deviceFeatures => (device.traits.features device.deviceSel, device)
  | .queueNumMax => (device.traits.numMax device.queueSel, device)
  | .queueReady => (device.selected.ready, device)
  | .status =>
    match device.resetting with
    | none => (device.status, device)
    | some 0 => (0, Mmio.fresh device.traits device.broken)
    | some (n + 1) => (device.traits.busy n, { device with resetting := some n })
  -- The other registers are write-only.
  | .deviceFeaturesSel | .driverFeatures | .driverFeaturesSel | .queueSel | .queueNum
  | .queueDescLow | .queueDescHigh | .queueDriverLow | .queueDriverHigh | .queueDeviceLow
  | .queueDeviceHigh => (0, device)

def low (address : BitVec 64) (value : BitVec 32) : BitVec 64 :=
  address.extractLsb' 32 32 ++ value

def high (address : BitVec 64) (value : BitVec 32) : BitVec 64 :=
  value ++ address.extractLsb' 0 32

/-- The status that the device takes on: without `FEATURES_OK` when it refuses the features. -/
def Mmio.addStatus (device : Mmio) (value : BitVec 32) : BitVec 32 :=
  if value &&& statusFeaturesOk ≠ 0 ∧ device.status &&& statusFeaturesOk = 0 ∧
      device.traits.accepts device.chosen = false then
    value &&& ~~~ statusFeaturesOk
  else value

def Mmio.write (device : Mmio) (register : Register) (value : BitVec 32) : Mmio :=
  match register with
  | .status =>
    if value = 0 then { device with resetting := some device.traits.resetReads }
    else { device.breach (device.mayAdd value) with status := device.addStatus value }
  | .deviceFeaturesSel => { device with deviceSel := value }
  | .driverFeaturesSel => { device with driverSel := value }
  | .driverFeatures =>
    { device.breach device.mayChoose with
      chosen := Function.update device.chosen device.driverSel value }
  | .queueSel => { device with queueSel := value }
  | .queueNum =>
    (device.breach (device.mayConfigure && value ≤ device.traits.numMax device.queueSel)).setQueue
      { device.selected with num := value }
  | .queueReady =>
    (device.breach (device.mayConfigure && device.selected.num != 0)).setQueue
      { device.selected with ready := value }
  | .queueDescLow =>
    (device.breach device.mayConfigure).setQueue
      { device.selected with desc := low device.selected.desc value }
  | .queueDescHigh =>
    (device.breach device.mayConfigure).setQueue
      { device.selected with desc := high device.selected.desc value }
  | .queueDriverLow =>
    (device.breach device.mayConfigure).setQueue
      { device.selected with driver := low device.selected.driver value }
  | .queueDriverHigh =>
    (device.breach device.mayConfigure).setQueue
      { device.selected with driver := high device.selected.driver value }
  | .queueDeviceLow =>
    (device.breach device.mayConfigure).setQueue
      { device.selected with device := low device.selected.device value }
  | .queueDeviceHigh =>
    (device.breach device.mayConfigure).setQueue
      { device.selected with device := high device.selected.device value }
  -- The other registers are read-only.
  | .magic | .version | .deviceId | .deviceFeatures | .queueNumMax => device.breach false

/-! ## `blkinit` -/

/-- The panics of `blkinit`, and a loop that is still running. -/
inductive Halt where
  | badMagic (magic : BitVec 32)
  | unsupportedVersion (version : BitVec 32)
  | unexpectedDevice (deviceId : BitVec 32)
  | waiting
  | rejectedFeatures
  | queueActive
  | noQueue
  | shortQueue (numMax : BitVec 32)

abbrev MmioProg := ExceptT Halt (StateM Mmio)

def vioRead (register : Register) : MmioProg (BitVec 32) := fun device =>
  (.ok (device.read register).1, (device.read register).2)

def vioWrite (register : Register) (value : BitVec 32) : MmioProg Unit := fun device =>
  (.ok (), device.write register value)

def checkIdentity : MmioProg Unit := do
  let magic ← vioRead .magic
  if magic ≠ magicValue then throw (.badMagic magic)
  let version ← vioRead .version
  if version ≠ mmioVersion then throw (.unsupportedVersion version)
  let deviceId ← vioRead .deviceId
  if deviceId ≠ deviceIdBlk then throw (.unexpectedDevice deviceId)

def awaitReset : Nat → MmioProg Unit
  | 0 => throw .waiting
  | fuel + 1 => do
    let status ← vioRead .status
    if status ≠ 0 then awaitReset fuel

def negotiate : MmioProg Unit := do
  vioWrite .status statusAcknowledge
  vioWrite .status (statusAcknowledge ||| statusDriver)
  vioWrite .deviceFeaturesSel 0
  let _ ← vioRead .deviceFeatures
  vioWrite .deviceFeaturesSel 1
  let _ ← vioRead .deviceFeatures
  vioWrite .driverFeaturesSel 0
  vioWrite .driverFeatures 0
  vioWrite .driverFeaturesSel 1
  vioWrite .driverFeatures featureVersion1
  vioWrite .status (statusAcknowledge ||| statusDriver ||| statusFeaturesOk)

def checkFeatures : MmioProg Unit := do
  let status ← vioRead .status
  if status &&& statusFeaturesOk = 0 then throw .rejectedFeatures

def checkQueue : MmioProg Unit := do
  vioWrite .queueSel 0
  let ready ← vioRead .queueReady
  if ready ≠ 0 then throw .queueActive
  let numMax ← vioRead .queueNumMax
  if numMax = 0 then throw .noQueue
  if numMax < queueSize then throw (.shortQueue numMax)

def configureQueue (desc avail used : BitVec 64) : MmioProg Unit := do
  vioWrite .queueNum queueSize
  vioWrite .queueDescLow (desc.extractLsb' 0 32)
  vioWrite .queueDescHigh (desc.extractLsb' 32 32)
  vioWrite .queueDriverLow (avail.extractLsb' 0 32)
  vioWrite .queueDriverHigh (avail.extractLsb' 32 32)
  vioWrite .queueDeviceLow (used.extractLsb' 0 32)
  vioWrite .queueDeviceHigh (used.extractLsb' 32 32)
  vioWrite .queueReady 1

/-- `desc`, `avail` and `used` are the addresses of the parts of `disk_queue`. -/
def blkinit (desc avail used : BitVec 64) (fuel : Nat) : MmioProg Unit := do
  checkIdentity
  vioWrite .status 0
  awaitReset fuel
  negotiate
  checkFeatures
  checkQueue
  configureQueue desc avail used
  vioWrite .status
    (statusAcknowledge ||| statusDriver ||| statusFeaturesOk ||| statusDriverOk)

/-! ## What it leads to -/

/-- `VIRTIO_F_VERSION_1` and nothing else. -/
def onlyVersion1 : BitVec 32 → BitVec 32 := Function.update (fun _ => 0) 1 featureVersion1

/-- The devices that `blkinit` can drive. -/
structure Drivable (traits : Traits) : Prop where
  magic : traits.magic = magicValue
  version : traits.version = mmioVersion
  deviceId : traits.deviceId = deviceIdBlk
  accepts : traits.accepts onlyVersion1 = true
  room : queueSize ≤ traits.numMax 0

/-- Behind the features, with the queue given. -/
def Mmio.settled (traits : Traits) (status : BitVec 32) (queue : Queue) : Mmio :=
  { Mmio.fresh traits false with
    status := status
    deviceSel := 1
    driverSel := 1
    chosen := onlyVersion1
    queue := Function.update (fun _ => noQueue) 0 queue }

section

variable {traits : Traits} {device : Mmio}

theorem vioWrite_bind {α : Type} (register : Register) (value : BitVec 32)
    (rest : Unit → MmioProg α) :
    (vioWrite register value >>= rest) device = rest () (device.write register value) := rfl

theorem vioRead_bind {α : Type} (register : Register) (rest : BitVec 32 → MmioProg α) :
    (vioRead register >>= rest) device = rest (device.read register).1 (device.read register).2 :=
  rfl

theorem vioWrite_last (register : Register) (value : BitVec 32) :
    vioWrite register value device = (.ok (), device.write register value) := rfl

/-- The device decides about the features at `FEATURES_OK`. -/
theorem negotiate_fresh (traits : Traits) :
    negotiate (Mmio.fresh traits false) =
      (.ok (), Mmio.settled traits (if traits.accepts onlyVersion1 then 11 else 3) noQueue) := by
  cases accepts : traits.accepts onlyVersion1 with
  | true =>
    simp only [onlyVersion1, BitVec.ofNat_eq_ofNat] at accepts
    simp [negotiate, vioWrite_bind, vioRead_bind, vioWrite_last, Mmio.write, Mmio.read, Mmio.fresh,
      Mmio.addStatus, Mmio.breach, Mmio.mayAdd, Mmio.mayChoose, statusFeaturesOk, statusDriverOk,
      statusAcknowledge, statusDriver, Mmio.settled, onlyVersion1, accepts]
  | false =>
    simp only [onlyVersion1, BitVec.ofNat_eq_ofNat] at accepts
    simp [negotiate, vioWrite_bind, vioRead_bind, vioWrite_last, Mmio.write, Mmio.read, Mmio.fresh,
      Mmio.addStatus, Mmio.breach, Mmio.mayAdd, Mmio.mayChoose, statusFeaturesOk, statusDriverOk,
      statusAcknowledge, statusDriver, Mmio.settled, onlyVersion1, accepts]

theorem checkFeatures_settled (traits : Traits) :
    checkFeatures (Mmio.settled traits 11 noQueue) = (.ok (), Mmio.settled traits 11 noQueue) ∧
      checkFeatures (Mmio.settled traits 3 noQueue) =
        (.error .rejectedFeatures, Mmio.settled traits 3 noQueue) := by
  constructor
  · simp [checkFeatures, vioRead_bind, Mmio.read, Mmio.settled, Mmio.fresh, statusFeaturesOk]
    rfl
  · simp [checkFeatures, vioRead_bind, Mmio.read, Mmio.settled, Mmio.fresh, statusFeaturesOk]
    rfl

/-- The device takes its reads. -/
theorem awaitReset_resetting (device : Mmio) (fuel n : Nat) :
    awaitReset fuel { device with resetting := some n } =
      if n < fuel then (.ok (), Mmio.fresh device.traits device.broken)
      else (.error .waiting, { device with resetting := some (n - fuel) }) := by
  induction fuel generalizing n with
  | zero => rfl
  | succ fuel inductionHypothesis =>
    cases n with
    | zero => rfl
    | succ n =>
      have goesOn : awaitReset (fuel + 1) { device with resetting := some (n + 1) } =
          awaitReset fuel { device with resetting := some n } := by
        have busy : (Mmio.read { device with resetting := some (n + 1) } .status).1 ≠ 0 :=
          device.traits.isBusy n
        rw [awaitReset, vioRead_bind, if_pos busy]
        rfl
      rw [goesOn, inductionHypothesis]
      simp

/-- The queue check of a settled device looks at the queue size of the device only, and refuses a
missing queue before a short one. -/
theorem checkQueue_settled (traits : Traits) :
    checkQueue (Mmio.settled traits 11 noQueue) =
      if queueSize ≤ traits.numMax 0 then (.ok (), Mmio.settled traits 11 noQueue)
      else if traits.numMax 0 = 0 then (.error .noQueue, Mmio.settled traits 11 noQueue)
      else (.error (.shortQueue (traits.numMax 0)), Mmio.settled traits 11 noQueue) := by
  have ready : noQueue.ready = 0#32 := rfl
  have selected : (Mmio.settled traits 11 noQueue).write .queueSel 0 =
      Mmio.settled traits 11 noQueue := rfl
  have isReady : (Mmio.settled traits 11 noQueue).read .queueReady =
      (0, Mmio.settled traits 11 noQueue) := rfl
  have isMax : (Mmio.settled traits 11 noQueue).read .queueNumMax =
      (traits.numMax 0, Mmio.settled traits 11 noQueue) := rfl
  rw [checkQueue, vioWrite_bind, selected, vioRead_bind, isReady, if_neg (not_not.mpr rfl)]
  change (vioRead .queueNumMax >>= fun numMax => _) _ = _
  rw [vioRead_bind, isMax]
  by_cases room : queueSize ≤ traits.numMax 0
  · have enough : ¬ traits.numMax 0 < queueSize := BitVec.not_lt.mpr room
    have notZero : traits.numMax 0 ≠ 0 := by
      intro zero
      rw [zero] at room
      exact absurd room (by decide)
    rw [if_pos room, if_neg notZero]
    change (if traits.numMax 0 < queueSize then throw (Halt.shortQueue _) else pure () :
      MmioProg Unit) _ = _
    rw [if_neg enough]
    rfl
  · rw [if_neg room]
    by_cases zero : traits.numMax 0 = 0
    · rw [if_pos zero, if_pos zero]
      rfl
    · rw [if_neg zero, if_neg zero]
      change (if traits.numMax 0 < queueSize then throw (Halt.shortQueue _) else pure () :
        MmioProg Unit) _ = _
      rw [if_pos (BitVec.not_le.mp room)]
      rfl

/-- The two halves of an address that are written to the registers of a queue make up the address.
-/
theorem high_low (old address : BitVec 64) :
    high (low old (address.extractLsb' 0 32)) (address.extractLsb' 32 32) = address := by
  unfold high low
  ext i bound
  rw [BitVec.getElem_append]
  split
  · rename_i less
    rw [BitVec.getElem_extractLsb', BitVec.getLsbD_append, Nat.zero_add, if_pos less,
      BitVec.getLsbD_extractLsb', Nat.zero_add, BitVec.getLsbD_eq_getElem bound]
    simp [less]
  · rename_i more
    rw [BitVec.getElem_extractLsb']
    have back : 32 + (i - 32) = i := by omega
    rw [back, BitVec.getLsbD_eq_getElem bound]

theorem configureQueue_settled (desc avail used : BitVec 64) (room : queueSize ≤ traits.numMax 0) :
    configureQueue desc avail used (Mmio.settled traits 11 noQueue) =
      (.ok (), Mmio.settled traits 11 ⟨queueSize, 1, desc, avail, used⟩) := by
  have ready : noQueue.ready = 0#32 := rfl
  have fits : decide (queueSize ≤ traits.numMax 0#32) = true := decide_eq_true room
  have sized : (queueSize != 0#32) = true := rfl
  simp [configureQueue, vioWrite_bind, vioWrite_last, Mmio.write, Mmio.settled, Mmio.fresh,
    Mmio.breach, Mmio.mayConfigure, Mmio.setQueue, Mmio.selected, ready, fits, sized,
    statusFeaturesOk, statusDriverOk, high_low]

theorem write_live (queue : Queue) :
    (Mmio.settled traits 11 queue).write .status 15 = Mmio.settled traits 15 queue := by
  simp [Mmio.write, Mmio.settled, Mmio.fresh, Mmio.addStatus, Mmio.breach, Mmio.mayAdd,
    statusFeaturesOk, statusDriverOk]

theorem bind_ok {α β : Type} {p : MmioProg α} {rest : α → MmioProg β} {a : α} {after : Mmio}
    (ran : p device = (.ok a, after)) : (p >>= rest) device = rest a after := by
  change ExceptT.bindCont rest (p device).1 (p device).2 = _
  rw [ran]
  rfl

theorem bind_error {α β : Type} {p : MmioProg α} {rest : α → MmioProg β} {e : Halt} {after : Mmio}
    (ran : p device = (.error e, after)) : (p >>= rest) device = (.error e, after) := by
  change ExceptT.bindCont rest (p device).1 (p device).2 = _
  rw [ran]
  rfl

/-- Bits that are all among those of a word. -/
theorem contained {bits word : BitVec 32} (inside : bits &&& ~~~ word = 0) :
    word &&& bits = bits := by
  ext i bound
  have bit : (bits &&& ~~~ word)[i] = false := by
    rw [inside]
    exact BitVec.getElem_zero bound
  rw [BitVec.getElem_and, BitVec.getElem_not bound] at bit
  rw [BitVec.getElem_and]
  cases isSet : bits[i] with
  | false => exact Bool.and_false _
  | true =>
    rw [isSet, Bool.true_and, Bool.not_eq_false'] at bit
    rw [bit, Bool.true_and]

/-- The identity of a block device. -/
def IsBlk (traits : Traits) : Prop :=
  traits.magic = magicValue ∧ traits.version = mmioVersion ∧ traits.deviceId = deviceIdBlk

/-- The identity checks accept exactly the block devices, and they change nothing in the device. -/
theorem checkIdentity_eq (device : Mmio) :
    (IsBlk device.traits ∧ checkIdentity device = (.ok (), device)) ∨
      (¬ IsBlk device.traits ∧ ∃ e, checkIdentity device = (.error e, device)) := by
  by_cases magic : device.traits.magic = magicValue
  · by_cases version : device.traits.version = mmioVersion
    · by_cases deviceId : device.traits.deviceId = deviceIdBlk
      · left
        constructor
        · exact ⟨magic, version, deviceId⟩
        · simp [checkIdentity, vioRead_bind, Mmio.read, magic, version, deviceId]
          rfl
      · right
        constructor
        · intro isBlk
          exact deviceId isBlk.2.2
        · refine ⟨.unexpectedDevice device.traits.deviceId, ?_⟩
          simp [checkIdentity, vioRead_bind, Mmio.read, magic, version, deviceId]
          rfl
    · right
      constructor
      · intro isBlk
        exact version isBlk.2.1
      · refine ⟨.unsupportedVersion device.traits.version, ?_⟩
        simp [checkIdentity, vioRead_bind, Mmio.read, magic, version]
        rfl
  · right
    constructor
    · intro isBlk
      exact magic isBlk.1
    · refine ⟨.badMagic device.traits.magic, ?_⟩
      simp [checkIdentity, vioRead_bind, Mmio.read, magic]
      rfl

/-- What every run of `blkinit` ends in. -/
structure Handshake (desc avail used : BitVec 64) (fuel : Nat) (device : Mmio)
    (outcome : Except Halt Unit) (after : Mmio) : Prop where
  unbroken : after.broken = false
  returns : outcome = .ok () ↔ Drivable device.traits ∧ device.traits.resetReads < fuel
  live : outcome = .ok () →
    after = Mmio.settled device.traits 15 ⟨queueSize, 1, desc, avail, used⟩ ∧
      device.traits.features 1 &&& featureVersion1 = featureVersion1
  refused : outcome ≠ .ok () → after = device ∨ after.resetting.isSome = true ∨
    after.status &&& statusDriverOk = 0

/-- A handshake that fails has met a device that it cannot drive, and leaves it untouched, in reset
or not live. -/
theorem Handshake.fails {desc avail used : BitVec 64} {fuel : Nat} {e : Halt} {after : Mmio}
    (unbroken : after.broken = false)
    (unfit : ¬ (Drivable device.traits ∧ device.traits.resetReads < fuel))
    (refused : after = device ∨ after.resetting.isSome = true ∨
      after.status &&& statusDriverOk = 0) :
    Handshake desc avail used fuel device (.error e) after := by
  constructor
  · exact unbroken
  · constructor
    · intro ok
      cases ok
    · intro fit
      exact absurd fit unfit
  · intro ok
    cases ok
  · intro _
    exact refused

/-- Against every device that follows the transport, from any state of it and however long its
reset takes, `blkinit` breaks no rule. It returns to a block device that accepts
`VIRTIO_F_VERSION_1` alone and has room for the queue, and to no other; the device is then
live with this queue and offers the feature, though what it offers was read and dropped. -/
theorem blkinit_handshake (desc avail used : BitVec 64) (fuel : Nat)
    (unbroken : device.broken = false) :
    Handshake desc avail used fuel device (blkinit desc avail used fuel device).1
      (blkinit desc avail used fuel device).2 := by
  have accepted : (11 : BitVec 32) &&& statusDriverOk = 0 := by decide
  have rejected : (3 : BitVec 32) &&& statusDriverOk = 0 := by decide
  rw [blkinit]
  rcases checkIdentity_eq device with ⟨isBlk, checked⟩ | ⟨notBlk, e, checked⟩
  · rw [bind_ok checked, vioWrite_bind]
    have resets : device.write .status 0 =
        { device with resetting := some device.traits.resetReads } := rfl
    have reset := awaitReset_resetting device fuel device.traits.resetReads
    rw [← resets] at reset
    by_cases inTime : device.traits.resetReads < fuel
    · rw [if_pos inTime, unbroken] at reset
      rw [bind_ok reset, bind_ok (negotiate_fresh device.traits)]
      cases accepts : device.traits.accepts onlyVersion1 with
      | true =>
        rw [if_pos rfl, bind_ok (checkFeatures_settled device.traits).1]
        have queue := checkQueue_settled device.traits
        by_cases room : queueSize ≤ device.traits.numMax 0
        · rw [if_pos room] at queue
          rw [bind_ok queue, bind_ok (configureQueue_settled desc avail used room)]
          have drivable : Drivable device.traits := ⟨isBlk.1, isBlk.2.1, isBlk.2.2, accepts, room⟩
          have offers := device.traits.offered onlyVersion1 accepts 1
          have lives := @write_live device.traits ⟨queueSize, 1, desc, avail, used⟩
          constructor
          · exact congrArg Mmio.broken lives
          · constructor
            · intro _
              exact ⟨drivable, inTime⟩
            · intro _
              rfl
          · intro _
            constructor
            · exact lives
            · rw [onlyVersion1, Function.update_self] at offers
              exact contained offers
          · intro failed
            exact absurd rfl failed
        · rw [if_neg room] at queue
          have unfit : ¬ (Drivable device.traits ∧ device.traits.resetReads < fuel) :=
            fun fit => room fit.1.room
          split at queue
          · rw [bind_error queue]
            exact Handshake.fails rfl unfit (Or.inr (Or.inr accepted))
          · rw [bind_error queue]
            exact Handshake.fails rfl unfit (Or.inr (Or.inr accepted))
      | false =>
        have unfit : ¬ (Drivable device.traits ∧ device.traits.resetReads < fuel) := by
          rintro ⟨drivable, -⟩
          exact absurd (accepts.symm.trans drivable.accepts) Bool.false_ne_true
        rw [if_neg Bool.false_ne_true, bind_error (checkFeatures_settled device.traits).2]
        exact Handshake.fails rfl unfit (Or.inr (Or.inr rejected))
    · rw [if_neg inTime] at reset
      rw [bind_error reset]
      exact Handshake.fails unbroken (fun fit => inTime fit.2) (Or.inr (Or.inl rfl))
  · rw [bind_error checked]
    exact Handshake.fails unbroken
      (fun fit => notBlk ⟨fit.1.magic, fit.1.version, fit.1.deviceId⟩) (Or.inl rfl)

/-- A device that offers and accepts all features and needs three reads for a reset. -/
def generous : Traits where
  magic := magicValue
  version := mmioVersion
  deviceId := deviceIdBlk
  features := fun _ => BitVec.allOnes 32
  accepts := fun _ => true
  offered := by
    intro chosen _ i
    rw [BitVec.not_allOnes]
    exact BitVec.and_zero
  numMax := fun _ => 1024
  resetReads := 3
  busy := fun _ => 64
  isBusy := by
    intro _
    decide

/-- Live already, with another driver's features. -/
def leftLive : Mmio :=
  { Mmio.fresh generous false with
    status := 15
    chosen := fun _ => 5 }

theorem leftLive_handshake :
    (blkinit 0x80300000 0x80300080 0x80301000 4 leftLive).1 = .ok () :=
  (blkinit_handshake 0x80300000 0x80300080 0x80301000 4 rfl).returns.mpr
    ⟨⟨rfl, rfl, rfl, rfl, by decide⟩, by decide⟩

end

end CuteCore.Virtio

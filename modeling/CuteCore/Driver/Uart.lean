import CuteCore.Library.Bytes
import CuteCore.Fs.File

/-!
# The polled serial port

`uart_putc`, `uart_getc`, `uart_read` and `uart_write` beside the 16550, which receives and
transmits on its own. Driver and device take turns in any order, one access of a register
at a time. The bytes of the calls go out in their order, and those that came in are read in
theirs, none twice and none left out.
-/

namespace CuteCore.Uart

open Bytes

/-! ## The device behind `uartinit` -/

/-- `LSR_RX_READY` and `LSR_TX_IDLE` -/
def lsrRxReady : Byte := 1
def lsrTxIdle : Byte := 1 <<< 5

/-- The depth of the queues that `FCR_FIFO_ENABLE` turns on. -/
def fifoDepth : Nat := 16

/-- The two queues, and what went out on the line. A ghost keeps what was received. -/
structure Device where
  received : List Byte
  transmit : List Byte
  line : List Byte
  accepted : List Byte

/-- The register `LSR`. -/
def Device.lsr (device : Device) : Byte :=
  (if device.received = [] then 0 else lsrRxReady) |||
    (if device.transmit = [] then lsrTxIdle else 0)

/-- A write to `THR` is lost when the queue is full. -/
def Device.writeThr (device : Device) (c : Byte) : Device :=
  if device.transmit.length < fifoDepth then { device with transmit := device.transmit ++ [c] }
  else device

/-- A read of `RBR` takes the first byte out. -/
def Device.readRbr (device : Device) : Byte × Device :=
  match device.received with
  | [] => (0, device)
  | c :: rest => (c, { device with received := rest })

inductive DeviceStep : Device → Device → Prop where
  | receive {device : Device} (c : Byte) (room : device.received.length < fifoDepth) :
      DeviceStep device { device with
        received := device.received ++ [c]
        accepted := device.accepted ++ [c] }
  /-- A byte that comes while the queue is full. -/
  | overrun {device : Device} (full : ¬ device.received.length < fifoDepth) :
      DeviceStep device device
  | transmit {device : Device} {c : Byte} {rest : List Byte} (first : device.transmit = c :: rest) :
      DeviceStep device { device with transmit := rest, line := device.line ++ [c] }

/-! ## The driver -/

inductive Call where
  | putc (c : Byte)
  | getc
  | read (len : Nat)
  | write (data : List Byte)

/-- The bytes to send. -/
def Call.bytes : Call → List Byte
  | .putc c => [c]
  | .getc | .read _ => []
  | .write data => data

/-- The number of bytes to read at most. -/
def Call.wants : Call → Nat
  | .getc => 1
  | .read len => len
  | .putc _ | .write _ => 0

/-- Where the driver is: in a loop over `LSR`, or in front of the access of `THR` or `RBR`
behind it. -/
inductive Driver where
  | idle
  | waitingIdle (call : Call) (sent rest : List Byte)
  | storing (call : Call) (sent : List Byte) (c : Byte) (rest : List Byte)
  | waitingReady (call : Call) (got : List Byte)
  | loading (call : Call) (got : List Byte)

/-- A call that returned, with what it read, and what it left in the device. -/
structure Done where
  call : Call
  got : List Byte
  left : List Byte
  ret : Int

structure State where
  device : Device
  driver : Driver
  history : List Done

def Call.start : Call → Driver
  | .putc c => .waitingIdle (.putc c) [] [c]
  | .write data => .waitingIdle (.write data) [] data
  | .getc => .waitingReady .getc []
  | .read len => .waitingReady (.read len) []

/-- The value returned; `uart_putc` returns none, which is 0 here. -/
def Call.result (call : Call) (got : List Byte) : Int :=
  match call with
  | .putc _ => 0
  | .getc => (got.headD 0).toNat
  | .read _ => Fs.i32 got.length
  | .write data => Fs.i32 data.length

def State.returns (s : State) (call : Call) (got : List Byte) : State :=
  { s with
    driver := .idle
    history := s.history ++ [⟨call, got, s.device.received, call.result got⟩] }

/-- `uart_read` breaks off where `uart_getc` goes on asking. -/
def Call.breaksOff : Call → Bool
  | .read _ => true
  | .putc _ | .getc | .write _ => false

/-- The next register access of the driver, or its return. -/
def State.driverStep (s : State) : Driver → State
  | .idle => s
  | .waitingIdle call _ [] => s.returns call []
  | .waitingIdle call sent (c :: rest) =>
    if s.device.lsr &&& lsrTxIdle = 0 then s else { s with driver := .storing call sent c rest }
  | .storing call sent c rest =>
    { s with device := s.device.writeThr c, driver := .waitingIdle call (sent ++ [c]) rest }
  | .waitingReady call got =>
    if call.wants ≤ got.length then s.returns call got
    else if s.device.lsr &&& lsrRxReady = 0 then
      if call.breaksOff then s.returns call got else s
    else { s with driver := .loading call got }
  | .loading call got =>
    { s with
      device := s.device.readRbr.2
      driver := .waitingReady call (got ++ [s.device.readRbr.1]) }

inductive Step : State → State → Prop where
  | call {s : State} (idle : s.driver = .idle) (call : Call) :
      Step s { s with driver := call.start }
  | driver {s : State} : Step s (s.driverStep s.driver)
  | device {s : State} {device : Device} (moves : DeviceStep s.device device) :
      Step s { s with device := device }

/-- Reachable from an idle driver and a device that may have received something. -/
inductive Reachable : State → Prop where
  | init {device : Device} (quiet : device.transmit = []) (silent : device.line = [])
      (start : device.accepted = device.received) : Reachable ⟨device, .idle, []⟩
  | step {s after : State} (earlier : Reachable s) (step : Step s after) : Reachable after

/-! ## The streams -/

/-- What the driver has handed over so far. -/
def State.sent (s : State) : List Byte :=
  s.history.flatMap (fun done => done.call.bytes) ++
    match s.driver with
    | .waitingIdle _ sent _ | .storing _ sent _ _ => sent
    | .idle | .waitingReady _ _ | .loading _ _ => []

/-- What it has read so far. -/
def State.got (s : State) : List Byte :=
  s.history.flatMap Done.got ++
    match s.driver with
    | .waitingReady _ got | .loading _ got => got
    | .idle | .waitingIdle _ _ _ | .storing _ _ _ _ => []

/-- What holds where the driver is. -/
def AtPoint (s : State) : Prop :=
  match s.driver with
  | .idle => True
  | .waitingIdle call sent rest => call.wants = 0 ∧ call.bytes = sent ++ rest
  | .storing call sent c rest =>
    call.wants = 0 ∧ call.bytes = sent ++ c :: rest ∧ s.device.transmit = []
  | .waitingReady call got => call.bytes = [] ∧ got.length ≤ call.wants
  | .loading call got => call.bytes = [] ∧ got.length < call.wants ∧ s.device.received ≠ []

/-- A call that returned read as much as it may, or, of `uart_read`, as much as was there. -/
structure Done.Right (done : Done) : Prop where
  ret : done.ret = done.call.result done.got
  most : done.got.length ≤ done.call.wants
  whole : done.got.length = done.call.wants ∨ done.left = [] ∧ ∃ len, done.call = .read len

/-- Both streams are whole. -/
structure Streams (s : State) : Prop where
  out : s.sent = s.device.line ++ s.device.transmit
  into : s.got ++ s.device.received = s.device.accepted
  short : s.device.transmit.length ≤ 1
  point : AtPoint s
  right : ∀ done ∈ s.history, done.Right

theorem lsr_idle (device : Device) : device.lsr &&& lsrTxIdle = 0 ↔ device.transmit ≠ [] := by
  by_cases received : device.received = []
  · by_cases transmit : device.transmit = []
    · simp [Device.lsr, received, transmit, lsrTxIdle]
    · simp [Device.lsr, received, transmit]
  · by_cases transmit : device.transmit = []
    · simp [Device.lsr, received, transmit, lsrRxReady, lsrTxIdle]
    · simp [Device.lsr, received, transmit, lsrRxReady, lsrTxIdle]

theorem lsr_ready (device : Device) : device.lsr &&& lsrRxReady = 0 ↔ device.received = [] := by
  by_cases received : device.received = []
  · by_cases transmit : device.transmit = []
    · simp [Device.lsr, received, transmit, lsrRxReady, lsrTxIdle]
    · simp [Device.lsr, received, transmit]
  · by_cases transmit : device.transmit = []
    · simp [Device.lsr, received, transmit, lsrRxReady, lsrTxIdle]
    · simp [Device.lsr, received, transmit, lsrRxReady]

section

variable {s : State}

/-- What a device does between two accesses. -/
theorem Streams.device (streams : Streams s) {device : Device}
    (moves : DeviceStep s.device device) : Streams { s with device := device } := by
  have point := streams.point
  cases moves with
  | receive c room =>
    constructor
    · exact streams.out
    · have into := streams.into
      change s.got ++ (s.device.received ++ [c]) = s.device.accepted ++ [c]
      rw [← List.append_assoc, into]
    · exact streams.short
    · rw [AtPoint] at point ⊢
      cases isAt : s.driver with
      | idle => trivial
      | waitingIdle call sent rest =>
        rw [isAt] at point
        exact point
      | storing call sent c' rest =>
        rw [isAt] at point
        exact point
      | waitingReady call got =>
        rw [isAt] at point
        exact point
      | loading call got =>
        rw [isAt] at point
        exact ⟨point.1, point.2.1, List.append_ne_nil_of_right_ne_nil _ (List.cons_ne_nil c [])⟩
    · exact streams.right
  | overrun full => exact streams
  | @transmit c rest first =>
    have out := streams.out
    have short := streams.short
    constructor
    · change s.sent = s.device.line ++ [c] ++ rest
      rw [out, first, List.append_assoc, List.singleton_append]
    · exact streams.into
    · rw [first, List.length_cons] at short
      change rest.length ≤ 1
      omega
    · rw [AtPoint] at point ⊢
      cases isAt : s.driver with
      | idle => trivial
      | waitingIdle call sent rest' =>
        rw [isAt] at point
        exact point
      | storing call sent c' rest' =>
        rw [isAt] at point
        exact absurd (first.symm.trans point.2.2) (List.cons_ne_nil c rest)
      | waitingReady call got =>
        rw [isAt] at point
        exact point
      | loading call got =>
        rw [isAt] at point
        exact point
    · exact streams.right

/-- The return of a call closes its part of both streams. -/
theorem Streams.returns (streams : Streams s) {call : Call} {got : List Byte}
    (out : s.sent = s.history.flatMap (fun done => done.call.bytes) ++ call.bytes)
    (into : s.got = s.history.flatMap Done.got ++ got)
    (right : Done.Right ⟨call, got, s.device.received, call.result got⟩) :
    Streams (s.returns call got) := by
  constructor
  · rw [State.sent, State.returns, List.flatMap_append, List.flatMap_singleton, List.append_nil,
      ← out]
    exact streams.out
  · rw [State.got, State.returns, List.flatMap_append, List.flatMap_singleton, List.append_nil,
      ← into]
    exact streams.into
  · exact streams.short
  · trivial
  · intro done member
    rcases List.mem_append.mp member with before | last
    · exact streams.right done before
    · obtain rfl := List.mem_singleton.mp last
      exact right

/-- One access of the driver. -/
theorem Streams.driver (streams : Streams s) : Streams (s.driverStep s.driver) := by
  have point := streams.point
  have out := streams.out
  have into := streams.into
  rw [AtPoint] at point
  rw [State.sent] at out
  rw [State.got] at into
  cases isAt : s.driver with
  | idle => exact streams
  | waitingIdle call sent rest =>
    rw [isAt] at point out into
    cases rest with
    | nil =>
      obtain ⟨wants, bytes⟩ := point
      rw [List.append_nil] at bytes
      apply streams.returns
      · rw [State.sent, isAt, bytes]
      · rw [State.got, isAt]
      · exact ⟨rfl, Nat.zero_le _, Or.inl wants.symm⟩
    | cons c rest =>
      rw [State.driverStep]
      split
      · exact streams
      · rename_i isIdle
        have empty : s.device.transmit = [] := by
          by_contra notEmpty
          exact isIdle ((lsr_idle s.device).mpr notEmpty)
        exact ⟨out, into, streams.short, ⟨point.1, point.2, empty⟩, streams.right⟩
  | storing call sent c rest =>
    rw [isAt] at point out into
    obtain ⟨wants, bytes, empty⟩ := point
    have written : s.device.writeThr c = { s.device with transmit := [c] } := by
      rw [Device.writeThr, empty, if_pos (by decide)]
      rfl
    rw [State.driverStep, written]
    rw [empty, List.append_nil] at out
    constructor
    · change s.history.flatMap (fun done => done.call.bytes) ++ (sent ++ [c]) = s.device.line ++ [c]
      rw [← List.append_assoc]
      exact congrArg (fun front => front ++ [c]) out
    · exact into
    · exact Nat.le_refl 1
    · exact ⟨wants, by rw [bytes, List.append_assoc, List.singleton_append]⟩
    · exact streams.right
  | waitingReady call got =>
    rw [isAt] at point out into
    obtain ⟨bytes, most⟩ := point
    rw [State.driverStep]
    have returns : (got.length = call.wants ∨ s.device.received = [] ∧ ∃ len, call = .read len) →
        Streams (s.returns call got) := by
      intro whole
      apply streams.returns
      · rw [State.sent, isAt, bytes]
      · rw [State.got, isAt]
      · exact ⟨rfl, most, whole⟩
    split
    · rename_i enough
      exact returns (Or.inl (Nat.le_antisymm most enough))
    · rename_i more
      split
      · rename_i none
        have empty := (lsr_ready s.device).mp none
        split
        · cases call with
          | read len => exact returns (Or.inr ⟨empty, len, rfl⟩)
          | putc c => contradiction
          | getc => contradiction
          | write data => contradiction
        · exact streams
      · rename_i ready
        have some : s.device.received ≠ [] := fun none => ready ((lsr_ready s.device).mpr none)
        exact ⟨out, into, streams.short, ⟨bytes, Nat.lt_of_not_le more, some⟩, streams.right⟩
  | loading call got =>
    rw [isAt] at point out into
    obtain ⟨bytes, less, some⟩ := point
    rw [State.driverStep]
    cases waits : s.device.received with
    | nil => exact absurd waits some
    | cons c rest =>
      have taken : s.device.readRbr = (c, { s.device with received := rest }) := by
        rw [Device.readRbr, waits]
      rw [taken]
      rw [waits] at into
      constructor
      · exact out
      · change s.history.flatMap Done.got ++ (got ++ [c]) ++ rest = s.device.accepted
        rw [← into, List.append_assoc, List.append_assoc, List.append_assoc, List.singleton_append]
      · exact streams.short
      · refine ⟨bytes, ?_⟩
        rw [List.length_append, List.length_singleton]
        exact less
      · exact streams.right

/-- An idle driver may be called with anything: no byte has moved yet. -/
theorem Streams.call (streams : Streams s) (idle : s.driver = .idle) (call : Call) :
    Streams { s with driver := call.start } := by
  have out := streams.out
  have into := streams.into
  rw [State.sent, idle] at out
  rw [State.got, idle] at into
  cases call with
  | putc c => exact ⟨out, into, streams.short, ⟨rfl, rfl⟩, streams.right⟩
  | getc => exact ⟨out, into, streams.short, ⟨rfl, Nat.zero_le 1⟩, streams.right⟩
  | read len => exact ⟨out, into, streams.short, ⟨rfl, Nat.zero_le len⟩, streams.right⟩
  | write data => exact ⟨out, into, streams.short, ⟨rfl, rfl⟩, streams.right⟩

/-- In every order of the steps of driver and device: what was handed over is what went out
and at most one byte that the device still holds, what was accepted is what was read and
what the device still holds, and every call returned what it should. -/
theorem uart_streams (reachable : Reachable s) : s.sent = s.device.line ++ s.device.transmit ∧
    s.device.transmit.length ≤ 1 ∧ s.got ++ s.device.received = s.device.accepted ∧
    ∀ done ∈ s.history, done.Right := by
  have streams : Streams s := by
    induction reachable with
    | @init device quiet silent start =>
      constructor
      · change [] = device.line ++ device.transmit
        rw [quiet, silent]
        rfl
      · exact start.symm
      · change device.transmit.length ≤ 1
        rw [quiet]
        exact Nat.zero_le 1
      · trivial
      · intro done member
        cases member
    | step earlier step inductionHypothesis =>
      cases step with
      | call idle call => exact inductionHypothesis.call idle call
      | driver => exact inductionHypothesis.driver
      | device moves => exact inductionHypothesis.device moves
  exact ⟨streams.out, streams.short, streams.into, streams.right⟩

/-- The driver takes `n` steps while the device does nothing. -/
theorem Reachable.drive (reachable : Reachable s) (n : Nat) :
    Reachable ((fun s => s.driverStep s.driver)^[n] s) := by
  induction n generalizing s with
  | zero => exact reachable
  | succ n inductionHypothesis =>
    rw [Function.iterate_succ_apply]
    exact inductionHypothesis (reachable.step .driver)

/-- A byte waits. `uart_getc` returns it, then `uart_write` hands over two bytes, of which the
device sends the first before the driver may store the second. -/
theorem received_and_sent : ∃ s, Reachable s ∧ s.driver = .idle ∧ s.history.length = 2 ∧
    s.got = [0x61] ∧ s.device.line = [0x62] ∧ s.device.transmit = [0x63] ∧
    s.sent = s.device.line ++ s.device.transmit ∧ s.device.transmit.length ≤ 1 ∧
    s.got ++ s.device.received = s.device.accepted ∧ ∀ done ∈ s.history, done.Right := by
  have booted : Reachable ⟨⟨[0x61], [], [], [0x61]⟩, .idle, []⟩ := .init rfl rfl rfl
  have read := (booted.step (.call rfl .getc)).drive 3
  have stored := (read.step (.call rfl (.write [0x62, 0x63]))).drive 2
  have sent := stored.step (.device (@DeviceStep.transmit _ 0x62 [] rfl))
  have written := sent.drive 3
  exact ⟨_, written, rfl, rfl, rfl, rfl, rfl, uart_streams written⟩

end

end CuteCore.Uart

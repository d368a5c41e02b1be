import Mathlib

/-!
# A straight-line RV64 machine

Registers, the supervisor trap registers, and byte-addressed memory whose
addresses wrap at 64 bits. Only the instructions of a trap vector are present:
CSR moves, a stack adjustment, doubleword loads and stores and `sret`.

Runs of stores and runs of loads against one base register are summarized once.
A save followed by a restore through the same slot table is then a fact about
the table, independent of its length and of the particular registers.
-/

namespace Rv64

abbrev Word := BitVec 64
abbrev Reg := Fin 32

/-- Lets a numeral name a register. -/
instance regNumerals : NeZero 32 := ⟨by decide⟩

/-- The supervisor trap registers an exception entry reads or writes. -/
inductive Csr where
  | sscratch | sstatus | sepc | scause | stval
  deriving DecidableEq, Repr

/-- One hart. Register zero is read as zero whatever `x 0` holds. -/
structure Machine where
  x : Reg → Word
  csr : Csr → Word
  mem : Word → BitVec 8
  pc : Word

inductive Instr where
  | csrrw (rd : Reg) (c : Csr) (rs : Reg)
  | csrr (rd : Reg) (c : Csr)
  | csrw (c : Csr) (rs : Reg)
  | addi (rd rs : Reg) (imm : Word)
  | sd (src : Reg) (offset : Word) (base : Reg)
  | ld (dst : Reg) (offset : Word) (base : Reg)
  | sret

/-- Byte `i` of a little-endian doubleword. -/
def byteAt (value : Word) (i : Nat) : BitVec 8 := value.extractLsb' (8 * i) 8

/-- Store a doubleword. A byte is written exactly when its distance above the
address, taken modulo `2 ^ 64`, is below eight. -/
def store64 (mem : Word → BitVec 8) (addr value : Word) : Word → BitVec 8 :=
  fun a => if (a - addr).toNat < 8 then byteAt value (a - addr).toNat else mem a

/-- Load a doubleword, least significant byte first. -/
def load64 (mem : Word → BitVec 8) (addr : Word) : Word :=
  mem (addr + 7) ++ mem (addr + 6) ++ mem (addr + 5) ++ mem (addr + 4) ++
    mem (addr + 3) ++ mem (addr + 2) ++ mem (addr + 1) ++ mem addr

def Machine.reg (m : Machine) (r : Reg) : Word := if r = 0 then 0 else m.x r

def Machine.setReg (m : Machine) (r : Reg) (value : Word) : Machine :=
  { m with x := Function.update m.x r value }

def Machine.setCsr (m : Machine) (c : Csr) (value : Word) : Machine :=
  { m with csr := Function.update m.csr c value }

def Machine.setPc (m : Machine) (pc : Word) : Machine := { m with pc := pc }

def Machine.setMem (m : Machine) (mem : Word → BitVec 8) : Machine := { m with mem := mem }

/-- A written register, other than register zero, reads as the written value. -/
theorem Machine.reg_setReg_self (m : Machine) (r : Reg) (value : Word) (notZero : r ≠ 0) :
    (m.setReg r value).reg r = value := by
  simp only [reg, setReg, if_neg notZero, Function.update_self]

/-- Every other register keeps its value. -/
theorem Machine.reg_setReg_ne (m : Machine) (r q : Reg) (value : Word) (differs : q ≠ r) :
    (m.setReg r value).reg q = m.reg q := by
  simp only [reg, setReg, Function.update_of_ne differs]

theorem Machine.csr_setCsr_self (m : Machine) (c : Csr) (value : Word) :
    (m.setCsr c value).csr c = value := by
  simp only [setCsr, Function.update_self]

theorem Machine.csr_setCsr_ne (m : Machine) (c d : Csr) (value : Word) (differs : d ≠ c) :
    (m.setCsr c value).csr d = m.csr d := by
  simp only [setCsr, Function.update_of_ne differs]

@[simp] theorem Machine.csr_setReg (m : Machine) (r : Reg) (value : Word) :
    (m.setReg r value).csr = m.csr := rfl

@[simp] theorem Machine.mem_setReg (m : Machine) (r : Reg) (value : Word) :
    (m.setReg r value).mem = m.mem := rfl

@[simp] theorem Machine.reg_setCsr (m : Machine) (c : Csr) (value : Word) :
    (m.setCsr c value).reg = m.reg := rfl

@[simp] theorem Machine.mem_setCsr (m : Machine) (c : Csr) (value : Word) :
    (m.setCsr c value).mem = m.mem := rfl

@[simp] theorem Machine.reg_setPc (m : Machine) (pc : Word) : (m.setPc pc).reg = m.reg := rfl

@[simp] theorem Machine.csr_setPc (m : Machine) (pc : Word) : (m.setPc pc).csr = m.csr := rfl

@[simp] theorem Machine.reg_setMem (m : Machine) (mem : Word → BitVec 8) :
    (m.setMem mem).reg = m.reg := rfl

@[simp] theorem Machine.csr_setMem (m : Machine) (mem : Word → BitVec 8) :
    (m.setMem mem).csr = m.csr := rfl

@[simp] theorem Machine.mem_setMem (m : Machine) (mem : Word → BitVec 8) :
    (m.setMem mem).mem = mem := rfl

@[simp] theorem Machine.reg_zero (m : Machine) : m.reg 0 = 0 := by simp [reg]

/-- One instruction. `sret` resumes at `sepc` and moves SPIE into SIE; the
general registers and the other trap registers are untouched by it. -/
def exec : Instr → Machine → Machine
  | .csrrw rd c rs, m => (m.setCsr c (m.reg rs)).setReg rd (m.csr c)
  | .csrr rd c, m => m.setReg rd (m.csr c)
  | .csrw c rs, m => m.setCsr c (m.reg rs)
  | .addi rd rs imm, m => m.setReg rd (m.reg rs + imm)
  | .sd src offset base, m => m.setMem (store64 m.mem (m.reg base + offset) (m.reg src))
  | .ld dst offset base, m => m.setReg dst (load64 m.mem (m.reg base + offset))
  | .sret, m =>
      let status := m.csr .sstatus
      (m.setCsr .sstatus
        ((status &&& ~~~0x122#64) ||| ((status >>> 4) &&& 0x2#64) ||| 0x20#64)).setPc (m.csr .sepc)

/-- Instructions in program order. -/
def run (program : List Instr) (m : Machine) : Machine :=
  program.foldl (fun current instr => exec instr current) m

@[simp] theorem run_nil (m : Machine) : run [] m = m := rfl

@[simp] theorem run_cons (instr : Instr) (rest : List Instr) (m : Machine) :
    run (instr :: rest) m = run rest (exec instr m) := rfl

theorem run_append (first second : List Instr) (m : Machine) :
    run (first ++ second) m = run second (run first m) := List.foldl_append ..

/-- A slot table pairs each register with its offset from the base. -/
abbrev Slots := List (Reg × Word)

def saves (slots : Slots) (base : Reg) : List Instr :=
  slots.map fun slot => .sd slot.1 slot.2 base

def restores (slots : Slots) (base : Reg) : List Instr :=
  slots.map fun slot => .ld slot.1 slot.2 base

/-- Memory after storing each listed value at its offset from `addr`. -/
def storeAll (mem : Word → BitVec 8) (addr : Word) (values : List (Word × Word)) :
    Word → BitVec 8 :=
  values.foldl (fun current entry => store64 current (addr + entry.1) entry.2) mem

/-- Two doublewords at these offsets share no byte, in either wrap direction. -/
def Apart (left right : Word) : Prop := 8 ≤ (left - right).toNat ∧ 8 ≤ (right - left).toNat

instance (left right : Word) : Decidable (Apart left right) := by
  unfold Apart
  infer_instance

/-- A byte at distance below eight is the stored byte. -/
theorem store64_inside (mem : Word → BitVec 8) (addr value i : Word) (bound : i.toNat < 8) :
    store64 mem addr value (addr + i) = byteAt value i.toNat := by
  have distance : addr + i - addr = i := by rw [BitVec.add_comm, BitVec.add_sub_cancel]
  simp only [store64, distance, bound, if_true]

/-- A byte at any other distance keeps its old value. -/
theorem store64_outside (mem : Word → BitVec 8) (addr value a : Word)
    (outside : 8 ≤ (a - addr).toNat) : store64 mem addr value a = mem a := by
  simp only [store64, Nat.not_lt.mpr outside, if_false]

/-- Reading back a stored doubleword reassembles its eight bytes. -/
theorem load64_store64_same (mem : Word → BitVec 8) (addr value : Word) :
    load64 (store64 mem addr value) addr = value := by
  have base : store64 mem addr value addr = byteAt value 0 := by simp [store64]
  unfold load64
  rw [store64_inside _ _ _ 7 (by decide), store64_inside _ _ _ 6 (by decide),
    store64_inside _ _ _ 5 (by decide), store64_inside _ _ _ 4 (by decide),
    store64_inside _ _ _ 3 (by decide), store64_inside _ _ _ 2 (by decide),
    store64_inside _ _ _ 1 (by decide), base]
  change value.extractLsb' 56 8 ++ value.extractLsb' 48 8 ++ value.extractLsb' 40 8 ++
    value.extractLsb' 32 8 ++ value.extractLsb' 24 8 ++ value.extractLsb' 16 8 ++
    value.extractLsb' 8 8 ++ value.extractLsb' 0 8 = value
  ext i bound
  simp only [BitVec.getElem_append, BitVec.getElem_extractLsb']
  repeat' split
  all_goals
    rw [← BitVec.getLsbD_eq_getElem bound]
    congr 1
    omega

/-- A load is determined by the eight bytes it covers. -/
theorem load64_congr (left right : Word → BitVec 8) (addr : Word)
    (same : ∀ i : Word, i.toNat < 8 → left (addr + i) = right (addr + i)) :
    load64 left addr = load64 right addr := by
  have base : left addr = right addr := by simpa using same 0 (by decide)
  unfold load64
  rw [same 7 (by decide), same 6 (by decide), same 5 (by decide), same 4 (by decide),
    same 3 (by decide), same 2 (by decide), same 1 (by decide), base]

/-- A store leaves a doubleword that shares none of its bytes. -/
theorem load64_store64_apart (mem : Word → BitVec 8) (addr other value : Word)
    (apart : Apart other addr) : load64 (store64 mem addr value) other = load64 mem other := by
  apply load64_congr
  intro i bound
  apply store64_outside
  obtain ⟨above, below⟩ := apart
  have shifted : other + i - addr = (other - addr) + i := by bv_omega
  have flipped : addr - other = -(other - addr) := by bv_omega
  rw [flipped, BitVec.toNat_neg] at below
  rw [shifted, BitVec.toNat_add]
  omega

/-- Moving both addresses by the same base keeps them apart. -/
theorem apart_add (base left right : Word) (apart : Apart left right) :
    Apart (base + left) (base + right) := by
  have cancel : ∀ a b : Word, base + a - (base + b) = a - b := by
    intro a b
    bv_omega
  simpa only [Apart, cancel] using apart

@[simp] theorem storeAll_nil (mem : Word → BitVec 8) (addr : Word) :
    storeAll mem addr [] = mem := rfl

theorem storeAll_append (mem : Word → BitVec 8) (addr : Word) (first second : List (Word × Word)) :
    storeAll mem addr (first ++ second) = storeAll (storeAll mem addr first) addr second :=
  List.foldl_append ..

@[simp] theorem storeAll_cons (mem : Word → BitVec 8) (addr : Word) (entry : Word × Word)
    (rest : List (Word × Word)) :
    storeAll mem addr (entry :: rest) =
      storeAll (store64 mem (addr + entry.1) entry.2) addr rest := rfl

/-- A doubleword apart from every stored offset is not changed by a run of stores. -/
theorem load64_storeAll_apart (mem : Word → BitVec 8) (addr offset : Word)
    (values : List (Word × Word)) (apart : ∀ entry ∈ values, Apart offset entry.1) :
    load64 (storeAll mem addr values) (addr + offset) = load64 mem (addr + offset) := by
  induction values generalizing mem with
  | nil => rfl
  | cons entry rest inductionHypothesis =>
    have restApart : ∀ other ∈ rest, Apart offset other.1 :=
      fun other member => apart other (List.mem_cons_of_mem _ member)
    rw [storeAll_cons, inductionHypothesis _ restApart]
    exact load64_store64_apart _ _ _ _ (apart_add _ _ _ (apart entry (List.mem_cons_self ..)))

/-- When the offsets are pairwise apart, every stored value can be read back. -/
theorem load64_storeAll_mem (mem : Word → BitVec 8) (addr : Word) (values : List (Word × Word))
    (apart : values.Pairwise fun left right => Apart left.1 right.1)
    (entry : Word × Word) (member : entry ∈ values) :
    load64 (storeAll mem addr values) (addr + entry.1) = entry.2 := by
  induction values generalizing mem with
  | nil => cases member
  | cons head rest inductionHypothesis =>
    obtain ⟨headApart, restApart⟩ := List.pairwise_cons.mp apart
    rcases List.mem_cons.mp member with rfl | later
    · rw [storeAll_cons, load64_storeAll_apart _ _ _ _ headApart, load64_store64_same]
    · exact inductionHypothesis _ restApart later

/-- A byte that lies outside every stored doubleword is not changed. -/
theorem storeAll_outside (mem : Word → BitVec 8) (addr a : Word) (values : List (Word × Word))
    (outside : ∀ entry ∈ values, 8 ≤ (a - (addr + entry.1)).toNat) :
    storeAll mem addr values a = mem a := by
  induction values generalizing mem with
  | nil => rfl
  | cons entry rest inductionHypothesis =>
    have restOutside : ∀ other ∈ rest, 8 ≤ (a - (addr + other.1)).toNat :=
      fun other member => outside other (List.mem_cons_of_mem _ member)
    rw [storeAll_cons, inductionHypothesis _ restOutside]
    exact store64_outside _ _ _ _ (outside entry (List.mem_cons_self ..))

/-- A run of saves changes only memory, and stores the registers it names. -/
theorem run_saves (slots : Slots) (base : Reg) (m : Machine) :
    run (saves slots base) m = m.setMem
      (storeAll m.mem (m.reg base) (slots.map fun slot => (slot.2, m.reg slot.1))) := by
  induction slots generalizing m with
  | nil => rfl
  | cons slot rest inductionHypothesis =>
    change run (saves rest base) (exec (.sd slot.1 slot.2 base) m) = _
    rw [inductionHypothesis]
    rfl

/-- A run of restores that does not overwrite its own base changes neither
memory, nor the trap registers, nor a register it does not name. -/
theorem run_restores_frame (slots : Slots) (base : Reg) (m : Machine) :
    (run (restores slots base) m).mem = m.mem ∧ (run (restores slots base) m).csr = m.csr ∧
      ∀ r, (∀ slot ∈ slots, slot.1 ≠ r) → (run (restores slots base) m).reg r = m.reg r := by
  induction slots generalizing m with
  | nil => exact ⟨rfl, rfl, fun _ _ => rfl⟩
  | cons slot rest inductionHypothesis =>
    obtain ⟨mem, csr, others⟩ := inductionHypothesis (exec (.ld slot.1 slot.2 base) m)
    refine ⟨mem, csr, ?_⟩
    intro r absent
    have differs : r ≠ slot.1 := (absent slot (List.mem_cons_self ..)).symm
    have rest := others r fun other member => absent other (List.mem_cons_of_mem _ member)
    change (run (restores _ base) (exec (.ld slot.1 slot.2 base) m)).reg r = m.reg r
    rw [rest]
    exact Machine.reg_setReg_ne _ _ _ _ differs

/-- A register named by one slot receives the doubleword in that slot. -/
theorem run_restores_mem (slots : Slots) (base : Reg) (m : Machine)
    (avoidBase : ∀ slot ∈ slots, slot.1 ≠ base) (avoidZero : ∀ slot ∈ slots, slot.1 ≠ 0)
    (unique : (slots.map Prod.fst).Nodup) (slot : Reg × Word) (member : slot ∈ slots) :
    (run (restores slots base) m).reg slot.1 = load64 m.mem (m.reg base + slot.2) := by
  induction slots generalizing m with
  | nil => cases member
  | cons head rest inductionHypothesis =>
    obtain ⟨fresh, restUnique⟩ := List.nodup_cons.mp unique
    have restBase : ∀ other ∈ rest, other.1 ≠ base :=
      fun other present => avoidBase other (List.mem_cons_of_mem _ present)
    have restZero : ∀ other ∈ rest, other.1 ≠ 0 :=
      fun other present => avoidZero other (List.mem_cons_of_mem _ present)
    have headBase : base ≠ head.1 := (avoidBase head (List.mem_cons_self ..)).symm
    have headZero : head.1 ≠ 0 := avoidZero head (List.mem_cons_self ..)
    change (run (restores rest base) (exec (.ld head.1 head.2 base) m)).reg slot.1 = _
    rcases List.mem_cons.mp member with rfl | later
    · have absent : ∀ other ∈ rest, other.1 ≠ slot.1 := by
        intro other present same
        exact fresh (same ▸ List.mem_map_of_mem present)
      rw [(run_restores_frame rest base _).2.2 _ absent]
      exact Machine.reg_setReg_self _ _ _ headZero
    · rw [inductionHypothesis _ restBase restZero restUnique later]
      have kept : (exec (.ld head.1 head.2 base) m).reg base = m.reg base :=
        Machine.reg_setReg_ne _ _ _ _ headBase
      rw [kept]
      rfl

end Rv64

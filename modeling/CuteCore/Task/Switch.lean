import CuteCore.Library.Rv64

/-!
# Switching threads

`swtch` as the assembler lists it, on a hart with any number of suspended threads. A
thread is known by the address of its `struct context`: that of a process, or the one of
the scheduler in `struct cpu`. Between two switches the running thread does what it
wants outside the contexts.
-/

namespace CuteCore.Switch

open Rv64

abbrev ra : Reg := 1
abbrev sp : Reg := 2
abbrev a0 : Reg := 10
abbrev a1 : Reg := 11

/-- The fields of `struct context`. -/
def contextSlots : Slots :=
  [(ra, 0), (sp, 8), (8, 16), (9, 24), (18, 32), (19, 40), (20, 48), (21, 56), (22, 64), (23, 72),
    (24, 80), (25, 88), (26, 96), (27, 104)]

/-- `ret` jumps to `ra`. -/
def ret (m : Machine) : Machine := m.setPc (m.reg ra)

@[simp] theorem reg_ret (m : Machine) : (ret m).reg = m.reg := rfl

@[simp] theorem csr_ret (m : Machine) : (ret m).csr = m.csr := rfl

@[simp] theorem mem_ret (m : Machine) : (ret m).mem = m.mem := rfl

@[simp] theorem pc_ret (m : Machine) : (ret m).pc = m.reg ra := rfl

def swtch (m : Machine) : Machine :=
  ret (run (saves contextSlots a0 ++ restores contextSlots a1) m)

/-- The registers a thread finds again. -/
abbrev Context := Reg → Word

/-- The context at an address. -/
def HoldsContext (mem : Word → BitVec 8) (thread : Word) (context : Context) : Prop :=
  ∀ slot ∈ contextSlots, load64 mem (thread + slot.2) = context slot.1

/-- What `allocproc` writes into the context of a new process. -/
def freshContext (forkret kstack : Word) (r : Reg) : Word :=
  if r = ra then forkret else if r = sp then kstack + 4096 else 0

def storeContext (mem : Word → BitVec 8) (thread : Word) (context : Context) : Word → BitVec 8 :=
  storeAll mem thread (contextSlots.map fun slot => (slot.2, context slot.1))

/-- No two contexts of 112 bytes overlap. -/
def ApartContexts (threads : Set Word) : Prop :=
  ∀ t ∈ threads, ∀ u ∈ threads, t ≠ u → 112 ≤ (t - u).toNat

/-- The contexts of these threads stand as they did. -/
def KeepsContexts (threads : Set Word) (m after : Machine) : Prop :=
  ∀ t ∈ threads, ∀ slot ∈ contextSlots,
    load64 after.mem (t + slot.2) = load64 m.mem (t + slot.2)

/-- Runs of one hart: the thread that runs, and for each thread the registers with which
it was made or suspended last. -/
inductive SwitchRun (threads : Set Word) : Word → (Word → Context) → Machine → Prop where
  | start {current : Word} {saved : Word → Context} {m : Machine} (member : current ∈ threads)
      (holds : ∀ t ∈ threads, HoldsContext m.mem t (saved t)) : SwitchRun threads current saved m
  | work {current : Word} {saved : Word → Context} {m after : Machine}
      (earlier : SwitchRun threads current saved m) (keeps : KeepsContexts threads m after) :
      SwitchRun threads current saved after
  | create {current : Word} {saved : Word → Context} {m : Machine}
      (earlier : SwitchRun threads current saved m) (thread forkret kstack : Word)
      (member : thread ∈ threads) :
      SwitchRun threads current (Function.update saved thread (freshContext forkret kstack))
        (m.setMem (storeContext m.mem thread (freshContext forkret kstack)))
  | switch {current next : Word} {saved : Word → Context} {m : Machine}
      (earlier : SwitchRun threads current saved m) (isOld : m.reg a0 = current)
      (isNew : m.reg a1 = next) (member : next ∈ threads) :
      SwitchRun threads next (Function.update saved current m.reg) (swtch m)

theorem contextSlots_apart : contextSlots.Pairwise fun left right => Apart left.2 right.2 := by
  decide +kernel

theorem contextSlots_nodup : (contextSlots.map Prod.fst).Nodup := by decide +kernel

/-- What holds in each line of the table. -/
theorem contextSlots_all {P : Reg × Word → Prop} [DecidablePred P]
    (checked : (contextSlots.all fun slot => decide (P slot)) = true) :
    ∀ slot ∈ contextSlots, P slot :=
  fun slot member => of_decide_eq_true (List.all_eq_true.mp checked slot member)

theorem contextSlots_avoid_a1 : ∀ slot ∈ contextSlots, slot.1 ≠ a1 := contextSlots_all (by decide)

theorem contextSlots_avoid_zero : ∀ slot ∈ contextSlots, slot.1 ≠ 0 := contextSlots_all (by decide)

theorem contextSlots_inside : ∀ slot ∈ contextSlots, slot.2.toNat + 8 ≤ 112 :=
  contextSlots_all (by decide)

/-- Slots of two contexts share no byte. -/
theorem ApartContexts.slots {threads : Set Word} (apart : ApartContexts threads) {t u : Word}
    (member : t ∈ threads) (other : u ∈ threads) (differs : t ≠ u) {slot slot' : Reg × Word}
    (isSlot : slot ∈ contextSlots) (isSlot' : slot' ∈ contextSlots) :
    Apart (t + slot.2) (u + slot'.2) := by
  have above := apart t member u other differs
  have below := apart u other t member differs.symm
  have inside := contextSlots_inside slot isSlot
  have inside' := contextSlots_inside slot' isSlot'
  constructor
  · bv_omega
  · bv_omega

/-- A context that was stored is there, and the others are untouched. -/
theorem storeContext_holds (mem : Word → BitVec 8) (thread : Word) (context : Context) :
    HoldsContext (storeContext mem thread context) thread context := by
  have apart : (contextSlots.map fun slot => (slot.2, context slot.1)).Pairwise
      fun left right => Apart left.1 right.1 := by
    rw [List.pairwise_map]
    exact contextSlots_apart
  intro slot member
  exact load64_storeAll_mem mem thread _ apart (slot.2, context slot.1)
    (List.mem_map.mpr ⟨slot, member, rfl⟩)

/-- A doubleword apart from every stored one stays. -/
theorem load64_storeAll_away (mem : Word → BitVec 8) (addr other : Word)
    (values : List (Word × Word)) (apart : ∀ entry ∈ values, Apart other (addr + entry.1)) :
    load64 (storeAll mem addr values) other = load64 mem other := by
  induction values generalizing mem with
  | nil => rfl
  | cons entry rest inductionHypothesis =>
    rw [storeAll_cons, inductionHypothesis _ fun entry later =>
      apart entry (List.mem_cons_of_mem _ later)]
    exact load64_store64_apart _ _ _ _ (apart entry (List.mem_cons_self ..))

theorem storeContext_elsewhere {threads : Set Word} (apart : ApartContexts threads) {t u : Word}
    (member : t ∈ threads) (other : u ∈ threads) (differs : t ≠ u) (mem : Word → BitVec 8)
    (context : Context) {slot : Reg × Word} (isSlot : slot ∈ contextSlots) :
    load64 (storeContext mem u context) (t + slot.2) = load64 mem (t + slot.2) := by
  apply load64_storeAll_away
  intro entry isEntry
  obtain ⟨written, isWritten, rfl⟩ := List.mem_map.mp isEntry
  exact apart.slots member other differs isSlot isWritten

/-- The stores of `swtch` put the context of the old thread into memory. -/
theorem run_swtch (m : Machine) :
    run (saves contextSlots a0 ++ restores contextSlots a1) m =
      run (restores contextSlots a1) (m.setMem (storeContext m.mem (m.reg a0) m.reg)) := by
  rw [run_append, run_saves, storeContext]

/-- What one switch does. The registers outside the context pass through. -/
theorem swtch_spec (m : Machine) :
    (swtch m).mem = storeContext m.mem (m.reg a0) m.reg ∧ (swtch m).csr = m.csr ∧
    (∀ slot ∈ contextSlots, (swtch m).reg slot.1 =
      load64 (storeContext m.mem (m.reg a0) m.reg) (m.reg a1 + slot.2)) ∧
    (swtch m).pc = (swtch m).reg ra ∧
    ∀ r, (∀ slot ∈ contextSlots, slot.1 ≠ r) → (swtch m).reg r = m.reg r := by
  obtain ⟨n, isN⟩ : ∃ n, n = m.setMem (storeContext m.mem (m.reg a0) m.reg) := ⟨_, rfl⟩
  have memN : n.mem = storeContext m.mem (m.reg a0) m.reg := by
    rw [isN, Machine.mem_setMem]
  have regN : n.reg = m.reg := by
    rw [isN, Machine.reg_setMem]
  have csrN : n.csr = m.csr := by
    rw [isN, Machine.csr_setMem]
  obtain ⟨mem, csr, frame⟩ := run_restores_frame contextSlots a1 n
  have loads := run_restores_mem contextSlots a1 n contextSlots_avoid_a1 contextSlots_avoid_zero
    contextSlots_nodup
  have isSwtch : swtch m = ret (run (restores contextSlots a1) n) := by
    rw [swtch, run_swtch, isN]
  obtain ⟨last, isLast⟩ : ∃ last, last = run (restores contextSlots a1) n := ⟨_, rfl⟩
  rw [← isLast] at mem csr frame loads isSwtch
  rw [memN] at mem loads
  rw [regN] at loads frame
  rw [isSwtch]
  simp only [mem_ret, csr_ret, reg_ret, pc_ret]
  exact ⟨mem, csr.trans csrN, loads, trivial, frame⟩

section

variable {threads : Set Word} {current : Word} {saved : Word → Context} {m : Machine}

theorem SwitchRun.member (run : SwitchRun threads current saved m) : current ∈ threads := by
  induction run with
  | start member _ => exact member
  | work _ _ inductionHypothesis => exact inductionHypothesis
  | create _ _ _ _ _ inductionHypothesis => exact inductionHypothesis
  | switch _ _ _ member _ => exact member

/-- Storing one context keeps all of them right. -/
theorem holds_update (apart : ApartContexts threads) {u : Word} (other : u ∈ threads)
    {mem : Word → BitVec 8} (holds : ∀ t ∈ threads, HoldsContext mem t (saved t))
    (context : Context) : ∀ t ∈ threads,
      HoldsContext (storeContext mem u context) t (Function.update saved u context t) := by
  intro t member
  by_cases isU : t = u
  · subst isU
    rw [Function.update_self]
    exact storeContext_holds mem t context
  · rw [Function.update_of_ne isU]
    intro slot isSlot
    rw [storeContext_elsewhere apart member other isU mem context isSlot]
    exact holds t member slot isSlot

/-- At every point of a run, memory holds the contexts. -/
theorem SwitchRun.holds (apart : ApartContexts threads) (run : SwitchRun threads current saved m) :
    ∀ t ∈ threads, HoldsContext m.mem t (saved t) := by
  induction run with
  | start _ holds => exact holds
  | work _ keeps inductionHypothesis =>
    intro t member slot isSlot
    rw [keeps t member slot isSlot]
    exact inductionHypothesis t member slot isSlot
  | create _ thread forkret kstack member inductionHypothesis =>
    exact holds_update apart member inductionHypothesis _
  | @switch old next ghost before earlier isOld isNew member inductionHypothesis =>
    rw [(swtch_spec before).1, isOld]
    exact holds_update apart earlier.member inductionHypothesis _

/-- In every run, the thread that is switched to goes on with the registers with which it
was suspended last, or with those it was created with. Nothing else changes than the
context of the thread that is left. -/
theorem swtch_resumes (apart : ApartContexts threads) (run : SwitchRun threads current saved m)
    {next : Word} (isOld : m.reg a0 = current) (isNew : m.reg a1 = next) (member : next ∈ threads) :
    (∀ slot ∈ contextSlots, (swtch m).reg slot.1 =
      Function.update saved current m.reg next slot.1) ∧
    (swtch m).pc = Function.update saved current m.reg next ra ∧
    (∀ r, (∀ slot ∈ contextSlots, slot.1 ≠ r) → (swtch m).reg r = m.reg r) ∧
    (swtch m).csr = m.csr ∧
    ∀ a, (∀ slot ∈ contextSlots, 8 ≤ (a - (current + slot.2)).toNat) → (swtch m).mem a = m.mem a := by
  obtain ⟨mem, csr, loads, pc, frame⟩ := swtch_spec m
  have holds := holds_update apart run.member (run.holds apart) m.reg
  have resumed : ∀ slot ∈ contextSlots, (swtch m).reg slot.1 =
      Function.update saved current m.reg next slot.1 := by
    intro slot isSlot
    rw [loads slot isSlot, isOld, isNew]
    exact holds next member slot isSlot
  refine ⟨resumed, ?_, frame, csr, ?_⟩
  · rw [pc]
    exact resumed (ra, 0) (List.mem_cons_self ..)
  · intro a outside
    rw [mem, isOld]
    apply storeAll_outside
    intro entry isEntry
    obtain ⟨slot, isSlot, rfl⟩ := List.mem_map.mp isEntry
    exact outside slot isSlot

end

/-! ## The scheduler and one process -/

/-- The scheduler, about to switch to a process that was just created. -/
def scheduling : Machine where
  x r := if r = a0 then 0x80010000 else if r = a1 then 0x80020000 else 7
  csr _ := 0
  mem _ := 0
  pc := 0x80000400

def twoThreads : Set Word := {0x80010000, 0x80020000}

theorem twoThreads_apart : ApartContexts twoThreads := by
  intro t first u second differs
  rcases first with rfl | rfl <;> rcases second with rfl | rfl
  · exact absurd rfl differs
  · decide
  · decide
  · exact absurd rfl differs

/-- The same after the context of the process was filled. -/
def created : Machine :=
  scheduling.setMem (storeContext scheduling.mem 0x80020000 (freshContext 0x80000abc 0x80030000))

/-- The theorem for the first switch to it: it enters `forkret` on its kernel stack. -/
theorem first_switch : (swtch created).pc = 0x80000abc ∧ (swtch created).reg sp = 0x80031000 := by
  have empty : ∀ addr, load64 (fun _ => 0) addr = 0 := fun _ => by
    simp only [load64]
    decide
  have zeros : SwitchRun twoThreads 0x80010000 (fun _ _ => 0) scheduling :=
    .start (Or.inl rfl) fun t _ slot _ => empty _
  have run := zeros.create 0x80020000 0x80000abc 0x80030000 (Or.inr rfl)
  have isOld : created.reg a0 = 0x80010000 := rfl
  have isNew : created.reg a1 = 0x80020000 := rfl
  obtain ⟨registers, pc, -⟩ := swtch_resumes twoThreads_apart run isOld isNew (Or.inr rfl)
  have isFresh : Function.update (Function.update (fun _ _ => 0) 0x80020000
      (freshContext 0x80000abc 0x80030000)) 0x80010000 created.reg 0x80020000 =
      freshContext 0x80000abc 0x80030000 := by
    rw [Function.update_of_ne (by decide), Function.update_self]
  change (swtch created).pc = _ at pc
  constructor
  · rw [pc]
    exact congrFun isFresh ra
  · have atSp := registers (sp, 8) (List.mem_cons_of_mem _ (List.mem_cons_self ..))
    exact atSp.trans (congrFun isFresh sp)

end CuteCore.Switch

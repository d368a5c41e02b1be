import CuteCore.Library.Rv64

/-!
# From `_start` to `kernel_main`

The first instructions of a hart. The boot hart clears the words of `.bss` and calls
`kernel_main` on the boot stack; every other hart waits. The loop stops at `ebss` alone, so
it ends when whole words lead there.

The statement is an equivalence over all registers, all memories and every placement of
the sections: the boot hart reaches `kernel_main` exactly under that condition, and then
memory differs from what was loaded in the words of `.bss` alone. Nothing is assumed about
the memory at reset.
-/

namespace CuteCore.Boot

open Rv64

abbrev ra : Reg := 1
abbrev sp : Reg := 2
abbrev t0 : Reg := 5
abbrev t1 : Reg := 6
abbrev s0 : Reg := 8
abbrev s1 : Reg := 9
abbrev a0 : Reg := 10
abbrev a1 : Reg := 11

/-- What the linker knows. -/
structure Symbols where
  sbss : Word
  ebss : Word
  bootStackTop : Word
  kernelMain : Word
  waitForBoot : Word

/-! ## `entry.S` -/

def clearWord : List Instr := [.sd 0 0 t0, .addi t0 t0 8]

/-- `none` is a loop that is still running. -/
def clearBss (m : Machine) : Nat → Option Machine
  | 0 => none
  | fuel + 1 => if m.reg t0 = m.reg t1 then some m else clearBss (run clearWord m) fuel

/-- `mv` is `addi` of 0. -/
def mv (rd rs : Reg) : Instr := .addi rd rs 0

/-- The call leaves the address behind it, `wait_for_boot`, in `ra`. -/
def clearDone (symbols : Symbols) (m : Machine) : Machine :=
  let m := (exec (.csrw .sscratch 0) m).setReg sp symbols.bootStackTop
  ((run [mv a0 s0, mv a1 s1] m).setReg ra symbols.waitForBoot).setPc symbols.kernelMain

/-- Up to `kernel_main` or `wait_for_boot`. -/
def start (symbols : Symbols) (m : Machine) (fuel : Nat) : Option Machine :=
  let m := run [mv s0 a0, mv s1 a1] m
  if m.reg s0 ≠ 0 then some (m.setPc symbols.waitForBoot)
  else do
    let m ← clearBss ((m.setReg t0 symbols.sbss).setReg t1 symbols.ebss) fuel
    return clearDone symbols m

/-! ## What is cleared -/

def cleared (mem : Word → BitVec 8) (base : Word) (n : Nat) : Word → BitVec 8 :=
  fun a => if (a - base).toNat < n then 0 else mem a

section

variable {m after : Machine} {fuel n : Nat}

theorem cleared_none (mem : Word → BitVec 8) (base : Word) : cleared mem base 0 = mem := by
  funext a
  exact if_neg (Nat.not_lt_zero _)

/-- One word more at the front. -/
theorem cleared_word (mem : Word → BitVec 8) (base : Word) (fits : 8 * (n + 1) ≤ 2 ^ 64) :
    cleared (store64 mem base 0) (base + 8) (8 * n) = cleared mem base (8 * (n + 1)) := by
  funext a
  have distance : (a - (base + 8)).toNat = ((a - base).toNat + (2 ^ 64 - 8)) % 2 ^ 64 := by
    bv_omega
  have bound : (a - base).toNat < 2 ^ 64 := (a - base).isLt
  unfold cleared
  by_cases word : (a - base).toNat < 8
  · have before : ¬ (a - (base + 8)).toNat < 8 * n := by omega
    have inside : (a - base).toNat < 8 * (n + 1) := by omega
    have zero : byteAt 0 (a - base).toNat = 0 := BitVec.extractLsb'_zero
    rw [if_neg before, if_pos inside, store64, if_pos word, zero]
  · have same : (a - (base + 8)).toNat < 8 * n ↔ (a - base).toNat < 8 * (n + 1) := by omega
    rw [store64_outside mem base 0 a (Nat.le_of_not_lt word)]
    exact if_congr same rfl rfl

theorem run_clearWord (m : Machine) : run clearWord m =
    (m.setMem (store64 m.mem (m.reg t0) 0)).setReg t0 (m.reg t0 + 8) := by
  have front : m.reg t0 + 0 = m.reg t0 := BitVec.add_zero _
  rw [clearWord, run_cons, run_cons, run_nil, exec, exec, Machine.reg_zero, front,
    Machine.reg_setMem]

/-- The loop ends on whole words. -/
theorem clearBss_words (distance : (m.reg t1 - m.reg t0).toNat = 8 * n) (enough : n < fuel) :
    clearBss m fuel =
      some ((m.setMem (cleared m.mem (m.reg t0) (8 * n))).setReg t0 (m.reg t1)) := by
  induction n generalizing m fuel with
  | zero =>
    cases fuel with
    | zero => exact absurd enough (Nat.not_lt_zero 0)
    | succ fuel =>
      have there : m.reg t0 = m.reg t1 := by bv_omega
      have same : m.setReg t0 (m.reg t1) = m := by
        rw [← there, Machine.setReg, Machine.reg, if_neg (by decide), Function.update_eq_self]
      rw [clearBss, if_pos there, cleared_none]
      change some m = some (m.setReg t0 (m.reg t1))
      rw [same]
  | succ n inductionHypothesis =>
    cases fuel with
    | zero => exact absurd enough (Nat.not_lt_zero _)
    | succ fuel =>
      have notThere : m.reg t0 ≠ m.reg t1 := by
        intro there
        rw [there, BitVec.sub_self] at distance
        exact absurd distance.symm (Nat.succ_ne_zero _)
      have fits : 8 * (n + 1) ≤ 2 ^ 64 := by
        rw [← distance]
        exact Nat.le_of_lt (m.reg t1 - m.reg t0).isLt
      have first : (run clearWord m).reg t0 = m.reg t0 + 8 := by
        rw [run_clearWord, Machine.reg_setReg_self _ _ _ (by decide)]
      have last : (run clearWord m).reg t1 = m.reg t1 := by
        rw [run_clearWord, Machine.reg_setReg_ne _ _ _ _ (by decide), Machine.reg_setMem]
      have shorter : ((run clearWord m).reg t1 - (run clearWord m).reg t0).toNat = 8 * n := by
        rw [first, last]
        bv_omega
      rw [clearBss, if_neg notThere, inductionHypothesis shorter (Nat.lt_of_succ_lt_succ enough),
        first, last, run_clearWord, Machine.mem_setReg, Machine.mem_setMem,
        cleared_word m.mem (m.reg t0) fits]
      have once : Function.update (Function.update m.x t0 (m.reg t0 + 8)) t0 (m.reg t1) =
          Function.update m.x t0 (m.reg t1) := Function.update_idem _ _ _
      rw [Machine.setReg, Machine.setReg, Machine.setReg, Machine.setMem, Machine.setMem,
        Machine.setMem, once]

/-- It ends on nothing else. -/
theorem clearBss_ends (ends : clearBss m fuel = some after) :
    ∃ n, n < fuel ∧ (m.reg t1 - m.reg t0).toNat = 8 * n := by
  induction fuel generalizing m with
  | zero => cases ends
  | succ fuel inductionHypothesis =>
    rw [clearBss] at ends
    split at ends
    · rename_i there
      rw [there, BitVec.sub_self]
      exact ⟨0, Nat.zero_lt_succ fuel, rfl⟩
    · rename_i notThere
      obtain ⟨n, enough, later⟩ := inductionHypothesis ends
      rw [run_clearWord, Machine.reg_setReg_self _ _ _ (by decide),
        Machine.reg_setReg_ne _ _ _ _ (by decide), Machine.reg_setMem] at later
      have distance : (m.reg t1 - (m.reg t0 + 8)).toNat =
          ((m.reg t1 - m.reg t0).toNat + (2 ^ 64 - 8)) % 2 ^ 64 := by bv_omega
      have notZero : (m.reg t1 - m.reg t0).toNat ≠ 0 := by bv_omega
      exact ⟨n + 1, Nat.succ_lt_succ enough, by omega⟩

end

/-! ## The two kinds of hart -/

/-- In `kernel_main`, on the boot stack, `.bss` zero. -/
structure Booted (symbols : Symbols) (m after : Machine) : Prop where
  pc : after.pc = symbols.kernelMain
  hartid : after.reg a0 = m.reg a0
  tree : after.reg a1 = m.reg a1
  stack : after.reg sp = symbols.bootStackTop
  back : after.reg ra = symbols.waitForBoot
  sscratch : after.csr .sscratch = 0
  csrs : ∀ c, c ≠ .sscratch → after.csr c = m.csr c
  mem : after.mem = cleared m.mem symbols.sbss (symbols.ebss - symbols.sbss).toNat

/-- Waiting, with nothing written. -/
structure Parked (symbols : Symbols) (m after : Machine) : Prop where
  pc : after.pc = symbols.waitForBoot
  csrs : after.csr = m.csr
  mem : after.mem = m.mem

section

variable {symbols : Symbols} {m : Machine}

/-- The instructions behind the loop. -/
theorem clearDone_booted {looping : Machine} (hart : looping.reg s0 = m.reg a0)
    (tree : looping.reg s1 = m.reg a1) (csrs : looping.csr = m.csr)
    (mem : looping.mem = cleared m.mem symbols.sbss (symbols.ebss - symbols.sbss).toNat) :
    Booted symbols m (clearDone symbols looping) := by
  let called := (looping.setCsr .sscratch 0).setReg sp symbols.bootStackTop
  have moved : clearDone symbols looping =
      (((called.setReg a0 (looping.reg s0 + 0)).setReg a1 (looping.reg s1 + 0)).setReg ra
        symbols.waitForBoot).setPc symbols.kernelMain := rfl
  rw [moved, hart, tree]
  constructor
  · rfl
  · rw [Machine.reg_setPc, Machine.reg_setReg_ne _ _ _ _ (by decide),
      Machine.reg_setReg_ne _ _ _ _ (by decide), Machine.reg_setReg_self _ _ _ (by decide)]
    exact BitVec.add_zero _
  · rw [Machine.reg_setPc, Machine.reg_setReg_ne _ _ _ _ (by decide),
      Machine.reg_setReg_self _ _ _ (by decide)]
    exact BitVec.add_zero _
  · rw [Machine.reg_setPc, Machine.reg_setReg_ne _ _ _ _ (by decide),
      Machine.reg_setReg_ne _ _ _ _ (by decide), Machine.reg_setReg_ne _ _ _ _ (by decide),
      Machine.reg_setReg_self _ _ _ (by decide)]
  · rw [Machine.reg_setPc, Machine.reg_setReg_self _ _ _ (by decide)]
  · exact Machine.csr_setCsr_self looping .sscratch 0
  · intro c other
    exact (Machine.csr_setCsr_ne looping .sscratch c 0 other).trans (congrFun csrs c)
  · exact mem

/-- The boot hart gets to `kernel_main` when `.bss` is made of whole words, which two ends on
pages give; a hart that gets anywhere has written the bytes of `.bss` or none. -/
theorem start_ends (symbols : Symbols) (m : Machine) :
    ((∃ fuel after, start symbols m fuel = some after) ↔
        m.reg a0 ≠ 0 ∨ 8 ∣ (symbols.ebss - symbols.sbss).toNat) ∧
      ∀ fuel after, start symbols m fuel = some after →
        (m.reg a0 = 0 ∧ Booted symbols m after) ∨ (m.reg a0 ≠ 0 ∧ Parked symbols m after) := by
  let entered := run [mv s0 a0, mv s1 a1] m
  have hart : entered.reg s0 = m.reg a0 := by
    change ((m.setReg s0 (m.reg a0 + 0)).setReg s1 _).reg s0 = m.reg a0
    rw [Machine.reg_setReg_ne _ _ _ _ (by decide), Machine.reg_setReg_self _ _ _ (by decide)]
    exact BitVec.add_zero _
  have tree : entered.reg s1 = m.reg a1 := by
    change ((m.setReg s0 _).setReg s1 ((m.setReg s0 (m.reg a0 + 0)).reg a1 + 0)).reg s1 = m.reg a1
    rw [Machine.reg_setReg_self _ _ _ (by decide), Machine.reg_setReg_ne _ _ _ _ (by decide)]
    exact BitVec.add_zero _
  by_cases boot : m.reg a0 = 0
  · let looping := (entered.setReg t0 symbols.sbss).setReg t1 symbols.ebss
    have low : looping.reg t0 = symbols.sbss := by
      rw [Machine.reg_setReg_ne _ _ _ _ (by decide), Machine.reg_setReg_self _ _ _ (by decide)]
    have high : looping.reg t1 = symbols.ebss := Machine.reg_setReg_self _ _ _ (by decide)
    have starts : ∀ fuel, start symbols m fuel =
        (clearBss looping fuel).bind fun m => some (clearDone symbols m) := by
      intro fuel
      rw [start]
      exact if_neg (not_not.mpr (hart.trans boot))
    constructor
    · constructor
      · rintro ⟨fuel, after, returned⟩
        rw [starts, Option.bind_eq_some_iff] at returned
        obtain ⟨_, ends, -⟩ := returned
        obtain ⟨n, -, distance⟩ := clearBss_ends ends
        rw [low, high] at distance
        exact Or.inr ⟨n, distance⟩
      · rintro (other | ⟨n, distance⟩)
        · exact absurd boot other
        · rw [← low, ← high] at distance
          exact ⟨n + 1, _, by
            rw [starts, clearBss_words distance (Nat.lt_succ_self n), Option.bind_some]⟩
    · intro fuel after returned
      rw [starts, Option.bind_eq_some_iff] at returned
      obtain ⟨done, ends, result⟩ := returned
      obtain ⟨n, enough, distance⟩ := clearBss_ends ends
      rw [clearBss_words distance enough, low, high] at ends
      rw [low, high] at distance
      obtain rfl := Option.some.inj ends
      obtain rfl := Option.some.inj result
      refine Or.inl ⟨boot, clearDone_booted ?_ ?_ rfl ?_⟩
      · rw [Machine.reg_setReg_ne _ _ _ _ (by decide), Machine.reg_setMem,
          Machine.reg_setReg_ne _ _ _ _ (by decide), Machine.reg_setReg_ne _ _ _ _ (by decide),
          hart]
      · rw [Machine.reg_setReg_ne _ _ _ _ (by decide), Machine.reg_setMem,
          Machine.reg_setReg_ne _ _ _ _ (by decide), Machine.reg_setReg_ne _ _ _ _ (by decide),
          tree]
      · rw [distance]
        rfl
  · have starts : ∀ fuel, start symbols m fuel = some (entered.setPc symbols.waitForBoot) := by
      intro fuel
      rw [start]
      exact if_pos (hart ▸ boot)
    constructor
    · exact ⟨fun _ => Or.inl boot, fun _ => ⟨0, _, starts 0⟩⟩
    · intro fuel after returned
      rw [starts] at returned
      obtain rfl := Option.some.inj returned
      exact Or.inr ⟨boot, rfl, rfl, rfl⟩

end

end CuteCore.Boot

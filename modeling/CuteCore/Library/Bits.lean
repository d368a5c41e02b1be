import CuteCore.Library.Bytes

/-!
# Bitmaps

Bit `b` of a bitmap is bit `b % 8` of its byte `b / 8`. Setting or clearing a bit
changes no other.
-/

namespace Bytes

/-- Bit `b` of a bitmap. -/
def bitAt (data : ByteMap) (b : Nat) : Bool := (data (b / 8)).toNat.testBit (b % 8)

/-- The bitmap with bit `b` set. -/
def setBit (data : ByteMap) (b : Nat) : ByteMap :=
  store data (b / 8) 1 (load data (b / 8) 1 ||| 2 ^ (b % 8))

/-- The bitmap with bit `b` cleared. -/
def clearBit (data : ByteMap) (b : Nat) : ByteMap :=
  store data (b / 8) 1 (load data (b / 8) 1 &&& (255 - 2 ^ (b % 8)))

theorem load_byte (data : ByteMap) (a : Nat) : load data a 1 = (data a).toNat := by
  simp [load]

/-- The byte stored by a one-byte field. -/
theorem store_byte (data : ByteMap) (a value x : Nat) :
    store data a 1 value x = if x = a then BitVec.ofNat 8 value else data x := by
  by_cases isA : x = a
  · subst isA
    rw [if_pos rfl, store, copy_inside _ _ _ _ _ (Nat.le_refl _) (by omega)]
    simp [byteOf]
  · rw [if_neg isA, store, copy_outside _ _ _ _ _ (by omega)]

/-- To set a bit changes this bit only. -/
theorem bitAt_setBit (data : ByteMap) (b c : Nat) :
    bitAt (setBit data b) c = (decide (c = b) || bitAt data c) := by
  rw [bitAt, setBit, store_byte, load_byte]
  by_cases sameByte : c / 8 = b / 8
  · have small : c % 8 < 8 := Nat.mod_lt _ (by decide)
    rw [if_pos sameByte, BitVec.toNat_ofNat, Nat.testBit_mod_two_pow, Nat.testBit_or,
      Nat.testBit_two_pow, bitAt, sameByte]
    by_cases same : c = b
    · subst same
      simp [small]
    · have differs : ¬ b % 8 = c % 8 := by omega
      simp [small, same, differs]
  · have differs : c ≠ b := by
      rintro rfl
      exact sameByte rfl
    rw [if_neg sameByte, bitAt]
    simp [differs]

theorem testBit_mask (k i : Nat) (small : k < 8) (inByte : i < 8) :
    (255 - 2 ^ k).testBit i = !decide (i = k) := by
  interval_cases k <;> interval_cases i <;> decide

/-- To clear a bit changes this bit only. -/
theorem bitAt_clearBit (data : ByteMap) (b c : Nat) :
    bitAt (clearBit data b) c = (!decide (c = b) && bitAt data c) := by
  rw [bitAt, clearBit, store_byte, load_byte]
  by_cases sameByte : c / 8 = b / 8
  · have small : c % 8 < 8 := Nat.mod_lt _ (by decide)
    rw [if_pos sameByte, BitVec.toNat_ofNat, Nat.testBit_mod_two_pow, Nat.testBit_and,
      testBit_mask _ _ (Nat.mod_lt _ (by decide)) small, bitAt, sameByte]
    by_cases same : c = b
    · subst same
      simp
    · have differs : ¬ c % 8 = b % 8 := by omega
      simp [small, same, differs]
  · have differs : c ≠ b := by
      rintro rfl
      exact sameByte rfl
    rw [if_neg sameByte, bitAt]
    simp [differs]

end Bytes

import Mathlib

/-!
# Byte maps with little-endian fields

A map from addresses to bytes, with fields of any width read and written least
significant byte first. Two rules carry every use: a field read back gives what
was stored, cut to its width, and a write leaves every field apart from it as it
was.
-/

namespace Bytes

abbrev Byte := BitVec 8

abbrev ByteMap := Nat → Byte

/-- The `n`-byte field at `a`. -/
def load (m : ByteMap) (a : Nat) : Nat → Nat
  | 0 => 0
  | n + 1 => (m a).toNat + 256 * load m (a + 1) n

/-- Replace the bytes of `[a, a + n)` by those of `source`. -/
def copy (m : ByteMap) (a n : Nat) (source : Nat → Byte) : ByteMap :=
  fun x => if a ≤ x ∧ x < a + n then source (x - a) else m x

/-- Byte `i` of a value. -/
def byteOf (value i : Nat) : Byte := BitVec.ofNat 8 (value / 256 ^ i)

/-- Store `value` into the `n`-byte field at `a`. -/
def store (m : ByteMap) (a n value : Nat) : ByteMap := copy m a n (byteOf value)

/-- Set the bytes of `[a, a + n)` to `b`. -/
def fill (m : ByteMap) (a n : Nat) (b : Byte) : ByteMap := copy m a n fun _ => b

/-- The two maps have the same bytes in `[a, a + n)`. -/
def SameOn (m other : ByteMap) (a n : Nat) : Prop := ∀ x, a ≤ x → x < a + n → m x = other x

theorem SameOn.sub {m other : ByteMap} {a n b k : Nat} (same : SameOn m other a n)
    (low : a ≤ b) (high : b + k ≤ a + n) : SameOn m other b k := by
  intro x first last
  exact same x (by omega) (by omega)

theorem SameOn.symm {m other : ByteMap} {a n : Nat} (same : SameOn m other a n) :
    SameOn other m a n := fun x first last => (same x first last).symm

theorem SameOn.trans {m other third : ByteMap} {a n : Nat} (first : SameOn m other a n)
    (second : SameOn other third a n) : SameOn m third a n :=
  fun x low high => (first x low high).trans (second x low high)

/-- A field depends on its own bytes only. -/
theorem load_congr {m other : ByteMap} {a n : Nat} (same : SameOn m other a n) :
    load m a n = load other a n := by
  induction n generalizing a with
  | zero => rfl
  | succ n inductionHypothesis =>
    have head : m a = other a := same a (by omega) (by omega)
    have tail : SameOn m other (a + 1) n := fun x low high => same x (by omega) (by omega)
    rw [load, load, head, inductionHypothesis tail]

theorem load_lt (m : ByteMap) (a n : Nat) : load m a n < 256 ^ n := by
  induction n generalizing a with
  | zero => simp [load]
  | succ n inductionHypothesis =>
    have byte := (m a).isLt
    have rest := inductionHypothesis (a + 1)
    rw [load, pow_succ]
    omega

theorem copy_inside (m : ByteMap) (a n : Nat) (source : Nat → Byte) (x : Nat) (low : a ≤ x)
    (high : x < a + n) : copy m a n source x = source (x - a) := by
  rw [copy, if_pos ⟨low, high⟩]

theorem copy_outside (m : ByteMap) (a n : Nat) (source : Nat → Byte) (x : Nat)
    (outside : x < a ∨ a + n ≤ x) : copy m a n source x = m x := by
  rw [copy, if_neg (by omega)]

/-- Bytes apart from the copied range are kept. -/
theorem sameOn_copy (m : ByteMap) (a n : Nat) (source : Nat → Byte) (b k : Nat)
    (apart : b + k ≤ a ∨ a + n ≤ b) : SameOn (copy m a n source) m b k := by
  intro x low high
  exact copy_outside m a n source x (by omega)

theorem sameOn_store (m : ByteMap) (a n value b k : Nat) (apart : b + k ≤ a ∨ a + n ≤ b) :
    SameOn (store m a n value) m b k := sameOn_copy m a n _ b k apart

theorem sameOn_fill (m : ByteMap) (a n : Nat) (byte : Byte) (b k : Nat)
    (apart : b + k ≤ a ∨ a + n ≤ b) : SameOn (fill m a n byte) m b k :=
  sameOn_copy m a n _ b k apart

theorem load_copy_apart (m : ByteMap) (a n : Nat) (source : Nat → Byte) (b k : Nat)
    (apart : b + k ≤ a ∨ a + n ≤ b) : load (copy m a n source) b k = load m b k :=
  load_congr (sameOn_copy m a n source b k apart)

/-- A store leaves the fields apart from it as they were. -/
theorem load_store_apart (m : ByteMap) (a n value b k : Nat) (apart : b + k ≤ a ∨ a + n ≤ b) :
    load (store m a n value) b k = load m b k := load_copy_apart m a n _ b k apart

theorem load_fill_apart (m : ByteMap) (a n : Nat) (byte : Byte) (b k : Nat)
    (apart : b + k ≤ a ∨ a + n ≤ b) : load (fill m a n byte) b k = load m b k :=
  load_copy_apart m a n _ b k apart

/-- The bytes of a value, read as a field from byte `i` on. -/
theorem load_bytes (m : ByteMap) (a n i value : Nat)
    (bytes : ∀ x, a ≤ x → x < a + n → m x = byteOf value (x - a + i)) :
    load m a n = value / 256 ^ i % 256 ^ n := by
  induction n generalizing a i with
  | zero => simp [load, Nat.mod_one]
  | succ n inductionHypothesis =>
    have head := bytes a (by omega) (by omega)
    have tail := inductionHypothesis (a + 1) (i + 1) fun x low high => by
      have byte := bytes x (by omega) (by omega)
      rwa [show x - a + i = x - (a + 1) + (i + 1) by omega] at byte
    rw [load, head, tail, Nat.sub_self, Nat.zero_add, byteOf, BitVec.toNat_ofNat, pow_succ' 256 n,
      Nat.mod_mul, pow_succ 256 i, ← Nat.div_div_eq_div_mul]

/-- A field read back is the stored value, cut to the width. -/
theorem load_store_same (m : ByteMap) (a n value : Nat) :
    load (store m a n value) a n = value % 256 ^ n := by
  have read := load_bytes (store m a n value) a n 0 value
    fun x low high => by rw [store, copy_inside m a n _ x low high, Nat.add_zero]
  simpa using read

theorem word_lt (m : ByteMap) (a : Nat) : load m a 8 < 2 ^ 64 := by
  have bound := load_lt m a 8
  rwa [show 256 ^ 8 = 2 ^ 64 by norm_num] at bound

/-- Aligned words are equal or apart, so a store decides every aligned word. -/
theorem load_store_word (m : ByteMap) (a b value : Nat) (aligned : a % 8 = 0)
    (otherAligned : b % 8 = 0) (fits : value < 2 ^ 64) :
    load (store m a 8 value) b 8 = if b = a then value else load m b 8 := by
  by_cases same : b = a
  · rw [if_pos same, same, load_store_same, show 256 ^ 8 = 2 ^ 64 by norm_num,
      Nat.mod_eq_of_lt fits]
  · rw [if_neg same, load_store_apart _ _ _ _ _ _ (by omega)]

/-- A field inside a copied range is read from the source. -/
theorem load_copy_inside (m : ByteMap) (a n : Nat) (source : Nat → Byte) (b k : Nat)
    (low : a ≤ b) (high : b + k ≤ a + n) :
    load (copy m a n source) b k = load source (b - a) k := by
  induction k generalizing b with
  | zero => rfl
  | succ k inductionHypothesis =>
    rw [load, load, copy_inside m a n source b low (by omega),
      inductionHypothesis (b + 1) (by omega) (by omega), show b + 1 - a = b - a + 1 by omega]

theorem load_zeros (b k : Nat) : load (fun _ => 0) b k = 0 := by
  induction k generalizing b with
  | zero => rfl
  | succ k inductionHypothesis => rw [load, inductionHypothesis]; rfl

/-- Every field inside a zero-filled range is zero. -/
theorem load_fill_zero (m : ByteMap) (a n b k : Nat) (low : a ≤ b) (high : b + k ≤ a + n) :
    load (fill m a n 0) b k = 0 := by
  rw [fill, load_copy_inside m a n _ b k low high, load_zeros]

/-- A copy depends on the copied bytes of its source only. -/
theorem copy_congr (m : ByteMap) (a n : Nat) {source other : Nat → Byte}
    (same : ∀ i < n, source i = other i) : copy m a n source = copy m a n other := by
  funext x
  by_cases inside : a ≤ x ∧ x < a + n
  · rw [copy_inside _ _ _ _ _ inside.1 inside.2, copy_inside _ _ _ _ _ inside.1 inside.2]
    exact same (x - a) (by omega)
  · rw [copy_outside _ _ _ _ _ (by omega), copy_outside _ _ _ _ _ (by omega)]

/-- Two adjacent copies make one. -/
theorem copy_append (m : ByteMap) (a n k : Nat) (source : Nat → Byte) :
    copy (copy m a n source) (a + n) k (fun i => source (n + i)) = copy m a (n + k) source := by
  funext x
  by_cases second : a + n ≤ x ∧ x < a + n + k
  · rw [copy_inside _ _ _ _ _ second.1 second.2, copy_inside _ _ _ _ _ (by omega) (by omega)]
    exact congrArg source (by omega)
  · rw [copy_outside _ _ _ _ _ (by omega)]
    by_cases first : a ≤ x ∧ x < a + n
    · rw [copy_inside _ _ _ _ _ first.1 first.2, copy_inside _ _ _ _ _ (by omega) (by omega)]
    · rw [copy_outside _ _ _ _ _ (by omega), copy_outside _ _ _ _ _ (by omega)]

theorem copy_empty (m : ByteMap) (a : Nat) (source : Nat → Byte) : copy m a 0 source = m :=
  funext fun x => copy_outside m a 0 source x (by omega)

-- Fields are reasoned about through the rules above. Unfolding them during
-- unification would compute byte by byte.
attribute [irreducible] load copy

end Bytes

import CuteCore.Kernel
import CuteCore.Library.Bytes
import CuteCore.Library.Numerals

/-!
# Formatted output

`console.c` over the characters that `uart_putc` was given. A format stands in
memory up to its terminating NUL, and a read behind that is a fault, as is a
write behind the buffer of `printnum`.

Numbers are put together backwards in a buffer on the stack, digit by digit, with the sign
as the last one. The count that `vprintf` returns is an `i32`. The texts that come out are
compared with positional numerals, which say nothing about buffers or loops.
-/

namespace CuteCore.Console

open Hoare Bytes Numerals

/-- The state is what was given to `uart_putc` so far. -/
abbrev ConsoleProg (α : Type) := Prog (List Byte) Fault α

def ch (c : Char) : Byte := BitVec.ofNat 8 c.toNat

def uartPutc (c : Byte) : ConsoleProg Unit := modify fun out => out ++ [c]

/-- A `char *`: null, or the characters before the NUL. -/
abbrev CString := Option (List Byte)

def putString : List Byte → ConsoleProg Unit
  | [] => return ()
  | c :: rest => do
    uartPutc c
    putString rest

def printstr : CString → ConsoleProg Nat
  | none => return 0
  | some s => do
    putString s
    return s.length

def digitChar (digit : Nat) : Byte :=
  if digit < 10 then ch '0' + BitVec.ofNat 8 digit else ch 'a' + BitVec.ofNat 8 digit - 10

/-- The first loop of `printnum`, with `room` places left in `buf`. -/
def storeDigits (base : Nat) : Nat → Nat → List Byte → ConsoleProg (List Byte)
  | 0, _, _ => throw .badAccess
  | room + 1, val, buf => do
    let buf := buf ++ [digitChar (val % base)]
    if val / base ≠ 0 then storeDigits base room (val / base) buf else return buf

/-- The second loop of `printnum`, from `i` down. -/
def putDigits (buf : List Byte) : Nat → Nat → ConsoleProg Nat
  | 0, cnt => return cnt
  | i + 1, cnt => do
    uartPutc (buf.getD i 0)
    putDigits buf i (cnt + 1)

/-- The size of `buf`. -/
def bufSize : Nat := 32

def printnum (val : BitVec 64) (base : Nat) (isSigned neg : Bool) : ConsoleProg Nat := do
  let val := if isSigned = true ∧ neg = true then -val else val
  let buf ← storeDigits base bufSize val.toNat []
  if neg = true then
    if buf.length < bufSize then do
      let buf := buf ++ [ch '-']
      putDigits buf buf.length 0
    else throw .badAccess
  else putDigits buf buf.length 0

/-- An argument as it is passed: a 64-bit word, or a string. -/
inductive Arg where
  | word (value : BitVec 64)
  | text (s : CString)

def vaWord : List Arg → ConsoleProg (BitVec 64 × List Arg)
  | .word value :: ap => return (value, ap)
  | _ => throw .badAccess

def vaText : List Arg → ConsoleProg (CString × List Arg)
  | .text s :: ap => return (s, ap)
  | _ => throw .badAccess

/-- `*fmt` with the cursor at `pos`. -/
def charAt (fmt : List Byte) (pos : Nat) : ConsoleProg Byte :=
  if pos < fmt.length then return fmt.getD pos 0
  else if pos = fmt.length then return 0
  else throw .badAccess

/-- The length modifiers: 1 for `longflag`, 2 for `longlongflag`, with the cursor behind them. -/
def lengthFlags (fmt : List Byte) (pos : Nat) : ConsoleProg (Nat × Nat) := do
  let c ← charAt fmt pos
  if c = ch 'l' then do
    let c ← charAt fmt (pos + 1)
    if c = ch 'l' then return (2, pos + 2) else return (1, pos + 1)
  else return (0, pos)

/-- A signed argument, an `i32` where no modifier stands. -/
def signedArg (longs : Nat) (word : BitVec 64) : BitVec 64 :=
  if longs = 0 then (word.setWidth 32).signExtend 64 else word

/-- An unsigned argument, a `u32` where no modifier stands. -/
def unsignedArg (longs : Nat) (word : BitVec 64) : BitVec 64 :=
  if longs = 0 then (word.setWidth 32).setWidth 64 else word

/-- The `switch` of `vprintf`: what it adds to `cnt`, and the arguments left. -/
def convert (c : Byte) (longs : Nat) (ap : List Arg) : ConsoleProg (Nat × List Arg) :=
  if c = ch 'd' then do
    let arg ← vaWord ap
    let sval := signedArg longs arg.1
    let n ← printnum sval 10 true (decide (sval.toInt < 0))
    return (n, arg.2)
  else if c = ch 'u' then do
    let arg ← vaWord ap
    let n ← printnum (unsignedArg longs arg.1) 10 false false
    return (n, arg.2)
  else if c = ch 'x' then do
    let arg ← vaWord ap
    let n ← printnum (unsignedArg longs arg.1) 16 false false
    return (n, arg.2)
  else if c = ch 'p' then do
    let arg ← vaWord ap
    let first ← printstr (some [ch '0', ch 'x'])
    let n ← printnum arg.1 16 false false
    return (first + n, arg.2)
  else if c = ch 'c' then do
    let arg ← vaWord ap
    uartPutc (arg.1.setWidth 8)
    return (1, arg.2)
  else if c = ch 's' then do
    let arg ← vaText ap
    let n ← printstr arg.1
    return (n, arg.2)
  else if c = ch '%' then do
    uartPutc (ch '%')
    return (1, ap)
  else do
    uartPutc (ch '%')
    uartPutc c
    return (2, ap)

/-- The loop of `vprintf`. A pass moves the cursor by one place at least. -/
def vprintfFrom (fmt : List Byte) : Nat → Nat → List Arg → BitVec 32 → ConsoleProg (BitVec 32)
  | 0, _, _, _ => throw .outOfFuel
  | passes + 1, pos, ap, cnt => do
    let c ← charAt fmt pos
    if c = 0 then return cnt
    else if c ≠ ch '%' then do
      uartPutc c
      vprintfFrom fmt passes (pos + 1) ap (cnt + 1)
    else do
      let c ← charAt fmt (pos + 1)
      if c = 0 then do
        uartPutc (ch '%')
        return cnt
      else do
        let flags ← lengthFlags fmt (pos + 1)
        let c ← charAt fmt flags.2
        let result ← convert c flags.1 ap
        vprintfFrom fmt passes (flags.2 + 1) result.2 (cnt + BitVec.ofNat 32 result.1)

def vprintf (fmt : List Byte) (ap : List Arg) : ConsoleProg (BitVec 32) :=
  vprintfFrom fmt (fmt.length + 2) 0 ap 0

def printf (fmt : List Byte) (ap : List Arg) : ConsoleProg (BitVec 32) := vprintf fmt ap

/-! ## Reading a numeral -/

/-- The digit that a character stands for. -/
def digitOf (base : Nat) (c : Byte) : Option Nat :=
  if ch '0' ≤ c ∧ c ≤ ch '9' ∧ c.toNat - 48 < base then some (c.toNat - 48)
  else if ch 'a' ≤ c ∧ c.toNat - 87 < base then some (c.toNat - 87)
  else none

def readDigits (base : Nat) : List Byte → Nat → Option Nat
  | [], v => some v
  | c :: rest, v => (digitOf base c).bind fun d => readDigits base rest (base * v + d)

/-- The number that a text stands for, with an optional `-` in front. -/
def readNumber (base : Nat) : List Byte → Option Int
  | [] => none
  | c :: rest =>
    if c = ch '-' then (readDigits base rest 0).map fun v : Nat => -(v : Int)
    else (readDigits base (c :: rest) 0).map Int.ofNat

/-- Digits with no zero in front, unless it is the only one. -/
def NoLeadingZeros (digits : List Byte) : Prop :=
  digits ≠ [] ∧ (digits.head? = some (ch '0') → digits = [ch '0'])

/-- The text of a number: `-` in front of a negative one, and the digits of its magnitude. -/
def numberText (base : Nat) (n : Int) : List Byte :=
  (if n < 0 then [ch '-'] else []) ++ (numeral base n.natAbs).map digitChar

section

variable {base : Nat}

theorem digitOf_digitChar (small : base ≤ 16) {d : Nat} (below : d < base) :
    digitOf base (digitChar d) = some d := by
  have hex : d < 16 := by omega
  have codes : ∀ d < 16, (ch '0' ≤ digitChar d ∧ digitChar d ≤ ch '9') ∧ (digitChar d).toNat - 48 = d ∨
      ¬ (ch '0' ≤ digitChar d ∧ digitChar d ≤ ch '9') ∧ ch 'a' ≤ digitChar d ∧
        (digitChar d).toNat - 87 = d := by decide
  rcases codes d hex with ⟨⟨low, high⟩, isDigit⟩ | ⟨notDecimal, low, isDigit⟩
  · rw [digitOf, isDigit, if_pos ⟨low, high, below⟩]
  · rw [digitOf, isDigit, if_neg fun both => notDecimal ⟨both.1, both.2.1⟩, if_pos ⟨low, below⟩]

theorem digitChar_ne {d : Nat} (hex : d < 16) : digitChar d ≠ ch '-' := by
  have codes : ∀ d < 16, digitChar d ≠ ch '-' := by decide
  exact codes d hex

theorem digitChar_zero {d : Nat} (hex : d < 16) (zero : digitChar d = ch '0') : d = 0 := by
  have codes : ∀ d < 16, digitChar d = ch '0' → d = 0 := by decide
  exact codes d hex zero

theorem readDigits_map (small : base ≤ 16) (digits : List Nat) (below : ∀ d ∈ digits, d < base)
    (v : Nat) : readDigits base (digits.map digitChar) v =
      some (digits.foldl (fun v d => base * v + d) v) := by
  induction digits generalizing v with
  | nil => rfl
  | cons d rest inductionHypothesis =>
    rw [List.map_cons, readDigits, digitOf_digitChar small (below d (List.mem_cons_self ..)),
      Option.bind_some, inductionHypothesis fun e member => below e (List.mem_cons_of_mem _ member)]
    rfl

theorem readDigits_numeral (least : 1 < base) (small : base ≤ 16) (n : Nat) :
    readDigits base ((numeral base n).map digitChar) 0 = some n := by
  rw [readDigits_map small _ (numeral_lt_base least)]
  exact congrArg some (value_numeral least)

/-- The text of a number reads as that number. -/
theorem readNumber_text (least : 1 < base) (small : base ≤ 16) (n : Int) :
    readNumber base (numberText base n) = some n := by
  have digits := readDigits_numeral least small n.natAbs
  unfold numberText
  split
  · rename_i negative
    rw [List.singleton_append, readNumber, if_pos rfl, digits, Option.map_some]
    congr 1
    omega
  · rename_i positive
    rw [List.nil_append]
    cases isText : (numeral base n.natAbs).map digitChar with
    | nil => exact absurd (List.map_eq_nil_iff.mp isText) numeral_ne_nil
    | cons c rest =>
      have first : c ≠ ch '-' := by
        have member : c ∈ (numeral base n.natAbs).map digitChar := isText ▸ List.mem_cons_self ..
        obtain ⟨d, inNumeral, rfl⟩ := List.mem_map.mp member
        have below := numeral_lt_base least d inNumeral
        exact digitChar_ne (by omega)
      rw [readNumber, if_neg first, ← isText, digits, Option.map_some]
      congr 1
      simp only [Int.ofNat_eq_natCast]
      omega

/-- A numeral starts with a zero only where it is the numeral of zero, in every base that has
digits. -/
theorem noLeadingZeros (least : 1 < base) (small : base ≤ 16) (n : Nat) :
    NoLeadingZeros ((numeral base n).map digitChar) := by
  constructor
  · rw [ne_eq, List.map_eq_nil_iff]
    exact numeral_ne_nil
  · intro zero
    rw [List.head?_map] at zero
    cases isHead : (numeral base n).head? with
    | none =>
      rw [isHead] at zero
      cases zero
    | some d =>
      rw [isHead, Option.map_some, Option.some.injEq] at zero
      have below := numeral_lt_base least d (List.mem_of_mem_head? isHead)
      obtain rfl := digitChar_zero (by omega) zero
      obtain rfl := numeral_head isHead
      rfl

end

/-! ## Running the programs -/

section

variable {out : List Byte}

@[simp] theorem wp_uartPutc {c : Byte} {post : Unit → List Byte → Prop} :
    wp (uartPutc c) post out ↔ post () (out ++ [c]) := wp_modify

theorem wp_putString (s : List Byte) {post : Unit → List Byte → Prop} :
    wp (putString s) post out ↔ post () (out ++ s) := by
  induction s generalizing out with
  | nil => rw [putString, wp_pure, List.append_nil]
  | cons c rest inductionHypothesis =>
    rw [putString, wp_bind, wp_uartPutc, inductionHypothesis, List.append_assoc,
      List.singleton_append]

/-- The text of a string, which is empty for null. -/
def CString.chars (s : CString) : List Byte := s.getD []

theorem wp_printstr (s : CString) {post : Nat → List Byte → Prop} :
    wp (printstr s) post out ↔ post s.chars.length (out ++ s.chars) := by
  cases s with
  | none => rw [printstr, wp_pure, CString.chars, Option.getD_none, List.append_nil]; rfl
  | some s => rw [printstr, wp_bind, wp_putString, wp_pure, CString.chars, Option.getD_some]

/-- The digits are stored with the least significant one first. -/
theorem storeDigits_spec {base : Nat} (least : 1 < base) (room val : Nat) (buf : List Byte)
    (fits : (numeral base val).length ≤ room) :
    wp (storeDigits base room val buf) (fun stored after =>
      stored = buf ++ ((numeral base val).map digitChar).reverse ∧ after = out) out := by
  induction room generalizing val buf with
  | zero =>
    have none := List.eq_nil_of_length_eq_zero (Nat.le_zero.mp fits)
    exact absurd none numeral_ne_nil
  | succ room inductionHypothesis =>
    rw [storeDigits]
    simp only [wp_ite]
    split
    · rename_i more
      have digits := numeral_step least more
      rw [digits, List.length_append, List.length_singleton] at fits
      apply wp_mono (inductionHypothesis (val / base) _ (by omega))
      rintro stored after ⟨rfl, rfl⟩
      rw [digits]
      simp
    · rename_i last
      have small : val < base := by
        rw [ne_eq, not_not, Nat.div_eq_zero_iff_lt (by omega)] at last
        exact last
      rw [wp_pure, numeral_single small, Nat.mod_eq_of_lt small]
      exact ⟨rfl, rfl⟩

/-- The characters leave the buffer from the last one down. -/
theorem putDigits_spec (buf : List Byte) (i cnt : Nat) (inside : i ≤ buf.length) :
    wp (putDigits buf i cnt) (fun total after =>
      total = cnt + i ∧ after = out ++ (buf.take i).reverse) out := by
  induction i generalizing out cnt with
  | zero =>
    rw [putDigits, wp_pure, List.take_zero, List.reverse_nil, List.append_nil]
    exact ⟨rfl, rfl⟩
  | succ i inductionHypothesis =>
    rw [putDigits, wp_bind, wp_uartPutc]
    apply wp_mono (inductionHypothesis (cnt + 1) (by omega))
    rintro total after ⟨rfl, rfl⟩
    refine ⟨by omega, ?_⟩
    have here : i < buf.length := inside
    rw [List.take_add_one, List.getElem?_eq_getElem here, Option.toList_some, List.reverse_append,
      List.reverse_singleton, List.append_assoc, List.getD_eq_getElem?_getD,
      List.getElem?_eq_getElem here, Option.getD_some]

/-- The flags and values that `vprintf` passes, with the number that is meant. -/
structure Passed (val : BitVec 64) (base : Nat) (isSigned neg : Bool) (n : Int) : Prop where
  base : base = 10 ∨ base = 16
  neg : neg = (isSigned && decide (val.toInt < 0))
  number : n = if isSigned = true then val.toInt else val.toNat

/-- `printnum` puts out the text of the number. -/
theorem printnum_text {val : BitVec 64} {base : Nat} {isSigned neg : Bool} {n : Int}
    (passed : Passed val base isSigned neg n) : wp (printnum val base isSigned neg) (fun cnt after =>
      cnt = (numberText base n).length ∧ after = out ++ numberText base n) out := by
  obtain ⟨isBase, isNeg, number⟩ := passed
  have least : 1 < base := by omega
  have bound := val.isLt
  have negative : neg = true ↔ n < 0 := by
    rw [isNeg, number]
    cases isSigned with
    | false => simp
    | true => simp
  have magnitude : (if isSigned = true ∧ neg = true then -val else val).toNat = n.natAbs := by
    split
    · rename_i both
      rw [number, if_pos both.1, BitVec.toNat_neg]
      rw [isNeg, both.1, Bool.true_and, decide_eq_true_eq] at both
      have low := both.2
      rw [BitVec.toInt_eq_toNat_cond] at low ⊢
      split at low
      · omega
      · rename_i high
        rw [if_neg high]
        omega
    · rename_i notBoth
      rw [number]
      split
      · rename_i signed
        have positive : ¬ val.toInt < 0 := fun low =>
          notBoth ⟨signed, by rw [isNeg, signed, decide_eq_true low]; rfl⟩
        rw [BitVec.toInt_eq_toNat_cond] at positive ⊢
        split at positive
        · rename_i low
          rw [if_pos low]
          rfl
        · omega
      · rfl
  have size : (numeral base n.natAbs).length ≤ 20 := by
    rcases isBase with rfl | rfl
    · apply numeral_length_le least
      rw [← magnitude]
      exact Nat.lt_trans (BitVec.isLt _) (by decide)
    · apply numeral_length_le least
      rw [← magnitude]
      exact Nat.lt_trans (BitVec.isLt _) (by decide)
  rw [printnum]
  apply wp_seq (storeDigits_spec least bufSize _ [] (by rw [magnitude]; exact Nat.le_trans size (by decide)))
  rintro stored mid ⟨isStored, rfl⟩
  rw [magnitude, List.nil_append] at isStored
  have length : stored.length = (numeral base n.natAbs).length := by
    rw [isStored, List.length_reverse, List.length_map]
  rw [wp_ite]
  split
  · rename_i isNeg'
    rw [wp_ite, if_pos (by rw [length]; exact Nat.lt_of_le_of_lt size (by decide))]
    apply wp_mono (putDigits_spec (stored ++ [ch '-']) _ 0 (Nat.le_refl _))
    rintro cnt after ⟨rfl, rfl⟩
    rw [List.take_length, List.reverse_append, isStored, List.reverse_reverse, numberText,
      if_pos (negative.mp isNeg')]
    exact ⟨by simp, rfl⟩
  · rename_i notNeg
    apply wp_mono (putDigits_spec stored _ 0 (Nat.le_refl _))
    rintro cnt after ⟨rfl, rfl⟩
    rw [List.take_length, isStored, List.reverse_reverse, numberText,
      if_neg fun low => notNeg (negative.mpr low)]
    exact ⟨by simp, rfl⟩

end

/-- The canonical numeral of the value: it reads back, and no zero stands in front. -/
theorem printnum_exact (val : BitVec 64) (base : Nat) (isSigned neg : Bool) (n : Int)
    (out : List Byte) (passed : Passed val base isSigned neg n) :
    wp (printnum val base isSigned neg) (fun cnt after => ∃ sign digits,
      after = out ++ (sign ++ digits) ∧ cnt = (sign ++ digits).length ∧
      (sign = [] ∨ sign = [ch '-']) ∧ (sign = [ch '-'] ↔ n < 0) ∧ NoLeadingZeros digits ∧
      readNumber base (sign ++ digits) = some n) out := by
  have least : 1 < base := by
    rcases passed.base with rfl | rfl <;> decide
  have small : base ≤ 16 := by
    rcases passed.base with rfl | rfl <;> decide
  apply wp_mono (printnum_text passed)
  rintro cnt after ⟨isCount, isOutput⟩
  refine ⟨if n < 0 then [ch '-'] else [], (numeral base n.natAbs).map digitChar, isOutput, isCount,
    ?_, ?_, noLeadingZeros least small _, readNumber_text least small n⟩
  · split
    · exact Or.inr rfl
    · exact Or.inl rfl
  · split
    · rename_i negative
      exact ⟨fun _ => negative, fun _ => rfl⟩
    · rename_i positive
      exact ⟨fun empty => (List.cons_ne_nil _ _ empty.symm).elim,
        fun negative => absurd negative positive⟩

/-- The most negative value in base 10. -/
theorem most_negative_exact : wp (printnum (BitVec.intMin 64) 10 true true) (fun cnt after =>
    ∃ sign digits, after = [] ++ (sign ++ digits) ∧ cnt = (sign ++ digits).length ∧
      (sign = [] ∨ sign = [ch '-']) ∧ (sign = [ch '-'] ↔ (-2 ^ 63 : Int) < 0) ∧
      NoLeadingZeros digits ∧ readNumber 10 (sign ++ digits) = some (-2 ^ 63)) [] :=
  printnum_exact (BitVec.intMin 64) 10 true true (-2 ^ 63) []
    ⟨Or.inl rfl, by decide, by decide⟩

end CuteCore.Console

import CuteCore.Console.Printf

/-!
# The formats of `vprintf`

A format is a list of characters and directives, and the NUL may stand behind one of
them, behind a `%`, or behind the length modifiers of a directive. In the last case the
NUL is taken for the directive, and the loop goes on behind it. Behind a `%` one
character more is put out than counted.
-/

namespace CuteCore.Console

open Hoare Bytes Numerals

/-- A character that is put out as it is, or a directive with the number of its modifiers. -/
inductive Piece where
  | char (c : Byte)
  | directive (longs : Nat) (kind : Byte)

/-- Where the terminating NUL stands. -/
inductive Ending where
  | whole
  | percent
  | modifier
  deriving DecidableEq

/-- The pieces of a format. Behind a `%` the number of modifiers so far is given. -/
def scan : Option Nat → List Byte → List Piece × Ending
  | none, [] => ([], .whole)
  | some 0, [] => ([], .percent)
  | some (_ + 1), [] => ([], .modifier)
  | none, c :: rest =>
    if c = ch '%' then scan (some 0) rest
    else (.char c :: (scan none rest).1, (scan none rest).2)
  | some longs, c :: rest =>
    if c = ch 'l' ∧ longs < 2 then scan (some (longs + 1)) rest
    else (.directive longs c :: (scan none rest).1, (scan none rest).2)

/-- The text of a directive with a number, and the arguments left. -/
def numberPiece (text : BitVec 64 → List Byte) : List Arg → Option (List Byte × List Arg)
  | .word value :: ap => some (text value, ap)
  | _ => none

def stringPiece : List Arg → Option (List Byte × List Arg)
  | .text s :: ap => some (s.chars, ap)
  | _ => none

/-- The text of a piece, if the arguments match it, and the arguments left. -/
def Piece.text : Piece → List Arg → Option (List Byte × List Arg)
  | .char c, ap => some ([c], ap)
  | .directive longs kind, ap =>
    if kind = ch 'd' then numberPiece (fun v => numberText 10 (signedArg longs v).toInt) ap
    else if kind = ch 'u' then numberPiece (fun v => numberText 10 (unsignedArg longs v).toNat) ap
    else if kind = ch 'x' then numberPiece (fun v => numberText 16 (unsignedArg longs v).toNat) ap
    else if kind = ch 'p' then numberPiece (fun v => [ch '0', ch 'x'] ++ numberText 16 v.toNat) ap
    else if kind = ch 'c' then numberPiece (fun v => [v.setWidth 8]) ap
    else if kind = ch 's' then stringPiece ap
    else if kind = ch '%' then some ([ch '%'], ap)
    else some ([ch '%', kind], ap)

/-- The text of the pieces, if the arguments match them. -/
def render : List Piece → List Arg → Option (List Byte)
  | [], _ => some []
  | piece :: rest, ap =>
    (piece.text ap).bind fun got => (render rest got.2).map fun more => got.1 ++ more

section

variable {out : List Byte}

/-- A directive for a number takes one word from the arguments. -/
theorem numberPiece_some {text : BitVec 64 → List Byte} {ap rest : List Arg} {chars : List Byte}
    (matching : numberPiece text ap = some (chars, rest)) :
    ∃ value, ap = .word value :: rest ∧ chars = text value := by
  cases ap with
  | nil => cases matching
  | cons arg more =>
    cases arg with
    | word value =>
      obtain ⟨rfl, rfl⟩ := Prod.mk.inj (Option.some.inj matching)
      exact ⟨value, rfl, rfl⟩
    | text s => cases matching

/-- A directive for a string takes one text from the arguments. -/
theorem stringPiece_some {ap rest : List Arg} {chars : List Byte}
    (matching : stringPiece ap = some (chars, rest)) :
    ∃ s, ap = .text s :: rest ∧ chars = s.chars := by
  cases ap with
  | nil => cases matching
  | cons arg more =>
    cases arg with
    | word value => cases matching
    | text s =>
      obtain ⟨rfl, rfl⟩ := Prod.mk.inj (Option.some.inj matching)
      exact ⟨s, rfl, rfl⟩

variable (out) in
/-- A conversion puts out the text of its piece and counts it. -/
theorem convert_spec {kind : Byte} {longs : Nat} {ap rest : List Arg} {chars : List Byte}
    (matching : (Piece.directive longs kind).text ap = some (chars, rest)) :
    wp (convert kind longs ap) (fun result after =>
      result = (chars.length, rest) ∧ after = out ++ chars) out := by
  rw [Piece.text] at matching
  rw [convert]
  split at matching
  · rename_i isKind
    obtain ⟨value, rfl, rfl⟩ := numberPiece_some matching
    rw [if_pos isKind, vaWord, wp_bind, wp_pure, wp_bind]
    apply wp_mono (printnum_text ⟨Or.inl rfl, rfl, rfl⟩)
    rintro cnt after ⟨rfl, rfl⟩
    exact wp_pure.mpr ⟨rfl, rfl⟩
  rename_i notSigned
  rw [if_neg notSigned]
  split at matching
  · rename_i isKind
    obtain ⟨value, rfl, rfl⟩ := numberPiece_some matching
    rw [if_pos isKind, vaWord, wp_bind, wp_pure, wp_bind]
    apply wp_mono (printnum_text ⟨Or.inl rfl, rfl, rfl⟩)
    rintro cnt after ⟨rfl, rfl⟩
    exact wp_pure.mpr ⟨rfl, rfl⟩
  rename_i notUnsigned
  rw [if_neg notUnsigned]
  split at matching
  · rename_i isKind
    obtain ⟨value, rfl, rfl⟩ := numberPiece_some matching
    rw [if_pos isKind, vaWord, wp_bind, wp_pure, wp_bind]
    apply wp_mono (printnum_text ⟨Or.inr rfl, rfl, rfl⟩)
    rintro cnt after ⟨rfl, rfl⟩
    exact wp_pure.mpr ⟨rfl, rfl⟩
  rename_i notHex
  rw [if_neg notHex]
  split at matching
  · rename_i isKind
    obtain ⟨value, rfl, rfl⟩ := numberPiece_some matching
    rw [if_pos isKind, vaWord, wp_bind, wp_pure, wp_bind, wp_printstr, wp_bind]
    apply wp_mono (printnum_text ⟨Or.inr rfl, rfl, rfl⟩)
    rintro cnt after ⟨rfl, rfl⟩
    refine wp_pure.mpr ⟨?_, List.append_assoc ..⟩
    rw [List.length_append]
    rfl
  rename_i notPointer
  rw [if_neg notPointer]
  split at matching
  · rename_i isKind
    obtain ⟨value, rfl, rfl⟩ := numberPiece_some matching
    rw [if_pos isKind, vaWord, wp_bind, wp_pure, wp_bind, wp_uartPutc]
    exact wp_pure.mpr ⟨rfl, rfl⟩
  rename_i notChar
  rw [if_neg notChar]
  split at matching
  · rename_i isKind
    obtain ⟨s, rfl, rfl⟩ := stringPiece_some matching
    rw [if_pos isKind, vaText, wp_bind, wp_pure, wp_bind, wp_printstr]
    exact wp_pure.mpr ⟨rfl, rfl⟩
  rename_i notString
  rw [if_neg notString]
  split at matching
  · rename_i isKind
    obtain ⟨rfl, rfl⟩ := Prod.mk.inj (Option.some.inj matching)
    rw [if_pos isKind, wp_bind, wp_uartPutc]
    exact wp_pure.mpr ⟨rfl, rfl⟩
  · rename_i notPercent
    obtain ⟨rfl, rfl⟩ := Prod.mk.inj (Option.some.inj matching)
    rw [if_neg notPercent, wp_bind, wp_uartPutc, wp_bind, wp_uartPutc]
    refine wp_pure.mpr ⟨rfl, ?_⟩
    rw [List.append_assoc]
    rfl

/-! ## The cursor -/

/-- The character at the cursor, which stands in front of `rest`. -/
theorem wp_charAt (front rest : List Byte) {post : Byte → List Byte → Prop} :
    wp (charAt (front ++ rest) front.length) post out ↔ post (rest.headD 0) out := by
  cases rest with
  | nil =>
    rw [List.append_nil, charAt, if_neg (Nat.lt_irrefl _), if_pos rfl, wp_pure]
    rfl
  | cons c more =>
    have inside : front.length < (front ++ c :: more).length := by simp
    rw [charAt, if_pos inside, wp_pure, List.getD_append_right _ _ _ _ (Nat.le_refl _), Nat.sub_self]
    rfl

/-- Behind the NUL there is nothing to read. -/
theorem wp_charAt_behind (fmt : List Byte) {post : Byte → List Byte → Prop} :
    wp (charAt fmt (fmt.length + 1)) post out ↔ False := by
  rw [charAt, if_neg (by omega), if_neg (by omega), wp_throw]

/-- The pieces from a directive on, whose modifiers were read. -/
def scanDirective (longs : Nat) : List Byte → List Piece × Ending
  | [] => ([], .modifier)
  | c :: rest => (.directive longs c :: (scan none rest).1, (scan none rest).2)

variable (out) in
/-- The modifiers behind a `%`. What follows them is taken for the directive. -/
theorem lengthFlags_spec (front rest : List Byte) (nonempty : rest ≠ []) :
    ∃ taken more, rest = taken ++ more ∧ scan (some 0) rest = scanDirective taken.length more ∧
      wp (lengthFlags (front ++ rest) front.length) (fun flags after =>
        flags = (taken.length, front.length + taken.length) ∧ after = out) out := by
  obtain ⟨c, rest, rfl⟩ := List.exists_cons_of_ne_nil nonempty
  by_cases first : c = ch 'l'
  · subst first
    have next : front ++ ch 'l' :: rest = (front ++ [ch 'l']) ++ rest := by simp
    have place : front.length + 1 = (front ++ [ch 'l']).length := by simp
    by_cases second : rest.headD 0 = ch 'l'
    · obtain ⟨more, rfl⟩ : ∃ more, rest = ch 'l' :: more := by
        cases rest with
        | nil => exact absurd second (by decide)
        | cons d more => exact ⟨more, congrArg (· :: more) second⟩
      refine ⟨[ch 'l', ch 'l'], more, rfl, ?_, ?_⟩
      · cases more with
        | nil => rfl
        | cons k tail => simp [scan, scanDirective]
      · rw [lengthFlags, wp_bind, wp_charAt, List.headD_cons, if_pos rfl, next, place, wp_bind,
          wp_charAt, if_pos second, wp_pure]
        exact ⟨rfl, rfl⟩
    · refine ⟨[ch 'l'], rest, rfl, ?_, ?_⟩
      · cases rest with
        | nil => rfl
        | cons d more =>
          have other : d ≠ ch 'l' := second
          simp [scan, scanDirective, other]
      · rw [lengthFlags, wp_bind, wp_charAt, List.headD_cons, if_pos rfl, next, place, wp_bind,
          wp_charAt, if_neg second, wp_pure]
        exact ⟨by simp, rfl⟩
  · refine ⟨[], c :: rest, rfl, ?_, ?_⟩
    · simp [scan, scanDirective, first]
    · rw [lengthFlags, wp_bind, wp_charAt, List.headD_cons, if_neg first, wp_pure]
      exact ⟨rfl, rfl⟩

/-! ## The loop -/

/-- What the end of a format leads to: the return of the count, behind one more character,
or no return. -/
def Ending.outcome (post : BitVec 32 → List Byte → Prop) (cnt : BitVec 32) (out : List Byte) :
    Ending → Prop
  | .whole => post cnt out
  | .percent => post cnt (out ++ [ch '%'])
  | .modifier => False

theorem render_cons {piece : Piece} {rest : List Piece} {ap : List Arg} {text : List Byte}
    (matching : render (piece :: rest) ap = some text) : ∃ chars left more,
      piece.text ap = some (chars, left) ∧ render rest left = some more ∧ text = chars ++ more := by
  obtain ⟨⟨chars, left⟩, isText, later⟩ := Option.bind_eq_some_iff.mp matching
  obtain ⟨more, isMore, rfl⟩ := Option.map_eq_some_iff.mp later
  exact ⟨chars, left, more, isText, isMore, rfl⟩

variable (out) in
/-- From the cursor on, the loop puts out the text of the pieces and counts it. -/
theorem wp_vprintfFrom (post : BitVec 32 → List Byte → Prop) (front rest : List Byte) (passes : Nat)
    (ap : List Arg) (cnt : BitVec 32) (text : List Byte) (noNul : 0 ∉ rest)
    (enough : rest.length < passes) (matching : render (scan none rest).1 ap = some text) :
    wp (vprintfFrom (front ++ rest) passes front.length ap cnt) post out ↔
      (scan none rest).2.outcome post (cnt + BitVec.ofNat 32 text.length) (out ++ text) := by
  induction passes generalizing front rest ap cnt text out with
  | zero => exact absurd enough (Nat.not_lt_zero _)
  | succ passes inductionHypothesis =>
    rw [vprintfFrom, wp_bind, wp_charAt]
    cases rest with
    | nil =>
      obtain rfl := Option.some.inj matching
      rw [List.headD_nil, if_pos rfl, wp_pure]
      simp [scan, Ending.outcome]
    | cons c rest =>
      have notNul : c ≠ 0 := fun zero => noNul (zero ▸ List.mem_cons_self ..)
      have later : 0 ∉ rest := fun member => noNul (List.mem_cons_of_mem _ member)
      have next : front ++ c :: rest = (front ++ [c]) ++ rest := by simp
      have place : front.length + 1 = (front ++ [c]).length := by simp
      rw [List.length_cons] at enough
      rw [List.headD_cons, if_neg notNul]
      by_cases percent : c = ch '%'
      · subst percent
        rw [scan, if_pos rfl] at matching
        rw [if_neg (fun differs => differs rfl), next, place, wp_bind, wp_charAt, scan, if_pos rfl]
        by_cases last : rest = []
        · subst last
          obtain rfl := Option.some.inj matching
          rw [List.headD_nil, if_pos rfl, wp_bind, wp_uartPutc, wp_pure]
          simp [scan, Ending.outcome]
        obtain ⟨taken, more, isRest, scanned, flags⟩ := lengthFlags_spec out
          (front ++ [ch '%']) rest last
        obtain ⟨got, _, returned, rfl, isOut⟩ := flags
        rw [isOut] at returned
        have headNotNul : rest.headD 0 ≠ 0 := by
          obtain ⟨d, tail, rfl⟩ := List.exists_cons_of_ne_nil last
          exact fun zero => later (zero ▸ List.mem_cons_self ..)
        rw [if_neg headNotNul, wp_bind, returned.wp_iff, scanned]
        rw [scanned] at matching
        have behind : (front ++ [ch '%']) ++ rest = (front ++ [ch '%'] ++ taken) ++ more := by
          rw [isRest, List.append_assoc, List.append_assoc, List.append_assoc]
        have cursor : (front ++ [ch '%']).length + taken.length =
            (front ++ [ch '%'] ++ taken).length := List.length_append.symm
        simp only
        rw [behind, cursor, wp_bind, wp_charAt]
        cases more with
        | nil =>
          -- The NUL is taken for the directive, and the cursor leaves the format.
          have isText : (Piece.directive taken.length 0).text ap = some ([ch '%', 0], ap) := rfl
          obtain ⟨result, after, converted, rfl, rfl⟩ := convert_spec out isText
          rw [List.headD_nil, wp_bind, converted.wp_iff, List.append_nil]
          cases passes with
          | zero => rw [vprintfFrom, wp_throw]; rfl
          | succ passes =>
            rw [vprintfFrom, wp_bind, wp_charAt_behind]
            rfl
        | cons kind tail =>
          obtain ⟨chars, left, moreText, isText, isMore, rfl⟩ := render_cons matching
          obtain ⟨result, after, converted, rfl, rfl⟩ := convert_spec out isText
          rw [List.headD_cons, wp_bind, converted.wp_iff]
          have step : (front ++ [ch '%'] ++ taken) ++ kind :: tail =
              (front ++ [ch '%'] ++ taken ++ [kind]) ++ tail := by simp
          have stepPlace : (front ++ [ch '%'] ++ taken).length + 1 =
              (front ++ [ch '%'] ++ taken ++ [kind]).length := by
            simp only [List.length_append, List.length_singleton]
          have shorter : tail.length < passes := by
            rw [isRest, List.length_append, List.length_cons] at enough
            omega
          have tailNotNul : 0 ∉ tail := by
            intro member
            apply later
            rw [isRest]
            exact List.mem_append_right _ (List.mem_cons_of_mem _ member)
          simp only
          rw [step, stepPlace, inductionHypothesis _ _ tail left _ moreText tailNotNul shorter isMore,
            scanDirective, List.append_assoc, List.length_append, BitVec.ofNat_add, BitVec.add_assoc]
      · rw [scan, if_neg percent] at matching
        obtain ⟨chars, left, moreText, isText, isMore, rfl⟩ := render_cons matching
        obtain ⟨rfl, rfl⟩ := Prod.mk.inj (Option.some.inj isText)
        rw [if_pos percent, wp_bind, wp_uartPutc, next, place,
          inductionHypothesis _ _ rest ap _ moreText later (by omega) isMore, scan, if_neg percent,
          List.append_assoc, List.length_append, BitVec.ofNat_add, BitVec.add_assoc]
        rfl

end

/-- The format is not left and the count is right, when the NUL stands outside of a
directive and the text has fewer than 2^31 characters, and only then. -/
theorem vprintf_counts_iff (fmt : List Byte) (ap : List Arg) (text out : List Byte)
    (noNul : 0 ∉ fmt) (matching : render (scan none fmt).1 ap = some text) :
    wp (vprintf fmt ap) (fun cnt after => ∃ chars, after = out ++ chars ∧
      cnt.toInt = chars.length) out ↔ (scan none fmt).2 = .whole ∧ text.length < 2 ^ 31 := by
  have ends := wp_vprintfFrom out (fun cnt after => ∃ chars, after = out ++ chars ∧
    cnt.toInt = chars.length) [] fmt (fmt.length + 2) ap 0 text noNul (by omega) matching
  rw [List.nil_append, List.length_nil, zero_add] at ends
  rw [vprintf, ends]
  have wrapped : (BitVec.ofNat 32 text.length).toInt =
      if text.length % 2 ^ 32 < 2 ^ 31 then ((text.length % 2 ^ 32 : Nat) : Int)
      else ((text.length % 2 ^ 32 : Nat) : Int) - 2 ^ 32 := by
    rw [BitVec.toInt_eq_toNat_cond, BitVec.toNat_ofNat]
    split <;> split <;> omega
  cases (scan none fmt).2 with
  | whole =>
    simp only [Ending.outcome, List.append_cancel_left_eq, exists_eq_left', true_and]
    rw [wrapped]
    split <;> omega
  | percent =>
    simp only [Ending.outcome, List.append_assoc, List.append_cancel_left_eq, exists_eq_left',
      List.length_append, List.length_singleton, reduceCtorEq, false_and, iff_false]
    rw [wrapped]
    split <;> omega
  | modifier => simp [Ending.outcome]

/-- A format with a number and a string. -/
theorem number_and_string_counted : wp (vprintf [ch '%', ch 'd', ch ':', ch '%', ch 's']
      [.word 42, .text (some [ch 'o', ch 'k'])])
    (fun cnt after => ∃ chars, after = [] ++ chars ∧ cnt.toInt = chars.length) [] :=
  (vprintf_counts_iff _ _ (numberText 10 42 ++ ([ch ':'] ++ ([ch 'o', ch 'k'] ++ []))) []
    (by decide) rfl).mpr ⟨by decide, by simp [numberText, numeral]⟩

/-- The format `%l`: the cursor goes past its NUL. -/
theorem modifier_leaves_format : ¬ ∀ (fmt : List Byte) (ap : List Arg) (text out : List Byte),
    0 ∉ fmt → render (scan none fmt).1 ap = some text →
    wp (vprintf fmt ap) (fun cnt after => ∃ chars, after = out ++ chars ∧
      cnt.toInt = chars.length) out := by
  intro always
  obtain ⟨cnt, after, returned, -⟩ := always [ch '%', ch 'l'] [] [] [] (by decide) rfl
  have faults : vprintf [ch '%', ch 'l'] [] [] = .error .badAccess := rfl
  rw [Returns, faults] at returned
  cases returned

end CuteCore.Console

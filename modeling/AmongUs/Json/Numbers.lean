import AmongUs.Json.Lexer
import Mathlib.Tactic.IntervalCases

/-!
How the serializer writes a number, and how the lexer reads it back.

`dump_integer` counts the digits first and then fills its buffer from that
end, two digits at a time. The lexer reads on as long as a label takes the
byte, so a number is only read back where no label takes what follows it.
The text of a floating point number is a parameter, and `RoundTrips` is what
is known of it: it is the text of a floating point number, and it is that
number.
-/

namespace AmongUs.Json

open Lexer

namespace Serializer

/-- An entry of `digits_to_99`. -/
def digitsTo99 (n : ℕ) : List UInt8 := [UInt8.ofNat (0x30 + n / 10), UInt8.ofNat (0x30 + n % 10)]

def countDigitsFrom (x nDigits : ℕ) : ℕ :=
  if x < 10 then nDigits
  else if x < 100 then nDigits + 1
  else if x < 1000 then nDigits + 2
  else if x < 10000 then nDigits + 3
  else countDigitsFrom (x / 10000) (nDigits + 4)

def countDigits (x : ℕ) : ℕ := countDigitsFrom x 1

/-- Fills the buffer backwards; `written` is what is already in it. -/
def dumpDigits (absValue : ℕ) (written : List UInt8) : List UInt8 :=
  if 100 ≤ absValue then
    dumpDigits (absValue / 100) (digitsTo99 (absValue % 100) ++ written)
  else if 10 ≤ absValue then digitsTo99 absValue ++ written
  else UInt8.ofNat (0x30 + absValue) :: written

/-- An integer with or without a sign. -/
def dumpInteger (x : ℤ) : List UInt8 :=
  if x = 0 then [0x30]
  else if x < 0 then 0x2D :: dumpDigits x.natAbs []
  else dumpDigits x.natAbs []

/-! ### The digits -/

theorem isDigit_ofNat {n : ℕ} (h : n < 10) : isDigit (UInt8.ofNat (0x30 + n)) = true := by
  interval_cases n <;> decide

theorem toNat_ofNat_digit {n : ℕ} (h : n < 10) : (UInt8.ofNat (0x30 + n)).toNat - 0x30 = n := by
  rw [UInt8.toNat_ofNat', Nat.mod_eq_of_lt (by omega)]
  omega

theorem isDigit_digitsTo99 {n : ℕ} (h : n < 100) : ∀ d ∈ digitsTo99 n, isDigit d = true := by
  intro d hd
  simp only [digitsTo99, List.mem_cons, List.not_mem_nil, or_false] at hd
  rcases hd with rfl | rfl
  · exact isDigit_ofNat (by omega)
  · exact isDigit_ofNat (by omega)

theorem dumpDigits_append (n : ℕ) (written : List UInt8) :
    dumpDigits n written = dumpDigits n [] ++ written := by
  induction n using Nat.strong_induction_on generalizing written with
  | _ n ih =>
      rw [dumpDigits.eq_def n written, dumpDigits.eq_def n []]
      split
      · rw [ih (n / 100) (by omega), ih (n / 100) (by omega) (_ ++ []), List.append_nil,
          List.append_assoc]
      split
      · rw [List.append_nil]
      · rfl

/-- The last two digits and those before. -/
theorem dumpDigits_of_ge {n : ℕ} (h : 100 ≤ n) :
    dumpDigits n [] = dumpDigits (n / 100) [] ++ digitsTo99 (n % 100) := by
  rw [dumpDigits, if_pos h, List.append_nil, dumpDigits_append]

theorem isDigit_dumpDigits (n : ℕ) : ∀ d ∈ dumpDigits n [], isDigit d = true := by
  induction n using Nat.strong_induction_on with
  | _ n ih =>
      by_cases h : 100 ≤ n
      · rw [dumpDigits_of_ge h]
        intro d hd
        rcases List.mem_append.mp hd with hd | hd
        · exact ih (n / 100) (by omega) d hd
        · exact isDigit_digitsTo99 (by omega) d hd
      · rw [dumpDigits, if_neg h]
        split
        · rw [List.append_nil]
          exact isDigit_digitsTo99 (by omega)
        · intro d hd
          rw [List.mem_singleton.mp hd]
          exact isDigit_ofNat (by omega)

theorem decimal_append_digitsTo99 (digits : List UInt8) {n : ℕ} (h : n < 100) :
    decimal (digits ++ digitsTo99 n) = decimal digits * 100 + n := by
  rw [decimal, List.foldl_append, ← decimal, digitsTo99, List.foldl_cons, List.foldl_cons,
    List.foldl_nil, toNat_ofNat_digit (by omega), toNat_ofNat_digit (by omega)]
  omega

/-- The digits are those of the number. -/
theorem decimal_dumpDigits (n : ℕ) : decimal (dumpDigits n []) = n := by
  induction n using Nat.strong_induction_on with
  | _ n ih =>
      by_cases h : 100 ≤ n
      · rw [dumpDigits_of_ge h, decimal_append_digitsTo99 _ (by omega), ih (n / 100) (by omega)]
        omega
      · rw [dumpDigits, if_neg h]
        split
        · have htwo := decimal_append_digitsTo99 [] (n := n) (by omega)
          rw [List.nil_append] at htwo
          rw [List.append_nil, htwo]
          simp [decimal]
        · rw [decimal, List.foldl_cons, List.foldl_nil, toNat_ofNat_digit (by omega)]
          omega

/-- There is no leading zero. -/
theorem head_dumpDigits {n : ℕ} (h : 0 < n) :
    ∃ d ds, dumpDigits n [] = d :: ds ∧ d ≠ 0x30 := by
  induction n using Nat.strong_induction_on with
  | _ n ih =>
      have hne {m : ℕ} (hm : 0 < m) (hm' : m < 10) : UInt8.ofNat (0x30 + m) ≠ 0x30 := by
        interval_cases m <;> decide
      by_cases h100 : 100 ≤ n
      · obtain ⟨d, ds, hd, hne⟩ := ih (n / 100) (by omega) (by omega)
        exact ⟨d, _, by rw [dumpDigits_of_ge h100, hd, List.cons_append], hne⟩
      · rw [dumpDigits, if_neg h100]
        split
        · exact ⟨_, _, rfl, hne (by omega) (by omega)⟩
        · exact ⟨_, _, rfl, hne (by omega) (by omega)⟩

theorem countDigitsFrom_add (x n m : ℕ) :
    countDigitsFrom x (n + m) = countDigitsFrom x n + m := by
  induction x using Nat.strong_induction_on generalizing n with
  | _ x ih =>
      rw [countDigitsFrom, countDigitsFrom.eq_def x n]
      split_ifs
      · rfl
      · omega
      · omega
      · omega
      · rw [show n + m + 4 = n + 4 + m by omega, ih (x / 10000) (by omega)]

theorem length_digitsTo99 (n : ℕ) : (digitsTo99 n).length = 2 := rfl

/-- As many digits are written as were counted. -/
theorem length_dumpDigits (n : ℕ) : (dumpDigits n []).length = countDigits n := by
  have hsmall {m : ℕ} (hm : m < 100) :
      (dumpDigits m []).length = if m < 10 then 1 else 2 := by
    rw [dumpDigits, if_neg (by omega)]
    split_ifs
    · omega
    · rfl
    · rfl
    · omega
  induction n using Nat.strong_induction_on with
  | _ n ih =>
      by_cases h : 100 ≤ n
      · rw [dumpDigits_of_ge h, List.length_append]
        by_cases h' : 10000 ≤ n
        · rw [dumpDigits_of_ge (show 100 ≤ n / 100 by omega), List.length_append,
            Nat.div_div_eq_div_mul, ih (n / 10000) (by omega), countDigits, countDigits,
            countDigitsFrom.eq_def n, if_neg (by omega), if_neg (by omega), if_neg (by omega),
            if_neg (by omega), countDigitsFrom_add]
          rfl
        · rw [hsmall (by omega), length_digitsTo99, countDigits, countDigitsFrom.eq_def n]
          split_ifs <;> omega
      · rw [hsmall (by omega), countDigits, countDigitsFrom.eq_def n]
        split_ifs <;> omega

end Serializer

namespace Lexer

/-! ### The end of a number -/

/-- No label takes the byte that follows. -/
def EndsNumber (rest : List UInt8) : Prop :=
  ∀ b ∈ rest.head?, ∀ state, NumberState.next state b = none

theorem endsNumber_nil : EndsNumber [] := fun b hb => by cases hb

theorem endsNumber_cons {b : UInt8} (rest : List UInt8)
    (h : ∀ state, NumberState.next state b = none) : EndsNumber (b :: rest) := by
  intro c hc
  obtain rfl := Option.some.inj hc
  exact h

/-- A number that takes a whole text is read in front of what ends it. -/
theorem scanNumberFrom_append {state : NumberState} {type type' : NumberType}
    {tokenBuffer text buffer rest : List UInt8}
    (h : scanNumberFrom state type tokenBuffer text = some (type', buffer, []))
    (hrest : EndsNumber rest) :
    scanNumberFrom state type tokenBuffer (text ++ rest) = some (type', buffer, rest) := by
  induction text generalizing state type tokenBuffer with
  | nil =>
      rw [scanNumberFrom, Option.ite_none_right_eq_some, Option.some.injEq, Prod.mk.injEq,
        Prod.mk.injEq] at h
      obtain ⟨hdone, rfl, rfl, -⟩ := h
      cases rest with
      | nil => rw [List.append_nil, scanNumberFrom, if_pos hdone]
      | cons b rest =>
          rw [List.nil_append, scanNumberFrom, hrest b rfl state]
          exact if_pos hdone
  | cons current text ih =>
      rw [scanNumberFrom] at h
      rw [List.cons_append, scanNumberFrom]
      split at h
      · exact ih h
      · split at h
        · simp at h
        · cases h

theorem next_any1 {b : UInt8} (h : isDigit b = true) : NumberState.next .any1 b = some .any1 := by
  simp [NumberState.next, h]

theorem scanNumberFrom_digits {type : NumberType} {tokenBuffer digits : List UInt8}
    (h : ∀ d ∈ digits, isDigit d = true) :
    scanNumberFrom .any1 type tokenBuffer digits = some (type, tokenBuffer ++ digits, []) := by
  induction digits generalizing tokenBuffer with
  | nil => rw [scanNumberFrom, List.append_nil]; rfl
  | cons d digits ih =>
      rw [scanNumberFrom, next_any1 (h d List.mem_cons_self)]
      dsimp only
      rw [NumberState.numberType, ih fun d hd => h d (List.mem_cons_of_mem _ hd),
        List.append_assoc]
      rfl

end Lexer

/-- What is known of the text of a floating point number. -/
structure FloatText.RoundTrips (Φ : FloatText) (x : ℚ) : Prop where
  isFloat : ∃ first text, Φ.dumpFloat x = first :: text ∧
    (first = 0x2D ∨ isDigit first = true) ∧
    numberText first text = some (.float, Φ.dumpFloat x, [])
  value : Φ.strtof (Φ.dumpFloat x) = some x

/-- The token of an integer. -/
def integerToken (x : ℤ) : Token := if x < 0 then .valueInteger x else .valueUnsigned x.toNat

namespace Serializer

/-- The integers that the library holds, signed or unsigned. -/
def InRange (x : ℤ) : Prop := -2 ^ 63 ≤ x ∧ x < 2 ^ 64

theorem numberText_positive {n : ℕ} (h : 0 < n) :
    ∃ d ds, dumpDigits n [] = d :: ds ∧ isDigit d = true ∧
      numberText d ds = some (.unsigned, d :: ds, []) := by
  obtain ⟨d, ds, hd, hne⟩ := head_dumpDigits h
  have hdigits := isDigit_dumpDigits n
  rw [hd] at hdigits
  have hdigit := hdigits d List.mem_cons_self
  have hsign : d ≠ 0x2D := by
    rintro rfl
    cases hdigit
  refine ⟨d, ds, hd, hdigit, ?_⟩
  rw [numberText, NumberState.start, if_neg hsign, if_neg hne, NumberState.numberType,
    scanNumberFrom_digits fun d hd => hdigits d (List.mem_cons_of_mem _ hd)]
  rfl

theorem numberText_negative {n : ℕ} (h : 0 < n) :
    numberText 0x2D (dumpDigits n []) = some (.integer, 0x2D :: dumpDigits n [], []) := by
  obtain ⟨d, ds, hd, hne⟩ := head_dumpDigits h
  have hdigits := isDigit_dumpDigits n
  rw [hd] at hdigits ⊢
  have hnext : NumberState.next .minus d = some .any1 := by
    rw [NumberState.next, if_neg hne, if_pos (hdigits d List.mem_cons_self)]
  rw [numberText, NumberState.start, if_pos rfl, NumberState.numberType, scanNumberFrom, hnext]
  dsimp only
  rw [NumberState.numberType,
    scanNumberFrom_digits fun d hd => hdigits d (List.mem_cons_of_mem _ hd)]
  rfl

/-- A number in front of what ends it. -/
theorem scan_number {Φ : FloatText} {first : UInt8} {text buffer rest : List UInt8}
    {type : NumberType} (hfirst : first = 0x2D ∨ isDigit first = true)
    (h : numberText first text = some (type, buffer, [])) (hrest : EndsNumber rest) :
    scan Φ (first :: (text ++ rest)) = some (convertNumber Φ type buffer, rest) := by
  have hskip : skipWhitespace (first :: (text ++ rest)) = first :: (text ++ rest) := by
    apply List.dropWhile_cons_of_neg
    rw [isWhitespace, Bool.not_eq_true, decide_eq_false_iff_not]
    rintro (rfl | rfl | rfl | rfl) <;> simp [isDigit] at hfirst
  have htoken : scanToken Φ first (text ++ rest) = scanNumber Φ first (text ++ rest) := by
    rw [scanToken.eq_def]
    split
    case h_12 => exact if_pos hfirst
    all_goals simp [isDigit] at hfirst
  rw [scan, hskip]
  dsimp only
  rw [htoken, scanNumber, numberText, scanNumberFrom_append h hrest]
  rfl

theorem convertNumber_unsigned (Φ : FloatText) {tokenBuffer : List UInt8}
    (h : decimal tokenBuffer < 2 ^ 64) :
    convertNumber Φ .unsigned tokenBuffer = .valueUnsigned (decimal tokenBuffer) := by
  rw [convertNumber, strtoull, if_pos h]

theorem convertNumber_integer (Φ : FloatText) {sign : UInt8} {digits : List UInt8}
    (h : decimal digits ≤ 2 ^ 63) :
    convertNumber Φ .integer (sign :: digits) = .valueInteger (-decimal digits) := by
  rw [convertNumber, strtoll, List.tail_cons, if_pos h]

theorem scan_dumpInteger (Φ : FloatText) {x : ℤ} (hx : InRange x) {rest : List UInt8}
    (hrest : EndsNumber rest) :
    scan Φ (dumpInteger x ++ rest) = some (integerToken x, rest) := by
  obtain ⟨hlo, hhi⟩ := hx
  rw [dumpInteger]
  split
  · rename_i hzero
    subst hzero
    exact scan_number (Φ := Φ) (.inr rfl) (show numberText 0x30 [] = _ from rfl) hrest
  rename_i hzero
  have hpos : 0 < x.natAbs := Int.natAbs_pos.mpr hzero
  have hvalue := decimal_dumpDigits x.natAbs
  split
  · rename_i hneg
    rw [List.cons_append, scan_number (.inl rfl) (numberText_negative hpos) hrest,
      convertNumber_integer Φ (by omega), hvalue, integerToken, if_pos hneg]
    congr 3
    omega
  · rename_i hneg
    obtain ⟨d, ds, hd, hdigit, htext⟩ := numberText_positive hpos
    rw [hd] at hvalue ⊢
    rw [List.cons_append, scan_number (.inr hdigit) htext hrest,
      convertNumber_unsigned Φ (by omega), hvalue, integerToken, if_neg hneg]
    congr 3
    omega

theorem scan_dumpFloat {Φ : FloatText} {x : ℚ} (hx : Φ.RoundTrips x) {rest : List UInt8}
    (hrest : EndsNumber rest) :
    scan Φ (Φ.dumpFloat x ++ rest) = some (.valueFloat (some x), rest) := by
  obtain ⟨⟨first, text, htext, hfirst, hnumber⟩, hvalue⟩ := hx
  rw [htext, List.cons_append, scan_number hfirst hnumber hrest, convertNumber, hvalue]

end Serializer

end AmongUs.Json

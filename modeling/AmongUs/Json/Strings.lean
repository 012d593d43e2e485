import AmongUs.Json.Lexer
import Mathlib.Tactic.IntervalCases

/-!
What the lexer puts into `tokenBuffer` for a string.

Each iteration of `scan_string` adds one character, whether it stands there
as its bytes, as an escape or as a pair of surrogates, so the buffer is a
text whatever the input is.
-/

namespace AmongUs.Json.Lexer

open Utf8

theorem hexDigit_lt {current : UInt8} {n : ℕ} (h : hexDigit current = some n) : n < 16 := by
  rw [hexDigit] at h
  simp only [UInt8.le_iff_toNat_le, UInt8.reduceToNat] at h
  split at h
  · obtain rfl := Option.some.inj h
    omega
  split at h
  · obtain rfl := Option.some.inj h
    omega
  split at h
  · obtain rfl := Option.some.inj h
    omega
  · cases h

theorem getCodepoint_lt {input rest : List UInt8} {codepoint : ℕ}
    (h : getCodepoint input = some (codepoint, rest)) : codepoint < 0x10000 := by
  rw [getCodepoint.eq_def] at h
  split at h
  · simp only [Option.bind_eq_bind, Option.bind_eq_some_iff, Option.some.injEq,
      Prod.mk.injEq] at h
    obtain ⟨a, ha, b, hb, c, hc, d, hd, rfl, -⟩ := h
    have := hexDigit_lt ha
    have := hexDigit_lt hb
    have := hexDigit_lt hc
    have := hexDigit_lt hd
    simp only [Nat.shiftLeft_eq]
    omega
  · cases h

/-- A continuation byte. -/
theorem or_and_0x3F (n : ℕ) : 0x80 ||| n &&& 0x3F = n % 64 + 128 := by
  have hmod : n &&& 0x3F = n % 64 := Nat.and_two_pow_sub_one_eq_mod n 6
  rw [hmod, Nat.add_comm]
  exact (Nat.two_pow_add_eq_or_of_lt (i := 7) (by omega) 1).symm

theorem codepointBytes_eq (c : Char) :
    codepointBytes c.val.toNat = String.utf8EncodeChar c := by
  have hvalid : c.val.toNat < 0xD800 ∨ 0xDFFF < c.val.toNat ∧ c.val.toNat < 0x110000 := c.valid
  rw [codepointBytes, String.utf8EncodeChar]
  generalize c.val.toNat = v at hvalid
  simp only [or_and_0x3F, Nat.shiftRight_eq_div_pow, Nat.reducePow, Nat.lt_succ_iff]
  split
  · rfl
  split
  · have hlead : 0xC0 ||| v / 64 = v / 64 % 32 + 192 := by
      rw [Nat.mod_eq_of_lt (by omega), Nat.add_comm]
      exact (Nat.two_pow_add_eq_or_of_lt (i := 6) (by omega) 3).symm
    rw [hlead]
  split
  · have hlead : 0xE0 ||| v / 4096 = v / 4096 % 16 + 224 := by
      rw [Nat.mod_eq_of_lt (by omega), Nat.add_comm]
      exact (Nat.two_pow_add_eq_or_of_lt (i := 5) (by omega) 7).symm
    rw [hlead]
  · have hlead : 0xF0 ||| v / 262144 = v / 262144 % 8 + 240 := by
      rw [Nat.mod_eq_of_lt (by omega), Nat.add_comm]
      exact (Nat.two_pow_add_eq_or_of_lt (i := 4) (by omega) 15).symm
    rw [hlead]

theorem sequence_codepointBytes {n : ℕ} (h : n < 0xD800 ∨ 0xDFFF < n ∧ n < 0x110000) :
    Sequence (codepointBytes n) := by
  obtain ⟨c, rfl⟩ := exists_char h
  rw [codepointBytes_eq]
  exact sequence_utf8EncodeChar c

theorem sequence_scanUnicode {input bytes rest : List UInt8}
    (h : scanUnicode input = some (bytes, rest)) : Sequence bytes := by
  rw [scanUnicode, Option.bind_eq_bind, Option.bind_eq_some_iff] at h
  obtain ⟨⟨codepoint1, rest₁⟩, h₁, h⟩ := h
  have hlt := getCodepoint_lt h₁
  dsimp only at h
  split at h
  · split at h
    · rw [Option.bind_eq_some_iff] at h
      obtain ⟨⟨codepoint2, rest₂⟩, h₂, h⟩ := h
      dsimp only at h
      split at h
      · rename_i hlow
        simp only [Option.some.injEq, Prod.mk.injEq] at h
        obtain ⟨rfl, -⟩ := h
        apply sequence_codepointBytes
        rw [Nat.shiftLeft_eq]
        omega
      · cases h
    · cases h
  · split at h
    · cases h
    · simp only [Option.some.injEq, Prod.mk.injEq] at h
      obtain ⟨rfl, -⟩ := h
      exact sequence_codepointBytes (by omega)

theorem sequence_ascii {b : UInt8} (h : b ≤ 0x7F) : Sequence [b] :=
  .intro (by rw [trailing, if_pos h]) .nil

theorem sequence_scanEscape {input bytes rest : List UInt8}
    (h : scanEscape input = some (bytes, rest)) : Sequence bytes := by
  rw [scanEscape.eq_def] at h
  split at h
  case h_9 => exact sequence_scanUnicode h
  case h_10 => cases h
  all_goals
    simp only [Option.some.injEq, Prod.mk.injEq] at h
    rw [← h.1]
    exact sequence_ascii (by decide)

/-- What one iteration adds is one character. -/
theorem sequence_scanChar {input bytes rest : List UInt8}
    (h : scanChar input = some (some bytes, rest)) : Sequence bytes := by
  cases input with
  | nil => cases h
  | cons current input =>
      rw [scanChar] at h
      split at h
      · cases h
      split at h
      · rw [Option.map_eq_some_iff] at h
        obtain ⟨⟨bytes', rest'⟩, hescape, h⟩ := h
        simp only [Prod.mk.injEq, Option.some.injEq] at h
        rw [← h.1]
        exact sequence_scanEscape hescape
      split at h
      · cases h
      split at h
      · rename_i ranges htrailing
        rw [Option.map_eq_some_iff] at h
        obtain ⟨⟨bytes', rest'⟩, hbytes, h⟩ := h
        simp only [Prod.mk.injEq, Option.some.injEq] at h
        rw [← h.1]
        exact .intro htrailing (nextByteInRange_eq_some hbytes).2
      · cases h

theorem wellFormed_scanString {tokenBuffer input s rest : List UInt8}
    (h : scanString tokenBuffer input = some (s, rest)) (hbuffer : WellFormed tokenBuffer) :
    WellFormed s := by
  induction tokenBuffer, input using scanString.induct with
  | case1 tokenBuffer input hchar =>
      rw [scanString_fail hchar] at h
      cases h
  | case2 tokenBuffer input rest' hchar =>
      rw [scanString_quote hchar] at h
      simp only [Option.some.injEq, Prod.mk.injEq] at h
      rw [← h.1]
      exact hbuffer
  | case3 tokenBuffer input bytes rest' hchar ih =>
      rw [scanString_add hchar] at h
      exact ih h (hbuffer.append_wellFormed (.single (sequence_scanChar hchar)))

theorem scanLiteral_token {token token' : Token} {literal input rest : List UInt8}
    (h : scanLiteral token literal input = some (token', rest)) : token' = token := by
  induction literal generalizing input with
  | nil =>
      simp only [scanLiteral, Option.some.injEq, Prod.mk.injEq] at h
      exact h.1.symm
  | cons expected literal ih =>
      cases input with
      | nil => cases h
      | cons current input =>
          rw [scanLiteral] at h
          split at h
          · exact ih h
          · cases h

theorem convertNumber_ne_valueString (Φ : FloatText) (type : NumberType)
    (tokenBuffer s : List UInt8) : convertNumber Φ type tokenBuffer ≠ .valueString s := by
  cases type with
  | unsigned | integer =>
      rw [convertNumber]
      split <;> simp
  | float => simp [convertNumber]

/-- The buffer of a string token is a text. -/
theorem wellFormed_valueString {Φ : FloatText} {input s rest : List UInt8}
    (h : scan Φ input = some (.valueString s, rest)) : WellFormed s := by
  rw [scan] at h
  split at h
  · cases h
  rw [scanToken.eq_def] at h
  split at h
  case h_7 | h_8 | h_9 => cases scanLiteral_token h
  case h_10 =>
    rw [Option.map_eq_some_iff] at h
    obtain ⟨⟨s', rest'⟩, hstring, h⟩ := h
    simp only [Prod.mk.injEq, Token.valueString.injEq] at h
    rw [← h.1]
    exact wellFormed_scanString hstring .nil
  case h_12 =>
    split at h
    · rw [scanNumber, Option.map_eq_some_iff] at h
      obtain ⟨⟨type, buffer, rest'⟩, -, h⟩ := h
      simp only [Prod.mk.injEq] at h
      exact absurd h.1 (convertNumber_ne_valueString Φ type buffer s)
    · cases h
  all_goals cases h

end AmongUs.Json.Lexer

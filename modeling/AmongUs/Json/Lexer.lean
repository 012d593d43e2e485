import AmongUs.GameInstance
import AmongUs.Unicode.Utf8

/-!
The lexer of the JSON library.

It reads the bytes of a text, one token after the other. A parse error is
the absence of a token, and no token is read after one. The text of a string
is collected in `tokenBuffer`, whose bytes are well formed UTF-8 whatever the
input is. Comments are not ignored, and the conversions between a floating
point number and its text are parameters. The decimal point is that of the
C locale.
-/

namespace AmongUs.Json

open Utf8

/-- `dump_float` of a finite number, and `strtof`, which gives nothing where
the number is too large. -/
structure FloatText where
  dumpFloat : ℚ → List UInt8
  strtof : List UInt8 → Option ℚ

/-- `token_type`, with the value that belongs to it. -/
inductive Token
  | literalTrue
  | literalFalse
  | literalNull
  | valueString (s : List UInt8)
  | valueUnsigned (n : ℕ)
  | valueInteger (n : ℤ)
  | valueFloat (x : Option ℚ)
  | beginArray
  | beginObject
  | endArray
  | endObject
  | nameSeparator
  | valueSeparator
  | endOfInput
  deriving DecidableEq

namespace Lexer

/-! ### Strings -/

def hexDigit (current : UInt8) : Option ℕ :=
  if 0x30 ≤ current ∧ current ≤ 0x39 then some (current.toNat - 0x30)
  else if 0x41 ≤ current ∧ current ≤ 0x46 then some (current.toNat - 0x37)
  else if 0x61 ≤ current ∧ current ≤ 0x66 then some (current.toNat - 0x57)
  else none

/-- The four digits after `\u`. -/
def getCodepoint : List UInt8 → Option (ℕ × List UInt8)
  | a :: b :: c :: d :: rest => do
      let a ← hexDigit a
      let b ← hexDigit b
      let c ← hexDigit c
      let d ← hexDigit d
      some (a <<< 12 + b <<< 8 + c <<< 4 + d, rest)
  | _ => none

/-- Translates a code point into bytes. -/
def codepointBytes (codepoint : ℕ) : List UInt8 :=
  if codepoint < 0x80 then [UInt8.ofNat codepoint]
  else if codepoint ≤ 0x7FF then
    [UInt8.ofNat (0xC0 ||| codepoint >>> 6), UInt8.ofNat (0x80 ||| codepoint &&& 0x3F)]
  else if codepoint ≤ 0xFFFF then
    [UInt8.ofNat (0xE0 ||| codepoint >>> 12), UInt8.ofNat (0x80 ||| (codepoint >>> 6) &&& 0x3F),
      UInt8.ofNat (0x80 ||| codepoint &&& 0x3F)]
  else
    [UInt8.ofNat (0xF0 ||| codepoint >>> 18), UInt8.ofNat (0x80 ||| (codepoint >>> 12) &&& 0x3F),
      UInt8.ofNat (0x80 ||| (codepoint >>> 6) &&& 0x3F), UInt8.ofNat (0x80 ||| codepoint &&& 0x3F)]

/-- What follows `\u`: a code point, or a pair of surrogates. -/
def scanUnicode (input : List UInt8) : Option (List UInt8 × List UInt8) := do
  let (codepoint1, rest) ← getCodepoint input
  if 0xD800 ≤ codepoint1 ∧ codepoint1 ≤ 0xDBFF then
    match rest with
    | 0x5C :: 0x75 :: rest =>
        let (codepoint2, rest) ← getCodepoint rest
        if 0xDC00 ≤ codepoint2 ∧ codepoint2 ≤ 0xDFFF then
          some (codepointBytes (codepoint1 <<< 10 + codepoint2 - 0x35FDC00), rest)
        else none
    | _ => none
  else if 0xDC00 ≤ codepoint1 ∧ codepoint1 ≤ 0xDFFF then none
  else some (codepointBytes codepoint1, rest)

/-- What follows a backslash. -/
def scanEscape : List UInt8 → Option (List UInt8 × List UInt8)
  | 0x22 :: rest => some ([0x22], rest)
  | 0x5C :: rest => some ([0x5C], rest)
  | 0x2F :: rest => some ([0x2F], rest)
  | 0x62 :: rest => some ([0x08], rest)
  | 0x66 :: rest => some ([0x0C], rest)
  | 0x6E :: rest => some ([0x0A], rest)
  | 0x72 :: rest => some ([0x0D], rest)
  | 0x74 :: rest => some ([0x09], rest)
  | 0x75 :: rest => scanUnicode rest
  | _ => none

def nextByteInRange : List (UInt8 × UInt8) → List UInt8 → Option (List UInt8 × List UInt8)
  | [], input => some ([], input)
  | _ :: _, [] => none
  | range :: ranges, current :: rest =>
      if Within current range then
        (nextByteInRange ranges rest).map fun (bytes, rest) => (current :: bytes, rest)
      else none

/-- One iteration of `scan_string`. It adds bytes to the buffer, or it has
read the closing quote. -/
def scanChar : List UInt8 → Option (Option (List UInt8) × List UInt8)
  | [] => none
  | current :: rest =>
      if current = 0x22 then some (none, rest)
      else if current = 0x5C then
        (scanEscape rest).map fun (bytes, rest) => (some bytes, rest)
      else if current ≤ 0x1F then none
      else
        match trailing current with
        | some ranges =>
            (nextByteInRange ranges rest).map fun (bytes, rest) => (some (current :: bytes), rest)
        | none => none

theorem getCodepoint_length {input rest : List UInt8} {codepoint : ℕ}
    (h : getCodepoint input = some (codepoint, rest)) : rest.length < input.length := by
  rw [getCodepoint.eq_def] at h
  split at h
  · simp only [Option.bind_eq_bind, Option.bind_eq_some_iff, Option.some.injEq,
      Prod.mk.injEq] at h
    obtain ⟨_, _, _, _, _, _, _, _, _, rfl⟩ := h
    simp only [List.length_cons]
    omega
  · cases h

theorem scanUnicode_length {input bytes rest : List UInt8}
    (h : scanUnicode input = some (bytes, rest)) : rest.length < input.length := by
  rw [scanUnicode, Option.bind_eq_bind, Option.bind_eq_some_iff] at h
  obtain ⟨⟨codepoint1, rest₁⟩, h₁, h⟩ := h
  have hlt := getCodepoint_length h₁
  dsimp only at h
  split at h
  · split at h
    · rw [Option.bind_eq_some_iff] at h
      obtain ⟨⟨codepoint2, rest₂⟩, h₂, h⟩ := h
      have hlt₂ := getCodepoint_length h₂
      dsimp only at h
      split at h
      · simp only [Option.some.injEq, Prod.mk.injEq] at h
        obtain ⟨-, rfl⟩ := h
        simp only [List.length_cons] at hlt
        omega
      · cases h
    · cases h
  · split at h
    · cases h
    · simp only [Option.some.injEq, Prod.mk.injEq] at h
      obtain ⟨-, rfl⟩ := h
      exact hlt

theorem scanEscape_length {input bytes rest : List UInt8}
    (h : scanEscape input = some (bytes, rest)) : rest.length < input.length := by
  rw [scanEscape.eq_def] at h
  split at h
  case h_9 =>
    exact (scanUnicode_length h).trans (Nat.lt_succ_self _)
  case h_10 => cases h
  all_goals
    simp only [Option.some.injEq, Prod.mk.injEq] at h
    obtain ⟨-, rfl⟩ := h
    exact Nat.lt_succ_self _

theorem nextByteInRange_eq_some {ranges : List (UInt8 × UInt8)} {input bytes rest : List UInt8}
    (h : nextByteInRange ranges input = some (bytes, rest)) :
    input = bytes ++ rest ∧ List.Forall₂ Within bytes ranges := by
  induction ranges generalizing input bytes with
  | nil =>
      simp only [nextByteInRange, Option.some.injEq, Prod.mk.injEq] at h
      obtain ⟨rfl, rfl⟩ := h
      exact ⟨rfl, .nil⟩
  | cons range ranges ih =>
      cases input with
      | nil => cases h
      | cons current input =>
          rw [nextByteInRange] at h
          split at h
          · rename_i hwithin
            rw [Option.map_eq_some_iff] at h
            obtain ⟨⟨bytes', rest'⟩, hrest, h⟩ := h
            simp only [Prod.mk.injEq] at h
            obtain ⟨rfl, rfl⟩ := h
            obtain ⟨rfl, hbytes⟩ := ih hrest
            exact ⟨rfl, .cons hwithin hbytes⟩
          · cases h

theorem scanChar_length {input rest : List UInt8} {added : Option (List UInt8)}
    (h : scanChar input = some (added, rest)) : rest.length < input.length := by
  cases input with
  | nil => cases h
  | cons current input =>
      rw [scanChar] at h
      split at h
      · simp only [Option.some.injEq, Prod.mk.injEq] at h
        obtain ⟨-, rfl⟩ := h
        exact Nat.lt_succ_self _
      split at h
      · rw [Option.map_eq_some_iff] at h
        obtain ⟨⟨bytes, rest'⟩, hescape, h⟩ := h
        simp only [Prod.mk.injEq] at h
        obtain ⟨-, rfl⟩ := h
        exact (scanEscape_length hescape).trans (Nat.lt_succ_self _)
      split at h
      · cases h
      split at h
      · rw [Option.map_eq_some_iff] at h
        obtain ⟨⟨bytes, rest'⟩, hbytes, h⟩ := h
        simp only [Prod.mk.injEq] at h
        obtain ⟨-, rfl⟩ := h
        rw [(nextByteInRange_eq_some hbytes).1]
        simp only [List.length_cons, List.length_append]
        omega
      · cases h

/-- After the opening quote. -/
def scanString (tokenBuffer input : List UInt8) : Option (List UInt8 × List UInt8) :=
  match _ : scanChar input with
  | none => none
  | some (none, rest) => some (tokenBuffer, rest)
  | some (some bytes, rest) => scanString (tokenBuffer ++ bytes) rest
termination_by input.length
decreasing_by exact scanChar_length ‹_›

/-! ### Numbers -/

/-- The labels of `scan_number`. -/
inductive NumberState
  | minus
  | zero
  | any1
  | decimal1
  | decimal2
  | exponent
  | sign
  | any2
  deriving DecidableEq

inductive NumberType
  | unsigned
  | integer
  | float
  deriving DecidableEq

def isDigit (current : UInt8) : Bool := 0x30 ≤ current ∧ current ≤ 0x39

namespace NumberState

/-- The label that the switch jumps to, other than by its default. -/
def next : NumberState → UInt8 → Option NumberState
  | minus, current =>
      if current = 0x30 then some zero else if isDigit current then some any1 else none
  | zero, current =>
      if current = 0x2E then some decimal1
      else if current = 0x65 ∨ current = 0x45 then some exponent else none
  | any1, current =>
      if isDigit current then some any1
      else if current = 0x2E then some decimal1
      else if current = 0x65 ∨ current = 0x45 then some exponent else none
  | decimal1, current => if isDigit current then some decimal2 else none
  | decimal2, current =>
      if isDigit current then some decimal2
      else if current = 0x65 ∨ current = 0x45 then some exponent else none
  | exponent, current =>
      if current = 0x2B ∨ current = 0x2D then some sign
      else if isDigit current then some any2 else none
  | sign, current => if isDigit current then some any2 else none
  | any2, current => if isDigit current then some any2 else none

/-- Whether the default of the switch is `scan_number_done`. -/
def done : NumberState → Bool
  | zero | any1 | decimal2 | any2 => true
  | minus | decimal1 | exponent | sign => false

/-- `number_type` once the label is reached. -/
def numberType : NumberState → NumberType → NumberType
  | minus, _ => .integer
  | decimal1, _ | exponent, _ => .float
  | zero, type | any1, type | decimal2, type | sign, type | any2, type => type

end NumberState

/-- Reads on from a label. The byte after the number is read again. -/
def scanNumberFrom (state : NumberState) (type : NumberType) (tokenBuffer : List UInt8) :
    List UInt8 → Option (NumberType × List UInt8 × List UInt8)
  | [] => if state.done then some (type, tokenBuffer, []) else none
  | current :: rest =>
      match state.next current with
      | some state' =>
          scanNumberFrom state' (state'.numberType type) (tokenBuffer ++ [current]) rest
      | none => if state.done then some (type, tokenBuffer, current :: rest) else none

def decimal (digits : List UInt8) : ℕ :=
  digits.foldl (fun n digit => n * 10 + (digit.toNat - 0x30)) 0

/-- Fails with `ERANGE`. -/
def strtoull (tokenBuffer : List UInt8) : Option ℕ :=
  if decimal tokenBuffer < 2 ^ 64 then some (decimal tokenBuffer) else none

/-- Of a number with a minus sign; fails with `ERANGE`. -/
def strtoll (tokenBuffer : List UInt8) : Option ℤ :=
  if decimal tokenBuffer.tail ≤ 2 ^ 63 then some (-decimal tokenBuffer.tail) else none

/-- An integer that does not fit is a floating point number. -/
def convertNumber (Φ : FloatText) : NumberType → List UInt8 → Token
  | .unsigned, tokenBuffer =>
      match strtoull tokenBuffer with
      | some n => .valueUnsigned n
      | none => .valueFloat (Φ.strtof tokenBuffer)
  | .integer, tokenBuffer =>
      match strtoll tokenBuffer with
      | some n => .valueInteger n
      | none => .valueFloat (Φ.strtof tokenBuffer)
  | .float, tokenBuffer => .valueFloat (Φ.strtof tokenBuffer)

/-- The label that the first byte of a number leads to. -/
def NumberState.start (current : UInt8) : NumberState :=
  if current = 0x2D then minus else if current = 0x30 then zero else any1

/-- The text of a number that starts with `current`. -/
def numberText (current : UInt8) (rest : List UInt8) :
    Option (NumberType × List UInt8 × List UInt8) :=
  scanNumberFrom (.start current) ((NumberState.start current).numberType .unsigned) [current] rest

def scanNumber (Φ : FloatText) (current : UInt8) (rest : List UInt8) :
    Option (Token × List UInt8) :=
  (numberText current rest).map
    fun (type, tokenBuffer, rest) => (convertNumber Φ type tokenBuffer, rest)

/-! ### Tokens -/

/-- What is left of a literal. -/
def scanLiteral (token : Token) : List UInt8 → List UInt8 → Option (Token × List UInt8)
  | [], input => some (token, input)
  | _ :: _, [] => none
  | expected :: literal, current :: rest =>
      if current = expected then scanLiteral token literal rest else none

def isWhitespace (current : UInt8) : Bool :=
  current = 0x20 ∨ current = 0x09 ∨ current = 0x0A ∨ current = 0x0D

/-- The byte order mark at the beginning of the input. -/
def skipBom : List UInt8 → Option (List UInt8)
  | 0xEF :: 0xBB :: 0xBF :: rest => some rest
  | 0xEF :: _ => none
  | input => some input

def skipWhitespace (input : List UInt8) : List UInt8 := input.dropWhile isWhitespace

/-- The token that starts with a byte. -/
def scanToken (Φ : FloatText) (current : UInt8) (rest : List UInt8) :
    Option (Token × List UInt8) :=
  match current with
  | 0x5B => some (.beginArray, rest)
  | 0x5D => some (.endArray, rest)
  | 0x7B => some (.beginObject, rest)
  | 0x7D => some (.endObject, rest)
  | 0x3A => some (.nameSeparator, rest)
  | 0x2C => some (.valueSeparator, rest)
  | 0x74 => scanLiteral .literalTrue [0x72, 0x75, 0x65] rest
  | 0x66 => scanLiteral .literalFalse [0x61, 0x6C, 0x73, 0x65] rest
  | 0x6E => scanLiteral .literalNull [0x75, 0x6C, 0x6C] rest
  | 0x22 => (scanString [] rest).map fun (s, rest) => (.valueString s, rest)
  | 0x00 => some (.endOfInput, rest)
  | _ => if current = 0x2D ∨ isDigit current then scanNumber Φ current rest else none

def scan (Φ : FloatText) (input : List UInt8) : Option (Token × List UInt8) :=
  match skipWhitespace input with
  | [] => some (.endOfInput, [])
  | current :: rest => scanToken Φ current rest

/-! ### What a token takes off the input -/

theorem scanString_fail {tokenBuffer input : List UInt8} (h : scanChar input = none) :
    scanString tokenBuffer input = none := by
  rw [scanString.eq_def, h]

theorem scanString_quote {tokenBuffer input rest : List UInt8}
    (h : scanChar input = some (none, rest)) :
    scanString tokenBuffer input = some (tokenBuffer, rest) := by
  rw [scanString.eq_def, h]

theorem scanString_add {tokenBuffer input bytes rest : List UInt8}
    (h : scanChar input = some (some bytes, rest)) :
    scanString tokenBuffer input = scanString (tokenBuffer ++ bytes) rest := by
  rw [scanString.eq_def, h]

theorem scanString_length {tokenBuffer input s rest : List UInt8}
    (h : scanString tokenBuffer input = some (s, rest)) : rest.length < input.length := by
  induction tokenBuffer, input using scanString.induct with
  | case1 tokenBuffer input hchar =>
      rw [scanString_fail hchar] at h
      cases h
  | case2 tokenBuffer input rest' hchar =>
      rw [scanString_quote hchar] at h
      simp only [Option.some.injEq, Prod.mk.injEq] at h
      rw [← h.2]
      exact scanChar_length hchar
  | case3 tokenBuffer input bytes rest' hchar ih =>
      rw [scanString_add hchar] at h
      exact (ih h).trans (scanChar_length hchar)

theorem scanNumberFrom_length {state : NumberState} {type type' : NumberType}
    {tokenBuffer input buffer rest : List UInt8}
    (h : scanNumberFrom state type tokenBuffer input = some (type', buffer, rest)) :
    rest.length ≤ input.length := by
  induction input generalizing state type tokenBuffer with
  | nil =>
      rw [scanNumberFrom] at h
      split at h
      · simp only [Option.some.injEq, Prod.mk.injEq] at h
        rw [← h.2.2]
      · cases h
  | cons current input ih =>
      rw [scanNumberFrom] at h
      split at h
      · exact (ih h).trans (Nat.le_succ _)
      · split at h
        · simp only [Option.some.injEq, Prod.mk.injEq] at h
          rw [← h.2.2]
        · cases h

theorem scanLiteral_length {token token' : Token} {literal input rest : List UInt8}
    (h : scanLiteral token literal input = some (token', rest)) :
    rest.length ≤ input.length := by
  induction literal generalizing input with
  | nil =>
      simp only [scanLiteral, Option.some.injEq, Prod.mk.injEq] at h
      rw [h.2]
  | cons expected literal ih =>
      cases input with
      | nil => cases h
      | cons current input =>
          rw [scanLiteral] at h
          split at h
          · exact (ih h).trans (Nat.le_succ _)
          · cases h

theorem scanToken_length {Φ : FloatText} {current : UInt8} {input rest : List UInt8} {t : Token}
    (h : scanToken Φ current input = some (t, rest)) : rest.length ≤ input.length := by
  rw [scanToken.eq_def] at h
  split at h
  case h_7 | h_8 | h_9 => exact scanLiteral_length h
  case h_10 =>
    rw [Option.map_eq_some_iff] at h
    obtain ⟨⟨s, rest'⟩, hstring, h⟩ := h
    simp only [Prod.mk.injEq] at h
    rw [← h.2]
    exact (scanString_length hstring).le
  case h_12 =>
    split at h
    · rw [scanNumber, Option.map_eq_some_iff] at h
      obtain ⟨⟨type, buffer, rest'⟩, hnumber, h⟩ := h
      simp only [Prod.mk.injEq] at h
      rw [← h.2]
      exact scanNumberFrom_length hnumber
    · cases h
  all_goals
    simp only [Option.some.injEq, Prod.mk.injEq] at h
    rw [h.2]

theorem skipWhitespace_length (input : List UInt8) :
    (skipWhitespace input).length ≤ input.length :=
  (List.dropWhile_suffix _).length_le

/-- Every token takes a byte off the input, but for the end of it. -/
theorem scan_length {Φ : FloatText} {input rest : List UInt8} {t : Token}
    (h : scan Φ input = some (t, rest)) :
    rest.length < input.length ∨ t = .endOfInput ∧ rest = [] := by
  have hskip := skipWhitespace_length input
  rw [scan] at h
  split at h
  · simp only [Option.some.injEq, Prod.mk.injEq] at h
    exact .inr ⟨h.1.symm, h.2.symm⟩
  · rename_i current rest' heq
    rw [heq, List.length_cons] at hskip
    have hrest := scanToken_length h
    exact .inl (by omega)

end Lexer

end AmongUs.Json

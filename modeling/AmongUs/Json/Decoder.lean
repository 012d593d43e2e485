import AmongUs.Unicode.Utf8
import Mathlib.Tactic.IntervalCases

/-!
The automaton with which the serializer checks a string.

`decode` looks the class of a byte and then the next state up in one table.
A state is read here as the ranges of the bytes that it waits for, which is
how the lexer checks the same strings, and the lookups are tied to the
ranges once and for all. A code point that takes more than one byte is
beyond ASCII, so the automaton takes no overlong form for an ASCII
character.
-/

namespace AmongUs.Json.Serializer

open Utf8

/-- The classes of the bytes, then sixteen successors for each state. -/
def utf8d : List ℕ := [
  0, 0, 0, 0, 0, 0, 0, 0, 0, 0, 0, 0, 0, 0, 0, 0, 0, 0, 0, 0, 0, 0, 0, 0, 0, 0, 0, 0, 0, 0, 0, 0,
  0, 0, 0, 0, 0, 0, 0, 0, 0, 0, 0, 0, 0, 0, 0, 0, 0, 0, 0, 0, 0, 0, 0, 0, 0, 0, 0, 0, 0, 0, 0, 0,
  0, 0, 0, 0, 0, 0, 0, 0, 0, 0, 0, 0, 0, 0, 0, 0, 0, 0, 0, 0, 0, 0, 0, 0, 0, 0, 0, 0, 0, 0, 0, 0,
  0, 0, 0, 0, 0, 0, 0, 0, 0, 0, 0, 0, 0, 0, 0, 0, 0, 0, 0, 0, 0, 0, 0, 0, 0, 0, 0, 0, 0, 0, 0, 0,
  1, 1, 1, 1, 1, 1, 1, 1, 1, 1, 1, 1, 1, 1, 1, 1, 9, 9, 9, 9, 9, 9, 9, 9, 9, 9, 9, 9, 9, 9, 9, 9,
  7, 7, 7, 7, 7, 7, 7, 7, 7, 7, 7, 7, 7, 7, 7, 7, 7, 7, 7, 7, 7, 7, 7, 7, 7, 7, 7, 7, 7, 7, 7, 7,
  8, 8, 2, 2, 2, 2, 2, 2, 2, 2, 2, 2, 2, 2, 2, 2, 2, 2, 2, 2, 2, 2, 2, 2, 2, 2, 2, 2, 2, 2, 2, 2,
  10, 3, 3, 3, 3, 3, 3, 3, 3, 3, 3, 3, 3, 4, 3, 3, 11, 6, 6, 6, 5, 8, 8, 8, 8, 8, 8, 8, 8, 8, 8, 8,
  0, 1, 2, 3, 5, 8, 7, 1, 1, 1, 4, 6, 1, 1, 1, 1, 1, 1, 1, 1, 1, 1, 1, 1, 1, 1, 1, 1, 1, 1, 1, 1,
  1, 0, 1, 1, 1, 1, 1, 0, 1, 0, 1, 1, 1, 1, 1, 1, 1, 2, 1, 1, 1, 1, 1, 2, 1, 2, 1, 1, 1, 1, 1, 1,
  1, 1, 1, 1, 1, 1, 1, 2, 1, 1, 1, 1, 1, 1, 1, 1, 1, 2, 1, 1, 1, 1, 1, 1, 1, 2, 1, 1, 1, 1, 1, 1,
  1, 1, 1, 1, 1, 1, 1, 3, 1, 3, 1, 1, 1, 1, 1, 1, 1, 3, 1, 1, 1, 1, 1, 3, 1, 3, 1, 1, 1, 1, 1, 1,
  1, 3, 1, 1, 1, 1, 1, 1, 1, 1, 1, 1, 1, 1, 1, 1]

def utf8Accept : ℕ := 0

def utf8Reject : ℕ := 1

structure Decoder where
  state : ℕ
  codepoint : ℕ

/-- The class of a byte. -/
def byteType (byte : UInt8) : ℕ := utf8d.getD byte.toNat 0

def successor (state : ℕ) (byte : UInt8) : ℕ :=
  utf8d.getD (256 + state * 16 + byteType byte) 0

def decode (d : Decoder) (byte : UInt8) : Decoder where
  codepoint :=
    if d.state ≠ utf8Accept then byte.toNat &&& 0x3F ||| d.codepoint <<< 6
    else 0xFF >>> byteType byte &&& byte.toNat
  state := successor d.state byte

/-- The bytes that a state waits for. -/
def expected : ℕ → List (UInt8 × UInt8)
  | 2 => [(0x80, 0xBF)]
  | 3 => [(0x80, 0xBF), (0x80, 0xBF)]
  | 4 => [(0xA0, 0xBF), (0x80, 0xBF)]
  | 5 => [(0x80, 0x9F), (0x80, 0xBF)]
  | 6 => [(0x90, 0xBF), (0x80, 0xBF), (0x80, 0xBF)]
  | 7 => [(0x80, 0xBF), (0x80, 0xBF), (0x80, 0xBF)]
  | 8 => [(0x80, 0x8F), (0x80, 0xBF), (0x80, 0xBF)]
  | _ => []

/-- The least code point so far, which keeps overlong forms of ASCII out. -/
def least : ℕ → ℕ
  | 2 => 2
  | 3 | 5 | 7 | 8 => 1
  | _ => 0

/-- In the middle of a sequence that these bytes complete. -/
structure Waits (d : Decoder) (ranges : List (UInt8 × UInt8)) : Prop where
  state : 2 ≤ d.state ∧ d.state ≤ 8
  ranges_eq : expected d.state = ranges
  least_le : least d.state ≤ d.codepoint

theorem forall_byte {p : UInt8 → Prop} (h : ∀ n < 256, p (UInt8.ofNat n)) (b : UInt8) : p b := by
  have hb := h b.toNat b.toNat_lt
  rwa [UInt8.ofNat_toNat] at hb

theorem first_reject : ∀ b, trailing b = none → successor 0 b = 1 :=
  forall_byte (by decide +kernel)

theorem first_ascii : ∀ b, trailing b = some [] →
    successor 0 b = 0 ∧ 0xFF >>> byteType b &&& b.toNat = b.toNat :=
  forall_byte (by decide +kernel)

theorem first_waits : ∀ b, (trailing b).getD [] ≠ [] →
    (2 ≤ successor 0 b ∧ successor 0 b ≤ 8) ∧
      expected (successor 0 b) = (trailing b).getD [] ∧
      least (successor 0 b) ≤ 0xFF >>> byteType b &&& b.toNat :=
  forall_byte (by decide +kernel)

/-- A byte after the first one. -/
theorem next_reject : ∀ b, ∀ s ∈ [2, 3, 4, 5, 6, 7, 8],
    ¬ Within b (expected s).head! → successor s b = 1 :=
  forall_byte (by decide +kernel)

theorem next_accept : ∀ b, ∀ s ∈ [2, 3, 4, 5, 6, 7, 8],
    Within b (expected s).head! → (expected s).tail = [] → successor s b = 0 ∧ 2 ≤ least s :=
  forall_byte (by decide +kernel)

set_option synthInstance.maxSize 512 in
theorem next_waits : ∀ b, ∀ s ∈ [2, 3, 4, 5, 6, 7, 8],
    Within b (expected s).head! → (expected s).tail ≠ [] →
      (2 ≤ successor s b ∧ successor s b ≤ 8) ∧ expected (successor s b) = (expected s).tail :=
  forall_byte (by decide +kernel)

theorem next_least : ∀ b, ∀ s ∈ [2, 3, 4, 5, 6, 7, 8], Within b (expected s).head! →
    least (successor s b) ≤ b.toNat &&& 0x3F ∨ 1 ≤ least s :=
  forall_byte (by decide +kernel)

theorem decode_reject {d : Decoder} {b : UInt8} (hd : d.state = utf8Accept)
    (h : trailing b = none) : (decode d b).state = utf8Reject := by
  rw [decode, hd]
  exact first_reject b h

theorem decode_ascii {d : Decoder} {b : UInt8} (hd : d.state = utf8Accept)
    (h : trailing b = some []) :
    (decode d b).state = utf8Accept ∧ (decode d b).codepoint = b.toNat := by
  simp only [decode, hd, ne_eq, not_true_eq_false, if_false]
  exact first_ascii b h

theorem decode_first {d : Decoder} {b : UInt8} {ranges : List (UInt8 × UInt8)}
    (hd : d.state = utf8Accept) (h : trailing b = some ranges) (hne : ranges ≠ []) :
    Waits (decode d b) ranges := by
  obtain ⟨hstate, hexpected, hleast⟩ := first_waits b (by rw [h]; exact hne)
  rw [h] at hexpected
  refine ⟨?_, ?_, ?_⟩
  · rw [decode, hd]
    exact hstate
  · rw [decode, hd]
    exact hexpected
  · simp only [decode, hd, ne_eq, not_true_eq_false, if_false]
    exact hleast

namespace Waits

variable {d : Decoder} {range : UInt8 × UInt8} {ranges : List (UInt8 × UInt8)} {b : UInt8}

theorem mem_states (h : Waits d ranges) : d.state ∈ [2, 3, 4, 5, 6, 7, 8] := by
  obtain ⟨⟨hlo, hhi⟩, -, -⟩ := h
  interval_cases d.state <;> simp

theorem ne_accept (h : Waits d ranges) : d.state ≠ utf8Accept := by
  have hlo := h.state.1
  rw [utf8Accept]
  omega

theorem ne_reject (h : Waits d ranges) : d.state ≠ utf8Reject := by
  have hlo := h.state.1
  rw [utf8Reject]
  omega

theorem head_expected (h : Waits d (range :: ranges)) : (expected d.state).head! = range := by
  rw [h.ranges_eq]
  rfl

theorem tail_expected (h : Waits d (range :: ranges)) : (expected d.state).tail = ranges := by
  rw [h.ranges_eq]
  rfl

theorem ranges_ne_nil (h : Waits d ranges) : ranges ≠ [] := by
  rw [← h.ranges_eq]
  have hmem := h.mem_states
  simp only [List.mem_cons, List.not_mem_nil, or_false] at hmem
  rcases hmem with h | h | h | h | h | h | h <;> simp [h, expected]

theorem codepoint_decode (h : Waits d ranges) :
    (decode d b).codepoint = b.toNat &&& 0x3F ||| d.codepoint <<< 6 := by
  rw [decode]
  exact if_pos h.ne_accept

theorem reject (h : Waits d (range :: ranges)) (hb : ¬ Within b range) :
    (decode d b).state = utf8Reject :=
  next_reject b d.state h.mem_states (by rwa [h.head_expected])

/-- The last byte of a sequence completes a code point beyond ASCII. -/
theorem accept (h : Waits d [range]) (hb : Within b range) :
    (decode d b).state = utf8Accept ∧ 0x80 ≤ (decode d b).codepoint := by
  obtain ⟨hsuccessor, hleast⟩ :=
    next_accept b d.state h.mem_states (by rwa [h.head_expected]) h.tail_expected
  refine ⟨hsuccessor, ?_⟩
  have hcodepoint := hleast.trans h.least_le
  rw [h.codepoint_decode, Nat.shiftLeft_eq]
  exact le_trans (by omega) Nat.right_le_or

theorem next (h : Waits d (range :: ranges)) (hb : Within b range) (hne : ranges ≠ []) :
    Waits (decode d b) ranges := by
  have hwithin : Within b (expected d.state).head! := by rwa [h.head_expected]
  obtain ⟨hstate, hexpected⟩ :=
    next_waits b d.state h.mem_states hwithin (by rwa [h.tail_expected])
  rw [h.tail_expected] at hexpected
  refine ⟨hstate, hexpected, ?_⟩
  rw [h.codepoint_decode, Nat.shiftLeft_eq]
  rcases next_least b d.state h.mem_states hwithin with hbits | hone
  · exact hbits.trans Nat.left_le_or
  · -- The bits before are moved up by six, beyond what any state asks for.
    have hcodepoint := hone.trans h.least_le
    have hsmall : least (successor d.state b) ≤ 64 := by
      rw [least.eq_def]
      split <;> omega
    exact hsmall.trans (le_trans (by omega) Nat.right_le_or)

end Waits

end AmongUs.Json.Serializer

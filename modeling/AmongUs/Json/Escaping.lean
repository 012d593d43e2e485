import AmongUs.Json.Decoder
import AmongUs.Json.Strings

/-!
How the serializer writes a string.

`dump_escaped` collects what it writes in a buffer of 512 bytes, which it
empties when less than 13 of them are left. The handler of errors is the
strict one, under which an ill-formed string throws, and only what ASCII
requires is escaped. It succeeds on the well-formed strings, it never writes
beyond the buffer, and the lexer reads what it has written back.
-/

namespace AmongUs.Json.Serializer

open Utf8 Lexer

def bufferSize : ℕ := 512

structure Escaper where
  decoder : Decoder := ⟨utf8Accept, 0⟩
  stringBuffer : List UInt8 := []
  output : List UInt8 := []

/-- A digit of `%x`. -/
def lowerHex (n : ℕ) : UInt8 := UInt8.ofNat (if n < 10 then 0x30 + n else 0x57 + n)

/-- `\u%04x`. -/
def unicodeEscape (codepoint : ℕ) : List UInt8 :=
  [0x5C, 0x75, lowerHex (codepoint / 4096 % 16), lowerHex (codepoint / 256 % 16),
    lowerHex (codepoint / 16 % 16), lowerHex (codepoint % 16)]

/-- What is written for a code point whose last byte is `byte`. -/
def writeCodepoint (codepoint : ℕ) (byte : UInt8) : List UInt8 :=
  match codepoint with
  | 0x08 => [0x5C, 0x62]
  | 0x09 => [0x5C, 0x74]
  | 0x0A => [0x5C, 0x6E]
  | 0x0C => [0x5C, 0x66]
  | 0x0D => [0x5C, 0x72]
  | 0x22 => [0x5C, 0x22]
  | 0x5C => [0x5C, 0x5C]
  | _ => if codepoint ≤ 0x1F then unicodeEscape codepoint else [byte]

/-- One iteration of `dump_escaped`. -/
def dumpByte (e : Escaper) (byte : UInt8) : Option Escaper :=
  let decoder := decode e.decoder byte
  if decoder.state = utf8Accept then
    let stringBuffer := e.stringBuffer ++ writeCodepoint decoder.codepoint byte
    if bufferSize - stringBuffer.length < 13 then
      some { decoder, stringBuffer := [], output := e.output ++ stringBuffer }
    else some { e with decoder, stringBuffer }
  else if decoder.state = utf8Reject then none
  else some { e with decoder, stringBuffer := e.stringBuffer ++ [byte] }

def dumpEscaped (s : List UInt8) : Option (List UInt8) := do
  let e ← s.foldlM dumpByte {}
  if e.decoder.state = utf8Accept then some (e.output ++ e.stringBuffer) else none

/-! ### One byte -/

/-- All that has been written. -/
def Escaper.written (e : Escaper) : List UInt8 := e.output ++ e.stringBuffer

/-- The text of a string, byte by byte. -/
def escape (s : List UInt8) : List UInt8 := s.flatMap fun b => writeCodepoint b.toNat b

theorem writeCodepoint_of_ge {codepoint : ℕ} (h : 0x80 ≤ codepoint) (byte : UInt8) :
    writeCodepoint codepoint byte = [byte] := by
  rw [writeCodepoint.eq_def]
  split
  case h_8 => exact if_neg (by omega)
  all_goals omega

theorem escape_singleton_of_ge {b : UInt8} (h : 0x80 ≤ b.toNat) : escape [b] = [b] := by
  rw [escape, List.flatMap_singleton, writeCodepoint_of_ge h]

theorem expected_ge (s : ℕ) : ∀ range ∈ expected s, 0x80 ≤ range.1.toNat := by
  rw [expected.eq_def]
  split <;> simp

theorem trailing_eq_nil_iff {b : UInt8} {ranges : List (UInt8 × UInt8)}
    (h : trailing b = some ranges) : ranges = [] ↔ b.toNat < 0x80 := by
  simp only [trailing, UInt8.le_iff_toNat_le, UInt8.reduceToNat] at h
  split_ifs at h with hascii
  · obtain rfl := Option.some.inj h
    simp only [true_iff]
    omega
  all_goals
    obtain rfl := Option.some.inj h
    simp only [reduceCtorEq, false_iff]
    omega

/-- Where the escaper stands between two bytes. The bound leaves room for
the sequence to be finished and one more code point to be written. -/
def Escaper.Awaits (e : Escaper) (ranges : List (UInt8 × UInt8)) : Prop :=
  (ranges = [] → e.decoder.state = utf8Accept) ∧ (ranges ≠ [] → Waits e.decoder ranges) ∧
    e.stringBuffer.length + ranges.length ≤ 503 ∧ (ranges = [] → e.stringBuffer.length ≤ 499)

theorem Escaper.awaits_nil : ({} : Escaper).Awaits [] :=
  ⟨fun _ => rfl, fun h => absurd rfl h, by decide, fun _ => by decide⟩

/-- A code point is written, and the buffer emptied if need be. -/
theorem dumpByte_accept {e : Escaper} {b : UInt8}
    (h : (decode e.decoder b).state = utf8Accept) :
    ∃ e', dumpByte e b = some e' ∧ e'.Awaits [] ∧
      e'.written = e.written ++ writeCodepoint (decode e.decoder b).codepoint b := by
  simp only [dumpByte, h, if_true]
  split
  · exact ⟨_, rfl, ⟨fun _ => h, fun h => absurd rfl h, by simp, fun _ => by simp⟩,
      by simp [Escaper.written]⟩
  · rename_i hroom
    rw [bufferSize] at hroom
    refine ⟨_, rfl, ⟨fun _ => h, fun h => absurd rfl h, ?_, fun _ => ?_⟩,
      by simp [Escaper.written]⟩
    · simp only [List.length_nil]
      omega
    · dsimp only
      omega

/-- A byte in the middle of a sequence is copied. -/
theorem dumpByte_copy {e : Escaper} {b : UInt8} {ranges : List (UInt8 × UInt8)}
    (h : Waits (decode e.decoder b) ranges)
    (hroom : e.stringBuffer.length + ranges.length ≤ 502) :
    ∃ e', dumpByte e b = some e' ∧ e'.Awaits ranges ∧ e'.written = e.written ++ [b] := by
  simp only [dumpByte, h.ne_accept, h.ne_reject, if_false]
  refine ⟨_, rfl, ⟨fun hnil => absurd hnil h.ranges_ne_nil, fun _ => h, ?_,
    fun hnil => absurd hnil h.ranges_ne_nil⟩, by simp [Escaper.written]⟩
  simp only [List.length_append, List.length_singleton]
  omega

theorem dumpByte_reject {e : Escaper} {b : UInt8}
    (h : (decode e.decoder b).state = utf8Reject) : dumpByte e b = none := by
  simp [dumpByte, h, utf8Accept, utf8Reject]

/-- The escaper follows the language of well-formed strings. -/
theorem Escaper.Awaits.next {e : Escaper} {ranges : List (UInt8 × UInt8)} (h : e.Awaits ranges)
    (b : UInt8) :
    (Utf8.next ranges b = none → dumpByte e b = none) ∧
      ∀ ranges', Utf8.next ranges b = some ranges' →
        ∃ e', dumpByte e b = some e' ∧ e'.Awaits ranges' ∧
          e'.written = e.written ++ escape [b] := by
  obtain ⟨haccept, hwaits, hroom, hroom₀⟩ := h
  cases ranges with
  | nil =>
      have hstate := haccept rfl
      have hbuffer := hroom₀ rfl
      refine ⟨fun hnext => dumpByte_reject (decode_reject hstate hnext), fun ranges' hnext => ?_⟩
      rw [Utf8.next] at hnext
      by_cases hnil : ranges' = []
      · subst hnil
        obtain ⟨hdecode, hcodepoint⟩ := decode_ascii hstate hnext
        obtain ⟨e', he', hawaits, hwritten⟩ := dumpByte_accept hdecode
        rw [hcodepoint] at hwritten
        exact ⟨e', he', hawaits, by rw [hwritten, escape, List.flatMap_singleton]⟩
      · have hb : 0x80 ≤ b.toNat := by
          by_contra hlt
          exact hnil ((trailing_eq_nil_iff hnext).mpr (by omega))
        have hfirst := decode_first hstate hnext hnil
        have hlen : ranges'.length ≤ 3 := by
          rw [← hfirst.ranges_eq]
          have hmem := hfirst.mem_states
          simp only [List.mem_cons, List.not_mem_nil, or_false] at hmem
          rcases hmem with h | h | h | h | h | h | h <;> simp [h, expected]
        rw [escape_singleton_of_ge hb]
        exact dumpByte_copy hfirst (by omega)
  | cons range ranges =>
      have hw := hwaits (by simp)
      rw [List.length_cons] at hroom
      constructor
      · intro hnext
        rw [Utf8.next] at hnext
        split at hnext
        · cases hnext
        · rename_i hb
          exact dumpByte_reject (hw.reject hb)
      · intro ranges' hnext
        rw [Utf8.next, Option.ite_none_right_eq_some] at hnext
        obtain ⟨hb, hranges⟩ := hnext
        obtain rfl := Option.some.inj hranges
        have hge : 0x80 ≤ b.toNat := by
          have hmem : range ∈ expected e.decoder.state := by
            rw [hw.ranges_eq]
            exact List.mem_cons_self
          exact (expected_ge _ range hmem).trans (UInt8.le_iff_toNat_le.mp hb.1)
        rw [escape_singleton_of_ge hge]
        by_cases hnil : ranges = []
        · subst hnil
          obtain ⟨hdecode, hcodepoint⟩ := hw.accept hb
          obtain ⟨e', he', hawaits, hwritten⟩ := dumpByte_accept hdecode
          rw [writeCodepoint_of_ge hcodepoint] at hwritten
          exact ⟨e', he', hawaits, hwritten⟩
        · exact dumpByte_copy (hw.next hb hnil) (by omega)

/-! ### The whole string -/

theorem Escaper.Awaits.foldlM {e : Escaper} {ranges : List (UInt8 × UInt8)}
    (h : e.Awaits ranges) (s : List UInt8) :
    (s.foldlM Utf8.next ranges = none → s.foldlM dumpByte e = none) ∧
      ∀ ranges', s.foldlM Utf8.next ranges = some ranges' →
        ∃ e', s.foldlM dumpByte e = some e' ∧ e'.Awaits ranges' ∧
          e'.written = e.written ++ escape s := by
  induction s generalizing e ranges with
  | nil =>
      refine ⟨(fun hnone => nomatch hnone), fun ranges' hsome => ?_⟩
      obtain rfl := Option.some.inj hsome
      exact ⟨e, rfl, h, by simp [escape]⟩
  | cons b s ih =>
      obtain ⟨hnone, hsome⟩ := h.next b
      simp only [List.foldlM_cons, Option.bind_eq_bind]
      cases hnext : Utf8.next ranges b with
      | none => simp [hnone hnext]
      | some ranges₁ =>
          obtain ⟨e₁, he₁, hawaits, hwritten⟩ := hsome ranges₁ hnext
          simp only [he₁, Option.bind_some]
          obtain ⟨hnone', hsome'⟩ := ih hawaits
          refine ⟨hnone', fun ranges' h' => ?_⟩
          obtain ⟨e', he', hawaits', hwritten'⟩ := hsome' ranges' h'
          refine ⟨e', he', hawaits', ?_⟩
          rw [hwritten', hwritten, List.append_assoc, escape, escape, escape,
            ← List.flatMap_append, List.singleton_append]

/-- The serializer throws exactly on the ill-formed strings. -/
theorem dumpEscaped_eq_some_iff {s out : List UInt8} :
    dumpEscaped s = some out ↔ WellFormed s ∧ out = escape s := by
  obtain ⟨hnone, hsome⟩ := Escaper.awaits_nil.foldlM s
  rw [dumpEscaped, Option.bind_eq_bind, wellFormed_iff_foldlM_next]
  cases hcheck : s.foldlM Utf8.next [] with
  | none => simp [hnone hcheck]
  | some ranges =>
      obtain ⟨e, he, ⟨haccept, hwaits, -, -⟩, hwritten⟩ := hsome ranges hcheck
      rw [he, Option.bind_some, Option.some.injEq]
      by_cases hnil : ranges = []
      · rw [if_pos (haccept hnil), Option.some.injEq]
        have hout : e.output ++ e.stringBuffer = escape s := by
          simpa [Escaper.written] using hwritten
        rw [hout]
        exact ⟨fun h => ⟨hnil, h.symm⟩, fun h => h.2.symm⟩
      · rw [if_neg (hwaits hnil).ne_accept]
        simp [hnil]

/-- Before each byte of a string the buffer has room for what is written at
once, six bytes and the end of a C string. -/
theorem stringBuffer_room {s : List UInt8} {e : Escaper} (h : s.foldlM dumpByte {} = some e) :
    e.stringBuffer.length + 7 ≤ bufferSize := by
  obtain ⟨hnone, hsome⟩ := Escaper.awaits_nil.foldlM s
  cases hcheck : s.foldlM Utf8.next [] with
  | none =>
      rw [hnone hcheck] at h
      cases h
  | some ranges =>
      obtain ⟨e', he', ⟨-, -, hroom, hroom₀⟩, -⟩ := hsome ranges hcheck
      obtain rfl := Option.some.inj (h.symm.trans he')
      rw [bufferSize]
      by_cases hnil : ranges = []
      · have := hroom₀ hnil
        omega
      · have hpos := List.length_pos_iff.mpr hnil
        omega

/-! ### Reading it back -/

theorem hexDigit_lowerHex : ∀ n < 16, hexDigit (lowerHex n) = some n := by decide

theorem scanUnicode_of_lt {n : ℕ} (h : n < 0x80) (rest : List UInt8) :
    scanUnicode (lowerHex (n / 4096 % 16) :: lowerHex (n / 256 % 16) ::
      lowerHex (n / 16 % 16) :: lowerHex (n % 16) :: rest) = some ([UInt8.ofNat n], rest) := by
  have hcodepoint : getCodepoint (lowerHex (n / 4096 % 16) :: lowerHex (n / 256 % 16) ::
      lowerHex (n / 16 % 16) :: lowerHex (n % 16) :: rest) = some (n, rest) := by
    rw [getCodepoint, hexDigit_lowerHex _ (by omega), hexDigit_lowerHex _ (by omega),
      hexDigit_lowerHex _ (by omega), hexDigit_lowerHex _ (by omega)]
    simp only [Option.bind_eq_bind, Option.bind_some, Option.some.injEq, Prod.mk.injEq, and_true,
      Nat.shiftLeft_eq]
    omega
  rw [scanUnicode, hcodepoint, Option.bind_eq_bind, Option.bind_some]
  dsimp only
  rw [if_neg (by omega), if_neg (by omega), codepointBytes, if_pos h]

/-- An ASCII character, escaped or not. -/
theorem scanChar_ascii {b : UInt8} (h : b.toNat < 0x80) (rest : List UInt8) :
    scanChar (writeCodepoint b.toNat b ++ rest) = some (some [b], rest) := by
  have hof {n : ℕ} (hn : b.toNat = n) : b = UInt8.ofNat n := by rw [← hn, UInt8.ofNat_toNat]
  rw [writeCodepoint.eq_def]
  split
  case h_8 hn₁ hn₂ hn₃ hn₄ hn₅ hn₆ hn₇ =>
    split
    · simp only [unicodeEscape, List.cons_append, List.nil_append, scanChar, scanEscape]
      rw [scanUnicode_of_lt h, UInt8.ofNat_toNat]
      rfl
    · rename_i hcontrol
      have hquote : b ≠ 0x22 := fun hb => hn₆ (by rw [hb]; rfl)
      have hbackslash : b ≠ 0x5C := fun hb => hn₇ (by rw [hb]; rfl)
      have hcontrol' : ¬ b ≤ 0x1F := fun hb => hcontrol (UInt8.le_iff_toNat_le.mp hb)
      have htrailing : trailing b = some [] := by
        rw [trailing, if_pos (UInt8.le_iff_toNat_le.mpr (by simp; omega))]
      rw [List.singleton_append, scanChar, if_neg hquote, if_neg hbackslash, if_neg hcontrol',
        htrailing]
      rfl
  all_goals
    rename_i hn
    rw [hof hn]
    rfl

theorem nextByteInRange_append {ranges : List (UInt8 × UInt8)} {bs : List UInt8}
    (h : List.Forall₂ Within bs ranges) (rest : List UInt8) :
    nextByteInRange ranges (bs ++ rest) = some (bs, rest) := by
  induction h with
  | nil => rfl
  | cons hb _ ih => rw [List.cons_append, nextByteInRange, if_pos hb, ih, Option.map_some]

theorem trailing_ge {b : UInt8} {ranges : List (UInt8 × UInt8)}
    (h : trailing b = some ranges) : ∀ range ∈ ranges, 0x80 ≤ range.1.toNat := by
  rw [trailing] at h
  split_ifs at h
  all_goals
    obtain rfl := Option.some.inj h
    simp

theorem escape_of_within {bs : List UInt8} {ranges : List (UInt8 × UInt8)}
    (hbs : List.Forall₂ Within bs ranges) (hranges : ∀ range ∈ ranges, 0x80 ≤ range.1.toNat) :
    escape bs = bs := by
  induction hbs with
  | nil => rfl
  | cons hb _ ih =>
      have hge := (hranges _ List.mem_cons_self).trans (UInt8.le_iff_toNat_le.mp hb.1)
      rw [escape, List.flatMap_cons, writeCodepoint_of_ge hge, List.singleton_append]
      congr 1
      exact ih fun range hrange => hranges range (List.mem_cons_of_mem _ hrange)

/-- One character, as it is written, is read in one iteration. -/
theorem scanChar_escape {bs : List UInt8} (h : Sequence bs) (rest : List UInt8) :
    scanChar (escape bs ++ rest) = some (some bs, rest) := by
  obtain ⟨htrailing, hbs⟩ := h
  rename_i b bs ranges
  by_cases hascii : b.toNat < 0x80
  · obtain rfl := (trailing_eq_nil_iff htrailing).mpr hascii
    obtain rfl := List.forall₂_nil_right_iff.mp hbs
    rw [escape, List.flatMap_singleton]
    exact scanChar_ascii hascii rest
  · have hne {c : UInt8} (hc : c.toNat < 0x80) : b ≠ c := by
      rintro rfl
      exact hascii hc
    have hcontrol : ¬ b ≤ 0x1F := fun hb => hascii (by
      have := UInt8.le_iff_toNat_le.mp hb
      simp only [UInt8.reduceToNat] at this
      omega)
    rw [escape, List.flatMap_cons, writeCodepoint_of_ge (not_lt.mp hascii)]
    change scanChar (b :: (escape bs ++ rest)) = _
    rw [escape_of_within hbs (trailing_ge htrailing), scanChar, if_neg (hne (by decide)),
      if_neg (hne (by decide)), if_neg hcontrol, htrailing]
    dsimp only
    rw [nextByteInRange_append hbs]
    rfl

theorem scanString_escape {s : List UInt8} (h : WellFormed s) (tokenBuffer rest : List UInt8) :
    scanString tokenBuffer (escape s ++ 0x22 :: rest) = some (tokenBuffer ++ s, rest) := by
  induction h generalizing tokenBuffer with
  | nil =>
      rw [List.append_nil]
      exact scanString_quote rfl
  | append hseq _ ih =>
      have happend : ∀ a b : List UInt8, escape (a ++ b) = escape a ++ escape b := fun a b => by
        rw [escape, escape, escape, List.flatMap_append]
      rw [happend, List.append_assoc, scanString_add (scanChar_escape hseq _), ih,
        List.append_assoc]

/-- `dump_escaped` between quotes, as a token. -/
theorem scanToken_quoted (Φ : FloatText) {s : List UInt8} (h : WellFormed s)
    (rest : List UInt8) :
    scanToken Φ 0x22 (escape s ++ 0x22 :: rest) = some (.valueString s, rest) := by
  change (scanString [] _).map _ = _
  rw [scanString_escape h]
  rfl

/-- **Two readings of UTF-8.** The strings that the serializer writes, by
its automaton, are those that the lexer makes, by its ranges, and both are
the well-formed ones. What is written is read back, and the buffer never
overflows on the way. -/
theorem strings_agree (s : List UInt8) :
    ((dumpEscaped s).isSome ↔ WellFormed s) ∧
    ((∃ input rest, scanString [] input = some (s, rest)) ↔ WellFormed s) ∧
    (∀ out rest, dumpEscaped s = some out →
      scanString [] (out ++ 0x22 :: rest) = some (s, rest)) ∧
    ∀ e, s.foldlM dumpByte {} = some e → e.stringBuffer.length + 7 ≤ bufferSize := by
  refine ⟨?_, ?_, ?_, fun e => stringBuffer_room⟩
  · rw [Option.isSome_iff_exists]
    simp only [dumpEscaped_eq_some_iff, exists_and_left, exists_eq, and_true]
  · constructor
    · rintro ⟨input, rest, h⟩
      exact wellFormed_scanString h .nil
    · exact fun h => ⟨_, [], scanString_escape h [] []⟩
  · intro out rest h
    obtain ⟨hs, rfl⟩ := dumpEscaped_eq_some_iff.mp h
    exact scanString_escape hs [] rest

end AmongUs.Json.Serializer

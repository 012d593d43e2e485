import AmongUs.Json.Serializer

/-!
Values through their text and back.

What `dump` writes is read back as the same value, by `parse` and by
`operator>>`, on one line or with an indent; and it writes unless there are
elements to indent by more than 1024 characters. Whatever the parser accepts
is a value that the serializer can write, so the second text of a document is
as good as the first.
-/

namespace AmongUs.Json

open Utf8 Lexer Serializer AmongUs.Json.Parser

/-- `dump` of a value, with a new serializer. A negative indent, which is the
default, asks for the compact form. -/
def dump (Φ : FloatText) (indent : ℤ) (v : Json) : Option (List UInt8) :=
  let written :=
    if 0 ≤ indent then (Serializer.dump Φ true indent.toNat v 0).run 512
    else (Serializer.dump Φ false 0 v 0).run 512
  written.map Prod.fst

section

variable {Φ : FloatText} {indent : ℤ} {v : Json}

theorem isSome_dump (Φ : FloatText) (h : indent ≤ 1024) (v : Json) : (dump Φ indent v).isSome := by
  rw [dump, Option.isSome_map]
  split
  · have hstep : indent.toNat ≤ 1024 := by omega
    obtain ⟨text, size, hwritten, -⟩ :=
      exists_dump Φ true hstep v (Nat.zero_le 512) (by omega)
    rw [hwritten]
    rfl
  · obtain ⟨text, size, hwritten, -⟩ :=
      exists_dump Φ false (Nat.zero_le 1024) v (Nat.zero_le 512) (by omega)
    rw [hwritten]
    rfl

end

/-- The text of `dump` with an indent that there is room for. -/
def dumped (Φ : FloatText) (indent : ℤ) (h : indent ≤ 1024) (v : Json) : List UInt8 :=
  (dump Φ indent v).get (isSome_dump Φ h v)

/-- The compact form, as `dump` writes it by default. -/
def compact (Φ : FloatText) (v : Json) : List UInt8 := dumped Φ (-1) (by decide) v

/-! ### A document -/

/-- The conversions on the one number `2.5`. -/
def FloatText.twoAndAHalf : FloatText where
  dumpFloat _ := [0x32, 0x2E, 0x35]
  strtof text := if text = [0x32, 0x2E, 0x35] then some (5 / 2) else none

theorem FloatText.roundTrips_twoAndAHalf : FloatText.twoAndAHalf.RoundTrips (5 / 2) :=
  ⟨⟨0x32, [0x2E, 0x35], rfl, .inr rfl, rfl⟩, rfl⟩

theorem FloatText.twoAndAHalf_roundTrips (text : List UInt8) (x : ℚ)
    (h : FloatText.twoAndAHalf.strtof text = some x) : FloatText.twoAndAHalf.RoundTrips x := by
  simp only [twoAndAHalf, Option.ite_none_right_eq_some, Option.some.injEq] at h
  rw [← h.2]
  exact roundTrips_twoAndAHalf

/-- `{"game_state3": [2.5, -7, "a\nb"]}`. -/
def nestedDocument : Json :=
  .object ["game_state3"] (List.pairwise_singleton _ _) fun _ =>
    .array 3 fun
      | 0 => .float (5 / 2)
      | 1 => .integer (-7)
      | 2 => .string "a\nb"

theorem fits_nestedDocument : Fits .twoAndAHalf nestedDocument := by
  intro i j
  match j with
  | 0 => exact FloatText.roundTrips_twoAndAHalf
  | 1 => exact ⟨by norm_num, by norm_num⟩
  | 2 => trivial

/-! ### What is written -/

section

variable {Φ : FloatText} {text rest : List UInt8} {ts : List Token} {v : Json}

theorem scan_bom (input : List UInt8) : scan Φ (0xEF :: input) = none := rfl

/-- No text that is written looks like the beginning of a byte order mark. -/
theorem Writes.skipBom (h : Writes Φ text ts) (hrest : EndsNumber rest) :
    skipBom (text ++ rest) = some (text ++ rest) := by
  obtain ⟨hne, h⟩ := h
  obtain ⟨t, ts, rfl⟩ := List.exists_cons_of_ne_nil hne
  obtain ⟨rest', hscan, -⟩ := Lexes.cons_iff.mp (h rest hrest)
  rw [Lexer.skipBom.eq_def]
  split
  · rename_i heq
    rw [heq, scan_bom] at hscan
    cases hscan
  · rename_i heq
    rw [heq, scan_bom] at hscan
    cases hscan
  · rfl

theorem parseInternal_of_writes (h : Writes Φ text ts) (hv : Value ts v)
    (hrest : EndsNumber rest) : parseInternal Φ (text ++ rest) = some (v, rest) :=
  parseInternal_eq_some_iff.mpr ⟨ts, _, hv, h.skipBom hrest, h.2 rest hrest⟩

theorem writes_of_dump {indent : ℤ} (hv : Fits Φ v) (h : dump Φ indent v = some text) :
    Writes Φ text (tokens v) := by
  obtain ⟨⟨text, size⟩, hwritten, rfl⟩ := Option.map_eq_some_iff.mp h
  split at hwritten
  · exact prints_dump hv _ _ _ hwritten
  · exact prints_dump hv _ _ _ hwritten

/-- What is written is read back, whatever its layout and whatever follows
that no number goes on with. -/
theorem parseInternal_dump {indent : ℤ} (hv : Fits Φ v) (h : dump Φ indent v = some text)
    (hrest : EndsNumber rest) : parseInternal Φ (text ++ rest) = some (v, rest) :=
  parseInternal_of_writes (writes_of_dump hv h) (value_tokens v) hrest

theorem parse_dump {indent : ℤ} (hv : Fits Φ v) (h : dump Φ indent v = some text) :
    parse Φ text = some v := by
  have hinternal := parseInternal_dump hv h endsNumber_nil
  rw [List.append_nil] at hinternal
  rw [parse, hinternal]
  rfl

theorem fromStream_dump {indent : ℤ} (hv : Fits Φ v) (h : dump Φ indent v = some text)
    (hrest : EndsNumber rest) : fromStream Φ (text ++ rest) = some v := by
  rw [fromStream_eq, parseInternal_dump hv h hrest]
  rfl

theorem dump_dumped {indent : ℤ} (hindent : indent ≤ 1024) (v : Json) :
    dump Φ indent v = some (dumped Φ indent hindent v) := (Option.some_get _).symm

theorem parse_compact (hv : Fits Φ v) : parse Φ (compact Φ v) = some v :=
  parse_dump hv (dump_dumped _ v)

theorem fromStream_compact (hv : Fits Φ v) : fromStream Φ (compact Φ v) = some v := by
  rw [← List.append_nil (compact Φ v)]
  exact fromStream_dump hv (dump_dumped _ v) endsNumber_nil

/-- The range of a token's value. A floating point number comes from a text. -/
def Token.Fits (Φ : FloatText) : Token → Prop
  | .valueUnsigned n => n < 2 ^ 64
  | .valueInteger n => -2 ^ 63 ≤ n ∧ n ≤ 0
  | .valueFloat (some x) => ∃ text, Φ.strtof text = some x
  | _ => True

theorem fits_convertNumber (type : NumberType) (tokenBuffer : List UInt8) :
    (convertNumber Φ type tokenBuffer).Fits Φ := by
  have hfloat : (Token.valueFloat (Φ.strtof tokenBuffer)).Fits Φ := by
    cases hx : Φ.strtof tokenBuffer with
    | none => trivial
    | some x => exact ⟨tokenBuffer, hx⟩
  cases type with
  | unsigned =>
      rw [convertNumber]
      split
      · rename_i n hn
        rw [strtoull, Option.ite_none_right_eq_some] at hn
        obtain ⟨hlt, hn⟩ := hn
        rw [← Option.some.inj hn]
        exact hlt
      · exact hfloat
  | integer =>
      rw [convertNumber]
      split
      · rename_i n hn
        rw [strtoll, Option.ite_none_right_eq_some] at hn
        obtain ⟨hle, hn⟩ := hn
        rw [← Option.some.inj hn]
        constructor
        · omega
        · omega
      · exact hfloat
  | float => exact hfloat

theorem fits_scan {input : List UInt8} {t : Token} (h : scan Φ input = some (t, rest)) :
    t.Fits Φ := by
  rw [scan] at h
  split at h
  · rw [← (Prod.mk.inj (Option.some.inj h)).1]
    trivial
  rw [scanToken.eq_def] at h
  split at h
  case h_7 | h_8 | h_9 =>
    rw [scanLiteral_token h]
    trivial
  case h_10 =>
    rw [Option.map_eq_some_iff] at h
    obtain ⟨⟨s, rest'⟩, -, h⟩ := h
    rw [← (Prod.mk.inj h).1]
    trivial
  case h_12 =>
    split at h
    · rw [scanNumber, Option.map_eq_some_iff] at h
      obtain ⟨⟨type, buffer, rest'⟩, -, h⟩ := h
      rw [← (Prod.mk.inj h).1]
      exact fits_convertNumber type buffer
    · cases h
  all_goals
    rw [← (Prod.mk.inj (Option.some.inj h)).1]
    trivial

theorem fits_lexes {input : List UInt8} (h : Lexes Φ input ts rest) :
    ∀ t ∈ ts, t.Fits Φ := by
  induction h with
  | nil => exact fun t ht => by cases ht
  | cons hscan _ ih =>
      intro t ht
      rcases List.mem_cons.mp ht with rfl | ht
      · exact fits_scan hscan
      · exact ih t ht

theorem fits_ofList {vs : List Json} (h : ∀ v ∈ vs, Serializer.Fits Φ v) :
    Serializer.Fits Φ (ofList vs) := fun i => h _ (List.get_mem vs i)

theorem fits_ofMembers {ms : Members} (h : ∀ a ∈ ms.list, Serializer.Fits Φ a.2) :
    Serializer.Fits Φ (ofMembers ms) := fun _ => h _ (List.get_mem ms.list _)

theorem Members.mem_insertAll {ms : Members} {pairs : List (String × Json)} {a : String × Json}
    (h : a ∈ (ms.insertAll pairs).list) : a ∈ ms.list ∨ a ∈ pairs := by
  induction pairs generalizing ms with
  | nil => exact .inl h
  | cons b pairs ih =>
      rcases ih h with h | h
      · rcases mem_insertList h with rfl | h
        · exact .inr List.mem_cons_self
        · exact .inl h
      · exact .inr (List.mem_cons_of_mem _ h)

theorem fits_scalar (hΦ : ∀ text x, Φ.strtof text = some x → Φ.RoundTrips x) {t : Token}
    (ht : t.Fits Φ) (h : t.scalar = some v) : Serializer.Fits Φ v := by
  cases t with
  | valueString s =>
      rw [Token.scalar, Option.map_eq_some_iff] at h
      obtain ⟨_, _, rfl⟩ := h
      trivial
  | valueUnsigned n =>
      rw [← Option.some.inj h]
      have hlt : n < 2 ^ 64 := ht
      constructor
      · omega
      · exact_mod_cast hlt
  | valueInteger n =>
      rw [← Option.some.inj h]
      obtain ⟨hlo, hhi⟩ := ht
      exact ⟨hlo, by omega⟩
  | valueFloat x =>
      rw [Token.scalar, Option.map_eq_some_iff] at h
      obtain ⟨x, rfl, rfl⟩ := h
      obtain ⟨text, htext⟩ := ht
      exact hΦ text x htext
  | literalTrue | literalFalse | literalNull =>
      rw [← Option.some.inj h]
      trivial
  | beginArray | beginObject | endArray | endObject | nameSeparator | valueSeparator
  | endOfInput => cases h

/-- A derivation puts nothing into a value but the values of its tokens. -/
theorem Value.fits (hΦ : ∀ text x, Φ.strtof text = some x → Φ.RoundTrips x) (h : Value ts v)
    (hts : ∀ t ∈ ts, t.Fits Φ) : Serializer.Fits Φ v := by
  refine @Value.rec (fun ts v _ => (∀ t ∈ ts, t.Fits Φ) → Serializer.Fits Φ v)
    (fun ts vs _ => (∀ t ∈ ts, t.Fits Φ) → ∀ v ∈ vs, Serializer.Fits Φ v)
    (fun ts pairs _ => (∀ t ∈ ts, t.Fits Φ) → ∀ a ∈ pairs, Serializer.Fits Φ a.2)
    ?_ ?_ ?_ ?_ ?_ ?_ ?_ ?_ ?_ ts v h hts
  · exact fun h hts => fits_scalar hΦ (hts _ List.mem_cons_self) h
  · exact fun _ i => i.elim0
  · exact fun _ ih hts => fits_ofList (ih fun t ht => hts t (by simp [ht]))
  · exact fun _ i => i.elim0
  · intro ts pairs _ ih hts
    refine fits_ofMembers fun a ha => ?_
    rcases Members.mem_insertAll ha with ha | ha
    · cases ha
    · exact ih (fun t ht => hts t (by simp [ht])) a ha
  · intro ts v _ ih hts w hw
    rw [List.mem_singleton.mp hw]
    exact ih hts
  · intro ts us v vs _ _ ih ih' hts w hw
    rcases List.mem_cons.mp hw with rfl | hw
    · exact ih fun t ht => hts t (by simp [ht])
    · exact ih' (fun t ht => hts t (by simp [ht])) w hw
  · intro ts key v _ ih hts a ha
    rw [List.mem_singleton.mp ha]
    exact ih fun t ht => hts t (by simp [ht])
  · intro ts us key v pairs _ _ ih ih' hts a ha
    rcases List.mem_cons.mp ha with rfl | ha
    · exact ih fun t ht => hts t (by simp [ht])
    · exact ih' (fun t ht => hts t (by simp [ht])) a ha

theorem fits_parse (hΦ : ∀ text x, Φ.strtof text = some x → Φ.RoundTrips x)
    {input : List UInt8} (h : parse Φ input = some v) : Serializer.Fits Φ v := by
  obtain ⟨ts, text, rest, hv, -, hlex⟩ := parse_eq_some_iff.mp h
  obtain ⟨middle, hlex, -⟩ := Lexes.append_iff.mp hlex
  exact hv.fits hΦ (fits_lexes hlex)

/-- **One text for each value.** A document that was accepted is read back
from the text that is written for it, and two of them have the same text
only if they are the same. -/
theorem accepted_canonical (hΦ : ∀ text x, Φ.strtof text = some x → Φ.RoundTrips x)
    {input input' : List UInt8} {w : Json} (hv : parse Φ input = some v)
    (hw : parse Φ input' = some w) :
    parse Φ (compact Φ v) = some v ∧ (compact Φ v = compact Φ w ↔ v = w) := by
  have hvback := parse_compact (fits_parse hΦ hv)
  have hwback := parse_compact (fits_parse hΦ hw)
  refine ⟨hvback, fun heq => ?_, fun heq => by rw [heq]⟩
  rw [heq, hwback] at hvback
  exact (Option.some.inj hvback).symm

theorem accepted_canonical_nestedDocument :
    parse .twoAndAHalf (compact .twoAndAHalf nestedDocument) = some nestedDocument ∧
      (compact .twoAndAHalf nestedDocument = compact .twoAndAHalf .null ↔
        nestedDocument = .null) :=
  accepted_canonical FloatText.twoAndAHalf_roundTrips
    (parse_dump fits_nestedDocument (dump_dumped (by norm_num : (4 : ℤ) ≤ 1024) _))
    (parse_compact (v := .null) trivial)

end

end AmongUs.Json

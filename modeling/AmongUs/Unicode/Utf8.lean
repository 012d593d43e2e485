import Mathlib.Data.List.Forall2
import Mathlib.Data.String.Basic

/-!
UTF-8 as a language of byte strings.

`trailing` is the table of the well-formed sequences: what may follow a
leading byte, as one range for each further byte. A byte string is well
formed if it is cut into such sequences, and this is the case exactly if it
is the encoding of a text, that is, of a list of characters that are no
surrogates.
-/

namespace AmongUs.Utf8

/-- The ranges of the bytes after a leading byte; nothing where no sequence
starts with the byte. -/
def trailing (b : UInt8) : Option (List (UInt8 × UInt8)) :=
  if b ≤ 0x7F then some []
  else if 0xC2 ≤ b ∧ b ≤ 0xDF then some [(0x80, 0xBF)]
  else if b = 0xE0 then some [(0xA0, 0xBF), (0x80, 0xBF)]
  else if b = 0xED then some [(0x80, 0x9F), (0x80, 0xBF)]
  else if 0xE1 ≤ b ∧ b ≤ 0xEF then some [(0x80, 0xBF), (0x80, 0xBF)]
  else if b = 0xF0 then some [(0x90, 0xBF), (0x80, 0xBF), (0x80, 0xBF)]
  else if 0xF1 ≤ b ∧ b ≤ 0xF3 then some [(0x80, 0xBF), (0x80, 0xBF), (0x80, 0xBF)]
  else if b = 0xF4 then some [(0x80, 0x8F), (0x80, 0xBF), (0x80, 0xBF)]
  else none

def Within (b : UInt8) (range : UInt8 × UInt8) : Prop := range.1 ≤ b ∧ b ≤ range.2

instance (b : UInt8) (range : UInt8 × UInt8) : Decidable (Within b range) :=
  inferInstanceAs (Decidable (_ ∧ _))

/-- The bytes of one character. -/
inductive Sequence : List UInt8 → Prop
  | intro {b : UInt8} {bs : List UInt8} {r : List (UInt8 × UInt8)} :
      trailing b = some r → List.Forall₂ Within bs r → Sequence (b :: bs)

inductive WellFormed : List UInt8 → Prop
  | nil : WellFormed []
  | append {bs rest : List UInt8} : Sequence bs → WellFormed rest → WellFormed (bs ++ rest)

/-! ### Byte by byte -/

/-- The ranges still awaited after one more byte. -/
def next : List (UInt8 × UInt8) → UInt8 → Option (List (UInt8 × UInt8))
  | [], b => trailing b
  | range :: ranges, b => if Within b range then some ranges else none

theorem wellFormed_cons_iff {b : UInt8} {s : List UInt8} :
    WellFormed (b :: s) ↔
      ∃ ranges bs rest, trailing b = some ranges ∧ s = bs ++ rest ∧
        List.Forall₂ Within bs ranges ∧ WellFormed rest := by
  constructor
  · intro h
    generalize hs : b :: s = s₀ at h
    cases h with
    | nil => cases hs
    | append hseq hrest =>
        obtain ⟨htrailing, hbs⟩ := hseq
        rw [List.cons_append, List.cons.injEq] at hs
        obtain ⟨rfl, rfl⟩ := hs
        exact ⟨_, _, _, htrailing, rfl, hbs, hrest⟩
  · rintro ⟨ranges, bs, rest, htrailing, rfl, hbs, hrest⟩
    exact .append (.intro htrailing hbs) hrest

/-- Reading byte by byte ends between characters exactly on the strings that
complete what is awaited and go on well formed. -/
theorem foldlM_next_eq_some_nil_iff {ranges : List (UInt8 × UInt8)} {s : List UInt8} :
    s.foldlM next ranges = some [] ↔
      ∃ bs rest, s = bs ++ rest ∧ List.Forall₂ Within bs ranges ∧ WellFormed rest := by
  induction s generalizing ranges with
  | nil =>
      rw [List.foldlM_nil]
      constructor
      · intro h
        obtain rfl := Option.some.inj h
        exact ⟨[], [], rfl, .nil, .nil⟩
      · rintro ⟨bs, rest, hs, hbs, -⟩
        obtain ⟨rfl, rfl⟩ := List.append_eq_nil_iff.mp hs.symm
        cases hbs
        rfl
  | cons b s ih =>
      rw [List.foldlM_cons, Option.bind_eq_bind, Option.bind_eq_some_iff]
      cases ranges with
      | nil =>
          have hcons : (∃ bs rest, b :: s = bs ++ rest ∧ List.Forall₂ Within bs [] ∧
              WellFormed rest) ↔ WellFormed (b :: s) := by
            constructor
            · rintro ⟨bs, rest, hs, hbs, hrest⟩
              obtain rfl := List.forall₂_nil_right_iff.mp hbs
              rwa [hs]
            · exact fun h => ⟨[], _, rfl, .nil, h⟩
          rw [hcons, wellFormed_cons_iff]
          constructor
          · rintro ⟨ranges, hnext, h⟩
            obtain ⟨bs, rest, hs, hbs, hrest⟩ := ih.mp h
            exact ⟨ranges, bs, rest, hnext, hs, hbs, hrest⟩
          · rintro ⟨ranges, bs, rest, hnext, hs, hbs, hrest⟩
            exact ⟨ranges, hnext, ih.mpr ⟨bs, rest, hs, hbs, hrest⟩⟩
      | cons range ranges =>
          simp only [next, Option.ite_none_right_eq_some, Option.some.injEq]
          constructor
          · rintro ⟨_, ⟨hb, rfl⟩, h⟩
            obtain ⟨bs, rest, rfl, hbs, hrest⟩ := ih.mp h
            exact ⟨b :: bs, rest, rfl, .cons hb hbs, hrest⟩
          · rintro ⟨bs, rest, hs, hbs, hrest⟩
            obtain ⟨b', bs', hb, hbs', rfl⟩ := List.forall₂_cons_right_iff.mp hbs
            rw [List.cons_append, List.cons.injEq] at hs
            obtain ⟨rfl, rfl⟩ := hs
            exact ⟨ranges, ⟨hb, rfl⟩, ih.mpr ⟨bs', rest, rfl, hbs', hrest⟩⟩

theorem wellFormed_iff_foldlM_next {s : List UInt8} :
    WellFormed s ↔ s.foldlM next [] = some [] := by
  rw [foldlM_next_eq_some_nil_iff]
  constructor
  · exact fun h => ⟨[], s, rfl, .nil, h⟩
  · rintro ⟨bs, rest, rfl, hbs, hrest⟩
    obtain rfl := List.forall₂_nil_right_iff.mp hbs
    exact hrest

/-! ### Characters -/

theorem exists_char {n : ℕ} (h : n < 0xD800 ∨ 0xDFFF < n ∧ n < 0x110000) :
    ∃ c : Char, c.val.toNat = n := by
  refine ⟨Char.ofNat n, ?_⟩
  rw [Char.ofNat, dif_pos h]
  rfl

theorem Sequence.two {a b : UInt8} (ha : 0xC2 ≤ a.toNat ∧ a.toNat ≤ 0xDF)
    (hb : 0x80 ≤ b.toNat ∧ b.toNat ≤ 0xBF) : ∃ c, String.utf8EncodeChar c = [a, b] := by
  obtain ⟨c, hc⟩ := exists_char (n := (a.toNat - 0xC0) * 64 + (b.toNat - 0x80)) (by omega)
  refine ⟨c, ?_⟩
  rw [String.utf8EncodeChar]
  simp only [hc]
  rw [if_neg (by omega), if_pos (by omega)]
  have h₁ : ((a.toNat - 0xC0) * 64 + (b.toNat - 0x80)) / 64 % 32 + 192 = a.toNat := by omega
  have h₂ : ((a.toNat - 0xC0) * 64 + (b.toNat - 0x80)) % 64 + 128 = b.toNat := by omega
  rw [h₁, h₂, UInt8.ofNat_toNat, UInt8.ofNat_toNat]

theorem Sequence.three {a b d : UInt8} (ha : 0xE0 ≤ a.toNat ∧ a.toNat ≤ 0xEF)
    (hb : 0x80 ≤ b.toNat ∧ b.toNat ≤ 0xBF) (hd : 0x80 ≤ d.toNat ∧ d.toNat ≤ 0xBF)
    (hlong : a.toNat = 0xE0 → 0xA0 ≤ b.toNat)
    (hsurrogate : a.toNat = 0xED → b.toNat ≤ 0x9F) :
    ∃ c, String.utf8EncodeChar c = [a, b, d] := by
  obtain ⟨c, hc⟩ := exists_char
    (n := (a.toNat - 0xE0) * 4096 + (b.toNat - 0x80) * 64 + (d.toNat - 0x80)) (by omega)
  refine ⟨c, ?_⟩
  rw [String.utf8EncodeChar]
  simp only [hc]
  rw [if_neg (by omega), if_neg (by omega), if_pos (by omega)]
  have h₁ : ((a.toNat - 0xE0) * 4096 + (b.toNat - 0x80) * 64 + (d.toNat - 0x80)) / 4096 % 16
      + 224 = a.toNat := by omega
  have h₂ : ((a.toNat - 0xE0) * 4096 + (b.toNat - 0x80) * 64 + (d.toNat - 0x80)) / 64 % 64
      + 128 = b.toNat := by omega
  have h₃ : ((a.toNat - 0xE0) * 4096 + (b.toNat - 0x80) * 64 + (d.toNat - 0x80)) % 64
      + 128 = d.toNat := by omega
  rw [h₁, h₂, h₃, UInt8.ofNat_toNat, UInt8.ofNat_toNat, UInt8.ofNat_toNat]

theorem Sequence.four {a b d e : UInt8} (ha : 0xF0 ≤ a.toNat ∧ a.toNat ≤ 0xF4)
    (hb : 0x80 ≤ b.toNat ∧ b.toNat ≤ 0xBF) (hd : 0x80 ≤ d.toNat ∧ d.toNat ≤ 0xBF)
    (he : 0x80 ≤ e.toNat ∧ e.toNat ≤ 0xBF) (hlong : a.toNat = 0xF0 → 0x90 ≤ b.toNat)
    (hlast : a.toNat = 0xF4 → b.toNat ≤ 0x8F) :
    ∃ c, String.utf8EncodeChar c = [a, b, d, e] := by
  obtain ⟨c, hc⟩ := exists_char
    (n := (a.toNat - 0xF0) * 262144 + (b.toNat - 0x80) * 4096 + (d.toNat - 0x80) * 64
      + (e.toNat - 0x80)) (by omega)
  refine ⟨c, ?_⟩
  rw [String.utf8EncodeChar]
  simp only [hc]
  rw [if_neg (by omega), if_neg (by omega), if_neg (by omega)]
  have h₁ : ((a.toNat - 0xF0) * 262144 + (b.toNat - 0x80) * 4096 + (d.toNat - 0x80) * 64
      + (e.toNat - 0x80)) / 262144 % 8 + 240 = a.toNat := by omega
  have h₂ : ((a.toNat - 0xF0) * 262144 + (b.toNat - 0x80) * 4096 + (d.toNat - 0x80) * 64
      + (e.toNat - 0x80)) / 4096 % 64 + 128 = b.toNat := by omega
  have h₃ : ((a.toNat - 0xF0) * 262144 + (b.toNat - 0x80) * 4096 + (d.toNat - 0x80) * 64
      + (e.toNat - 0x80)) / 64 % 64 + 128 = d.toNat := by omega
  have h₄ : ((a.toNat - 0xF0) * 262144 + (b.toNat - 0x80) * 4096 + (d.toNat - 0x80) * 64
      + (e.toNat - 0x80)) % 64 + 128 = e.toNat := by omega
  rw [h₁, h₂, h₃, h₄, UInt8.ofNat_toNat, UInt8.ofNat_toNat, UInt8.ofNat_toNat,
    UInt8.ofNat_toNat]

theorem within_iff {b lo hi : UInt8} :
    Within b (lo, hi) ↔ lo.toNat ≤ b.toNat ∧ b.toNat ≤ hi.toNat := by
  rw [Within, UInt8.le_iff_toNat_le, UInt8.le_iff_toNat_le]

/-- A well-formed sequence is the encoding of a character. -/
theorem Sequence.exists_char {bs : List UInt8} (h : Sequence bs) :
    ∃ c, String.utf8EncodeChar c = bs := by
  obtain ⟨htrailing, hbs⟩ := h
  rename_i b bs ranges
  simp only [trailing, UInt8.le_iff_toNat_le, ← UInt8.toNat_inj, UInt8.reduceToNat] at htrailing
  have hb := b.toNat_lt
  split_ifs at htrailing
  all_goals
    obtain rfl := Option.some.inj htrailing
    simp only [List.forall₂_cons_right_iff, List.forall₂_nil_right_iff, within_iff,
      UInt8.reduceToNat] at hbs
  · subst hbs
    obtain ⟨c, hc⟩ := Utf8.exists_char (n := b.toNat) (by omega)
    refine ⟨c, ?_⟩
    rw [String.utf8EncodeChar]
    simp only [hc]
    rw [if_pos (by omega), UInt8.ofNat_toNat]
  · obtain ⟨d, _, hd, rfl, rfl⟩ := hbs
    exact Sequence.two (by omega) hd
  all_goals try
    obtain ⟨d, _, hd, ⟨e, _, he, rfl, rfl⟩, rfl⟩ := hbs
    exact Sequence.three (by omega) (by omega) he (by omega) (by omega)
  all_goals
    obtain ⟨d, _, hd, ⟨e, _, he, ⟨f, _, hf, rfl, rfl⟩, rfl⟩, rfl⟩ := hbs
    exact Sequence.four (by omega) (by omega) he hf (by omega) (by omega)

theorem within_ofNat {n : ℕ} (hn : n < 256) {lo hi : UInt8} (hlo : lo.toNat ≤ n)
    (hhi : n ≤ hi.toNat) : Within (UInt8.ofNat n) (lo, hi) := by
  rw [within_iff, UInt8.toNat_ofNat', Nat.mod_eq_of_lt hn]
  exact ⟨hlo, hhi⟩

theorem sequence_utf8EncodeChar (c : Char) : Sequence (String.utf8EncodeChar c) := by
  have hvalid : c.val.toNat < 0xD800 ∨ 0xDFFF < c.val.toNat ∧ c.val.toNat < 0x110000 := c.valid
  rw [String.utf8EncodeChar]
  generalize c.val.toNat = v at hvalid
  have hlead {n : ℕ} (hn : n < 256) : (UInt8.ofNat n).toNat = n := by
    rw [UInt8.toNat_ofNat', Nat.mod_eq_of_lt hn]
  have htail {n : ℕ} (hn : n < 64) : Within (UInt8.ofNat (n + 128)) (0x80, 0xBF) :=
    within_ofNat (by omega) (by simp) (by simp; omega)
  split_ifs with h₁ h₂ h₃
  · refine .intro (r := []) ?_ .nil
    rw [trailing, if_pos]
    rw [UInt8.le_iff_toNat_le, hlead (by omega)]
    exact h₁
  · refine .intro (r := [(0x80, 0xBF)]) ?_ (.cons (htail (by omega)) .nil)
    simp only [trailing, UInt8.le_iff_toNat_le, ← UInt8.toNat_inj, UInt8.reduceToNat,
      hlead (show v / 64 % 32 + 192 < 256 by omega)]
    rw [if_neg (by omega), if_pos (by omega)]
  · rcases (show v / 4096 = 0 ∨ v / 4096 = 13 ∨ v / 4096 ≠ 0 ∧ v / 4096 ≠ 13 by omega)
      with hq | hq | hq
    · refine .intro (r := [(0xA0, 0xBF), (0x80, 0xBF)]) ?_
        (.cons (within_ofNat (by omega) (by simp; omega) (by simp; omega))
          (.cons (htail (by omega)) .nil))
      rw [hq]
      rfl
    · refine .intro (r := [(0x80, 0x9F), (0x80, 0xBF)]) ?_
        (.cons (within_ofNat (by omega) (by simp) (by simp; omega))
          (.cons (htail (by omega)) .nil))
      rw [hq]
      rfl
    · refine .intro (r := [(0x80, 0xBF), (0x80, 0xBF)]) ?_
        (.cons (htail (by omega)) (.cons (htail (by omega)) .nil))
      simp only [trailing, UInt8.le_iff_toNat_le, ← UInt8.toNat_inj, UInt8.reduceToNat,
        hlead (show v / 4096 % 16 + 224 < 256 by omega)]
      rw [if_neg (by omega), if_neg (by omega), if_neg (by omega), if_neg (by omega),
        if_pos (by omega)]
  · rcases (show v / 262144 = 0 ∨ v / 262144 = 4 ∨ 1 ≤ v / 262144 ∧ v / 262144 ≤ 3 by omega)
      with hq | hq | hq
    · refine .intro (r := [(0x90, 0xBF), (0x80, 0xBF), (0x80, 0xBF)]) ?_
        (.cons (within_ofNat (by omega) (by simp; omega) (by simp; omega))
          (.cons (htail (by omega)) (.cons (htail (by omega)) .nil)))
      rw [hq]
      rfl
    · refine .intro (r := [(0x80, 0x8F), (0x80, 0xBF), (0x80, 0xBF)]) ?_
        (.cons (within_ofNat (by omega) (by simp) (by simp; omega))
          (.cons (htail (by omega)) (.cons (htail (by omega)) .nil)))
      rw [hq]
      rfl
    · refine .intro (r := [(0x80, 0xBF), (0x80, 0xBF), (0x80, 0xBF)]) ?_
        (.cons (htail (by omega)) (.cons (htail (by omega)) (.cons (htail (by omega)) .nil)))
      simp only [trailing, UInt8.le_iff_toNat_le, ← UInt8.toNat_inj, UInt8.reduceToNat,
        hlead (show v / 262144 % 8 + 240 < 256 by omega)]
      rw [if_neg (by omega), if_neg (by omega), if_neg (by omega), if_neg (by omega),
        if_neg (by omega), if_neg (by omega), if_pos (by omega)]

/-! ### Texts -/

theorem WellFormed.single {bs : List UInt8} (h : Sequence bs) : WellFormed bs := by
  simpa using WellFormed.append h .nil

theorem WellFormed.append_wellFormed {bs bs' : List UInt8} (h : WellFormed bs)
    (h' : WellFormed bs') :
    WellFormed (bs ++ bs') := by
  induction h with
  | nil => exact h'
  | append hseq _ ih =>
      rw [List.append_assoc]
      exact .append hseq ih

theorem wellFormed_flatMap (cs : List Char) : WellFormed (cs.flatMap String.utf8EncodeChar) := by
  induction cs with
  | nil => exact .nil
  | cons c cs ih => exact .append (sequence_utf8EncodeChar c) ih

theorem WellFormed.exists_chars {bs : List UInt8} (h : WellFormed bs) :
    ∃ cs : List Char, cs.flatMap String.utf8EncodeChar = bs := by
  induction h with
  | nil => exact ⟨[], rfl⟩
  | append hseq _ ih =>
      obtain ⟨c, rfl⟩ := hseq.exists_char
      obtain ⟨cs, rfl⟩ := ih
      exact ⟨c :: cs, rfl⟩

/-- The bytes of a text. -/
def bytes (s : String) : List UInt8 := s.toByteArray.data.toList

/-- The text of some bytes, if they are one. -/
def text? (bs : List UInt8) : Option String := String.fromUTF8? ⟨bs.toArray⟩

theorem bytes_eq_flatMap (s : String) : bytes s = s.toList.flatMap String.utf8EncodeChar := by
  rw [bytes, ← String.utf8Encode_toList, List.utf8Encode, List.toList_data_toByteArray]

theorem wellFormed_bytes (s : String) : WellFormed (bytes s) := by
  rw [bytes_eq_flatMap]
  exact wellFormed_flatMap _

theorem text?_eq_some_iff {bs : List UInt8} {s : String} : text? bs = some s ↔ bytes s = bs := by
  constructor
  · intro h
    rw [text?, String.fromUTF8?] at h
    split at h
    · obtain rfl := Option.some.inj h
      rfl
    · cases h
  · rintro rfl
    rw [text?, String.fromUTF8?]
    exact dif_pos s.isValidUTF8

@[simp] theorem text?_bytes (s : String) : text? (bytes s) = some s := text?_eq_some_iff.mpr rfl

theorem bytes_injective {s t : String} (h : bytes s = bytes t) : s = t := by
  have hs := text?_bytes s
  rw [h, text?_bytes] at hs
  exact (Option.some.inj hs).symm

/-- The byte strings that are texts are the well-formed ones. -/
theorem isSome_text?_iff {bs : List UInt8} : (text? bs).isSome ↔ WellFormed bs := by
  constructor
  · intro h
    obtain ⟨s, hs⟩ := Option.isSome_iff_exists.mp h
    rw [← text?_eq_some_iff.mp hs]
    exact wellFormed_bytes s
  · intro h
    obtain ⟨cs, hcs⟩ := h.exists_chars
    have hbytes : bytes (String.ofList cs) = bs := by
      rw [bytes_eq_flatMap, String.toList_ofList, hcs]
    rw [text?_eq_some_iff.mpr hbytes]
    rfl

end AmongUs.Utf8

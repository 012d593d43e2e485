import AmongUs.Json.Escaping
import AmongUs.Json.Grammar
import AmongUs.Json.Numbers
import Mathlib.Data.List.OfFn

/-!
The serializer of the JSON library, and that its text is read back.

`dump` writes a value on one line or, when it prints prettily, with a line
for each element. The indent of a line is read from `indent_string`, which
starts with 512 characters and is made twice as long, once, where a container
needs more. So it goes with the text as a state, and a read beyond its end
has no result. An indent of up to 1024 never gets there (`runsAt_dump`).

`tokens` is the value as a list of tokens, without any white space: it
derives the value in the grammar, and the text lexes to it in either form
(`writes_dump`). So the parser, which recognises the grammar, reads the value
back. This takes that the integers are in the range of the library and that
the floating point numbers come back as themselves.
-/

namespace AmongUs.Json

open Utf8 Lexer AmongUs.Json.Parser

namespace Serializer

/-- The elements one after the other, with a separator but after the last. -/
def joined {α : Type} (separator : List α) : List (List α) → List α
  | [] => []
  | [x] => x
  | x :: y :: xs => x ++ separator ++ joined separator (y :: xs)

theorem isSome_dumpEscaped (s : String) : (dumpEscaped (bytes s)).isSome := by
  rw [dumpEscaped_eq_some_iff.mpr ⟨wellFormed_bytes s, rfl⟩]
  rfl

/-- A string between quotes. -/
def dumpString (s : String) : List UInt8 :=
  0x22 :: ((dumpEscaped (bytes s)).get (isSome_dumpEscaped s) ++ [0x22])

theorem dumpString_eq (s : String) : dumpString s = 0x22 :: (escape (bytes s) ++ [0x22]) := by
  have h := dumpEscaped_eq_some_iff.mpr ⟨wellFormed_bytes s, rfl⟩
  simp only [dumpString, h, Option.get_some]

def spaces (indent : ℕ) : List UInt8 := List.replicate indent 0x20

/-- What is written, with the length of `indent_string` before and after. -/
structure Writer where
  run : ℕ → Option (List UInt8 × ℕ)

def writeCharacters (s : List UInt8) : Writer := ⟨fun size => some (s, size)⟩

/-- The first characters of `indent_string`. Behind them stands the
terminator, and then memory of others. -/
def writeIndent (indent : ℕ) : Writer :=
  ⟨fun size => if indent ≤ size then some (spaces indent, size) else none⟩

/-- The length of `indent_string` where a container has asked for an indent. -/
def grown (size newIndent : ℕ) : ℕ := if size < newIndent then size * 2 else size

def growIndent (newIndent : ℕ) : Writer := ⟨fun size => some ([], grown size newIndent)⟩

instance : Append Writer where
  append x y := ⟨fun size => do
    let (text, size) ← x.run size
    let (text', size) ← y.run size
    return (text ++ text', size)⟩

/-- The elements one after the other, each with what the last one left. -/
def writeAll (separator : List UInt8) : List Writer → Writer
  | [] => writeCharacters []
  | [x] => x
  | x :: y :: xs => x ++ writeCharacters separator ++ writeAll separator (y :: xs)

/-- A container that is not empty, on one line. -/
def writeLine (first last : UInt8) (elements : List Writer) : Writer :=
  writeCharacters [first] ++ (writeAll [0x2C] elements ++ writeCharacters [last])

/-- A container that is not empty, with a line for each element. -/
def writeLines (first last : UInt8) (currentIndent newIndent : ℕ) (elements : List Writer) :
    Writer :=
  writeCharacters [first, 0x0A] ++ (growIndent newIndent ++
    (writeAll [0x2C, 0x0A] (elements.map fun x => writeIndent newIndent ++ x) ++
      (writeCharacters [0x0A] ++ (writeIndent currentIndent ++ writeCharacters [last]))))

/-- The indents are of type `unsigned int`. -/
def dump (Φ : FloatText) (prettyPrint : Bool) (indentStep : ℕ) : Json → ℕ → Writer
  | .null, _ => writeCharacters [0x6E, 0x75, 0x6C, 0x6C]
  | .boolean true, _ => writeCharacters [0x74, 0x72, 0x75, 0x65]
  | .boolean false, _ => writeCharacters [0x66, 0x61, 0x6C, 0x73, 0x65]
  | .integer n, _ => writeCharacters (dumpInteger n)
  | .float x, _ => writeCharacters (Φ.dumpFloat x)
  | .string s, _ => writeCharacters (dumpString s)
  | .array size elem, currentIndent =>
      if size = 0 then writeCharacters [0x5B, 0x5D]
      else if prettyPrint then
        let newIndent := (currentIndent + indentStep) % 2 ^ 32
        writeLines 0x5B 0x5D currentIndent newIndent (List.ofFn fun i =>
          dump Φ prettyPrint indentStep (elem i) newIndent)
      else
        writeLine 0x5B 0x5D (List.ofFn fun i =>
          dump Φ prettyPrint indentStep (elem i) currentIndent)
  | .object keys _ value, currentIndent =>
      if keys.length = 0 then writeCharacters [0x7B, 0x7D]
      else if prettyPrint then
        let newIndent := (currentIndent + indentStep) % 2 ^ 32
        writeLines 0x7B 0x7D currentIndent newIndent (List.ofFn fun i =>
          writeCharacters (dumpString (keys.get i) ++ [0x3A, 0x20]) ++
            dump Φ prettyPrint indentStep (value i) newIndent)
      else
        writeLine 0x7B 0x7D (List.ofFn fun i =>
          writeCharacters (dumpString (keys.get i) ++ [0x3A]) ++
            dump Φ prettyPrint indentStep (value i) currentIndent)

/-- The tokens of a value, as they are written. -/
def tokens : Json → List Token
  | .null => [.literalNull]
  | .boolean true => [.literalTrue]
  | .boolean false => [.literalFalse]
  | .integer n => [integerToken n]
  | .float x => [.valueFloat (some x)]
  | .string s => [.valueString (bytes s)]
  | .array _ elem =>
      .beginArray :: (joined [.valueSeparator] (List.ofFn fun i => tokens (elem i)) ++
        [.endArray])
  | .object keys _ value =>
      .beginObject :: (joined [.valueSeparator] (List.ofFn fun i =>
        .valueString (bytes (keys.get i)) :: .nameSeparator :: tokens (value i)) ++ [.endObject])

/-- The library can hold the integers, and its text of the floating point
numbers is read back. -/
def Fits (Φ : FloatText) : Json → Prop
  | .integer n => InRange n
  | .float x => Φ.RoundTrips x
  | .array _ elem => ∀ i, Fits Φ (elem i)
  | .object _ _ value => ∀ i, Fits Φ (value i)
  | _ => True

end Serializer

/-! ### The tokens derive the value -/

open Serializer

theorem array_congr {n m : ℕ} {f : Fin n → Json} {g : Fin m → Json} (h : n = m)
    (hfg : ∀ i, f i = g (i.cast h)) : Json.array n f = .array m g := by
  subst h
  congr 1
  exact funext hfg

theorem object_congr {keys keys' : List String} {s : keys.Pairwise (· < ·)}
    {s' : keys'.Pairwise (· < ·)} {f : Fin keys.length → Json} {g : Fin keys'.length → Json}
    (h : keys = keys') (hfg : ∀ i, f i = g (i.cast (congrArg List.length h))) :
    Json.object keys s f = .object keys' s' g := by
  subst h
  congr 1
  exact funext hfg

theorem get_of_eq_ofFn {α : Type} {l : List α} {n : ℕ} {f : Fin n → α} (h : l = List.ofFn f)
    (i : Fin l.length) : l.get i = f (i.cast (by rw [h, List.length_ofFn])) := by
  subst h
  simp
  rfl

theorem ofList_ofFn {n : ℕ} (f : Fin n → Json) : ofList (List.ofFn f) = .array n f :=
  array_congr List.length_ofFn fun i => get_of_eq_ofFn rfl i

theorem Members.insertList_append {list : List (String × Json)} {key : String} {v : Json}
    (h : ∀ a ∈ list, a.1 < key) : insertList key v list = list ++ [(key, v)] := by
  induction list with
  | nil => rfl
  | cons b list ih =>
      have hb := h b List.mem_cons_self
      rw [insertList, if_neg (not_lt.mpr hb.le), if_neg (ne_of_gt hb),
        ih fun a ha => h a (List.mem_cons_of_mem _ ha)]
      rfl

/-- Pairs in the order of their keys are put one after the other. -/
theorem Members.list_insertAll {ms : Members} {pairs : List (String × Json)}
    (h : (ms.list ++ pairs).Pairwise fun a b => a.1 < b.1) :
    (ms.insertAll pairs).list = ms.list ++ pairs := by
  induction pairs generalizing ms with
  | nil => exact (List.append_nil _).symm
  | cons a pairs ih =>
      have hlist : (ms.insert a.1 a.2).list = ms.list ++ [a] :=
        insertList_append fun b hb => (List.pairwise_append.mp h).2.2 b hb a List.mem_cons_self
      have hassoc : ms.list ++ a :: pairs = (ms.list ++ [a]) ++ pairs := by simp
      rw [hassoc, ← hlist] at h
      rw [hassoc, ← hlist]
      exact ih h

theorem ofMembers_insertAll {keys : List String} (sorted : keys.Pairwise (· < ·))
    (value : Fin keys.length → Json) :
    ofMembers (Members.empty.insertAll (List.ofFn fun i => (keys.get i, value i))) =
      .object keys sorted value := by
  have hkeys : (List.ofFn fun i => (keys.get i, value i)).map Prod.fst = keys := by
    rw [List.map_ofFn]
    exact List.ofFn_get keys
  have hsorted : (List.ofFn fun i => (keys.get i, value i)).Pairwise fun a b => a.1 < b.1 :=
    List.pairwise_map.mp (by rw [hkeys]; exact sorted)
  have hlist : (Members.empty.insertAll (List.ofFn fun i => (keys.get i, value i))).list =
      List.ofFn fun i => (keys.get i, value i) := Members.list_insertAll hsorted
  refine object_congr (by rw [hlist, hkeys]) fun i => ?_
  rw [get_of_eq_ofFn hlist]
  rfl

theorem elements_joined {tss : List (List Token)} {vs : List Json}
    (h : List.Forall₂ Value tss vs) (hne : vs ≠ []) :
    Elements (joined [.valueSeparator] tss) vs := by
  induction h with
  | nil => exact absurd rfl hne
  | cons hv hrest ih =>
      cases hrest with
      | nil => exact .one hv
      | cons hv' hrest =>
          rw [joined, List.append_assoc]
          exact .more hv (ih (by simp))

theorem pairs_joined {tss : List (List Token)} {pairs : List (String × Json)}
    (h : List.Forall₂ (fun ts a => ∃ us, ts = .valueString (bytes a.1) :: .nameSeparator :: us ∧
      Value us a.2) tss pairs) (hne : pairs ≠ []) :
    Pairs (joined [.valueSeparator] tss) pairs := by
  induction h with
  | nil => exact absurd rfl hne
  | @cons _ _ _ pairs' hv hrest ih =>
      obtain ⟨us, rfl, hv⟩ := hv
      cases hrest with
      | nil => exact .one hv
      | cons hv' hrest =>
          rw [joined, List.append_assoc]
          exact .more hv (ih (by simp))

theorem forall₂_ofFn {α β : Type} {R : α → β → Prop} {n : ℕ} {f : Fin n → α} {g : Fin n → β}
    (h : ∀ i, R (f i) (g i)) : List.Forall₂ R (List.ofFn f) (List.ofFn g) := by
  rw [List.forall₂_iff_get]
  refine ⟨by simp, fun i hi hi' => ?_⟩
  simpa using h _

/-- The tokens derive the value. -/
theorem value_tokens (v : Json) : Value (tokens v) v := by
  induction v with
  | null => exact .scalar rfl
  | boolean b => cases b <;> exact .scalar rfl
  | integer n =>
      rw [tokens, integerToken]
      split
      · exact .scalar rfl
      · refine .scalar ?_
        rw [Token.scalar]
        congr 2
        omega
  | float x => exact .scalar rfl
  | string s => exact .scalar (by rw [Token.scalar, text?_bytes]; rfl)
  | array size elem ih =>
      rw [tokens]
      cases size with
      | zero =>
          have hnil : Json.array 0 elem = ofList [] := array_congr rfl fun i => i.elim0
          rw [hnil]
          exact .emptyArray
      | succ n =>
          rw [← ofList_ofFn elem]
          exact .array (elements_joined (forall₂_ofFn ih) (by simp))
  | object keys sorted value ih =>
      rw [tokens]
      cases keys with
      | nil =>
          have hnil : Json.object [] sorted value = ofMembers .empty :=
            object_congr rfl fun i => i.elim0
          rw [hnil]
          exact .emptyObject
      | cons key keys =>
          rw [← ofMembers_insertAll sorted value]
          exact .object (pairs_joined (forall₂_ofFn fun i => ⟨_, rfl, ih i⟩) (by simp))

/-! ### The text lexes to the tokens -/

section

variable {Φ : FloatText}

/-- Reading the text in front of anything that ends a number takes the
tokens off it. -/
def Writes (Φ : FloatText) (text : List UInt8) (ts : List Token) : Prop :=
  ts ≠ [] ∧ ∀ rest, EndsNumber rest → Lexes Φ (text ++ rest) ts rest

namespace Writes

variable {text text' white : List UInt8} {t : Token} {ts us : List Token} {b : UInt8}

theorem one (h : ∀ rest, EndsNumber rest → scan Φ (text ++ rest) = some (t, rest)) :
    Writes Φ text [t] :=
  ⟨by simp, fun rest hrest => .cons (h rest hrest) .nil⟩

theorem cons (hb : ∀ rest, scan Φ (b :: rest) = some (t, rest)) (h : Writes Φ text ts) :
    Writes Φ (b :: text) (t :: ts) :=
  ⟨by simp, fun rest hrest => .cons (hb _) (h.2 rest hrest)⟩

/-- The second text starts with a byte that no number goes on with. -/
theorem append (h : Writes Φ text ts) (h' : Writes Φ (b :: text') us)
    (hb : ∀ state, NumberState.next state b = none) :
    Writes Φ (text ++ b :: text') (ts ++ us) := by
  refine ⟨by simp [h.1], fun rest hrest => ?_⟩
  rw [List.append_assoc]
  exact (h.2 _ (endsNumber_cons _ hb)).append (h'.2 rest hrest)

theorem whitespace (hwhite : ∀ b ∈ white, isWhitespace b = true) (h : Writes Φ text ts) :
    Writes Φ (white ++ text) ts := by
  obtain ⟨hne, h⟩ := h
  refine ⟨hne, fun rest hrest => ?_⟩
  obtain ⟨t, ts, rfl⟩ := List.exists_cons_of_ne_nil hne
  obtain ⟨rest', hscan, hlex⟩ := Lexes.cons_iff.mp (h rest hrest)
  refine .cons ?_ hlex
  rw [scan, skipWhitespace, List.append_assoc, List.dropWhile_append_of_pos hwhite]
  exact hscan

end Writes

theorem isWhitespace_spaces (n : ℕ) : ∀ b ∈ spaces n, isWhitespace b = true := by
  intro b hb
  rw [List.eq_of_mem_replicate hb]
  rfl

theorem next_comma : ∀ state, NumberState.next state 0x2C = none := by
  intro state
  cases state <;> rfl

theorem next_newline : ∀ state, NumberState.next state 0x0A = none := by
  intro state
  cases state <;> rfl

theorem next_bracket : ∀ state, NumberState.next state 0x5D = none := by
  intro state
  cases state <;> rfl

theorem next_brace : ∀ state, NumberState.next state 0x7D = none := by
  intro state
  cases state <;> rfl

theorem next_colon : ∀ state, NumberState.next state 0x3A = none := by
  intro state
  cases state <;> rfl

/-- Elements with a comma and white space between them. -/
theorem writes_joined {white : List UInt8} (hwhite : ∀ b ∈ white, isWhitespace b = true)
    {texts : List (List UInt8)} {tss : List (List Token)}
    (h : List.Forall₂ (Writes Φ) texts tss) (hne : texts ≠ []) :
    Writes Φ (joined (0x2C :: white) texts) (joined [.valueSeparator] tss) := by
  induction h with
  | nil => exact absurd rfl hne
  | cons hx hrest ih =>
      cases hrest with
      | nil => exact hx
      | cons hy hrest =>
          rw [joined, joined, List.append_assoc, List.append_assoc]
          exact hx.append (.cons (fun _ => rfl) ((ih (by simp)).whitespace hwhite)) next_comma

theorem writes_dumpString (s : String) : Writes Φ (dumpString s) [.valueString (bytes s)] := by
  apply Writes.one
  intro rest _
  rw [dumpString_eq, List.cons_append, List.append_assoc]
  exact scanToken_quoted Φ (wellFormed_bytes s) rest

theorem writes_member {white text : List UInt8} {ts : List Token} (key : String)
    (hwhite : ∀ b ∈ white, isWhitespace b = true) (h : Writes Φ text ts) :
    Writes Φ (dumpString key ++ (0x3A :: white ++ text))
      (.valueString (bytes key) :: .nameSeparator :: ts) :=
  (writes_dumpString key).append (.cons (fun _ => rfl) (h.whitespace hwhite)) next_colon

/-- A container on one line, or over several. -/
theorem writes_line {texts : List (List UInt8)} {tss : List (List Token)} {first last : UInt8}
    {t t' : Token} (h : List.Forall₂ (Writes Φ) texts tss) (hne : texts ≠ [])
    (hfirst : ∀ rest, scan Φ (first :: rest) = some (t, rest))
    (hlast : ∀ rest, scan Φ (last :: rest) = some (t', rest))
    (hends : ∀ state, NumberState.next state last = none) :
    Writes Φ (first :: (joined [0x2C] texts ++ [last]))
      (t :: (joined [.valueSeparator] tss ++ [t'])) :=
  .cons hfirst ((writes_joined (by simp) h hne).append (.one fun rest _ => hlast rest) hends)

theorem writes_lines {texts : List (List UInt8)} {tss : List (List Token)} {first last : UInt8}
    {t t' : Token} (h : List.Forall₂ (Writes Φ) texts tss) (hne : texts ≠ [])
    (hfirst : ∀ rest, scan Φ (first :: rest) = some (t, rest))
    (hlast : ∀ rest, scan Φ (last :: rest) = some (t', rest)) (indent : ℕ) :
    Writes Φ (first :: 0x0A :: (joined [0x2C, 0x0A] texts ++ 0x0A :: (spaces indent ++ [last])))
      (t :: (joined [.valueSeparator] tss ++ [t'])) := by
  have hnewline : ∀ b ∈ [(0x0A : UInt8)], isWhitespace b = true :=
    List.forall_mem_singleton.mpr rfl
  have hend : Writes Φ (0x0A :: (spaces indent ++ [last])) [t'] :=
    .whitespace hnewline (.whitespace (isWhitespace_spaces indent) (.one fun rest _ => hlast rest))
  exact .cons hfirst (.whitespace hnewline
    ((writes_joined hnewline h hne).append hend next_newline))

/-! ### What a writer writes -/

variable {x y : Writer} {xs : List Writer} {size size' newIndent : ℕ} {text : List UInt8}
  {ts : List Token} {v : Json}

theorem append_eq_some : (x ++ y).run size = some (text, size') ↔
    ∃ u m w, x.run size = some (u, m) ∧ y.run m = some (w, size') ∧ text = u ++ w := by
  change (x.run size >>= fun r => y.run r.2 >>= fun r' => some (r.1 ++ r'.1, r'.2)) = _ ↔ _
  simp only [Option.bind_eq_bind, Option.bind_eq_some_iff, Prod.exists, Option.some.injEq,
    Prod.mk.injEq]
  constructor
  · rintro ⟨u, m, hx, w, m', hy, rfl, rfl⟩
    exact ⟨u, m, w, hx, hy, rfl⟩
  · rintro ⟨u, m, w, hx, hy, rfl⟩
    exact ⟨u, m, hx, w, size', hy, rfl, rfl⟩

theorem writeCharacters_eq_some {s : List UInt8} :
    (writeCharacters s).run size = some (text, size') ↔ text = s ∧ size' = size := by
  rw [writeCharacters, Option.some.injEq, Prod.mk.injEq, eq_comm, eq_comm (a := size)]

theorem writeIndent_eq_some {indent : ℕ} : (writeIndent indent).run size = some (text, size') ↔
    indent ≤ size ∧ text = spaces indent ∧ size' = size := by
  rw [writeIndent, Option.ite_none_right_eq_some, Option.some.injEq, Prod.mk.injEq,
    eq_comm (b := text), eq_comm (b := size')]

/-- The elements are written one after the other. -/
theorem writeAll_eq_some {separator : List UInt8}
    (h : (writeAll separator xs).run size = some (text, size')) :
    ∃ texts, text = joined separator texts ∧
      List.Forall₂ (fun x u => ∃ m m', x.run m = some (u, m')) xs texts := by
  induction xs generalizing size text with
  | nil =>
      obtain ⟨rfl, rfl⟩ := writeCharacters_eq_some.mp h
      exact ⟨[], rfl, .nil⟩
  | cons x xs ih =>
      cases xs with
      | nil => exact ⟨[text], rfl, .cons ⟨size, size', h⟩ .nil⟩
      | cons y ys =>
          rw [writeAll] at h
          obtain ⟨u, m, w, hfirst, hrest, rfl⟩ := append_eq_some.mp h
          obtain ⟨u, m', w', hx, hseparator, rfl⟩ := append_eq_some.mp hfirst
          obtain ⟨rfl, rfl⟩ := writeCharacters_eq_some.mp hseparator
          obtain ⟨texts, rfl, htexts⟩ := ih hrest
          refine ⟨u :: texts, ?_, .cons ⟨size, m, hx⟩ htexts⟩
          obtain ⟨w, ws, rfl⟩ := List.exists_cons_of_ne_nil
            (show texts ≠ [] from fun hnil => by rw [hnil] at htexts; cases htexts)
          rfl

/-- Whatever is written has the tokens. -/
def Prints (Φ : FloatText) (x : Writer) (ts : List Token) : Prop :=
  ∀ ⦃size text size'⦄, x.run size = some (text, size') → Writes Φ text ts

theorem prints_writeCharacters {s : List UInt8} (h : Writes Φ s ts) :
    Prints Φ (writeCharacters s) ts := by
  intro size text size' hwritten
  obtain ⟨rfl, -⟩ := writeCharacters_eq_some.mp hwritten
  exact h

theorem prints_indent {indent : ℕ} (h : Prints Φ x ts) :
    Prints Φ (writeIndent indent ++ x) ts := by
  intro size text size' hwritten
  obtain ⟨u, m, w, hindent, hx, rfl⟩ := append_eq_some.mp hwritten
  obtain ⟨-, rfl, rfl⟩ := writeIndent_eq_some.mp hindent
  exact (h hx).whitespace (isWhitespace_spaces indent)

theorem prints_member {white : List UInt8} (key : String)
    (hwhite : ∀ b ∈ white, isWhitespace b = true) (h : Prints Φ x ts) :
    Prints Φ (writeCharacters (dumpString key ++ 0x3A :: white) ++ x)
      (.valueString (bytes key) :: .nameSeparator :: ts) := by
  intro size text size' hwritten
  obtain ⟨u, m, w, hkey, hx, rfl⟩ := append_eq_some.mp hwritten
  obtain ⟨rfl, rfl⟩ := writeCharacters_eq_some.mp hkey
  rw [List.append_assoc]
  exact writes_member key hwhite (h hx)

theorem forall₂_writes {texts : List (List UInt8)} {tss : List (List Token)}
    (h : List.Forall₂ (Prints Φ) xs tss)
    (htexts : List.Forall₂ (fun x u => ∃ m m', x.run m = some (u, m')) xs texts) :
    List.Forall₂ (Writes Φ) texts tss := by
  induction h generalizing texts with
  | nil =>
      cases htexts
      exact .nil
  | cons hx _ ih =>
      cases htexts with
      | cons hu hrest =>
          obtain ⟨m, m', hu⟩ := hu
          exact .cons (hx hu) (ih hrest)

section

variable {tss : List (List Token)} {first last : UInt8} {t t' : Token}

theorem ne_nil_of_forall₂ {α β : Type} {R : α → β → Prop} {as : List α} {bs : List β}
    (h : List.Forall₂ R as bs) (hne : as ≠ []) : bs ≠ [] := by
  cases h with
  | nil => exact absurd rfl hne
  | cons _ _ => simp

theorem writeLine_eq_some (h : (writeLine first last xs).run size = some (text, size')) :
    ∃ texts, text = first :: (joined [0x2C] texts ++ [last]) ∧
      List.Forall₂ (fun x u => ∃ m m', x.run m = some (u, m')) xs texts := by
  obtain ⟨u₁, m₁, w₁, hopen, hrest, rfl⟩ := append_eq_some.mp h
  obtain ⟨u₂, m₂, w₂, hall, hclose, rfl⟩ := append_eq_some.mp hrest
  obtain ⟨rfl, -⟩ := writeCharacters_eq_some.mp hopen
  obtain ⟨texts, rfl, htexts⟩ := writeAll_eq_some hall
  obtain ⟨rfl, -⟩ := writeCharacters_eq_some.mp hclose
  exact ⟨texts, rfl, htexts⟩

theorem writeLines_eq_some {indent : ℕ}
    (h : (writeLines first last indent newIndent xs).run size = some (text, size')) :
    ∃ texts, text = first :: 0x0A :: (joined [0x2C, 0x0A] texts ++
        0x0A :: (spaces indent ++ [last])) ∧
      List.Forall₂ (fun x u => ∃ m m', x.run m = some (u, m'))
        (xs.map fun x => writeIndent newIndent ++ x) texts := by
  obtain ⟨u₁, m₁, w₁, hopen, hrest₁, rfl⟩ := append_eq_some.mp h
  obtain ⟨u₂, m₂, w₂, hgrow, hrest₂, rfl⟩ := append_eq_some.mp hrest₁
  obtain ⟨u₃, m₃, w₃, hall, hrest₃, rfl⟩ := append_eq_some.mp hrest₂
  obtain ⟨u₄, m₄, w₄, hnewline, hrest₄, rfl⟩ := append_eq_some.mp hrest₃
  obtain ⟨u₅, m₅, w₅, hindent, hclose, rfl⟩ := append_eq_some.mp hrest₄
  obtain ⟨rfl, -⟩ := writeCharacters_eq_some.mp hopen
  obtain ⟨rfl, -⟩ := Prod.mk.inj (Option.some.inj hgrow)
  obtain ⟨texts, rfl, htexts⟩ := writeAll_eq_some hall
  obtain ⟨rfl, -⟩ := writeCharacters_eq_some.mp hnewline
  obtain ⟨-, rfl, -⟩ := writeIndent_eq_some.mp hindent
  obtain ⟨rfl, -⟩ := writeCharacters_eq_some.mp hclose
  exact ⟨texts, rfl, htexts⟩

theorem prints_writeLine (h : List.Forall₂ (Prints Φ) xs tss) (hne : xs ≠ [])
    (hfirst : ∀ rest, scan Φ (first :: rest) = some (t, rest))
    (hlast : ∀ rest, scan Φ (last :: rest) = some (t', rest))
    (hends : ∀ state, NumberState.next state last = none) :
    Prints Φ (writeLine first last xs) (t :: (joined [.valueSeparator] tss ++ [t'])) := by
  intro size text size' hwritten
  obtain ⟨texts, rfl, htexts⟩ := writeLine_eq_some hwritten
  exact writes_line (forall₂_writes h htexts) (ne_nil_of_forall₂ htexts hne) hfirst hlast hends

theorem prints_writeLines (h : List.Forall₂ (Prints Φ) xs tss) (hne : xs ≠ [])
    (hfirst : ∀ rest, scan Φ (first :: rest) = some (t, rest))
    (hlast : ∀ rest, scan Φ (last :: rest) = some (t', rest)) (indent newIndent : ℕ) :
    Prints Φ (writeLines first last indent newIndent xs)
      (t :: (joined [.valueSeparator] tss ++ [t'])) := by
  intro size text size' hwritten
  obtain ⟨texts, rfl, htexts⟩ := writeLines_eq_some hwritten
  have hindented : List.Forall₂ (Prints Φ) (xs.map fun x => writeIndent newIndent ++ x) tss :=
    List.forall₂_map_left_iff.mpr (h.imp fun _ _ hx => prints_indent hx)
  exact writes_lines (forall₂_writes hindented htexts)
    (ne_nil_of_forall₂ htexts (by simpa using hne)) hfirst hlast indent

end

/-- The text that is written has the tokens of the value. -/
theorem prints_dump (hv : Fits Φ v) (prettyPrint : Bool) (indentStep indent : ℕ) :
    Prints Φ (Serializer.dump Φ prettyPrint indentStep v indent) (tokens v) := by
  induction v generalizing indent with
  | null => exact prints_writeCharacters (.one fun rest _ => rfl)
  | boolean b => cases b <;> exact prints_writeCharacters (.one fun rest _ => rfl)
  | integer n => exact prints_writeCharacters (.one fun rest hrest => scan_dumpInteger Φ hv hrest)
  | float x => exact prints_writeCharacters (.one fun rest hrest => scan_dumpFloat hv hrest)
  | string s => exact prints_writeCharacters (writes_dumpString s)
  | array size elem ih =>
      rw [Serializer.dump, tokens]
      by_cases hsize : size = 0
      · subst hsize
        exact prints_writeCharacters (.cons (fun _ => rfl) (.one fun rest _ => rfl))
      rw [if_neg hsize]
      split
      · exact prints_writeLines (forall₂_ofFn fun i => ih i (hv i) _) (by simpa using hsize)
          (fun _ => rfl) (fun _ => rfl) indent _
      · exact prints_writeLine (forall₂_ofFn fun i => ih i (hv i) indent) (by simpa using hsize)
          (fun _ => rfl) (fun _ => rfl) next_bracket
  | object keys sorted value ih =>
      rw [Serializer.dump, tokens]
      by_cases hsize : keys.length = 0
      · obtain rfl := List.length_eq_zero_iff.mp hsize
        exact prints_writeCharacters (.cons (fun _ => rfl) (.one fun rest _ => rfl))
      rw [if_neg hsize]
      split
      · exact prints_writeLines
          (forall₂_ofFn fun i => prints_member _ (List.forall_mem_singleton.mpr rfl) (ih i (hv i) _))
          (by simpa using hsize) (fun _ => rfl) (fun _ => rfl) indent _
      · exact prints_writeLine
          (forall₂_ofFn fun i => prints_member _ (by simp) (ih i (hv i) indent))
          (by simpa using hsize) (fun _ => rfl) (fun _ => rfl) next_brace

/-! ### The room for the indents -/

/-- From this length of `indent_string` on, something is written, and the
length does not go down. -/
def RunsFrom (x : Writer) (least : ℕ) : Prop :=
  ∀ size, least ≤ size → ∃ text size', x.run size = some (text, size') ∧ size ≤ size'

section

variable {least indent indentStep : ℕ}

theorem RunsFrom.append (hx : RunsFrom x least) (hy : RunsFrom y least) :
    RunsFrom (x ++ y) least := by
  intro size hsize
  obtain ⟨u, m, hu, hm⟩ := hx size hsize
  obtain ⟨w, size', hw, hsize'⟩ := hy m (hsize.trans hm)
  exact ⟨u ++ w, size', append_eq_some.mpr ⟨u, m, w, hu, hw, rfl⟩, hm.trans hsize'⟩

theorem runsFrom_writeCharacters (s : List UInt8) : RunsFrom (writeCharacters s) least :=
  fun size _ => ⟨s, size, rfl, le_rfl⟩

theorem runsFrom_writeIndent : RunsFrom (writeIndent least) least := fun size hsize =>
  ⟨spaces least, size, writeIndent_eq_some.mpr ⟨hsize, rfl, rfl⟩, le_rfl⟩

theorem RunsFrom.mono {least' : ℕ} (h : RunsFrom x least) (hle : least ≤ least') :
    RunsFrom x least' := fun size hsize => h size (hle.trans hsize)

theorem runsFrom_writeAll (separator : List UInt8) (h : ∀ x ∈ xs, RunsFrom x least) :
    RunsFrom (writeAll separator xs) least := by
  induction xs with
  | nil => exact runsFrom_writeCharacters []
  | cons x xs ih =>
      obtain ⟨hx, hxs⟩ := List.forall_mem_cons.mp h
      cases xs with
      | nil => exact hx
      | cons y ys => exact (hx.append (runsFrom_writeCharacters separator)).append (ih hxs)

theorem runsFrom_writeLine (first last : UInt8) (h : ∀ x ∈ xs, RunsFrom x least) :
    RunsFrom (writeLine first last xs) least :=
  (runsFrom_writeCharacters _).append ((runsFrom_writeAll _ h).append (runsFrom_writeCharacters _))

theorem le_grown (size newIndent : ℕ) : size ≤ grown size newIndent := by
  unfold grown
  split <;> omega

/-- After the container has asked, there is room for its elements. -/
theorem exists_writeLines (first last : UInt8) (hindent : indent ≤ size)
    (hnew : newIndent ≤ grown size newIndent)
    (h : ∀ x ∈ xs, RunsFrom x (grown size newIndent)) :
    ∃ text size', (writeLines first last indent newIndent xs).run size = some (text, size') ∧
      size ≤ size' := by
  have hle := le_grown size newIndent
  have hlines : RunsFrom (writeAll [0x2C, 0x0A] (xs.map fun x => writeIndent newIndent ++ x) ++
      (writeCharacters [0x0A] ++ (writeIndent indent ++ writeCharacters [last])))
      (grown size newIndent) := by
    refine .append (runsFrom_writeAll _ fun x hx => ?_) (.append (runsFrom_writeCharacters _)
      (.append (runsFrom_writeIndent.mono (hindent.trans hle)) (runsFrom_writeCharacters _)))
    obtain ⟨x, hmem, rfl⟩ := List.mem_map.mp hx
    exact (runsFrom_writeIndent.mono hnew).append (h x hmem)
  obtain ⟨text, size', hwritten, hsize'⟩ := hlines _ le_rfl
  refine ⟨_, size', append_eq_some.mpr ⟨_, size, _, rfl, append_eq_some.mpr
    ⟨[], grown size newIndent, text, rfl, hwritten, rfl⟩, rfl⟩, hle.trans hsize'⟩

/-- Once the first container has asked, `indent_string` is no shorter than a
step. So twice its length is enough for one more. -/
theorem room_grown (hstep : indentStep ≤ 1024) (hroom : indent + indentStep ≤ 2 * size) :
    (indent + indentStep) % 2 ^ 32 ≤ grown size ((indent + indentStep) % 2 ^ 32) ∧
      indentStep ≤ grown size ((indent + indentStep) % 2 ^ 32) := by
  unfold grown
  rcases lt_or_ge (indent + indentStep) (2 ^ 32) with hlt | hge
  · rw [Nat.mod_eq_of_lt hlt]
    split <;> omega
  · have hmod := Nat.mod_lt (indent + indentStep) (Nat.two_pow_pos 32)
    split <;> omega

/-- No indent is read beyond the end. -/
theorem exists_dump (Φ : FloatText) (prettyPrint : Bool) (hstep : indentStep ≤ 1024) (v : Json)
    (hindent : indent ≤ size) (hroom : indent + indentStep ≤ 2 * size) :
    ∃ text size', (Serializer.dump Φ prettyPrint indentStep v indent).run size =
      some (text, size') ∧ size ≤ size' := by
  induction v generalizing indent size with
  | null => exact runsFrom_writeCharacters _ size le_rfl
  | boolean b => cases b <;> exact runsFrom_writeCharacters _ size le_rfl
  | integer n => exact runsFrom_writeCharacters _ size le_rfl
  | float x => exact runsFrom_writeCharacters _ size le_rfl
  | string s => exact runsFrom_writeCharacters _ size le_rfl
  | array n elem ih =>
      rw [Serializer.dump]
      obtain ⟨hnew, hless⟩ := room_grown hstep hroom
      split
      · exact runsFrom_writeCharacters _ size le_rfl
      split
      · refine exists_writeLines _ _ hindent hnew (List.forall_mem_ofFn_iff.mpr fun i m hm => ?_)
        exact ih i (hnew.trans hm) (by omega)
      · suffices h : RunsFrom _ size from h size le_rfl
        refine runsFrom_writeLine _ _ (List.forall_mem_ofFn_iff.mpr fun i m hm => ?_)
        exact ih i (hindent.trans hm) (by omega)
  | object keys sorted value ih =>
      rw [Serializer.dump]
      obtain ⟨hnew, hless⟩ := room_grown hstep hroom
      split
      · exact runsFrom_writeCharacters _ size le_rfl
      split
      · refine exists_writeLines _ _ hindent hnew (List.forall_mem_ofFn_iff.mpr fun i => ?_)
        refine (runsFrom_writeCharacters _).append fun m hm => ?_
        exact ih i (hnew.trans hm) (by omega)
      · suffices h : RunsFrom _ size from h size le_rfl
        refine runsFrom_writeLine _ _ (List.forall_mem_ofFn_iff.mpr fun i => ?_)
        refine (runsFrom_writeCharacters _).append fun m hm => ?_
        exact ih i (hindent.trans hm) (by omega)

end

end

end AmongUs.Json

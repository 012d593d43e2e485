import AmongUs.Json.Parser

/-!
The grammar of JSON, and that the parser recognises it.

`Value` is the grammar over tokens, with the value that a derivation stands
for; it knows nothing of the stack. `Lexes` reads tokens off a text. The
loop accepts a text with a value exactly if the tokens of the text derive
the value. One direction follows a derivation and computes the loop. For the
other, `Closes` says what a stack still demands of the tokens to come, and
an accepting run supplies it.
-/

namespace AmongUs.Json

open Utf8 Lexer AmongUs.Json.Parser

mutual

inductive Value : List Token → Json → Prop
  | scalar {t : Token} {v : Json} : t.scalar = some v → Value [t] v
  | emptyArray : Value [.beginArray, .endArray] (ofList [])
  | array {ts : List Token} {vs : List Json} :
      Elements ts vs → Value (.beginArray :: (ts ++ [.endArray])) (ofList vs)
  | emptyObject : Value [.beginObject, .endObject] (ofMembers .empty)
  | object {ts : List Token} {pairs : List (String × Json)} :
      Pairs ts pairs →
      Value (.beginObject :: (ts ++ [.endObject])) (ofMembers (Members.empty.insertAll pairs))

/-- Values with separators between them. -/
inductive Elements : List Token → List Json → Prop
  | one {ts : List Token} {v : Json} : Value ts v → Elements ts [v]
  | more {ts us : List Token} {v : Json} {vs : List Json} :
      Value ts v → Elements us vs → Elements (ts ++ .valueSeparator :: us) (v :: vs)

inductive Pairs : List Token → List (String × Json) → Prop
  | one {ts : List Token} {key : String} {v : Json} :
      Value ts v → Pairs (.valueString (bytes key) :: .nameSeparator :: ts) [(key, v)]
  | more {ts us : List Token} {key : String} {v : Json} {pairs : List (String × Json)} :
      Value ts v → Pairs us pairs →
      Pairs (.valueString (bytes key) :: .nameSeparator :: (ts ++ .valueSeparator :: us))
        ((key, v) :: pairs)

end

/-- The next tokens of a text, and the text after them. -/
inductive Lexes (Φ : FloatText) : List UInt8 → List Token → List UInt8 → Prop
  | nil {input : List UInt8} : Lexes Φ input [] input
  | cons {input rest rest' : List UInt8} {t : Token} {ts : List Token} :
      scan Φ input = some (t, rest) → Lexes Φ rest ts rest' → Lexes Φ input (t :: ts) rest'

namespace Lexes

variable {Φ : FloatText} {input rest : List UInt8} {t : Token} {ts us : List Token}

theorem cons_iff :
    Lexes Φ input (t :: ts) rest ↔
      ∃ rest', scan Φ input = some (t, rest') ∧ Lexes Φ rest' ts rest := by
  constructor
  · intro h
    cases h with
    | cons hscan hrest => exact ⟨_, hscan, hrest⟩
  · rintro ⟨rest', hscan, hrest⟩
    exact .cons hscan hrest

theorem nil_iff : Lexes Φ input [] rest ↔ rest = input := by
  constructor
  · intro h
    cases h
    rfl
  · rintro rfl
    exact .nil

theorem append_iff :
    Lexes Φ input (ts ++ us) rest ↔
      ∃ middle, Lexes Φ input ts middle ∧ Lexes Φ middle us rest := by
  induction ts generalizing input with
  | nil =>
      simp only [List.nil_append, nil_iff]
      exact ⟨fun h => ⟨input, rfl, h⟩, fun ⟨_, h, h'⟩ => h ▸ h'⟩
  | cons t ts ih =>
      rw [List.cons_append, cons_iff]
      constructor
      · rintro ⟨rest', hscan, h⟩
        obtain ⟨middle, hts, hus⟩ := ih.mp h
        exact ⟨middle, .cons hscan hts, hus⟩
      · rintro ⟨middle, hts, hus⟩
        obtain ⟨rest', hscan, hrest⟩ := cons_iff.mp hts
        exact ⟨rest', hscan, ih.mpr ⟨middle, hrest, hus⟩⟩

theorem append {middle : List UInt8} (h : Lexes Φ input ts middle)
    (h' : Lexes Φ middle us rest) : Lexes Φ input (ts ++ us) rest :=
  append_iff.mpr ⟨middle, h, h'⟩

end Lexes

/-! ### Derivations are accepted -/

theorem Value.first_ne {t : Token} {ts : List Token} {v : Json} (h : Value (t :: ts) v) :
    t ≠ .endArray := by
  rintro rfl
  cases h with
  | scalar h => cases h

theorem Value.exists_cons {ts : List Token} {v : Json} (h : Value ts v) :
    ∃ t ts', ts = t :: ts' := by
  cases h with
  | scalar _ | emptyArray | array _ | emptyObject | object _ => exact ⟨_, _, rfl⟩

theorem Elements.exists_cons {ts : List Token} {vs : List Json} (h : Elements ts vs) :
    ∃ t ts', ts = t :: ts' ∧ t ≠ .endArray := by
  cases h with
  | one h =>
      obtain ⟨t, ts', rfl⟩ := h.exists_cons
      exact ⟨t, ts', rfl, h.first_ne⟩
  | more h _ =>
      obtain ⟨t, ts', rfl⟩ := h.exists_cons
      exact ⟨t, _, rfl, h.first_ne⟩

theorem Pairs.exists_cons {ts : List Token} {pairs : List (String × Json)} (h : Pairs ts pairs) :
    ∃ key t ts', ts = .valueString (bytes key) :: .nameSeparator :: t :: ts' := by
  cases h with
  | one h | more h _ =>
      obtain ⟨t, ts', rfl⟩ := h.exists_cons
      exact ⟨_, t, _, rfl⟩

/-- The loop reads a value with these tokens, whatever is on the stack. -/
def Reads (Φ : FloatText) (ts₀ : List Token) (v : Json) : Prop :=
  ∀ (t : Token) (ts : List Token), ts₀ = t :: ts → ∀ (input rest : List UInt8),
    Lexes Φ input ts rest → ∀ stack : List Frame,
      run Φ (.value t input stack) = run Φ (.evaluate v rest stack)

/-- The loop reads these elements and the end of the array. -/
def ReadsElements (Φ : FloatText) (ts₀ : List Token) (vs : List Json) : Prop :=
  ∀ (t : Token) (ts : List Token), ts₀ = t :: ts → ∀ (input rest : List UInt8),
    Lexes Φ input (ts ++ [.endArray]) rest → ∀ (elements : List Json) (stack : List Frame),
      run Φ (.value t input (.array elements :: stack)) =
        run Φ (.evaluate (ofList (elements ++ vs)) rest stack)

/-- Likewise for an object whose first key has been read. -/
def ReadsPairs (Φ : FloatText) (ts₀ : List Token) (pairs : List (String × Json)) : Prop :=
  ∀ (key : String) (t : Token) (ts : List Token),
    ts₀ = .valueString (bytes key) :: .nameSeparator :: t :: ts → ∀ (input rest : List UInt8),
    Lexes Φ input (ts ++ [.endObject]) rest → ∀ (ms : Members) (stack : List Frame),
      run Φ (.value t input (.object ms key :: stack)) =
        run Φ (.evaluate (ofMembers (ms.insertAll pairs)) rest stack)

section

variable {Φ : FloatText} {ts us : List Token} {v : Json} {vs : List Json} {key : String}
  {pairs : List (String × Json)}

theorem Lexes.one {t : Token} {input rest : List UInt8} (h : Lexes Φ input [t] rest) :
    scan Φ input = some (t, rest) := by
  obtain ⟨rest', hscan, hnil⟩ := Lexes.cons_iff.mp h
  rw [hscan, Lexes.nil_iff.mp hnil]

theorem Reads.scalar {t : Token} (hv : t.scalar = some v) : Reads Φ [t] v := by
  intro t' ts' hts input rest hlex stack
  obtain ⟨rfl, rfl⟩ := List.cons.inj hts
  obtain rfl := Lexes.nil_iff.mp hlex
  exact run_moves (.scalar hv)

theorem Reads.emptyArray : Reads Φ [.beginArray, .endArray] (ofList []) := by
  intro t' ts' hts input rest hlex stack
  obtain ⟨rfl, rfl⟩ := List.cons.inj hts
  exact run_moves (.emptyArray hlex.one)

theorem Reads.array (h : Elements ts vs) (ih : ReadsElements Φ ts vs) :
    Reads Φ (.beginArray :: (ts ++ [.endArray])) (ofList vs) := by
  intro t' ts' hts input rest hlex stack
  obtain ⟨rfl, rfl⟩ := List.cons.inj hts
  obtain ⟨t, ts', rfl, ht⟩ := h.exists_cons
  obtain ⟨rest', hscan, hlex⟩ := Lexes.cons_iff.mp hlex
  rw [run_moves (.array hscan ht)]
  exact ih _ _ rfl _ _ hlex [] stack

theorem Reads.emptyObject : Reads Φ [.beginObject, .endObject] (ofMembers .empty) := by
  intro t' ts' hts input rest hlex stack
  obtain ⟨rfl, rfl⟩ := List.cons.inj hts
  exact run_moves (.emptyObject hlex.one)

theorem Reads.object (h : Pairs ts pairs) (ih : ReadsPairs Φ ts pairs) :
    Reads Φ (.beginObject :: (ts ++ [.endObject])) (ofMembers (Members.empty.insertAll pairs)) := by
  intro t' ts' hts input rest hlex stack
  obtain ⟨rfl, rfl⟩ := List.cons.inj hts
  obtain ⟨key, t, ts', rfl⟩ := h.exists_cons
  obtain ⟨rest₁, hscan, hlex⟩ := Lexes.cons_iff.mp hlex
  obtain ⟨rest₂, hname, hlex⟩ := Lexes.cons_iff.mp hlex
  obtain ⟨rest₃, hfirst, hlex⟩ := Lexes.cons_iff.mp hlex
  rw [run_moves (.object hscan hname hfirst)]
  exact ih _ _ _ rfl _ _ hlex .empty stack

theorem ReadsElements.one (ih : Reads Φ ts v) : ReadsElements Φ ts [v] := by
  intro t' ts' hts input rest hlex elements stack
  obtain ⟨middle, hlex, hend⟩ := Lexes.append_iff.mp hlex
  rw [ih _ _ hts _ _ hlex, run_moves (.endArray hend.one)]

theorem ReadsElements.more (h : Value ts v) (h' : Elements us vs) (ih : Reads Φ ts v)
    (ih' : ReadsElements Φ us vs) :
    ReadsElements Φ (ts ++ .valueSeparator :: us) (v :: vs) := by
  intro t₀ ts₀ hts input rest hlex elements stack
  obtain ⟨t, ts', rfl⟩ := h.exists_cons
  obtain ⟨t', us', rfl, -⟩ := h'.exists_cons
  rw [List.cons_append, List.cons.injEq] at hts
  obtain ⟨rfl, rfl⟩ := hts
  rw [List.append_assoc] at hlex
  obtain ⟨middle, hfirst, hlex⟩ := Lexes.append_iff.mp hlex
  obtain ⟨rest₁, hscan, hlex⟩ := Lexes.cons_iff.mp hlex
  obtain ⟨rest₂, hnext, hlex⟩ := Lexes.cons_iff.mp hlex
  rw [ih _ _ rfl _ _ hfirst, run_moves (.nextElement hscan hnext), ih' _ _ rfl _ _ hlex,
    List.append_assoc]
  rfl

theorem ReadsPairs.one (ih : Reads Φ ts v) :
    ReadsPairs Φ (.valueString (bytes key) :: .nameSeparator :: ts) [(key, v)] := by
  intro key' t' ts' hts input rest hlex ms stack
  simp only [List.cons.injEq, Token.valueString.injEq, true_and] at hts
  obtain ⟨hkey, rfl⟩ := hts
  obtain rfl := bytes_injective hkey
  obtain ⟨middle, hlex, hend⟩ := Lexes.append_iff.mp hlex
  rw [ih _ _ rfl _ _ hlex, run_moves (.endObject hend.one)]
  rfl

theorem ReadsPairs.more (h : Value ts v) (h' : Pairs us pairs) (ih : Reads Φ ts v)
    (ih' : ReadsPairs Φ us pairs) :
    ReadsPairs Φ (.valueString (bytes key) :: .nameSeparator :: (ts ++ .valueSeparator :: us))
      ((key, v) :: pairs) := by
  intro key₀ t₀ ts₀ hts input rest hlex ms stack
  obtain ⟨t, ts', rfl⟩ := h.exists_cons
  obtain ⟨key', t', us', rfl⟩ := h'.exists_cons
  simp only [List.cons_append, List.cons.injEq, Token.valueString.injEq, true_and] at hts
  obtain ⟨hkey, rfl, rfl⟩ := hts
  obtain rfl := bytes_injective hkey
  rw [List.append_assoc] at hlex
  obtain ⟨middle, hfirst, hlex⟩ := Lexes.append_iff.mp hlex
  obtain ⟨rest₁, hscan, hlex⟩ := Lexes.cons_iff.mp hlex
  obtain ⟨rest₂, hstring, hlex⟩ := Lexes.cons_iff.mp hlex
  obtain ⟨rest₃, hname, hlex⟩ := Lexes.cons_iff.mp hlex
  obtain ⟨rest₄, hnext, hlex⟩ := Lexes.cons_iff.mp hlex
  rw [ih _ _ rfl _ _ hfirst, run_moves (.nextMember hscan hstring hname hnext),
    ih' _ _ _ rfl _ _ hlex]
  rfl

theorem Value.reads (h : Value ts v) : Reads Φ ts v := by
  refine @Value.rec (fun ts v _ => Reads Φ ts v) (fun ts vs _ => ReadsElements Φ ts vs)
    (fun ts pairs _ => ReadsPairs Φ ts pairs) ?_ ?_ ?_ ?_ ?_ ?_ ?_ ?_ ?_ ts v h
  · exact fun hv => .scalar hv
  · exact .emptyArray
  · exact fun h ih => .array h ih
  · exact .emptyObject
  · exact fun h ih => .object h ih
  · exact fun _ ih => .one ih
  · exact fun h h' ih ih' => .more h h' ih ih'
  · exact fun _ ih => .one ih
  · exact fun h h' ih ih' => .more h h' ih ih'

/-! ### Accepted texts are derived -/

/-- The elements that follow one, each after a separator. -/
inductive MoreElements : List Token → List Json → Prop
  | nil : MoreElements [] []
  | cons {ts : List Token} {vs : List Json} :
      Elements ts vs → MoreElements (.valueSeparator :: ts) vs

inductive MorePairs : List Token → List (String × Json) → Prop
  | nil : MorePairs [] []
  | cons {ts : List Token} {pairs : List (String × Json)} :
      Pairs ts pairs → MorePairs (.valueSeparator :: ts) pairs

theorem Value.before_elements (h : Value ts v) (h' : MoreElements us vs) :
    Elements (ts ++ us) (v :: vs) := by
  cases h' with
  | nil =>
      rw [List.append_nil]
      exact .one h
  | cons h' => exact .more h h'

theorem Value.before_pairs (h : Value ts v) (h' : MorePairs us pairs) :
    Pairs (.valueString (bytes key) :: .nameSeparator :: (ts ++ us)) ((key, v) :: pairs) := by
  cases h' with
  | nil =>
      rw [List.append_nil]
      exact .one h
  | cons h' => exact .more h h'

/-- The tokens after a complete value that make the frames around it the
value `root`. -/
def Closes : List Frame → List Token → Json → Json → Prop
  | [], ts, v, root => ts = [] ∧ root = v
  | .array elements :: stack, ts, v, root =>
      ∃ us vs rest, ts = us ++ .endArray :: rest ∧ MoreElements us vs ∧
        Closes stack rest (ofList (elements ++ v :: vs)) root
  | .object ms key :: stack, ts, v, root =>
      ∃ us pairs rest, ts = us ++ .endObject :: rest ∧ MorePairs us pairs ∧
        Closes stack rest (ofMembers ((ms.insert key v).insertAll pairs)) root

/-- The tokens to come complete the state to a result. -/
def Completes (Φ : FloatText) (result : Json × List UInt8) : ParserState → Prop
  | .value t input stack =>
      ∃ ts us v, Value (t :: ts) v ∧ Closes stack us v result.1 ∧
        Lexes Φ input (ts ++ us) result.2
  | .evaluate v input stack =>
      ∃ us, Closes stack us v result.1 ∧ Lexes Φ input us result.2

/-- An iteration takes its tokens off the front of those that complete the
state after it. -/
theorem Completes.of_moves {state state' : ParserState} {result : Json × List UInt8}
    (h : Moves Φ state state') (hc : Completes Φ result state') : Completes Φ result state := by
  cases h with
  | scalar hv =>
      obtain ⟨us, hcloses, hlex⟩ := hc
      exact ⟨[], us, _, .scalar hv, hcloses, hlex⟩
  | emptyObject hscan =>
      obtain ⟨us, hcloses, hlex⟩ := hc
      exact ⟨[.endObject], us, _, .emptyObject, hcloses, .cons hscan hlex⟩
  | object hscan hname hfirst =>
      obtain ⟨ts, us, v, hv, hcloses, hlex⟩ := hc
      obtain ⟨ts', pairs, rest, rfl, hmore, hcloses⟩ := hcloses
      refine ⟨_, rest, _, .object (hv.before_pairs hmore), hcloses, ?_⟩
      simp only [List.cons_append, List.nil_append, List.append_assoc]
      exact .cons hscan (.cons hname (.cons hfirst hlex))
  | emptyArray hscan =>
      obtain ⟨us, hcloses, hlex⟩ := hc
      exact ⟨[.endArray], us, _, .emptyArray, hcloses, .cons hscan hlex⟩
  | array hscan _ =>
      obtain ⟨ts, us, v, hv, hcloses, hlex⟩ := hc
      obtain ⟨ts', vs, rest, rfl, hmore, hcloses⟩ := hcloses
      refine ⟨_, rest, _, .array (hv.before_elements hmore), hcloses, ?_⟩
      simp only [List.cons_append, List.nil_append, List.append_assoc]
      exact .cons hscan hlex
  | nextElement hscan hfirst =>
      obtain ⟨ts, us, v, hv, hcloses, hlex⟩ := hc
      obtain ⟨ts', vs, rest, rfl, hmore, hcloses⟩ := hcloses
      rw [List.append_assoc] at hcloses
      refine ⟨_, ⟨_, _, rest, rfl, .cons (hv.before_elements hmore), hcloses⟩, ?_⟩
      simp only [List.cons_append, List.append_assoc]
      exact .cons hscan (.cons hfirst hlex)
  | endArray hscan =>
      obtain ⟨us, hcloses, hlex⟩ := hc
      exact ⟨.endArray :: us, ⟨[], [], us, rfl, .nil, hcloses⟩, .cons hscan hlex⟩
  | nextMember hscan hstring hname hfirst =>
      obtain ⟨ts, us, v, hv, hcloses, hlex⟩ := hc
      obtain ⟨ts', pairs, rest, rfl, hmore, hcloses⟩ := hcloses
      refine ⟨_, ⟨_, _, rest, rfl, .cons (hv.before_pairs hmore), hcloses⟩, ?_⟩
      simp only [List.cons_append, List.append_assoc]
      exact .cons hscan (.cons hstring (.cons hname (.cons hfirst hlex)))
  | endObject hscan =>
      obtain ⟨us, hcloses, hlex⟩ := hc
      exact ⟨.endObject :: us, ⟨[], [], us, rfl, .nil, hcloses⟩, .cons hscan hlex⟩

theorem Completes.of_run {state : ParserState} {result : Json × List UInt8}
    (h : run Φ state = some result) : Completes Φ result state := by
  induction hn : weight state using Nat.strong_induction_on generalizing state with
  | _ n ih =>
      rcases run_cases h with ⟨state', hmoves, h'⟩ | rfl
      · exact .of_moves hmoves (ih _ (hn ▸ hmoves.weight_lt) h' rfl)
      · exact ⟨[], ⟨rfl, rfl⟩, .nil⟩

/-- The loop accepts what the grammar derives, with the same value. -/
theorem run_eq_some_iff {t : Token} {input rest : List UInt8} :
    run Φ (.value t input []) = some (v, rest) ↔
      ∃ ts, Value (t :: ts) v ∧ Lexes Φ input ts rest := by
  constructor
  · intro h
    obtain ⟨ts, us, v', hv, ⟨rfl, rfl⟩, hlex⟩ := Completes.of_run h
    rw [List.append_nil] at hlex
    exact ⟨ts, hv, hlex⟩
  · rintro ⟨ts, hv, hlex⟩
    rw [hv.reads _ _ rfl _ _ hlex, run_result]

theorem parseInternal_eq_some_iff {input rest : List UInt8} :
    parseInternal Φ input = some (v, rest) ↔
      ∃ ts text, Value ts v ∧ skipBom input = some text ∧ Lexes Φ text ts rest := by
  simp only [parseInternal, Option.bind_eq_bind, Option.bind_eq_some_iff, Prod.exists]
  constructor
  · rintro ⟨text, hbom, t, rest', hscan, hrun⟩
    obtain ⟨ts, hv, hlex⟩ := run_eq_some_iff.mp hrun
    exact ⟨t :: ts, text, hv, hbom, .cons hscan hlex⟩
  · rintro ⟨ts, text, hv, hbom, hlex⟩
    obtain ⟨t, ts', rfl⟩ := hv.exists_cons
    obtain ⟨rest', hscan, hlex⟩ := Lexes.cons_iff.mp hlex
    exact ⟨text, hbom, t, rest', hscan, run_eq_some_iff.mpr ⟨ts', hv, hlex⟩⟩

theorem parse_eq_some_iff {input : List UInt8} :
    parse Φ input = some v ↔
      ∃ ts text rest, Value ts v ∧ skipBom input = some text ∧
        Lexes Φ text (ts ++ [.endOfInput]) rest := by
  simp only [parse, Option.bind_eq_bind, Option.bind_eq_some_iff, Prod.exists,
    parseInternal_eq_some_iff, Lexes.append_iff, Option.ite_none_right_eq_some,
    Option.some.injEq]
  constructor
  · rintro ⟨v, rest, ⟨ts, text, hv, hbom, hlex⟩, _, rest', hscan, rfl, rfl⟩
    exact ⟨ts, text, rest', hv, hbom, rest, hlex, .cons hscan .nil⟩
  · rintro ⟨ts, text, rest', hv, hbom, rest, hlex, hend⟩
    exact ⟨v, rest, ⟨ts, text, hv, hbom, hlex⟩, _, rest', hend.one, rfl, rfl⟩

variable (Φ v) in
/-- **The parser recognises the grammar.** With its explicit stack it
accepts the texts whose tokens derive a value, and this is the value it
builds: up to the end of the input, or leaving what follows, but for the byte
after a number. -/
theorem accepts_iff_derives (input : List UInt8) :
    (parse Φ input = some v ↔
      ∃ ts text rest, Value ts v ∧ skipBom input = some text ∧
        Lexes Φ text (ts ++ [.endOfInput]) rest) ∧
    ∀ left, extract Φ input = some (v, left) ↔
      ∃ ts text rest, Value ts v ∧ skipBom input = some text ∧ Lexes Φ text ts rest ∧
        left = streamRest v rest := by
  refine ⟨parse_eq_some_iff, fun left => ?_⟩
  simp only [extract, Option.map_eq_some_iff, Prod.exists, Prod.mk.injEq,
    parseInternal_eq_some_iff]
  constructor
  · rintro ⟨v, rest, ⟨ts, text, hv, hbom, hlex⟩, rfl, rfl⟩
    exact ⟨ts, text, rest, hv, hbom, hlex, rfl⟩
  · rintro ⟨ts, text, rest, hv, hbom, hlex, rfl⟩
    exact ⟨v, rest, ⟨ts, text, hv, hbom, hlex⟩, rfl, rfl⟩

end

end AmongUs.Json

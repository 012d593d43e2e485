import AmongUs.Json.Lexer
import Mathlib.Data.String.Basic

/-!
The parser of the JSON library.

`sax_parse_internal` is a loop over an explicit stack, and its events build
the value. A `Frame` is an entry of both stacks, of `states` and of the
`ref_stack` of `json_sax_dom_parser`, which are pushed and popped together.
A value under construction is put into its parent once it is complete; in
between nothing reads the parent, and nothing is kept where the library
throws. `step` is one iteration of the loop, cut where the flag
`skip_to_state_evaluation` enters it.
-/

namespace AmongUs.Json

open Utf8 Lexer

/-! ### Containers -/

/-- The map of an object: its elements in the order of their keys. -/
structure Members where
  list : List (String × Json)
  sorted : list.Pairwise fun a b => a.1 < b.1

namespace Members

def insertList (key : String) (v : Json) : List (String × Json) → List (String × Json)
  | [] => [(key, v)]
  | (key', v') :: list =>
      if key < key' then (key, v) :: (key', v') :: list
      else if key = key' then (key, v) :: list
      else (key', v') :: insertList key v list

theorem mem_insertList {key : String} {v : Json} {list : List (String × Json)}
    {a : String × Json} (h : a ∈ insertList key v list) : a = (key, v) ∨ a ∈ list := by
  induction list with
  | nil => exact .inl (List.mem_singleton.mp h)
  | cons b list ih =>
      rw [insertList] at h
      split at h
      · exact List.mem_cons.mp h
      split at h
      · exact (List.mem_cons.mp h).imp id fun h => List.mem_cons_of_mem _ h
      · rcases List.mem_cons.mp h with rfl | h
        · exact .inr List.mem_cons_self
        · exact (ih h).imp id fun h => List.mem_cons_of_mem _ h

theorem pairwise_insertList {key : String} {v : Json} {list : List (String × Json)}
    (h : list.Pairwise fun a b => a.1 < b.1) :
    (insertList key v list).Pairwise fun a b => a.1 < b.1 := by
  induction list with
  | nil => exact List.pairwise_singleton _ _
  | cons b list ih =>
      obtain ⟨hb, hlist⟩ := List.pairwise_cons.mp h
      rw [insertList]
      split
      · rename_i hlt
        refine List.pairwise_cons.mpr ⟨fun a ha => ?_, h⟩
        rcases List.mem_cons.mp ha with rfl | ha
        · exact hlt
        · exact hlt.trans (hb a ha)
      split
      · rename_i heq
        subst heq
        exact List.pairwise_cons.mpr ⟨hb, hlist⟩
      · rename_i hlt hne
        refine List.pairwise_cons.mpr ⟨fun a ha => ?_, ih hlist⟩
        rcases mem_insertList ha with rfl | ha
        · exact lt_of_le_of_ne (not_lt.mp hlt) (Ne.symm hne)
        · exact hb a ha

def empty : Members := ⟨[], .nil⟩

/-- `operator[]` and the assignment to the element it refers to. -/
def insert (ms : Members) (key : String) (v : Json) : Members :=
  ⟨insertList key v ms.list, pairwise_insertList ms.sorted⟩

/-- One pair after the other, each over the one before with its key. -/
def insertAll (ms : Members) (pairs : List (String × Json)) : Members :=
  pairs.foldl (fun ms a => ms.insert a.1 a.2) ms

end Members

def ofList (vs : List Json) : Json := .array vs.length vs.get

def ofMembers (ms : Members) : Json :=
  .object (ms.list.map Prod.fst) (List.pairwise_map.mpr ms.sorted) fun i =>
    (ms.list.get (i.cast (List.length_map _))).2

/-! ### The loop -/

/-- The value of a token that is one by itself. A number that is not finite
is out of range. -/
def Token.scalar : Token → Option Json
  | .literalTrue => some (.boolean true)
  | .literalFalse => some (.boolean false)
  | .literalNull => some .null
  | .valueString s => (text? s).map .string
  | .valueUnsigned n => some (.integer n)
  | .valueInteger n => some (.integer n)
  | .valueFloat x => x.map .float
  | _ => none

inductive Frame
  | array (elements : List Json)
  | object (members : Members) (key : String)

inductive ParserState
  | value (lastToken : Token) (input : List UInt8) (stack : List Frame)
  | evaluate (v : Json) (input : List UInt8) (stack : List Frame)

namespace Parser

variable (Φ : FloatText)

/-- A key and the separator after it; then the next token is read. -/
def parseKey (lastToken : Token) (input : List UInt8) :
    Option (String × Token × List UInt8) :=
  match lastToken with
  | .valueString s => do
      let key ← text? s
      let (token, input) ← scan Φ input
      if token = .nameSeparator then
        let (token, input) ← scan Φ input
        some (key, token, input)
      else none
  | _ => none

/-- A value begins with the last token. -/
def stepValue (lastToken : Token) (input : List UInt8) (stack : List Frame) :
    Option ParserState :=
  match lastToken with
  | .beginObject => do
      let (token, input) ← scan Φ input
      if token = .endObject then some (.evaluate (ofMembers .empty) input stack)
      else
        let (key, token, input) ← parseKey Φ token input
        some (.value token input (.object .empty key :: stack))
  | .beginArray => do
      let (token, input) ← scan Φ input
      if token = .endArray then some (.evaluate (ofList []) input stack)
      else some (.value token input (.array [] :: stack))
  | token => token.scalar.map fun v => .evaluate v input stack

/-- A value is complete. -/
def stepEvaluate (v : Json) (input : List UInt8) (frame : Frame) (stack : List Frame) :
    Option ParserState :=
  match frame with
  | .array elements => do
      let (token, input) ← scan Φ input
      if token = .valueSeparator then
        let (token, input) ← scan Φ input
        some (.value token input (.array (elements ++ [v]) :: stack))
      else if token = .endArray then
        some (.evaluate (ofList (elements ++ [v])) input stack)
      else none
  | .object members key => do
      let (token, input) ← scan Φ input
      if token = .valueSeparator then
        let (token, input) ← scan Φ input
        let (key', token, input) ← parseKey Φ token input
        some (.value token input (.object (members.insert key v) key' :: stack))
      else if token = .endObject then
        some (.evaluate (ofMembers (members.insert key v)) input stack)
      else none

/-- One iteration; a value with nothing around it is the result. -/
def step : ParserState → Option (ParserState ⊕ Json × List UInt8)
  | .value lastToken input stack => (stepValue Φ lastToken input stack).map .inl
  | .evaluate v input [] => some (.inr (v, input))
  | .evaluate v input (frame :: stack) => (stepEvaluate Φ v input frame stack).map .inl

/-- The bytes that are left, counted twice, and the last token. -/
def weight : ParserState → ℕ
  | .value lastToken input _ => 2 * input.length + if lastToken = .endOfInput then 0 else 1
  | .evaluate _ input _ => 2 * input.length

variable {Φ}

theorem weight_scan {input rest : List UInt8} {t : Token} {stack : List Frame}
    (h : scan Φ input = some (t, rest)) : weight (.value t rest stack) ≤ 2 * input.length := by
  rw [weight]
  rcases scan_length h with hlt | ⟨rfl, rfl⟩
  · split <;> omega
  · simp

theorem scan_length_of_ne {input rest : List UInt8} {t : Token}
    (h : scan Φ input = some (t, rest)) (ht : t ≠ .endOfInput) : rest.length < input.length := by
  rcases scan_length h with hlt | ⟨rfl, -⟩
  · exact hlt
  · exact absurd rfl ht

theorem parseKey_eq_some {lastToken token : Token} {input rest : List UInt8} {key : String}
    (h : parseKey Φ lastToken input = some (key, token, rest)) :
    lastToken = .valueString (bytes key) ∧
      ∃ rest', scan Φ input = some (.nameSeparator, rest') ∧
        scan Φ rest' = some (token, rest) := by
  rw [parseKey.eq_def] at h
  split at h
  · simp only [Option.bind_eq_bind, Option.bind_eq_some_iff] at h
    obtain ⟨key', hkey, ⟨token', rest'⟩, hscan, h⟩ := h
    dsimp only at h
    split at h
    · rename_i htoken
      rw [Option.bind_eq_some_iff] at h
      obtain ⟨⟨token'', rest''⟩, hscan', h⟩ := h
      simp only [Option.some.injEq, Prod.mk.injEq] at h
      obtain ⟨rfl, rfl, rfl⟩ := h
      subst htoken
      exact ⟨by rw [text?_eq_some_iff.mp hkey], rest', hscan, hscan'⟩
    · cases h
  · cases h

theorem parseKey_of_scan {input rest rest' : List UInt8} {token : Token} (key : String)
    (h : scan Φ input = some (.nameSeparator, rest'))
    (h' : scan Φ rest' = some (token, rest)) :
    parseKey Φ (.valueString (bytes key)) input = some (key, token, rest) := by
  simp [parseKey, h, h']

variable (Φ) in
/-- What an iteration can do, with the tokens it reads. -/
inductive Moves : ParserState → ParserState → Prop
  | scalar {t : Token} {v : Json} {input : List UInt8} {stack : List Frame} :
      t.scalar = some v → Moves (.value t input stack) (.evaluate v input stack)
  | emptyObject {input rest : List UInt8} {stack : List Frame} :
      scan Φ input = some (.endObject, rest) →
      Moves (.value .beginObject input stack) (.evaluate (ofMembers .empty) rest stack)
  | object {input rest₁ rest₂ rest : List UInt8} {stack : List Frame} {key : String}
      {t : Token} :
      scan Φ input = some (.valueString (bytes key), rest₁) →
      scan Φ rest₁ = some (.nameSeparator, rest₂) → scan Φ rest₂ = some (t, rest) →
      Moves (.value .beginObject input stack) (.value t rest (.object .empty key :: stack))
  | emptyArray {input rest : List UInt8} {stack : List Frame} :
      scan Φ input = some (.endArray, rest) →
      Moves (.value .beginArray input stack) (.evaluate (ofList []) rest stack)
  | array {input rest : List UInt8} {stack : List Frame} {t : Token} :
      scan Φ input = some (t, rest) → t ≠ .endArray →
      Moves (.value .beginArray input stack) (.value t rest (.array [] :: stack))
  | nextElement {v : Json} {input rest₁ rest : List UInt8} {elements : List Json}
      {stack : List Frame} {t : Token} :
      scan Φ input = some (.valueSeparator, rest₁) → scan Φ rest₁ = some (t, rest) →
      Moves (.evaluate v input (.array elements :: stack))
        (.value t rest (.array (elements ++ [v]) :: stack))
  | endArray {v : Json} {input rest : List UInt8} {elements : List Json} {stack : List Frame} :
      scan Φ input = some (.endArray, rest) →
      Moves (.evaluate v input (.array elements :: stack))
        (.evaluate (ofList (elements ++ [v])) rest stack)
  | nextMember {v : Json} {input rest₁ rest₂ rest₃ rest : List UInt8} {members : Members}
      {key key' : String} {stack : List Frame} {t : Token} :
      scan Φ input = some (.valueSeparator, rest₁) →
      scan Φ rest₁ = some (.valueString (bytes key'), rest₂) →
      scan Φ rest₂ = some (.nameSeparator, rest₃) → scan Φ rest₃ = some (t, rest) →
      Moves (.evaluate v input (.object members key :: stack))
        (.value t rest (.object (members.insert key v) key' :: stack))
  | endObject {v : Json} {input rest : List UInt8} {members : Members} {key : String}
      {stack : List Frame} :
      scan Φ input = some (.endObject, rest) →
      Moves (.evaluate v input (.object members key :: stack))
        (.evaluate (ofMembers (members.insert key v)) rest stack)

theorem moves_of_stepValue {lastToken : Token} {input : List UInt8} {stack : List Frame}
    {state' : ParserState} (h : stepValue Φ lastToken input stack = some state') :
    Moves Φ (.value lastToken input stack) state' := by
  rw [stepValue.eq_def] at h
  split at h
  · rw [Option.bind_eq_bind, Option.bind_eq_some_iff] at h
    obtain ⟨⟨token, rest₁⟩, hscan, h⟩ := h
    dsimp only at h
    split at h
    · rename_i htoken
      subst htoken
      obtain rfl := Option.some.inj h
      exact .emptyObject hscan
    · rw [Option.bind_eq_bind, Option.bind_eq_some_iff] at h
      obtain ⟨⟨key, token', rest⟩, hkey, h⟩ := h
      obtain rfl := Option.some.inj h
      obtain ⟨rfl, rest₂, hscan₂, hscan₃⟩ := parseKey_eq_some hkey
      exact .object hscan hscan₂ hscan₃
  · rw [Option.bind_eq_bind, Option.bind_eq_some_iff] at h
    obtain ⟨⟨token, rest⟩, hscan, h⟩ := h
    dsimp only at h
    split at h
    · rename_i htoken
      subst htoken
      obtain rfl := Option.some.inj h
      exact .emptyArray hscan
    · rename_i htoken
      obtain rfl := Option.some.inj h
      exact .array hscan htoken
  · rw [Option.map_eq_some_iff] at h
    obtain ⟨v, hv, rfl⟩ := h
    exact .scalar hv

theorem moves_of_stepEvaluate {v : Json} {input : List UInt8} {frame : Frame}
    {stack : List Frame} {state' : ParserState}
    (h : stepEvaluate Φ v input frame stack = some state') :
    Moves Φ (.evaluate v input (frame :: stack)) state' := by
  rw [stepEvaluate.eq_def] at h
  split at h
  · rw [Option.bind_eq_bind, Option.bind_eq_some_iff] at h
    obtain ⟨⟨token, rest₁⟩, hscan, h⟩ := h
    dsimp only at h
    split at h
    · rename_i htoken
      subst htoken
      rw [Option.bind_eq_some_iff] at h
      obtain ⟨⟨token', rest⟩, hscan', h⟩ := h
      obtain rfl := Option.some.inj h
      exact .nextElement hscan hscan'
    split at h
    · rename_i htoken
      subst htoken
      obtain rfl := Option.some.inj h
      exact .endArray hscan
    · cases h
  · rw [Option.bind_eq_bind, Option.bind_eq_some_iff] at h
    obtain ⟨⟨token, rest₁⟩, hscan, h⟩ := h
    dsimp only at h
    split at h
    · rename_i htoken
      subst htoken
      simp only [Option.bind_eq_bind, Option.bind_eq_some_iff] at h
      obtain ⟨⟨token', rest₂⟩, hscan', ⟨key', token'', rest⟩, hkey, h⟩ := h
      obtain rfl := Option.some.inj h
      obtain ⟨rfl, rest₃, hscan₂, hscan₃⟩ := parseKey_eq_some hkey
      exact .nextMember hscan hscan' hscan₂ hscan₃
    split at h
    · rename_i htoken
      subst htoken
      obtain rfl := Option.some.inj h
      exact .endObject hscan
    · cases h

theorem moves_of_step {state state' : ParserState} (h : step Φ state = some (.inl state')) :
    Moves Φ state state' := by
  rw [step.eq_def] at h
  split at h
  · rw [Option.map_eq_some_iff] at h
    obtain ⟨_, h, hinl⟩ := h
    obtain rfl := Sum.inl.inj hinl
    exact moves_of_stepValue h
  · cases h
  · rw [Option.map_eq_some_iff] at h
    obtain ⟨_, h, hinl⟩ := h
    obtain rfl := Sum.inl.inj hinl
    exact moves_of_stepEvaluate h

theorem step_of_moves {state state' : ParserState} (h : Moves Φ state state') :
    step Φ state = some (.inl state') := by
  cases h with
  | scalar hv =>
      rename_i t v input stack
      have hstep : stepValue Φ t input stack = some (.evaluate v input stack) := by
        cases t with
        | beginObject | beginArray => cases hv
        | _ => simp [stepValue, hv]
      rw [step, hstep]
      rfl
  | emptyObject hscan => simp [step, stepValue, hscan]
  | object hscan hname ht => simp [step, stepValue, hscan, parseKey_of_scan _ hname ht]
  | emptyArray hscan => simp [step, stepValue, hscan]
  | array hscan ht => simp [step, stepValue, hscan, ht]
  | nextElement hscan ht => simp [step, stepEvaluate, hscan, ht]
  | endArray hscan => simp [step, stepEvaluate, hscan]
  | nextMember hscan hkey hname ht =>
      simp [step, stepEvaluate, hscan, hkey, parseKey_of_scan _ hname ht]
  | endObject hscan => simp [step, stepEvaluate, hscan]

theorem Moves.weight_lt {state state' : ParserState} (h : Moves Φ state state') :
    weight state' < weight state := by
  cases h with
  | scalar hv =>
      rw [weight, weight, if_neg (by rintro rfl; cases hv)]
      omega
  | emptyObject hscan | emptyArray hscan =>
      have h₁ := scan_length_of_ne hscan (by simp)
      simp only [weight, reduceCtorEq, if_false]
      omega
  | object hscan hname ht =>
      have h₁ := scan_length_of_ne hscan (by simp)
      have h₂ := scan_length_of_ne hname (by simp)
      refine (weight_scan ht).trans_lt ?_
      rw [weight, if_neg (by simp)]
      omega
  | array hscan _ =>
      refine (weight_scan hscan).trans_lt ?_
      rw [weight, if_neg (by simp)]
      omega
  | nextElement hscan ht =>
      have h₁ := scan_length_of_ne hscan (by simp)
      refine (weight_scan ht).trans_lt ?_
      rw [weight]
      omega
  | endArray hscan | endObject hscan =>
      have h₁ := scan_length_of_ne hscan (by simp)
      simp only [weight]
      omega
  | nextMember hscan hkey hname ht =>
      have h₁ := scan_length_of_ne hscan (by simp)
      have h₂ := scan_length_of_ne hkey (by simp)
      have h₃ := scan_length_of_ne hname (by simp)
      refine (weight_scan ht).trans_lt ?_
      rw [weight]
      omega

variable (Φ) in
/-- `sax_parse_internal` from a point in its loop. -/
def run (state : ParserState) : Option (Json × List UInt8) :=
  match _ : step Φ state with
  | some (.inl state') => run state'
  | some (.inr result) => some result
  | none => none
termination_by weight state
decreasing_by exact (moves_of_step ‹_›).weight_lt

theorem run_moves {state state' : ParserState} (h : Moves Φ state state') :
    run Φ state = run Φ state' := by
  rw [run.eq_def, step_of_moves h]

theorem run_result (v : Json) (input : List UInt8) :
    run Φ (.evaluate v input []) = some (v, input) := by
  rw [run.eq_def, step]

theorem run_cases {state : ParserState} {result : Json × List UInt8}
    (h : run Φ state = some result) :
    (∃ state', Moves Φ state state' ∧ run Φ state' = some result) ∨
      state = .evaluate result.1 result.2 [] := by
  rw [run.eq_def] at h
  split at h
  · rename_i state' hstep
    exact .inl ⟨state', moves_of_step hstep, h⟩
  · rename_i hstep
    obtain rfl := Option.some.inj h
    rw [step.eq_def] at hstep
    split at hstep
    · simp at hstep
    · obtain rfl := Sum.inr.inj (Option.some.inj hstep)
      exact .inr rfl
    · simp at hstep
  · cases h

variable (Φ)

/-- The constructor reads the first token. What is left is what the lexer
reads next, the byte that `unget` gave back to it included. -/
def parseInternal (input : List UInt8) : Option (Json × List UInt8) := do
  let input ← skipBom input
  let (token, input) ← scan Φ input
  run Φ (.value token input [])

/-- `parse` of a text, which is read to its end. -/
def parse (input : List UInt8) : Option Json := do
  let (v, rest) ← parseInternal Φ input
  let (token, _) ← scan Φ rest
  if token = .endOfInput then some v else none

/-- Where the stream stands when the lexer is gone. The byte after a number
was taken off the stream, and `unget` did not put it back. -/
def streamRest (v : Json) (rest : List UInt8) : List UInt8 :=
  match v with
  | .integer _ | .float _ => rest.tail
  | _ => rest

/-- `operator>>`, with what it leaves in the stream. -/
def extract (input : List UInt8) : Option (Json × List UInt8) :=
  (parseInternal Φ input).map fun r => (r.1, streamRest r.1 r.2)

/-- The value that `operator>>` reads. -/
def fromStream (input : List UInt8) : Option Json := (extract Φ input).map Prod.fst

variable {Φ}

theorem fromStream_eq (input : List UInt8) :
    fromStream Φ input = (parseInternal Φ input).map Prod.fst := by
  rw [fromStream, extract, Option.map_map]
  rfl

end Parser

end AmongUs.Json

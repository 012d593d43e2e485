import AmongUs.Networking.Message
import AmongUs.Transition.Machine

/-!
The body of a message as a stack of values.

A sequence of `<<` and `>>` on a message works on one string of bytes, with
offsets that each `>>` computes from the size of its type. The meaning of
such a sequence is a stack of whole values (`performOn`): `<<` puts a value
on top, and `>>` takes the one on top, which must have the size that is
asked for. Where the stack has a meaning for the sequence, the message does
the same and holds the values that are left (`perform_holding`).
-/

namespace AmongUs.Networking

open Transition

/-- `msg << data`, or `msg >> data` for a type of `size` bytes. -/
inductive BodyOperation
  | push (data : List UInt8)
  | pop (size : ℕ)

/-- The operations on a stack of values: what was popped, and what is left. -/
def performOn :
    List (List UInt8) → List BodyOperation → Option (List (List UInt8) × List (List UInt8))
  | stack, [] => some ([], stack)
  | stack, .push data :: ops => performOn (data :: stack) ops
  | [], .pop _ :: _ => none
  | data :: stack, .pop size :: ops =>
      if data.length = size then (performOn stack ops).map fun r => (data :: r.1, r.2) else none

/-- Every value is popped again, the last one first. -/
def pushesThenPops (values : List (List UInt8)) : List BodyOperation :=
  values.map .push ++ values.reverse.map fun data => .pop data.length

theorem performOn_pushes (stack values : List (List UInt8)) (ops : List BodyOperation) :
    performOn stack (values.map .push ++ ops) = performOn (values.reverse ++ stack) ops := by
  induction values generalizing stack with
  | nil => rfl
  | cons data values ih =>
      rw [List.map_cons, List.cons_append, performOn, ih, List.reverse_cons, List.append_assoc]
      rfl

theorem performOn_pops (stack values : List (List UInt8)) :
    performOn (values ++ stack) (values.map fun data => .pop data.length) =
      some (values, stack) := by
  induction values with
  | nil => rfl
  | cons data values ih =>
      rw [List.map_cons, List.cons_append, performOn, if_pos rfl, ih]
      rfl

theorem performOn_pushesThenPops (stack values : List (List UInt8)) :
    performOn stack (pushesThenPops values) = some (values.reverse, stack) := by
  rw [pushesThenPops, performOn_pushes, performOn_pops]

namespace Message

/-- The operations on a message, in order: what was popped, and the message
after them. -/
def perform : Message → List BodyOperation → Except Fault (List (List UInt8) × Message)
  | msg, [] => .ok ([], msg)
  | msg, .push data :: ops => (msg.push data).perform ops
  | msg, .pop size :: ops => do
      let (data, msg) ← msg.pop size
      let (values, msg) ← msg.perform ops
      return (data :: values, msg)

/-- The message with a stack of values on its body. -/
def holding (msg : Message) (stack : List (List UInt8)) : Message := stack.foldr (flip push) msg

@[simp] theorem holding_nil (msg : Message) : msg.holding [] = msg := rfl

@[simp] theorem holding_cons (msg : Message) (data : List UInt8) (stack : List (List UInt8)) :
    msg.holding (data :: stack) = (msg.holding stack).push data := rfl

variable {msg msg' : Message}

/-- Recalculating the size of a message with values on it changes nothing. -/
theorem Sized.holding_setBody (h : msg.Sized) (stack : List (List UInt8)) :
    (msg.holding stack).setBody (msg.holding stack).body = msg.holding stack := by
  cases stack with
  | nil => exact h.setBody_self
  | cons data stack => rfl

theorem Sized.pop_holding (h : msg.Sized) (data : List UInt8) (stack : List (List UInt8)) :
    (msg.holding (data :: stack)).pop data.length = .ok (data, msg.holding stack) := by
  have hbody : (msg.holding (data :: stack)).body = (msg.holding stack).body ++ data := rfl
  rw [pop_of_append hbody]
  exact congrArg (fun rest => Except.ok (data, rest)) (h.holding_setBody stack)

/-- **The message refines the stack of values.** -/
theorem perform_holding (h : msg.Sized) {stack stack' values : List (List UInt8)}
    {ops : List BodyOperation} (hops : performOn stack ops = some (values, stack')) :
    (msg.holding stack).perform ops = .ok (values, msg.holding stack') := by
  induction ops generalizing stack values with
  | nil =>
      obtain ⟨rfl, rfl⟩ : [] = values ∧ stack = stack' := by simpa [performOn] using hops
      rfl
  | cons op ops ih =>
      cases op with
      | push data =>
          rw [performOn] at hops
          exact ih hops
      | pop size =>
          cases stack with
          | nil => cases hops
          | cons data stack =>
              rw [performOn] at hops
              obtain ⟨hsize, hrest⟩ := Option.ite_none_right_eq_some.mp hops
              obtain ⟨⟨popped, left⟩, hpopped, hpair⟩ := Option.map_eq_some_iff.mp hrest
              obtain ⟨rfl, rfl⟩ := Prod.mk.inj hpair
              rw [perform, ← hsize, h.pop_holding]
              simp only [bind, Except.bind, ih hpopped, pure, Except.pure]

/-- Pushing back what was popped only recalculates the size. -/
theorem push_of_pop {n : ℕ} {data : List UInt8} (h : msg.pop n = .ok (data, msg')) :
    msg'.push data = msg.setBody msg.body := by
  have hle : n ≤ msg.body.length := by
    by_contra hlt
    rw [pop_eq_error (not_le.mp hlt)] at h
    cases h
  rw [pop_eq_ok hle] at h
  obtain ⟨rfl, rfl⟩ := Prod.mk.inj (Except.ok.inj h)
  rw [push, setBody_setBody, setBody_body, List.take_append_drop]

/-- The message is as an operation leaves it: it has the type and the
identifier that it had, and its size is computed from its body. -/
def After (msg msg' : Message) : Prop := msg' = msg.setBody msg'.body

theorem After.trans {msg'' : Message} (h : msg.After msg') (h' : msg'.After msg'') :
    msg.After msg'' := by
  rw [After, h', h]
  rfl

theorem after_push (msg : Message) (data : List UInt8) : msg.After (msg.push data) := rfl

theorem after_pop {n : ℕ} {data : List UInt8} (h : msg.pop n = .ok (data, msg')) :
    msg.After msg' := by
  rw [pop] at h
  split at h
  · obtain ⟨-, rfl⟩ := Prod.mk.inj (Except.ok.inj h)
    rfl
  · cases h

/-- A sequence that starts with a pop that succeeds. -/
theorem perform_pop_cases {n : ℕ} {ops : List BodyOperation} {values : List (List UInt8)}
    (h : msg.perform (.pop n :: ops) = .ok (values, msg')) :
    ∃ data rest popped, msg.pop n = .ok (data, rest) ∧ rest.perform ops = .ok (popped, msg') ∧
      values = data :: popped := by
  obtain ⟨⟨data, rest⟩, hpop, hbind⟩ := bind_eq_ok.mp h
  obtain ⟨⟨popped, last⟩, hpopped, hreturn⟩ := bind_eq_ok.mp hbind
  obtain ⟨rfl, rfl⟩ := Prod.mk.inj (Except.ok.inj hreturn)
  exact ⟨data, rest, popped, hpop, hpopped, rfl⟩

theorem After.perform {msg₀ : Message} {ops : List BodyOperation} {values : List (List UInt8)}
    (h : msg₀.After msg) (hops : msg.perform ops = .ok (values, msg')) : msg₀.After msg' := by
  induction ops generalizing msg values with
  | nil =>
      obtain ⟨-, rfl⟩ := Prod.mk.inj (Except.ok.inj hops)
      exact h
  | cons op ops ih =>
      cases op with
      | push data => exact ih (h.trans (after_push msg data)) hops
      | pop size =>
          obtain ⟨data, rest, popped, hpop, hrest, -⟩ := perform_pop_cases hops
          exact ih (h.trans (after_pop hpop)) hrest

/-- A sequence that is not empty leaves a message as an operation does. -/
theorem after_perform {op : BodyOperation} {ops : List BodyOperation}
    {values : List (List UInt8)} (h : msg.perform (op :: ops) = .ok (values, msg')) :
    msg.After msg' := by
  cases op with
  | push data => exact (after_push msg data).perform h
  | pop size =>
      obtain ⟨data, rest, popped, hpop, hrest, -⟩ := perform_pop_cases h
      exact (after_pop hpop).perform hrest

theorem After.sized (h : msg.After msg') (hlt : msg'.body.length < 2 ^ 32) : msg'.Sized := by
  rw [h]
  exact sized_setBody msg hlt

/-- **The body is an exact stack.** Values that are pushed on a sized message
are popped as they were, and the message is then the one before, header
included; a value that is popped can be pushed back; and after each push and
each pop the header has the size of the body, and its type and identifier. -/
theorem body_exact_stack (h : msg.Sized) :
    (∀ values, msg.perform (pushesThenPops values) = .ok (values.reverse, msg)) ∧
    (∀ n, n ≤ msg.body.length → ∃ data rest,
      msg.pop n = .ok (data, rest) ∧ data.length = n ∧ rest.push data = msg) ∧
    ∀ ops values msg', msg.perform ops = .ok (values, msg') → msg'.body.length < 2 ^ 32 →
      msg'.Sized ∧ msg'.header.type = msg.header.type ∧ msg'.header.id = msg.header.id := by
  refine ⟨fun values => ?_, fun n hn => ?_, fun ops values msg' hops hlt => ?_⟩
  · exact perform_holding h (performOn_pushesThenPops [] values)
  · have hpop := pop_eq_ok hn
    refine ⟨_, _, hpop, ?_, ?_⟩
    · rw [List.length_drop]
      omega
    · rw [push_of_pop hpop, h.setBody_self]
  · cases ops with
    | nil =>
        obtain ⟨-, rfl⟩ := Prod.mk.inj (Except.ok.inj hops)
        exact ⟨h, rfl, rfl⟩
    | cons op ops =>
        have hafter := after_perform hops
        exact ⟨hafter.sized hlt, by rw [hafter, setBody_type], by rw [hafter, setBody_id]⟩

/-- A flag, an identifier and a time point on an empty message. -/
theorem body_exact_stack_three :
    Message.perform {} (pushesThenPops [[1], uint32Bytes 10001, timePointBytes 5]) =
      .ok ([timePointBytes 5, uint32Bytes 10001, [1]], {}) :=
  (body_exact_stack (sized_empty .serverAccept 0)).1 [[1], uint32Bytes 10001, timePointBytes 5]

end Message

end AmongUs.Networking

import Mathlib.Tactic.Common

/-!
# What a computation that can fail ends with

`Ends E P r` says that `E` holds of the error of `r`, or `P` of its value.
-/

set_option autoImplicit false

universe u v

variable {ε : Type v} {α β : Type u} {E F : ε → Prop} {P Q : α → Prop} {R : β → Prop}

inductive Ends (E : ε → Prop) (P : α → Prop) : Except ε α → Prop
  | error {e : ε} (failed : E e) : Ends E P (.error e)
  | ok {x : α} (holds : P x) : Ends E P (.ok x)

namespace Ends

theorem value {x : α} (outcome : Ends E P (.ok x)) : P x := by
  cases outcome with
  | ok holds => exact holds

theorem failure {e : ε} (outcome : Ends E P (.error e)) : E e := by
  cases outcome with
  | error failed => exact failed

theorem mono {r : Except ε α} (outcome : Ends E P r) (errors : ∀ e, E e → F e)
    (values : ∀ x, P x → Q x) : Ends F Q r := by
  cases outcome with
  | error failed => exact .error (errors _ failed)
  | ok holds => exact .ok (values _ holds)

theorem any (r : Except ε α) : Ends (fun _ => True) (fun _ => True) r := by
  cases r with
  | error e => exact .error trivial
  | ok x => exact .ok trivial

theorem and {r : Except ε α} (first : Ends E P r) (second : Ends E Q r) :
    Ends E (fun x => P x ∧ Q x) r := by
  cases first with
  | error failed => exact .error failed
  | ok holds => exact .ok ⟨holds, second.value⟩

theorem bind {r : Except ε α} {f : α → Except ε β} (first : Ends E P r)
    (rest : ∀ x, P x → Ends E R (f x)) : Ends E R (r >>= f) := by
  cases first with
  | error failed => exact .error failed
  | ok holds => exact rest _ holds

theorem map {r : Except ε α} {f : α → β} (first : Ends E (fun x => R (f x)) r) :
    Ends E R (f <$> r) := by
  cases first with
  | error failed => exact .error failed
  | ok holds => exact .ok holds

/-- An invariant of a loop. -/
theorem foldlM {f : α → β → Except ε α} (step : ∀ x y, P x → Ends E P (f x y)) :
    ∀ (ys : List β) (x : α), P x → Ends E P (ys.foldlM f x)
  | [], _, start => .ok start
  | y :: ys, x, start => by
      rw [List.foldlM_cons]
      exact (step x y start).bind fun next holds => foldlM step ys next holds

end Ends

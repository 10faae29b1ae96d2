import Mathlib.Data.List.Induction
import Mathlib.Logic.Relation
import Mathlib.Order.WellFounded
import Mathlib.Tactic.Common

/-!
# Runs of a partial transition function

A step function `step s a` answers the state after the action `a`, if `a` is
enabled.  `Run step ok s as t` is a run from `s` to `t` through the actions
`as`, each of which met `ok` in the state before it.
-/

set_option autoImplicit false

namespace Transition

variable {σ α : Type*} {step : σ → α → Option σ} {ok : σ → α → Prop}

inductive Run (step : σ → α → Option σ) (ok : σ → α → Prop) (s : σ) : List α → σ → Prop where
  | nil : Run step ok s [] s
  | snoc {as : List α} {a : α} {t u : σ} :
      Run step ok s as t → ok t a → step t a = some u → Run step ok s (as ++ [a]) u

/-- The rule for invariants. -/
theorem Run.invariant {P : σ → Prop} {s t : σ} {as : List α} (run : Run step ok s as t)
    (start : P s) (preserve : ∀ t a u, P t → ok t a → step t a = some u → P u) : P t := by
  induction run with
  | nil => exact start
  | snoc _ allowed stepped ih => exact preserve _ _ _ ih allowed stepped

/-- The rule for facts about the actions taken so far and the state reached. -/
theorem Run.induct {P : List α → σ → Prop} {s t : σ} {as : List α} (run : Run step ok s as t)
    (start : P [] s)
    (preserve : ∀ as t a u, Run step ok s as t → P as t → ok t a → step t a = some u →
      P (as ++ [a]) u) : P as t := by
  induction run with
  | nil => exact start
  | snoc before allowed stepped ih => exact preserve _ _ _ _ before ih allowed stepped

theorem Run.mono {ok' : σ → α → Prop} (weaken : ∀ s a, ok s a → ok' s a) {s t : σ}
    {as : List α} (run : Run step ok s as t) : Run step ok' s as t := by
  induction run with
  | nil => exact .nil
  | snoc _ allowed stepped ih => exact ih.snoc (weaken _ _ allowed) stepped

theorem Run.append {s t u : σ} {as bs : List α} (first : Run step ok s as t)
    (second : Run step ok t bs u) : Run step ok s (as ++ bs) u := by
  induction second with
  | nil => simpa using first
  | snoc _ allowed stepped ih =>
      rw [← List.append_assoc]
      exact ih.snoc allowed stepped

theorem Run.eq_of_nil {s t : σ} (run : Run step ok s [] t) : t = s := by
  generalize none : [] = as at run
  cases run with
  | nil => rfl
  | snoc => simp at none

theorem Run.cases_cons {s u : σ} {a : α} {as : List α} (run : Run step ok s (a :: as) u) :
    ∃ t, ok s a ∧ step s a = some t ∧ Run step ok t as u := by
  generalize whole : a :: as = bs at run
  induction run generalizing a as with
  | nil => cases whole
  | @snoc cs b t u before allowed stepped ih =>
      cases cs with
      | nil =>
          rw [before.eq_of_nil] at allowed stepped
          cases whole
          exact ⟨u, allowed, stepped, .nil⟩
      | cons c cs =>
          cases whole
          obtain ⟨v, first_allowed, first_stepped, rest⟩ := ih rfl
          exact ⟨v, first_allowed, first_stepped, rest.snoc allowed stepped⟩

theorem Run.split {s u : σ} {as bs : List α} (run : Run step ok s (as ++ bs) u) :
    ∃ t, Run step ok s as t ∧ Run step ok t bs u := by
  induction as generalizing s with
  | nil => exact ⟨s, .nil, run⟩
  | cons a as ih =>
      obtain ⟨t, allowed, stepped, rest⟩ := run.cases_cons
      obtain ⟨v, first, second⟩ := ih rest
      exact ⟨v, Run.append (Run.snoc .nil allowed stepped) first, second⟩

theorem Run.unique {ok' : σ → α → Prop} {s t u : σ} {as : List α} (first : Run step ok s as t)
    (second : Run step ok' s as u) : t = u := by
  induction as generalizing s with
  | nil => rw [first.eq_of_nil, second.eq_of_nil]
  | cons a as ih =>
      obtain ⟨v, -, stepped, rest⟩ := first.cases_cons
      obtain ⟨w, -, stepped', rest'⟩ := second.cases_cons
      obtain rfl := Option.some.inj (stepped.symm.trans stepped')
      exact ih rest rest'

/-! ## Forced runs -/

/-- From `s` the actions `as` lead to `t`, each being the only one that is allowed
and enabled, through states with the property `P`. -/
inductive Forced (step : σ → α → Option σ) (ok : σ → α → Prop) (P : σ → Prop) :
    σ → List α → σ → Prop where
  | nil {s : σ} : Forced step ok P s [] s
  | cons {s t u : σ} {a : α} {as : List α} : P s → step s a = some t →
      (∀ b v, ok s b → step s b = some v → b = a) → Forced step ok P t as u →
      Forced step ok P s (a :: as) u

theorem Forced.append {P : σ → Prop} {s t u : σ} {as bs : List α}
    (first : Forced step ok P s as t) (second : Forced step ok P t bs u) :
    Forced step ok P s (as ++ bs) u := by
  induction first with
  | nil => exact second
  | cons here stepped only _ ih => exact .cons here stepped only (ih second)

theorem Forced.mono {P Q : σ → Prop} (weaken : ∀ s, P s → Q s) {s t : σ} {as : List α}
    (forced : Forced step ok P s as t) : Forced step ok Q s as t := by
  induction forced with
  | nil => exact .nil
  | cons here stepped only _ ih => exact .cons (weaken _ here) stepped only ih

/-- Every run is on the forced way or has gone all of it. -/
theorem Forced.cover {P : σ → Prop} {s t u : σ} {as bs : List α}
    (forced : Forced step ok P s as t) (run : Run step ok s bs u) :
    (P u ∧ bs <+: as ∧ bs ≠ as) ∨ ∃ cs, bs = as ++ cs ∧ Run step ok t cs u := by
  induction forced generalizing bs with
  | nil => exact Or.inr ⟨bs, rfl, run⟩
  | @cons s t v a as here stepped only _ ih =>
      cases bs with
      | nil =>
          rw [run.eq_of_nil]
          exact Or.inl ⟨here, List.nil_prefix, by simp⟩
      | cons b bs =>
          obtain ⟨w, allowed, taken, rest⟩ := run.cases_cons
          obtain rfl := only b w allowed taken
          cases stepped.symm.trans taken
          rcases ih rest with ⟨holds, before, other⟩ | ⟨cs, rfl, later⟩
          · exact Or.inl ⟨holds, List.cons_prefix_cons.mpr ⟨rfl, before⟩, by simpa using other⟩
          · exact Or.inr ⟨cs, rfl, later⟩

theorem Forced.unique {P Q : σ → Prop} {s t u : σ} {as bs : List α}
    (first : Forced step ok P s as t) (second : Forced step ok Q s bs u)
    (allowed : ∀ s a, a ∈ as ∨ a ∈ bs → ok s a)
    (halted_t : ∀ a v, ok t a → step t a ≠ some v)
    (halted_u : ∀ a v, ok u a → step u a ≠ some v) : t = u := by
  induction first generalizing bs with
  | nil =>
      cases second with
      | nil => rfl
      | cons _ stepped _ _ =>
          exact absurd stepped (halted_t _ _ (allowed _ _ (Or.inr List.mem_cons_self)))
  | @cons s t v a as _ stepped only _ ih =>
      cases second with
      | nil => exact absurd stepped (halted_u _ _ (allowed _ _ (Or.inl List.mem_cons_self)))
      | @cons _ t' _ b bs _ stepped' _ rest =>
          obtain rfl := only b t' (allowed _ _ (Or.inr List.mem_cons_self)) stepped'
          cases stepped.symm.trans stepped'
          refine ih rest (fun s c mem => allowed s c ?_) halted_t
          exact mem.imp (List.mem_cons_of_mem _) (List.mem_cons_of_mem _)

def exec (step : σ → α → Option σ) : σ → List α → Option σ
  | s, [] => some s
  | s, a :: as => (step s a).bind fun t => exec step t as

theorem Forced.exec {P : σ → Prop} {s t : σ} {as : List α}
    (forced : Forced step ok P s as t) : exec step s as = some t := by
  induction forced with
  | nil => rfl
  | cons _ stepped _ _ ih =>
      rw [Transition.exec, stepped]
      exact ih

theorem exec_append (s : σ) (as bs : List α) :
    exec step s (as ++ bs) = (exec step s as).bind fun t => exec step t bs := by
  induction as generalizing s with
  | nil => rfl
  | cons a as ih =>
      simp only [List.cons_append, exec, Option.bind_assoc]
      exact congrArg _ (funext fun t => ih t)

theorem run_of_exec {s t : σ} {as : List α} (executed : exec step s as = some t)
    (allowed : ∀ s, ∀ a ∈ as, ok s a) : Run step ok s as t := by
  induction as using List.reverseRecOn generalizing t with
  | nil =>
      cases executed
      exact .nil
  | append_singleton as a ih =>
      rw [exec_append] at executed
      obtain ⟨u, before, last⟩ := Option.bind_eq_some_iff.mp executed
      have stepped : step u a = some t := by
        cases found : step u a with
        | none => simp [exec, found] at last
        | some v => simpa [exec, found] using last
      exact (ih before fun s b mem => allowed s b (by simp [mem])).snoc
        (allowed u a (by simp)) stepped

theorem run_of_exec_true {s t : σ} {as : List α} (executed : exec step s as = some t) :
    Run step (fun _ _ => True) s as t :=
  run_of_exec executed fun _ _ _ => trivial

def execChecked (step : σ → α → Option σ) (check : σ → α → Bool) (s : σ) (as : List α) :
    Option σ :=
  exec (fun s a => if check s a then step s a else none) s as

theorem run_of_execChecked {check : σ → α → Bool} (sound : ∀ s a, check s a = true → ok s a)
    {s t : σ} {as : List α} (executed : execChecked step check s as = some t) :
    Run step ok s as t := by
  induction as generalizing s with
  | nil =>
      cases executed
      exact .nil
  | cons a as ih =>
      obtain ⟨u, first, rest⟩ := Option.bind_eq_some_iff.mp executed
      dsimp only at first
      split at first
      · rename_i passed
        exact Run.append (Run.snoc .nil (sound s a passed) first) (ih rest)
      · cases first

/-- One allowed step, backwards: the relation whose accessible states are those
from which every run ends. -/
def Follows (step : σ → α → Option σ) (ok : σ → α → Prop) (t s : σ) : Prop :=
  ∃ a, ok s a ∧ step s a = some t

def Terminates (step : σ → α → Option σ) (ok : σ → α → Prop) (s : σ) : Prop :=
  Acc (Follows step ok) s

/-- A measure into a well-founded order that every allowed step from a state with
the invariant decreases. -/
theorem terminates_of_measure {μ : Type*} {r : μ → μ → Prop} (wf : WellFounded r)
    {P : μ → σ → Prop}
    (decrease : ∀ m s a t, P m s → ok s a → step s a = some t → ∃ m', r m' m ∧ P m' t)
    {m : μ} {s : σ} (start : P m s) : Terminates step ok s := by
  induction m using wf.induction generalizing s with
  | _ m ih =>
      refine Acc.intro s ?_
      rintro t ⟨a, allowed, stepped⟩
      obtain ⟨m', smaller, inv⟩ := decrease m s a t start allowed stepped
      exact ih m' smaller inv

end Transition

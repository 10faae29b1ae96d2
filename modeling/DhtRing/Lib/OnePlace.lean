import Mathlib.Data.Option.Basic
import Mathlib.Tactic.Common

/-!
# A thing at one place

`held i` lists what the place `i` holds of a thing of which there is at most one.
The thing stays at one place as long as it only moves from there to another.
-/

set_option autoImplicit false

namespace OnePlace

variable {ι α : Type*} {f g : ι → List α} {x : Option α} {a : α} {p q : ι}

/-- The thing `x`, if there is one, is held once, and nothing else is held. -/
def Placed (held : ι → List α) (x : Option α) : Prop :=
  ∃ p, held p = x.toList ∧ ∀ i, i ≠ p → held i = []

theorem Placed.of_ne_nil (placed : Placed f x) (some_here : f p ≠ []) :
    f p = x.toList ∧ ∀ i, i ≠ p → f i = [] := by
  obtain ⟨there, here, elsewhere⟩ := placed
  by_cases same : p = there
  · rw [same]
    exact ⟨here, elsewhere⟩
  · exact absurd (elsewhere p same) some_here

theorem Placed.of_mem (placed : Placed f x) (mem : a ∈ f p) :
    x = some a ∧ f p = [a] ∧ ∀ i, i ≠ p → f i = [] := by
  obtain ⟨here, elsewhere⟩ := placed.of_ne_nil (List.ne_nil_of_mem mem)
  rw [here, Option.mem_toList] at mem
  rw [here, mem]
  exact ⟨rfl, rfl, elsewhere⟩

theorem Placed.of_elsewhere (placed : Placed f x) (elsewhere : ∀ i, i ≠ p → f i = []) :
    f p = x.toList := by
  obtain ⟨q, there, others⟩ := placed
  by_cases same : p = q
  · rw [same, there]
  · rw [← there, elsewhere q (Ne.symm same), others p same]

theorem Placed.exists_mem (placed : Placed f (some a)) : ∃ p, a ∈ f p := by
  obtain ⟨p, here, -⟩ := placed
  exact ⟨p, by simp [here]⟩

theorem Placed.eq_nil (placed : Placed f none) (i : ι) : f i = [] := by
  by_contra some_here
  exact some_here (placed.of_ne_nil some_here).1

theorem placed_none [Nonempty ι] (nowhere : ∀ i, f i = []) : Placed f none := by
  obtain ⟨p⟩ := ‹Nonempty ι›
  exact ⟨p, nowhere p, fun i _ => nowhere i⟩

theorem Placed.congr (placed : Placed f x) (same : ∀ i, g i = f i) : Placed g x := by
  obtain rfl : g = f := funext same
  exact placed

theorem Placed.move (placed : Placed f x) (some_here : f p ≠ []) (gone : g p = [])
    (came : g q = f p) (rest : ∀ i, i ≠ p → i ≠ q → g i = f i) : Placed g x := by
  obtain ⟨here, elsewhere⟩ := placed.of_ne_nil some_here
  refine ⟨q, came.trans here, ?_⟩
  intro i other
  by_cases left : i = p
  · rw [left, gone]
  · rw [rest i left other, elsewhere i left]

/-- What comes first at `p`, the thing or something else, goes behind what `q` holds. -/
theorem Placed.carry (placed : Placed f x) (moved : Option α) (rest : List α) (apart : p ≠ q)
    (first : f p = moved.toList ++ rest) (left : g p = rest) (came : g q = f q ++ moved.toList)
    (others : ∀ i, i ≠ p → i ≠ q → g i = f i) : Placed g x := by
  cases moved with
  | none =>
      refine placed.congr fun i => ?_
      by_cases at_p : i = p
      · rw [at_p, left, first]
        rfl
      · by_cases at_q : i = q
        · rw [at_q, came, Option.toList_none, List.append_nil]
        · exact others i at_p at_q
  | some a =>
      have here : a ∈ f p := by simp [first]
      obtain ⟨-, alone, elsewhere⟩ := placed.of_mem here
      refine placed.move (List.ne_nil_of_mem here) ?_ ?_ others
      · rw [left]
        exact (List.cons.inj (first.symm.trans alone)).2
      · rw [came, elsewhere q (Ne.symm apart), alone]
        rfl

end OnePlace

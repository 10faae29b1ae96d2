import Mathlib.Order.Basic
import Mathlib.Tactic.Common

/-!
# One unit of a resource

Holders `ι` share a resource; `load i` is what the holder `i` has of it.  All of
them together have at most one unit, and it stays so as long as the unit is only
dropped or moved.
-/

set_option autoImplicit false

namespace AtMostOne

variable {ι : Type*} {f g : ι → ℕ} {p q : ι}

/-- No holder has more than one unit, and no two holders have one. -/
structure Single (load : ι → ℕ) : Prop where
  le_one : ∀ i, load i ≤ 1
  unique : ∀ i j, load i ≠ 0 → load j ≠ 0 → i = j

theorem Single.eq_zero (single : Single f) (held : f p ≠ 0) (other : q ≠ p) : f q = 0 := by
  by_contra also
  exact other (single.unique q p also held)

theorem Single.pair (single : Single f) (other : p ≠ q) : f p + f q ≤ 1 := by
  by_cases held : f p = 0
  · have := single.le_one q
    omega
  · have := single.le_one p
    have := single.eq_zero held other.symm
    omega

theorem Single.mono (single : Single f) (le : ∀ i, g i ≤ f i) : Single g where
  le_one i := Nat.le_trans (le i) (single.le_one i)
  unique i j held_i held_j := by
    have := le i
    have := le j
    apply single.unique i j <;> omega

/-- What `p` and `q` have together does not grow, and nobody else gets more. -/
theorem Single.move (single : Single f) (moved : g p + g q ≤ f p + f q)
    (rest : ∀ i, i ≠ p → i ≠ q → g i ≤ f i) : Single g := by
  by_cases same : p = q
  · subst same
    apply single.mono
    intro i
    by_cases here : i = p
    · rw [here]
      omega
    · exact rest i here here
  · have both := single.pair same
    -- a third holder has something only when neither of the two has
    have third : ∀ i, i ≠ p → i ≠ q → g i ≠ 0 → g p = 0 ∧ g q = 0 := by
      intro i hp hq held
      have held_before : f i ≠ 0 := by
        have := rest i hp hq
        omega
      have := single.eq_zero held_before hp.symm
      have := single.eq_zero held_before hq.symm
      omega
    constructor
    · intro i
      by_cases hp : i = p
      · rw [hp]
        omega
      · by_cases hq : i = q
        · rw [hq]
          omega
        · exact Nat.le_trans (rest i hp hq) (single.le_one i)
    · intro i j held_i held_j
      by_contra other
      by_cases outside : (i ≠ p ∧ i ≠ q) ∧ (j ≠ p ∧ j ≠ q)
      · have := rest i outside.1.1 outside.1.2
        have := rest j outside.2.1 outside.2.2
        apply other
        apply single.unique i j <;> omega
      · by_cases third_i : i ≠ p ∧ i ≠ q
        · have := third i third_i.1 third_i.2 held_i
          grind
        · by_cases third_j : j ≠ p ∧ j ≠ q
          · have := third j third_j.1 third_j.2 held_j
            grind
          · grind

end AtMostOne

import Mathlib.Data.List.Induction
import Mathlib.Algebra.Order.Group.Nat
import Mathlib.Tactic.Common

/-!
# The first maximum of a list

A running maximum that only a strictly larger value replaces ends at the first of
the largest values.
-/

set_option autoImplicit false

namespace FirstMax

variable {β : Type*} (span : β → ℕ)

def pick (best : ℕ × β) (a : β) : ℕ × β := if best.1 < span a then (span a, a) else best

structure IsFirstMax (as pre : List β) (w : β) (post : List β) : Prop where
  split : as = pre ++ w :: post
  before : ∀ a ∈ pre, span a < span w
  after : ∀ a ∈ post, span a ≤ span w

variable {span}

theorem IsFirstMax.le {as pre post : List β} {w : β} (first : IsFirstMax span as pre w post)
    {a : β} (mem : a ∈ as) : span a ≤ span w := by
  rw [first.split, List.mem_append, List.mem_cons] at mem
  rcases mem with earlier | rfl | later
  · exact (first.before a earlier).le
  · exact le_rfl
  · exact first.after a later

theorem IsFirstMax.congr {span' : β → ℕ} {as pre post : List β} {w : β}
    (first : IsFirstMax span as pre w post) (same : ∀ a ∈ as, span' a = span a) :
    IsFirstMax span' as pre w post := by
  have mem_w : w ∈ as := by
    rw [first.split]
    simp
  refine ⟨first.split, fun a mem => ?_, fun a mem => ?_⟩
  · rw [same a (by rw [first.split]; simp [mem]), same w mem_w]
    exact first.before a mem
  · rw [same a (by rw [first.split]; simp [mem]), same w mem_w]
    exact first.after a mem

theorem foldl_pick_of_le {best : ℕ × β} {as : List β} (small : ∀ a ∈ as, span a ≤ best.1) :
    as.foldl (pick span) best = best := by
  induction as with
  | nil => rfl
  | cons a as ih =>
      have stays : pick span best a = best := if_neg (by have := small a (by simp); omega)
      rw [List.foldl_cons, stays]
      exact ih fun b mem => small b (by simp [mem])

theorem foldl_pick_holder (span : β → ℕ) (best : ℕ × β) (as : List β) :
    (as.foldl (pick span) best).2 = best.2 ∨ (as.foldl (pick span) best).2 ∈ as := by
  induction as using List.reverseRecOn with
  | nil => exact Or.inl rfl
  | append_singleton as a ih =>
      rw [List.foldl_append, List.foldl_cons, List.foldl_nil, pick]
      split
      · exact Or.inr (by simp)
      · rcases ih with same | mem
        · exact Or.inl same
        · exact Or.inr (by simp [mem])

/-- The running maximum stops at the first of the largest values, if any exceeds the
initial record. -/
theorem foldl_pick (span : β → ℕ) (best : ℕ × β) (as : List β) :
    ((∀ a ∈ as, span a ≤ best.1) ∧ as.foldl (pick span) best = best) ∨
      ∃ pre w post, IsFirstMax span as pre w post ∧ best.1 < span w ∧
        as.foldl (pick span) best = (span w, w) := by
  induction as using List.reverseRecOn with
  | nil => exact Or.inl ⟨by simp, rfl⟩
  | append_singleton as a ih =>
      rw [List.foldl_append, List.foldl_cons, List.foldl_nil]
      rcases ih with ⟨small, same⟩ | ⟨pre, w, post, first, larger, record⟩
      · rw [same, pick]
        by_cases more : best.1 < span a
        · rw [if_pos more]
          refine Or.inr ⟨as, a, [], ⟨rfl, fun b mem => ?_, by simp⟩, more, rfl⟩
          exact lt_of_le_of_lt (small b mem) more
        · rw [if_neg more]
          refine Or.inl ⟨fun b mem => ?_, rfl⟩
          rcases List.mem_append.mp mem with old | new
          · exact small b old
          · rw [List.mem_singleton.mp new]
            omega
      · rw [record, pick]
        by_cases more : span w < span a
        · rw [if_pos more]
          refine Or.inr ⟨as, a, [], ⟨rfl, fun b mem => ?_, by simp⟩, by omega, rfl⟩
          exact lt_of_le_of_lt (first.le mem) more
        · rw [if_neg more]
          refine Or.inr ⟨pre, w, post ++ [a], ⟨?_, first.before, fun b mem => ?_⟩, larger, rfl⟩
          · rw [first.split, List.append_assoc, List.cons_append]
          · rcases List.mem_append.mp mem with old | new
            · exact first.after b old
            · rw [List.mem_singleton.mp new]
              omega

end FirstMax

import Mathlib.Algebra.Order.Group.Nat
import Mathlib.Data.Nat.Find
import Mathlib.Order.Basic
import Mathlib.Tactic.Common

/-!
# A token that looks for the largest span

A token goes round a ring.  It carries the largest span so far and the name of the node
that has it.  A node that finds its own name on the token is elected.  Two nodes may have
the same name: then the wrong one can be elected, and it is said exactly when.
-/

set_option autoImplicit false

namespace RingElection

variable {N : Type*}

structure Token (N : Type*) where
  record : ℕ
  holder : Option N

def Token.visit (token : Token N) (span : ℕ) (name : N) : Token N :=
  if token.record < span then ⟨span, some name⟩ else token

variable (span : ℕ → ℕ) (name : ℕ → N)

/-- The token after `k` visits from `entry` on, if nobody is elected. -/
def token (entry : ℕ) : ℕ → Token N
  | 0 => ⟨0, none⟩
  | k + 1 => (token entry k).visit (span (entry + k)) (name (entry + k))

/-- The visit at which a node first finds its name. -/
structure Elected (entry k : ℕ) : Prop where
  found : (token span name entry k).holder = some (name (entry + k))
  first : ∀ j < k, (token span name entry j).holder ≠ some (name (entry + j))

structure Holds (entry k x : ℕ) : Prop where
  visited : x < k
  stands : ∀ j, x < j → j ≤ k →
    token span name entry j = ⟨span (entry + x), some (name (entry + x))⟩
  positive : 0 < span (entry + x)
  later : ∀ j, x < j → j < k → span (entry + j) ≤ span (entry + x)

variable {span name} {entry k x : ℕ}

theorem Elected.unique {j : ℕ} (one : Elected span name entry j)
    (other : Elected span name entry k) : j = k := by
  rcases Nat.lt_trichotomy j k with before | same | behind
  · exact absurd one.found (other.first j before)
  · exact same
  · exact absurd other.found (one.first k behind)

theorem record_ge (k : ℕ) : ∀ j < k, span (entry + j) ≤ (token span name entry k).record := by
  induction k with
  | zero =>
      intro j inside
      exact absurd inside (Nat.not_lt_zero j)
  | succ k ih =>
      intro j inside
      rw [token, Token.visit]
      split
      · rename_i larger
        rcases Nat.lt_succ_iff_lt_or_eq.mp inside with older | rfl
        · exact ((ih j older).trans_lt larger).le
        · exact le_rfl
      · rename_i smaller
        rcases Nat.lt_succ_iff_lt_or_eq.mp inside with older | rfl
        · exact ih j older
        · exact Nat.le_of_not_lt smaller

theorem holder_cases (span : ℕ → ℕ) (name : ℕ → N) (entry k : ℕ) :
    ((token span name entry k).holder = none ∧ (token span name entry k).record = 0) ∨
      ∃ x, Holds span name entry k x := by
  induction k with
  | zero => exact Or.inl ⟨rfl, rfl⟩
  | succ k ih =>
      by_cases larger : (token span name entry k).record < span (entry + k)
      · right
        have next : token span name entry (k + 1) = ⟨span (entry + k), some (name (entry + k))⟩ := by
          rw [token, Token.visit, if_pos larger]
        refine ⟨k, Nat.lt_succ_self k, ?_, Nat.zero_lt_of_lt larger, ?_⟩
        · intro j above below
          obtain rfl : j = k + 1 := by omega
          exact next
        · intro j above below
          omega
      · have next : token span name entry (k + 1) = token span name entry k := by
          rw [token, Token.visit, if_neg larger]
        rw [next]
        rcases ih with none | ⟨x, holds⟩
        · exact Or.inl none
        · right
          have now := holds.stands k holds.visited le_rfl
          refine ⟨x, Nat.lt_succ_of_lt holds.visited, ?_, holds.positive, ?_⟩
          · intro j above below
            rcases Nat.le_succ_iff.mp below with older | rfl
            · exact holds.stands j above older
            · rw [next, now]
          · intro j above below
            rcases Nat.lt_succ_iff_lt_or_eq.mp below with older | rfl
            · exact holds.later j above older
            · rw [now] at larger
              exact Nat.le_of_not_lt larger

theorem token_of_le (small : ∀ j, k ≤ j → span (entry + j) ≤ (token span name entry k).record)
    (d : ℕ) : token span name entry (k + d) = token span name entry k := by
  induction d with
  | zero => rfl
  | succ d ih =>
      rw [← Nat.add_assoc, token, ih, Token.visit,
        if_neg (Nat.not_lt.mpr (small (k + d) (Nat.le_add_right k d)))]

/-! ## On a ring -/

section

variable {n : ℕ}

/-- Somebody is elected in the second round at the latest. -/
theorem exists_elected (around : ∀ i, span (i + n) = span i ∧ name (i + n) = name i)
    (covers : ∀ i, ∃ j < n, span i = span (entry + j)) (several : ∃ i, 0 < span i) :
    ∃ k < 2 * n, Elected span name entry k := by
  classical
  have all : ∀ i, span i ≤ (token span name entry n).record := by
    intro i
    obtain ⟨j, inside, eq⟩ := covers i
    rw [eq]
    exact record_ge n j inside
  obtain ⟨x, holds⟩ : ∃ x, Holds span name entry n x := by
    rcases holder_cases span name entry n with ⟨-, zero⟩ | holds
    · obtain ⟨i, positive⟩ := several
      have := all i
      omega
    · exact holds
  have again : (token span name entry (n + x)).holder = some (name (entry + (n + x))) := by
    rw [token_of_le (fun j _ => all _) x, holds.stands n holds.visited le_rfl, Nat.add_comm n x,
      ← Nat.add_assoc, (around (entry + x)).2]
  have some_visit : ∃ k, (token span name entry k).holder = some (name (entry + k)) := ⟨_, again⟩
  refine ⟨Nat.find some_visit, ?_, Nat.find_spec some_visit,
    fun j before => Nat.find_min some_visit before⟩
  have early := Nat.find_min' some_visit again
  have := holds.visited
  omega

/-- A node behind the record holder has its name, and a smaller span than some other. -/
structure Mistaken (span : ℕ → ℕ) (name : ℕ → N) (n x y : ℕ) : Prop where
  behind : x < y
  inside : y < x + n
  same : name y = name x
  positive : 0 < span x
  between : ∀ j, x < j → j < y → span j ≤ span x ∧ name j ≠ name x
  small : ∃ i, span y < span i

/-- The elected node has the largest span, wherever the token starts, if and only if no node
can be mistaken for another. -/
theorem elects_largest_iff (around : ∀ i, span (i + n) = span i ∧ name (i + n) = name i)
    (covers : ∀ entry i, ∃ j < n, span i = span (entry + j)) :
    (∀ entry k, Elected span name entry k → ∀ i, span i ≤ span (entry + k)) ↔
      ∀ x y, ¬ Mistaken span name n x y := by
  constructor
  · intro largest x y mistaken
    obtain ⟨d, rfl⟩ := Nat.exists_eq_add_of_lt mistaken.behind
    -- The token starts at `x`, which puts itself on it.
    have first : token span name x 1 = ⟨span x, some (name x)⟩ := if_pos mistaken.positive
    have stands : ∀ j, j ≤ d → token span name x (j + 1) = ⟨span x, some (name x)⟩ := by
      intro j
      induction j with
      | zero =>
          intro _
          exact first
      | succ j ih =>
          intro inside
          have here := (mistaken.between (x + (j + 1)) (by omega) (by omega)).1
          rw [token, ih (by omega), Token.visit, if_neg (Nat.not_lt.mpr here)]
    have elected : Elected span name x (d + 1) := by
      refine ⟨?_, ?_⟩
      · rw [stands d le_rfl, ← Nat.add_assoc, mistaken.same]
      · intro j before
        cases j with
        | zero => simp [token]
        | succ j =>
            rw [stands j (by omega)]
            intro eq
            have other := (mistaken.between (x + (j + 1)) (by omega) (by omega)).2
            exact other (Option.some.inj eq).symm
    obtain ⟨i, smaller⟩ := mistaken.small
    have := largest x (d + 1) elected i
    rw [← Nat.add_assoc] at this
    omega
  · intro unmistaken entry k elected i
    by_contra smaller
    have smaller := Nat.lt_of_not_le smaller
    rcases holder_cases span name entry k with ⟨none, -⟩ | ⟨x, holds⟩
    · have found := elected.found
      rw [none] at found
      cases found
    · have behind := holds.visited
      have unnamed : ∀ j, x < j → j < k → name (entry + j) ≠ name (entry + x) := by
        intro j above below eq
        apply elected.first j below
        rw [holds.stands j above below.le, eq]
      have same : name (entry + k) = name (entry + x) := by
        have found := elected.found
        rw [holds.stands k behind le_rfl] at found
        exact (Option.some.inj found).symm
      by_cases round : x + n ≤ k
      · -- The record holder has seen the token again, and nobody has a larger span.
        have once : k = x + n := by
          by_contra later
          apply unnamed (x + n) _ (by omega)
          · rw [← Nat.add_assoc, (around (entry + x)).2]
          · obtain ⟨j, inside, -⟩ := covers entry 0
            omega
        have span_k : span (entry + k) = span (entry + x) := by
          rw [once, ← Nat.add_assoc, (around (entry + x)).1]
        obtain ⟨j, inside, eq⟩ := covers (entry + x) i
        rw [span_k, eq] at smaller
        cases j with
        | zero => exact absurd smaller (lt_irrefl _)
        | succ j =>
            have later := holds.later (x + (j + 1)) (by omega) (by omega)
            rw [← Nat.add_assoc] at later
            omega
      · refine unmistaken (entry + x) (entry + k)
          ⟨by omega, by omega, same, holds.positive, ?_, i, smaller⟩
        intro j above below
        obtain ⟨d, rfl⟩ := Nat.exists_eq_add_of_lt above
        rw [show entry + x + d + 1 = entry + (x + d + 1) by omega]
        exact ⟨holds.later (x + d + 1) (by omega) (by omega),
          unnamed (x + d + 1) (by omega) (by omega)⟩

end

end RingElection

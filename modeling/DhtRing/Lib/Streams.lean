import DhtRing.Lib.Framing
import Mathlib.Data.List.Perm.Subperm
import Mathlib.Logic.Function.Basic

/-!
# Streams of frames

Each end of a connection has a number.  A lane is an end with the units that have come there
and are not yet taken; more are under way to it.  Together they are the frames of its line,
which are sent and not yet taken, whatever the pieces in which they come.
-/

set_option autoImplicit false

namespace Streams

open Framing

variable {α β ε : Type}

/-- All numbers from `bound` on are new. -/
structure Carried (wire : β → List α) (Valid : β → Prop) (lanes : List (ℕ × List α))
    (underWay : ℕ → List α) (line : ℕ → List β) (bound : ℕ) : Prop where
  nodup : (lanes.map Prod.fst).Nodup
  below : ∀ lane ∈ lanes, lane.1 < bound
  stream : ∀ lane ∈ lanes, lane.2 ++ underWay lane.1 = (line lane.1).flatMap wire
  valid : ∀ fd, ∀ x ∈ line fd, Valid x
  fresh : ∀ fd, bound ≤ fd → line fd = [] ∧ underWay fd = []

namespace Carried

variable {parse : List α → Except ε (Option (β × ℕ))} {wire : β → List α} {Valid : β → Prop}
  {lanes lanes' : List (ℕ × List α)} {underWay underWay' : ℕ → List α} {line : ℕ → List β}
  {bound fd : ℕ}

theorem sub (carried : Carried wire Valid lanes underWay line bound)
    (fewer : lanes'.Subperm lanes) : Carried wire Valid lanes' underWay line bound where
  nodup := by
    obtain ⟨some_order, same, fewer⟩ := fewer
    exact (same.map Prod.fst).nodup_iff.mp ((fewer.map Prod.fst).nodup carried.nodup)
  below lane mem := carried.below lane (fewer.subset mem)
  stream lane mem := carried.stream lane (fewer.subset mem)
  valid := carried.valid
  fresh := carried.fresh

theorem perm (carried : Carried wire Valid lanes underWay line bound) (same : lanes'.Perm lanes) :
    Carried wire Valid lanes' underWay line bound :=
  carried.sub same.subperm

/-- Frames are taken: they come first in the line. -/
theorem take (frames : Frames parse wire Valid) {found : List β} {rest : List α}
    (carried : Carried wire Valid ((fd, found.flatMap wire ++ rest) :: lanes) underWay line bound)
    (valid : ∀ x ∈ found, Valid x) :
    ∃ later, line fd = found ++ later ∧
      Carried wire Valid ((fd, rest) :: lanes) underWay (Function.update line fd later) bound := by
  have whole := carried.stream _ List.mem_cons_self
  rw [List.append_assoc] at whole
  obtain ⟨later, split, left⟩ := frames.of_prefix valid (carried.valid fd) whole
  have apart := carried.nodup
  rw [List.map_cons, List.nodup_cons] at apart
  have old : fd < bound := carried.below _ List.mem_cons_self
  refine ⟨later, split, ?_, ?_, ?_, ?_, ?_⟩
  · rw [List.map_cons, List.nodup_cons]
    exact apart
  · rintro lane (_ | ⟨_, mem⟩)
    · exact old
    · exact carried.below lane (List.mem_cons_of_mem _ mem)
  · rintro lane (_ | ⟨_, mem⟩)
    · rw [Function.update_self]
      exact left
    · have other : lane.1 ≠ fd := by
        rintro rfl
        exact apart.1 (List.mem_map.mpr ⟨lane, mem, rfl⟩)
      rw [Function.update_of_ne other]
      exact carried.stream lane (List.mem_cons_of_mem _ mem)
  · intro fd' x mem
    rw [Function.update_apply] at mem
    split at mem
    · refine carried.valid fd x ?_
      rw [split]
      exact List.mem_append_right _ mem
    · exact carried.valid fd' x mem
  · intro fd' new
    have other : fd' ≠ fd := by
      rintro rfl
      exact absurd old (Nat.not_lt_of_le new)
    rw [Function.update_of_ne other]
    exact carried.fresh fd' new

theorem send (carried : Carried wire Valid lanes underWay line bound) {sent : ℕ → List β}
    (more : ∀ fd, underWay' fd = underWay fd ++ (sent fd).flatMap wire)
    (valid : ∀ fd, ∀ x ∈ sent fd, Valid x) (old : ∀ fd, bound ≤ fd → sent fd = []) :
    Carried wire Valid lanes underWay' (fun fd => line fd ++ sent fd) bound where
  nodup := carried.nodup
  below := carried.below
  stream lane mem := by
    rw [more, ← List.append_assoc, carried.stream lane mem, List.flatMap_append]
  valid fd x mem := by
    rcases List.mem_append.mp mem with before | now
    · exact carried.valid fd x before
    · exact valid fd x now
  fresh fd new := by
    obtain ⟨none_sent, none_underWay⟩ := carried.fresh fd new
    rw [more, none_sent, none_underWay, old fd new]
    exact ⟨rfl, rfl⟩

/-- Units come to an end, or nobody has this end any more. -/
theorem arrive (carried : Carried wire Valid lanes underWay line bound) (fd : ℕ)
    (units : List α)
    (first : ∀ fd', underWay fd' = (if fd' = fd then units else []) ++ underWay' fd') :
    Carried wire Valid
      (lanes.map fun lane => (lane.1, lane.2 ++ if lane.1 = fd then units else []))
      underWay' line bound where
  nodup := by
    rw [List.map_map]
    exact carried.nodup
  below lane mem := by
    obtain ⟨before, old, rfl⟩ := List.mem_map.mp mem
    exact carried.below before old
  stream lane mem := by
    obtain ⟨before, old, rfl⟩ := List.mem_map.mp mem
    rw [List.append_assoc, ← first]
    exact carried.stream before old
  valid := carried.valid
  fresh fd' new := by
    obtain ⟨no_line, none_underWay⟩ := carried.fresh fd' new
    rw [first] at none_underWay
    exact ⟨no_line, (List.append_eq_nil_iff.mp none_underWay).2⟩

theorem connect (carried : Carried wire Valid lanes underWay line bound) :
    Carried wire Valid ((bound, []) :: (bound + 1, []) :: lanes) underWay line (bound + 2) where
  nodup := by
    have new : ∀ fd, bound ≤ fd → fd ∉ lanes.map Prod.fst := by
      intro fd le mem
      obtain ⟨lane, old, rfl⟩ := List.mem_map.mp mem
      exact absurd (carried.below lane old) (Nat.not_lt_of_le le)
    rw [List.map_cons, List.map_cons, List.nodup_cons, List.nodup_cons, List.mem_cons]
    refine ⟨?_, new _ (Nat.le_succ _), carried.nodup⟩
    rintro (same | mem)
    · exact absurd same (Nat.ne_of_lt (Nat.lt_succ_self _))
    · exact new bound (Nat.le_refl _) mem
  below lane mem := by
    rcases List.mem_cons.mp mem with rfl | mem
    · exact Nat.lt_add_of_pos_right Nat.two_pos
    · rcases List.mem_cons.mp mem with rfl | mem
      · exact Nat.lt_succ_self _
      · exact Nat.lt_add_right 2 (carried.below lane mem)
  stream lane mem := by
    rcases List.mem_cons.mp mem with rfl | mem
    · obtain ⟨no_line, none_underWay⟩ := carried.fresh bound (Nat.le_refl _)
      rw [no_line, none_underWay]
      rfl
    · rcases List.mem_cons.mp mem with rfl | mem
      · obtain ⟨no_line, none_underWay⟩ := carried.fresh (bound + 1) (Nat.le_succ _)
        rw [no_line, none_underWay]
        rfl
      · exact carried.stream lane mem
  valid := carried.valid
  fresh fd new := carried.fresh fd (Nat.le_trans (Nat.le_add_right _ 2) new)

end Carried

end Streams

import Mathlib.Data.List.Induction
import Mathlib.Order.Basic
import Mathlib.Tactic.Common

/-!
# Frames in a stream

A parser looks at the units received so far.  It gives a frame and the number of its
units, or waits for more, or fails.  The frames of a stream do not depend on the pieces in
which it arrives, unless a piece ends where the parser fails.
-/

set_option autoImplicit false

namespace Framing

variable {α β ε : Type}

def drain (parse : List α → Except ε (Option (β × ℕ))) : ℕ → List α → Except ε (List β × List α)
  | 0, buffer => .ok ([], buffer)
  | fuel + 1, buffer =>
      match parse buffer with
      | .error e => .error e
      | .ok none => .ok ([], buffer)
      | .ok (some (x, used)) =>
          (drain parse fuel (buffer.drop used)).map fun found => (x :: found.1, found.2)

/-- The frames of what was left over and of what has arrived now. -/
def feed (parse : List α → Except ε (Option (β × ℕ))) (found : List β × List α) (piece : List α) :
    Except ε (List β × List α) :=
  (drain parse (found.2 ++ piece).length (found.2 ++ piece)).map fun more =>
    (found.1 ++ more.1, more.2)

/-- The parser gives the frames `x` with `Valid x` as they are written by `wire`, and
nothing else. -/
structure Frames (parse : List α → Except ε (Option (β × ℕ))) (wire : β → List α)
    (Valid : β → Prop) : Prop where
  nil : parse [] = .ok none
  nonempty : ∀ x, Valid x → wire x ≠ []
  whole : ∀ x rest, Valid x → parse (wire x ++ rest) = .ok (some (x, (wire x).length))
  sound : ∀ buffer x used, parse buffer = .ok (some (x, used)) →
    Valid x ∧ used = (wire x).length ∧ ∃ rest, buffer = wire x ++ rest

section

variable {parse : List α → Except ε (Option (β × ℕ))} {wire : β → List α} {Valid : β → Prop}
  {x y : β} {xs ys : List β} {buffer rest rest' : List α} {fuel : ℕ}

def Stuck (parse : List α → Except ε (Option (β × ℕ))) (buffer : List α) : Prop :=
  ∀ x used, parse buffer ≠ .ok (some (x, used))

theorem drain_length_le {found : List β × List α} :
    drain parse fuel buffer = .ok found → found.2.length ≤ buffer.length := by
  induction fuel generalizing buffer found with
  | zero =>
      intro drained
      cases drained
      exact Nat.le_refl _
  | succ fuel ih =>
      intro drained
      rw [drain] at drained
      cases frame : parse buffer with
      | error e =>
          rw [frame] at drained
          cases drained
      | ok next =>
          rw [frame] at drained
          cases next with
          | none =>
              cases drained
              exact Nat.le_refl _
          | some next =>
              cases rest : drain parse fuel (buffer.drop next.2) with
              | error e =>
                  simp only [rest] at drained
                  cases drained
              | ok more =>
                  simp only [rest] at drained
                  cases drained
                  have shorter := ih rest
                  rw [List.length_drop] at shorter
                  exact Nat.le_trans shorter (Nat.sub_le ..)

theorem Stuck.cases (stuck : Stuck parse buffer) :
    parse buffer = .ok none ∨ ∃ e, parse buffer = .error e := by
  cases result : parse buffer with
  | error e => exact Or.inr ⟨e, rfl⟩
  | ok found =>
      cases found with
      | none => exact Or.inl rfl
      | some found => exact absurd result (stuck found.1 found.2)

/-- Frames do not run into each other. -/
theorem Frames.cancel (frames : Frames parse wire Valid) (valid : Valid x) (valid' : Valid y)
    (same : wire x ++ rest = wire y ++ rest') : x = y ∧ rest = rest' := by
  have first := frames.whole x rest valid
  rw [same, frames.whole y rest' valid'] at first
  cases first
  exact ⟨rfl, List.append_cancel_left same⟩

theorem Frames.extend (frames : Frames parse wire Valid) {used : ℕ}
    (found : parse buffer = .ok (some (x, used))) :
    0 < used ∧ used ≤ buffer.length ∧
      ∀ more, parse (buffer ++ more) = .ok (some (x, used)) := by
  obtain ⟨valid, rfl, rest, rfl⟩ := frames.sound buffer x used found
  refine ⟨List.length_pos_iff.mpr (frames.nonempty x valid), ?_, fun more => ?_⟩
  · rw [List.length_append]
    exact Nat.le_add_right _ _
  · rw [List.append_assoc]
    exact frames.whole x (rest ++ more) valid

theorem Frames.not_stuck (frames : Frames parse wire Valid) (valid : Valid x) :
    ¬ Stuck parse (wire x ++ rest) :=
  fun stuck => stuck _ _ (frames.whole x rest valid)

/-- A stream has one list of frames. -/
theorem Frames.unique (frames : Frames parse wire Valid) (valid : ∀ x ∈ xs, Valid x)
    (valid' : ∀ y ∈ ys, Valid y) (stuck : Stuck parse rest) (stuck' : Stuck parse rest')
    (same : xs.flatMap wire ++ rest = ys.flatMap wire ++ rest') : xs = ys ∧ rest = rest' := by
  induction xs generalizing ys with
  | nil =>
      cases ys with
      | nil => exact ⟨rfl, same⟩
      | cons y ys =>
          rw [List.flatMap_nil, List.nil_append, List.flatMap_cons, List.append_assoc] at same
          rw [same] at stuck
          exact absurd stuck (frames.not_stuck (valid' y List.mem_cons_self))
  | cons x xs ih =>
      cases ys with
      | nil =>
          rw [List.flatMap_nil, List.nil_append, List.flatMap_cons, List.append_assoc] at same
          rw [← same] at stuck'
          exact absurd stuck' (frames.not_stuck (valid x List.mem_cons_self))
      | cons y ys =>
          rw [List.flatMap_cons, List.flatMap_cons, List.append_assoc, List.append_assoc] at same
          obtain ⟨rfl, later⟩ := frames.cancel (valid x List.mem_cons_self)
            (valid' y List.mem_cons_self) same
          obtain ⟨rfl, rfl⟩ := ih (fun z mem => valid z (List.mem_cons_of_mem _ mem))
            (fun z mem => valid' z (List.mem_cons_of_mem _ mem)) later
          exact ⟨rfl, rfl⟩

theorem Frames.of_prefix (frames : Frames parse wire Valid) (valid : ∀ x ∈ xs, Valid x)
    (valid' : ∀ y ∈ ys, Valid y) (same : xs.flatMap wire ++ rest = ys.flatMap wire) :
    ∃ zs, ys = xs ++ zs ∧ rest = zs.flatMap wire := by
  induction xs generalizing ys with
  | nil => exact ⟨ys, rfl, same⟩
  | cons x xs ih =>
      rw [List.flatMap_cons, List.append_assoc] at same
      cases ys with
      | nil =>
          exact absurd (List.append_eq_nil_iff.mp same).1
            (frames.nonempty x (valid x List.mem_cons_self))
      | cons y ys =>
          rw [List.flatMap_cons] at same
          obtain ⟨rfl, later⟩ := frames.cancel (valid x List.mem_cons_self)
            (valid' y List.mem_cons_self) same
          obtain ⟨zs, rfl, rest_eq⟩ := ih (fun z mem => valid z (List.mem_cons_of_mem _ mem))
            (fun z mem => valid' z (List.mem_cons_of_mem _ mem)) later
          exact ⟨zs, rfl, rest_eq⟩

theorem Frames.exists_split (frames : Frames parse wire Valid) (buffer : List α) :
    ∃ (xs : List β) (rest : List α),
      (∀ x ∈ xs, Valid x) ∧ Stuck parse rest ∧ buffer = xs.flatMap wire ++ rest := by
  induction length : buffer.length using Nat.strongRecOn generalizing buffer with
  | _ n ih =>
      by_cases stuck : Stuck parse buffer
      · exact ⟨[], buffer, by simp, stuck, rfl⟩
      · unfold Stuck at stuck
        push Not at stuck
        obtain ⟨x, used, found⟩ := stuck
        obtain ⟨valid, -, rest, rfl⟩ := frames.sound buffer x used found
        have pos : 0 < (wire x).length := List.length_pos_iff.mpr (frames.nonempty x valid)
        obtain ⟨xs, last, valids, stuck, rfl⟩ := ih rest.length (by
          rw [List.length_append] at length
          omega) rest rfl
        refine ⟨x :: xs, last, ?_, stuck, ?_⟩
        · rintro z (_ | ⟨_, mem⟩)
          · exact valid
          · exact valids z mem
        · rw [List.flatMap_cons, List.append_assoc]

theorem Frames.length_le (frames : Frames parse wire Valid) (valid : ∀ x ∈ xs, Valid x) :
    xs.length ≤ (xs.flatMap wire).length := by
  induction xs with
  | nil => exact Nat.le_refl _
  | cons x xs ih =>
      have pos : 0 < (wire x).length :=
        List.length_pos_iff.mpr (frames.nonempty x (valid x List.mem_cons_self))
      have later := ih fun z mem => valid z (List.mem_cons_of_mem _ mem)
      rw [List.flatMap_cons, List.length_append, List.length_cons]
      omega

theorem Frames.drain_flatMap (frames : Frames parse wire Valid) (valid : ∀ x ∈ xs, Valid x)
    (fuel : ℕ) (rest : List α) :
    drain parse (xs.length + fuel) (xs.flatMap wire ++ rest) =
      (drain parse fuel rest).map fun found => (xs ++ found.1, found.2) := by
  induction xs with
  | nil =>
      rw [List.length_nil, Nat.zero_add, List.flatMap_nil, List.nil_append]
      cases drain parse fuel rest <;> rfl
  | cons x xs ih =>
      rw [List.length_cons, Nat.succ_add, List.flatMap_cons, List.append_assoc, drain,
        frames.whole x _ (valid x List.mem_cons_self)]
      dsimp only
      rw [List.drop_left, ih fun z mem => valid z (List.mem_cons_of_mem _ mem)]
      cases drain parse fuel rest <;> rfl

theorem Frames.drain_stuck (frames : Frames parse wire Valid) (stuck : Stuck parse rest)
    (enough : rest.length ≤ fuel) :
    drain parse fuel rest = match parse rest with
      | .error e => .error e
      | .ok _ => .ok ([], rest) := by
  cases fuel with
  | zero =>
      obtain rfl : rest = [] := List.length_eq_zero_iff.mp (Nat.le_zero.mp enough)
      rw [drain, frames.nil]
  | succ fuel =>
      rw [drain]
      rcases stuck.cases with waits | ⟨e, fails⟩
      · rw [waits]
      · rw [fails]

theorem Frames.drain_eq (frames : Frames parse wire Valid) (valid : ∀ x ∈ xs, Valid x)
    (stuck : Stuck parse rest) :
    drain parse (xs.flatMap wire ++ rest).length (xs.flatMap wire ++ rest) =
      match parse rest with
      | .error e => .error e
      | .ok _ => .ok (xs, rest) := by
  have enough := frames.length_le valid
  obtain ⟨fuel, eq⟩ := Nat.exists_eq_add_of_le enough
  rw [List.length_append, eq, Nat.add_assoc, frames.drain_flatMap valid,
    frames.drain_stuck stuck (Nat.le_add_left ..)]
  cases parse rest with
  | error e => rfl
  | ok found => simp [Except.map]

/-! ## Pieces -/

theorem Frames.feed_eq (frames : Frames parse wire Valid) {piece : List α}
    (valid : ∀ x ∈ ys, Valid x) (stuck : Stuck parse rest')
    (split : rest ++ piece = ys.flatMap wire ++ rest') :
    feed parse (xs, rest) piece = match parse rest' with
      | .error e => .error e
      | .ok _ => .ok (xs ++ ys, rest') := by
  rw [feed, split, frames.drain_eq valid stuck]
  cases parse rest' <;> rfl

theorem Frames.of_feed (frames : Frames parse wire Valid) {piece : List α} {found : List β}
    (fed : feed parse (xs, rest) piece = .ok (found, rest')) :
    ∃ ys, found = xs ++ ys ∧ (∀ y ∈ ys, Valid y) ∧
      rest ++ piece = ys.flatMap wire ++ rest' ∧ parse rest' = .ok none := by
  obtain ⟨ys, last, valid, stuck, split⟩ := frames.exists_split (rest ++ piece)
  rw [frames.feed_eq valid stuck split] at fed
  rcases stuck.cases with waits | ⟨e, fails⟩
  · rw [waits] at fed
    cases fed
    exact ⟨ys, rfl, valid, split, waits⟩
  · rw [fails] at fed
    cases fed

/-- Where a piece ends, the parser does not fail. -/
def Clear (parse : List α → Except ε (Option (β × ℕ))) (wire : β → List α) (Valid : β → Prop)
    (pieces : List (List α)) : Prop :=
  ∀ before after, pieces = before ++ after → ∀ (ys : List β) (rest : List α),
    (∀ y ∈ ys, Valid y) → before.flatten = ys.flatMap wire ++ rest → ∀ e, parse rest ≠ .error e

/-- Reading goes on to the end and finds the frames of the stream, or a piece ends where
the parser fails. -/
theorem Frames.foldlM_feed (frames : Frames parse wire Valid) (pieces : List (List α))
    (valid : ∀ x ∈ xs, Valid x) (stuck : Stuck parse rest)
    (stream : pieces.flatten = xs.flatMap wire ++ rest) :
    (pieces.foldlM (feed parse) ([], []) = .ok (xs, rest) ∧ Clear parse wire Valid pieces) ∨
      (∃ e, pieces.foldlM (feed parse) ([], []) = .error e) ∧ ¬ Clear parse wire Valid pieces := by
  induction pieces using List.reverseRecOn generalizing xs rest with
  | nil =>
      have start : Stuck parse ([] : List α) := fun x used found => by
        rw [frames.nil] at found
        cases found
      obtain ⟨rfl, rfl⟩ := frames.unique (List.forall_mem_nil _) valid start stuck stream
      refine Or.inl ⟨rfl, ?_⟩
      intro before after split ys rest valid' flat e fails
      obtain ⟨rfl, -⟩ := List.append_eq_nil_iff.mp split.symm
      obtain ⟨-, rfl⟩ := List.append_eq_nil_iff.mp flat.symm
      rw [frames.nil] at fails
      cases fails
  | append_singleton pieces piece ih =>
      obtain ⟨ys, rest₁, valid_ys, stuck₁, flat⟩ := frames.exists_split pieces.flatten
      obtain ⟨zs, rest₂, valid_zs, stuck₂, more⟩ := frames.exists_split (rest₁ ++ piece)
      have whole : (pieces ++ [piece]).flatten = (ys ++ zs).flatMap wire ++ rest₂ := by
        rw [List.flatten_append, List.flatten_singleton, flat, List.append_assoc, more,
          List.flatMap_append, List.append_assoc]
      have valid_all : ∀ x ∈ ys ++ zs, Valid x := by
        intro x mem
        rcases List.mem_append.mp mem with old | new
        · exact valid_ys x old
        · exact valid_zs x new
      obtain ⟨rfl, rfl⟩ := frames.unique valid valid_all stuck stuck₂ (stream.symm.trans whole)
      have reads : feed parse (ys, rest₁) piece = _ := frames.feed_eq valid_zs stuck₂ more
      rw [List.foldlM_append]
      rcases ih valid_ys stuck₁ flat with ⟨first, clear⟩ | ⟨⟨e, first⟩, unclear⟩
      · rw [first]
        rcases stuck.cases with waits | ⟨e, fails⟩
        · left
          rw [waits] at reads
          refine ⟨?_, ?_⟩
          · change (feed parse (ys, rest₁) piece >>= pure) = _
            rw [reads]
            rfl
          · intro before after split zs' last valid' flat' e fails
            rcases List.eq_nil_or_concat after with rfl | ⟨after, final, rfl⟩
            · rw [List.append_nil] at split
              rw [← split, stream] at flat'
              have last_stuck : Stuck parse last := fun x used found => by
                rw [fails] at found
                cases found
              obtain ⟨-, rfl⟩ := frames.unique valid valid' stuck last_stuck flat'
              rw [waits] at fails
              cases fails
            · rw [List.concat_eq_append, ← List.append_assoc] at split
              obtain ⟨earlier, -⟩ := List.append_inj' split rfl
              exact clear before after earlier zs' last valid' flat' e fails
        · right
          rw [fails] at reads
          refine ⟨⟨e, ?_⟩, ?_⟩
          · change (feed parse (ys, rest₁) piece >>= pure) = _
            rw [reads]
            rfl
          · intro clear
            exact clear (pieces ++ [piece]) [] (List.append_nil _).symm _ _ valid stream e fails
      · right
        rw [first]
        refine ⟨⟨e, rfl⟩, fun clear => unclear ?_⟩
        intro before after split
        exact clear before (after ++ [piece]) (by rw [split, List.append_assoc])

end

end Framing

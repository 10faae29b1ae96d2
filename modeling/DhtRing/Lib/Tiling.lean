import Mathlib.Data.Finset.Card
import Mathlib.Tactic.Common

/-!
# Tilings of a cyclic range by intervals

`own x` is the owner of the point `x < N`.  In a tiling every owner `b` owns
exactly the points of a non-empty interval `lo b .. hi b`; the owner after `b`
is the one of the point after `hi b`, and after the last point comes the first.
-/

set_option autoImplicit false

namespace Tiling

variable {β : Type*}

def Member (N : ℕ) (own : ℕ → β) (b : β) : Prop := ∃ x, x < N ∧ own x = b

structure Owns (N : ℕ) (own : ℕ → β) (b : β) (lo hi : ℕ) : Prop where
  nonempty : lo ≤ hi
  bounded : hi < N
  exact : ∀ x, x < N → (own x = b ↔ lo ≤ x ∧ x ≤ hi)

/-- Every owner owns the interval that `lo` and `hi` give it. -/
def Tiled (N : ℕ) (own : ℕ → β) (lo hi : β → ℕ) : Prop :=
  ∀ b, Member N own b → Owns N own b (lo b) (hi b)

def next (N : ℕ) (own : ℕ → β) (hi : ℕ) : β := own (if hi + 1 = N then 0 else hi + 1)

variable {N : ℕ} {own : ℕ → β} {lo hi : β → ℕ} {a b c : β}

theorem Owns.member (owns : Owns N own b (lo b) (hi b)) : Member N own b := by
  have le := owns.nonempty
  have lt := owns.bounded
  exact ⟨lo b, by omega, (owns.exact _ (by omega)).mpr ⟨le_rfl, le⟩⟩

theorem Tiled.at (tiled : Tiled N own lo hi) {x : ℕ} (hx : x < N) :
    lo (own x) ≤ x ∧ x ≤ hi (own x) :=
  ((tiled _ ⟨x, hx, rfl⟩).exact x hx).mp rfl

theorem Tiled.own_eq (tiled : Tiled N own lo hi) (mem : Member N own b) {x : ℕ}
    (from_lo : lo b ≤ x) (to_hi : x ≤ hi b) : own x = b :=
  have owns := tiled b mem
  (owns.exact x (lt_of_le_of_lt to_hi owns.bounded)).mpr ⟨from_lo, to_hi⟩

theorem member_next (hN : 0 < N) (h : ℕ) (hh : h < N) : Member N own (next N own h) := by
  refine ⟨if h + 1 = N then 0 else h + 1, ?_, rfl⟩
  split <;> omega

theorem Tiled.lo_next (tiled : Tiled N own lo hi) (mem : Member N own b) :
    lo (next N own (hi b)) = if hi b + 1 = N then 0 else hi b + 1 := by
  have owns := tiled b mem
  have bounded := owns.bounded
  have hN : 0 < N := by omega
  have at_next := tiled.at (x := if hi b + 1 = N then 0 else hi b + 1) (by split <;> omega)
  change lo (next N own (hi b)) ≤ _ ∧ _ at at_next
  split at at_next
  · rename_i last
    rw [if_pos last]
    omega
  · rename_i inner
    rw [if_neg inner]
    by_contra low
    -- otherwise the successor would own the last point of `b` too
    have shared : own (hi b) = next N own (hi b) :=
      tiled.own_eq (member_next hN _ bounded) (by omega) (by rw [next, if_neg inner]; omega)
    have self : own (hi b) = b := (owns.exact _ bounded).mpr ⟨owns.nonempty, le_rfl⟩
    have eq : next N own (hi b) = b := shared.symm.trans self
    rw [eq] at at_next
    have := at_next.2
    rw [next, if_neg inner] at eq
    have := ((owns.exact (hi b + 1) (by omega)).mp eq).2
    omega

/-- Only a member that owns everything follows itself. -/
theorem Tiled.next_eq_self (tiled : Tiled N own lo hi) (mem : Member N own b)
    (self : next N own (hi b) = b) : lo b = 0 ∧ hi b + 1 = N := by
  have start := tiled.lo_next mem
  have owns := tiled b mem
  rw [self] at start
  have := owns.nonempty
  split at start <;> omega

theorem Tiled.next_self_of_whole (tiled : Tiled N own lo hi) (mem : Member N own b)
    (whole : lo b = 0 ∧ hi b + 1 = N) : next N own (hi b) = b := by
  rw [next, if_pos whole.2]
  exact tiled.own_eq mem (by omega) (by omega)

theorem Tiled.eq_of_next_eq (tiled : Tiled N own lo hi) (ha : Member N own a)
    (hb : Member N own b) (same : next N own (hi a) = next N own (hi b)) : a = b := by
  have starts_a := tiled.lo_next ha
  have starts_b := tiled.lo_next hb
  have la := (tiled a ha).bounded
  have lb := (tiled b hb).bounded
  rw [same] at starts_a
  have ends : hi a = hi b := by split at starts_a <;> split at starts_b <;> omega
  have at_a : own (hi a) = a := tiled.own_eq ha (tiled a ha).nonempty le_rfl
  have at_b : own (hi b) = b := tiled.own_eq hb (tiled b hb).nonempty le_rfl
  rw [← at_a, ← at_b, ends]

theorem Tiled.exists_prev (tiled : Tiled N own lo hi) (mem : Member N own b) :
    ∃ a, Member N own a ∧ next N own (hi a) = b := by
  have owns := tiled b mem
  have := owns.nonempty
  have := owns.bounded
  obtain ⟨x, hx, before⟩ : ∃ x, x < N ∧ (if lo b = 0 then x + 1 = N else x + 1 = lo b) := by
    by_cases zero : lo b = 0
    · exact ⟨N - 1, by omega, by rw [if_pos zero]; omega⟩
    · exact ⟨lo b - 1, by omega, by rw [if_neg zero]; omega⟩
  have mem_a : Member N own (own x) := ⟨x, hx, rfl⟩
  have owns_a := tiled (own x) mem_a
  have at_x := tiled.at hx
  have first : own (lo b) = b := tiled.own_eq mem le_rfl owns.nonempty
  -- the interval of the owner of `x` ends at `x`, or it would own the first point of `b`
  have ends : hi (own x) = x := by
    by_contra more
    have bounded_a := owns_a.bounded
    by_cases zero : lo b = 0
    · rw [if_pos zero] at before
      omega
    · rw [if_neg zero] at before
      have same : own (lo b) = own x := tiled.own_eq mem_a (by omega) (by omega)
      have := ((owns.exact x hx).mp (same.symm.trans first)).1
      omega
  refine ⟨own x, mem_a, ?_⟩
  rw [ends, next]
  by_cases zero : lo b = 0
  · rw [if_pos zero] at before
    rw [if_pos before, ← zero, first]
  · rw [if_neg zero] at before
    rw [if_neg (by omega), before, first]

/-! ## How far a member is from a point -/

def gap (N start x : ℕ) : ℕ := if start ≤ x then x - start else x + N - start

theorem gap_lt {start x : ℕ} (hs : start < N) (hx : x < N) : gap N start x < N := by
  unfold gap
  split <;> omega

/-- Going on to the next member comes closer to every point that the member does
not own. -/
theorem Tiled.gap_next_lt (tiled : Tiled N own lo hi) (mem : Member N own b) {x : ℕ}
    (hx : x < N) (other : own x ≠ b) :
    gap N (lo (next N own (hi b))) x < gap N (lo b) x := by
  have owns := tiled b mem
  have := owns.nonempty
  have := owns.bounded
  have outside : ¬ (lo b ≤ x ∧ x ≤ hi b) := fun inside => other ((owns.exact x hx).mpr inside)
  rw [tiled.lo_next mem]
  unfold gap
  split <;> split <;> split <;> omega

theorem Tiled.reach (tiled : Tiled N own lo hi) (ha : Member N own a) (hb : Member N own b) :
    Relation.ReflTransGen (fun b c => Member N own b ∧ next N own (hi b) = c) a b := by
  have owns := tiled b hb
  have start : lo b < N := lt_of_le_of_lt owns.nonempty owns.bounded
  generalize far : gap N (lo a) (lo b) = far'
  induction far' using Nat.strong_induction_on generalizing a with
  | _ far' ih =>
      by_cases here : a = b
      · rw [here]
      · have at_b : own (lo b) = b := tiled.own_eq hb le_rfl owns.nonempty
        have closer := tiled.gap_next_lt ha start fun eq => here (eq.symm.trans at_b)
        have hN : 0 < N := by omega
        have later := ih _ (far ▸ closer) (member_next hN _ (tiled a ha).bounded) rfl
        exact .head ⟨ha, rfl⟩ later

/-- With fewer members than points some member owns two of them. -/
theorem Tiled.exists_wide (tiled : Tiled N own lo hi)
    (few : ∀ members : Finset β, (∀ b ∈ members, Member N own b) → members.card < N) :
    ∃ b, Member N own b ∧ lo b < hi b := by
  classical
  by_contra none_wide
  have narrow : ∀ x < N, x = lo (own x) := by
    intro x hx
    obtain ⟨from_lo, to_hi⟩ := tiled.at hx
    by_contra apart
    exact none_wide ⟨own x, ⟨x, hx, rfl⟩, by omega⟩
  have inj : Set.InjOn own (Finset.range N) := by
    intro x hx y hy same
    rw [Finset.coe_range, Set.mem_Iio] at hx hy
    rw [narrow x hx, narrow y hy, same]
  have count := few ((Finset.range N).image own) (by
    intro b mem
    obtain ⟨x, hx, eq⟩ := Finset.mem_image.mp mem
    exact ⟨x, Finset.mem_range.mp hx, eq⟩)
  rw [Finset.card_image_of_injOn inj, Finset.card_range] at count
  exact lt_irrefl N count

/-! ## Splitting and merging -/

def give (own : ℕ → β) (start stop : ℕ) (c : β) : ℕ → β := fun x =>
  if start ≤ x ∧ x ≤ stop then c else own x

def take [DecidableEq β] (own : ℕ → β) (c b : β) : ℕ → β := fun x =>
  if own x = c then b else own x

theorem Tiled.member_split (tiled : Tiled N own lo hi) (mem : Member N own b) {mid : ℕ}
    (from_lo : lo b ≤ mid) (below : mid < hi b) (d : β) :
    Member N (give own (mid + 1) (hi b) c) d ↔ d = c ∨ Member N own d := by
  have owns := tiled b mem
  have bounded := owns.bounded
  constructor
  · intro ⟨x, hx, eq⟩
    unfold give at eq
    split at eq
    · exact Or.inl eq.symm
    · exact Or.inr ⟨x, hx, eq⟩
  · intro either
    rcases either with rfl | ⟨x, hx, rfl⟩
    · exact ⟨hi b, bounded, by simp [give, Nat.succ_le_of_lt below]⟩
    · by_cases inside : mid + 1 ≤ x ∧ x ≤ hi b
      · have same : own x = b := tiled.own_eq mem (by omega) inside.2
        refine ⟨lo b, by omega, ?_⟩
        rw [give, if_neg (by omega), same]
        exact tiled.own_eq mem le_rfl owns.nonempty
      · exact ⟨x, hx, if_neg inside⟩

theorem Tiled.next_split (tiled : Tiled N own lo hi) (mem : Member N own b) {mid : ℕ}
    (from_lo : lo b ≤ mid) {d : β} (mem_d : Member N own d) :
    next N (give own (mid + 1) (hi b) c) (hi d) = next N own (hi d) := by
  have start := tiled.lo_next mem_d
  unfold next at start ⊢
  refine if_neg fun inside => ?_
  have same := tiled.own_eq mem (x := if hi d + 1 = N then 0 else hi d + 1) (by omega) inside.2
  rw [same] at start
  omega

theorem Tiled.next_split_self (tiled : Tiled N own lo hi) (mem : Member N own b) {mid : ℕ}
    (below : mid < hi b) : next N (give own (mid + 1) (hi b) c) mid = c := by
  have bounded := (tiled b mem).bounded
  rw [next, if_neg (by omega)]
  exact if_pos ⟨le_rfl, below⟩

variable [DecidableEq β]

theorem Tiled.split (tiled : Tiled N own lo hi) (mem : Member N own b) {mid : ℕ}
    (from_lo : lo b ≤ mid) (below : mid < hi b) (fresh : ¬ Member N own c) :
    Tiled N (give own (mid + 1) (hi b) c)
      (Function.update lo c (mid + 1))
      (Function.update (Function.update hi b mid) c (hi b)) := by
  have owns := tiled b mem
  have bounded := owns.bounded
  have hcb : b ≠ c := fun e => fresh (e ▸ mem)
  have not_c : ∀ x, x < N → own x ≠ c := fun x hx e => fresh ⟨x, hx, e⟩
  rintro d ⟨y, hy, rfl⟩
  unfold give
  by_cases moved : mid + 1 ≤ y ∧ y ≤ hi b
  · simp only [if_pos moved, Function.update_self]
    refine ⟨by omega, bounded, ?_⟩
    intro x hx
    by_cases inside : mid + 1 ≤ x ∧ x ≤ hi b
    · simp [inside]
    · simp [not_c x hx]
  · have stays : own y ≠ c := not_c y hy
    simp only [if_neg moved, Function.update_of_ne stays]
    by_cases is_b : own y = b
    · rw [is_b]
      simp only [Function.update_self]
      refine ⟨from_lo, by omega, ?_⟩
      intro x hx
      have exact_x := owns.exact x hx
      by_cases inside : mid + 1 ≤ x ∧ x ≤ hi b
      · simp only [if_pos inside, Ne.symm hcb, false_iff]
        omega
      · simp only [if_neg inside, exact_x]
        omega
    · simp only [Function.update_of_ne is_b]
      have owns_y := tiled (own y) ⟨y, hy, rfl⟩
      refine ⟨owns_y.nonempty, owns_y.bounded, ?_⟩
      intro x hx
      by_cases inside : mid + 1 ≤ x ∧ x ≤ hi b
      · have of_b : own x = b := (owns.exact x hx).mpr ⟨by omega, inside.2⟩
        have not_y : ¬ (lo (own y) ≤ x ∧ x ≤ hi (own y)) := fun h =>
          is_b (((owns_y.exact x hx).mpr h).symm.trans of_b)
        simp only [if_pos inside, Ne.symm stays, false_iff]
        exact not_y
      · simp only [if_neg inside]
        exact owns_y.exact x hx

/-- `b` takes everything from `c`, and the two together own an interval. -/
theorem Tiled.merge (tiled : Tiled N own lo hi) (start stop : ℕ)
    (nonempty : start ≤ stop) (bounded : stop < N)
    (union : ∀ x, x < N → ((own x = b ∨ own x = c) ↔ start ≤ x ∧ x ≤ stop)) :
    Tiled N (take own c b) (Function.update lo b start) (Function.update hi b stop) := by
  have grown : Owns N (take own c b) b start stop := by
    refine ⟨nonempty, bounded, ?_⟩
    intro x hx
    rw [← union x hx, take]
    by_cases is_c : own x = c
    · simp [is_c]
    · simp [is_c]
  rintro d ⟨y, hy, rfl⟩
  by_cases is_b : take own c b y = b
  · rw [is_b, Function.update_self, Function.update_self]
    exact grown
  · have not_c : own y ≠ c := fun e => is_b (by rw [take, if_pos e])
    have kept : take own c b y = own y := if_neg not_c
    rw [kept] at is_b ⊢
    rw [Function.update_of_ne is_b, Function.update_of_ne is_b]
    have owns_y := tiled (own y) ⟨y, hy, rfl⟩
    refine ⟨owns_y.nonempty, owns_y.bounded, ?_⟩
    intro x hx
    have at_y := owns_y.exact x hx
    unfold take
    by_cases x_c : own x = c
    · rw [if_pos x_c]
      rw [x_c] at at_y
      exact ⟨fun e => absurd e.symm is_b, fun h => absurd (at_y.mpr h).symm not_c⟩
    · rw [if_neg x_c]
      exact at_y

theorem member_take (mem : Member N own b) (other : b ≠ c) (d : β) :
    Member N (take own c b) d ↔ d ≠ c ∧ Member N own d := by
  constructor
  · intro ⟨x, hx, eq⟩
    unfold take at eq
    split at eq
    · rw [← eq]
      exact ⟨other, mem⟩
    · rename_i kept
      rw [← eq]
      exact ⟨kept, x, hx, rfl⟩
  · intro ⟨not_c, x, hx, eq⟩
    refine ⟨x, hx, ?_⟩
    rw [take, if_neg (by rwa [eq]), eq]

theorem next_take (h : ℕ) :
    next N (take own c b) h = if next N own h = c then b else next N own h := rfl

theorem Tiled.merge_next (tiled : Tiled N own lo hi) (hb : Member N own b)
    (hc : Member N own c) (adjacent : hi b + 1 = lo c) :
    Tiled N (take own c b) lo (Function.update hi b (hi c)) := by
  have owns_b := tiled b hb
  have owns_c := tiled c hc
  have := owns_b.nonempty
  have := owns_c.nonempty
  have merged := tiled.merge (b := b) (c := c) (lo b) (hi c) (by omega) owns_c.bounded
    fun x hx => by rw [owns_b.exact x hx, owns_c.exact x hx]; omega
  rwa [Function.update_eq_self] at merged

theorem Tiled.merge_prev (tiled : Tiled N own lo hi) (hb : Member N own b)
    (hc : Member N own c) (adjacent : hi c + 1 = lo b) :
    Tiled N (take own c b) (Function.update lo b (lo c)) hi := by
  have owns_b := tiled b hb
  have owns_c := tiled c hc
  have := owns_b.nonempty
  have := owns_c.nonempty
  have merged := tiled.merge (b := b) (c := c) (lo c) (hi b) (by omega) owns_b.bounded
    fun x hx => by rw [owns_b.exact x hx, owns_c.exact x hx]; omega
  rwa [Function.update_eq_self] at merged

end Tiling

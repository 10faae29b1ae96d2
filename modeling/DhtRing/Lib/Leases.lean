import Mathlib.Data.List.Induction
import Mathlib.Data.List.Nodup
import Mathlib.Tactic.Common

/-!
# A table of leases

For each key the time when it was last touched.  A sweep drops the keys whose lease it finds
expired.  What is in the table follows from what has happened: a key is in it exactly when it
was touched and no later sweep has dropped it.
-/

set_option autoImplicit false

namespace Leases

variable {κ : Type*}

structure Table (κ : Type*) where
  entries : List (κ × ℕ)
  distinct : (entries.map Prod.fst).Nodup

namespace Table

def empty : Table κ := ⟨[], List.nodup_nil⟩

def keys (table : Table κ) : List κ := table.entries.map Prod.fst

def Touched (table : Table κ) (k : κ) (t : ℕ) : Prop := (k, t) ∈ table.entries

variable {table : Table κ} {k other : κ} {t time : ℕ} {keep : κ → ℕ → Bool}

theorem mem_keys_iff : k ∈ table.keys ↔ ∃ t, table.Touched k t := by
  rw [keys, List.mem_map]
  constructor
  · rintro ⟨⟨k', t⟩, mem, rfl⟩
    exact ⟨t, mem⟩
  · rintro ⟨t, mem⟩
    exact ⟨(k, t), mem, rfl⟩

theorem keys_eq_nil_iff : table.keys = [] ↔ ∀ k t, ¬ table.Touched k t := by
  rw [List.eq_nil_iff_forall_not_mem]
  constructor
  · intro none k t mem
    exact none k (mem_keys_iff.mpr ⟨t, mem⟩)
  · intro none k mem
    obtain ⟨t, mem⟩ := mem_keys_iff.mp mem
    exact none k t mem

/-! ## Touching and sweeping -/

section

variable [DecidableEq κ]

def renewed (entries : List (κ × ℕ)) (k : κ) (t : ℕ) : List (κ × ℕ) :=
  if k ∈ entries.map Prod.fst then
    entries.map fun entry => if entry.1 = k then (k, t) else entry
  else entries ++ [(k, t)]

theorem renewed_distinct {entries : List (κ × ℕ)} (distinct : (entries.map Prod.fst).Nodup)
    (k : κ) (t : ℕ) : ((renewed entries k t).map Prod.fst).Nodup := by
  rw [renewed]
  split
  · have same : (entries.map fun entry => if entry.1 = k then (k, t) else entry).map Prod.fst =
        entries.map Prod.fst := by
      rw [List.map_map]
      apply List.map_congr_left
      intro entry _
      change (if entry.1 = k then (k, t) else entry).1 = entry.1
      split
      · rename_i mine
        exact mine.symm
      · rfl
    rw [same]
    exact distinct
  · rename_i absent
    rw [List.map_append]
    exact distinct.append (List.nodup_singleton k) (List.disjoint_singleton.mpr absent)

def touch (table : Table κ) (k : κ) (t : ℕ) : Table κ :=
  ⟨renewed table.entries k t, renewed_distinct table.distinct k t⟩

theorem touched_touch :
    (table.touch k t).Touched other time ↔
      if other = k then time = t else table.Touched other time := by
  change (other, time) ∈ renewed table.entries k t ↔ _
  rw [renewed]
  by_cases mine : other = k
  · subst mine
    rw [if_pos rfl]
    split
    · rename_i present
      obtain ⟨entry, mem, rfl⟩ := List.mem_map.mp present
      simp only [List.mem_map]
      constructor
      · rintro ⟨found, -, same⟩
        split at same
        · exact (Prod.mk.inj same).2.symm
        · rename_i apart
          exact absurd (congrArg Prod.fst same) apart
      · rintro rfl
        exact ⟨entry, mem, if_pos rfl⟩
    · rename_i absent
      have nowhere : (other, time) ∉ table.entries := fun mem =>
        absent (List.mem_map_of_mem mem)
      simp [nowhere]
  · rw [if_neg mine]
    split
    · rw [Touched, List.mem_map]
      constructor
      · rintro ⟨found, mem, same⟩
        split at same
        · exact absurd (congrArg Prod.fst same).symm mine
        · rwa [← same]
      · intro mem
        exact ⟨(other, time), mem, if_neg mine⟩
    · simp [Touched, mine]

end

theorem filter_distinct {entries : List (κ × ℕ)} (distinct : (entries.map Prod.fst).Nodup)
    (keep : κ → ℕ → Bool) :
    ((entries.filter fun entry => keep entry.1 entry.2).map Prod.fst).Nodup :=
  distinct.sublist (List.filter_sublist.map Prod.fst)

def sweep (table : Table κ) (keep : κ → ℕ → Bool) : Table κ :=
  ⟨table.entries.filter fun entry => keep entry.1 entry.2, filter_distinct table.distinct keep⟩

theorem touched_sweep :
    (table.sweep keep).Touched k t ↔ table.Touched k t ∧ keep k t = true := List.mem_filter

end Table

/-! ## Histories -/

inductive Event (κ : Type*) where
  | touch (k : κ) (t : ℕ)
  | sweep (keep : κ → ℕ → Bool)

/-- The key was last touched then, and each sweep behind it has kept it. -/
def Lives (events : List (Event κ)) (k : κ) (t : ℕ) : Prop :=
  ∃ before after, events = before ++ .touch k t :: after ∧ (∀ t', .touch k t' ∉ after) ∧
    ∀ keep, .sweep keep ∈ after → keep k t = true

section

variable {events : List (Event κ)} {k other : κ} {t time : ℕ} {keep : κ → ℕ → Bool}

theorem not_lives_nil : ¬ Lives [] k t := by
  rintro ⟨before, after, split, -⟩
  exact absurd split.symm (by simp)

theorem lives_snoc {event : Event κ} :
    Lives (events ++ [event]) k t ↔ event = .touch k t ∨
      Lives events k t ∧ (∀ t', event ≠ .touch k t') ∧
        ∀ keep, event = .sweep keep → keep k t = true := by
  constructor
  · rintro ⟨before, after, split, untouched, kept⟩
    rcases List.eq_nil_or_concat after with rfl | ⟨front, last, rfl⟩
    · exact Or.inl (List.singleton_inj.mp (List.append_inj' split rfl).2)
    · rw [List.concat_eq_append] at split untouched kept
      rw [← List.cons_append, ← List.append_assoc] at split
      obtain ⟨earlier, same⟩ := List.append_inj' split rfl
      obtain rfl := List.singleton_inj.mp same
      have last : event ∈ front ++ [event] := List.mem_append_right _ List.mem_cons_self
      refine Or.inr ⟨⟨before, front, earlier, ?_, ?_⟩, ?_, ?_⟩
      · exact fun t' mem => untouched t' (List.mem_append_left _ mem)
      · exact fun keep mem => kept keep (List.mem_append_left _ mem)
      · rintro t' rfl
        exact untouched t' last
      · rintro keep rfl
        exact kept keep last
  · rintro (rfl | ⟨⟨before, after, rfl, untouched, kept⟩, other, keeps⟩)
    · exact ⟨events, [], rfl, fun _ => List.not_mem_nil, fun _ mem => absurd mem List.not_mem_nil⟩
    · refine ⟨before, after ++ [event], by simp, fun t' mem => ?_, fun keep mem => ?_⟩
      · rcases List.mem_append.mp mem with mem | mem
        · exact untouched t' mem
        · exact other t' (List.mem_singleton.mp mem).symm
      · rcases List.mem_append.mp mem with mem | mem
        · exact kept keep mem
        · exact keeps keep (List.mem_singleton.mp mem).symm

theorem lives_sweep :
    Lives (events ++ [.sweep keep]) k t ↔ Lives events k t ∧ keep k t = true := by
  simp [lives_snoc]

theorem lives_touch [DecidableEq κ] :
    Lives (events ++ [.touch k t]) other time ↔
      if other = k then time = t else Lives events other time := by
  rw [lives_snoc]
  by_cases mine : other = k
  · subst mine
    rw [if_pos rfl]
    constructor
    · rintro (same | ⟨-, other, -⟩)
      · cases same
        rfl
      · exact absurd rfl (other t)
    · rintro rfl
      exact Or.inl rfl
  · simp [mine, Ne.symm mine]

variable [DecidableEq κ]

def Table.apply (table : Table κ) : Event κ → Table κ
  | .touch k t => table.touch k t
  | .sweep keep => table.sweep keep

def after (events : List (Event κ)) : Table κ := events.foldl Table.apply .empty

theorem after_snoc (event : Event κ) : after (events ++ [event]) = (after events).apply event := by
  rw [after, List.foldl_append]
  rfl

/-- The table holds what its history says. -/
theorem touched_after_iff : (after events).Touched k t ↔ Lives events k t := by
  induction events using List.reverseRecOn generalizing k t with
  | nil => exact iff_of_false List.not_mem_nil not_lives_nil
  | append_singleton events event ih =>
      rw [after_snoc]
      cases event with
      | touch k' t' =>
          rw [Table.apply, Table.touched_touch, lives_touch]
          split
          · exact Iff.rfl
          · exact ih
      | sweep keep => rw [Table.apply, Table.touched_sweep, lives_sweep, ih]

end

end Leases

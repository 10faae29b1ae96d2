import DhtRing.Hashtable
import Mathlib.Algebra.BigOperators.Group.Finset.Piecewise
import Mathlib.Algebra.Order.BigOperators.Group.Finset
import Mathlib.Data.FinEnum

/-!
# The counters of the hash table

`length` counts the nodes and `num_entries` the buckets in use, whatever is inserted and
removed.  Where the first node with a key is known, so is what the operations do to the
table.
-/

set_option autoImplicit false

namespace DhtRing

section

variable {ht : Ht} {key : Ssn} {value : ValuePair} {chain before after : List HtNode} {entry : HtNode}

/-! ## Finding a node in a chain -/

theorem chainInsert_of_absent (absent : ∀ entry ∈ chain, ckey entry.key ≠ ckey key) :
    (chainInsert key value chain).1 = chain ++ [⟨key, value⟩] := by
  induction chain with
  | nil => rfl
  | cons entry next ih =>
      obtain ⟨here, later⟩ := List.forall_mem_cons.mp absent
      simp only [chainInsert, strncmp_ssn, if_neg here, ih later, List.cons_append]

theorem chainInsert_of_found (absent : ∀ entry ∈ before, ckey entry.key ≠ ckey key)
    (found : ckey entry.key = ckey key) :
    (chainInsert key value (before ++ entry :: after)).1 =
      before ++ { entry with value := value } :: after := by
  induction before with
  | nil => simp only [List.nil_append, chainInsert, strncmp_ssn, if_pos found]
  | cons other next ih =>
      obtain ⟨here, later⟩ := List.forall_mem_cons.mp absent
      simp only [List.cons_append, chainInsert, strncmp_ssn, if_neg here, ih later]

theorem chainLookup_of_found (absent : ∀ entry ∈ before, ckey entry.key ≠ ckey key)
    (found : ckey entry.key = ckey key) :
    chainLookup key (before ++ entry :: after) = some entry.value := by
  induction before with
  | nil => simp only [List.nil_append, chainLookup, strncmp_ssn, if_pos found]
  | cons other next ih =>
      obtain ⟨here, later⟩ := List.forall_mem_cons.mp absent
      simp only [List.cons_append, chainLookup, strncmp_ssn, if_neg here, ih later]

theorem chainRemove_of_found (absent : ∀ entry ∈ before, ckey entry.key ≠ ckey key)
    (found : ckey entry.key = ckey key) :
    chainRemove key (before ++ entry :: after) = some (before ++ after) := by
  induction before with
  | nil => simp only [List.nil_append, chainRemove, strncmp_ssn, if_pos found]
  | cons other next ih =>
      obtain ⟨here, later⟩ := List.forall_mem_cons.mp absent
      simp only [List.cons_append, chainRemove, strncmp_ssn, if_neg here, ih later, Option.map_some]

theorem chainRemove_length {chain' : List HtNode} (removed : chainRemove key chain = some chain') :
    chain.length = chain'.length + 1 := by
  induction chain generalizing chain' with
  | nil => cases removed
  | cons entry next ih =>
      rw [chainRemove] at removed
      split at removed
      · cases removed
        rfl
      · obtain ⟨rest, later, rfl⟩ := Option.map_eq_some_iff.mp removed
        rw [List.length_cons, List.length_cons, ih later]

theorem numEntries_htInsert (ht : Ht) (key : Ssn) (value : ValuePair) :
    (htInsert ht key value).numEntries =
      if ht.entries (hashSsn key) = [] then ht.numEntries + 1 else ht.numEntries := by
  unfold htInsert
  dsimp only
  split
  · rename_i empty
    rw [if_pos empty]
  · rename_i entry next chain
    have used : ht.entries (hashSsn key) ≠ [] := by
      rw [chain]
      exact List.cons_ne_nil entry next
    exact (if_neg used).symm

/-- The bucket of a removed key goes out of use when this was its only node. -/
theorem numEntries_htRemove {chain : List HtNode}
    (removed : chainRemove key (ht.entries (hashSsn key)) = some chain) :
    (htRemove ht key).numEntries =
      if chain = [] then ht.numEntries - 1 else ht.numEntries := by
  unfold htRemove
  dsimp only
  split
  · rename_i empty
    rw [empty] at removed
    cases removed
  · rename_i entry next whole
    rw [whole, chainRemove] at removed
    split
    · rename_i head
      rw [if_pos head] at removed
      cases removed
      rfl
    · rename_i head
      rw [if_neg head] at removed
      obtain ⟨rest, later, rfl⟩ := Option.map_eq_some_iff.mp removed
      rw [chainRemove, if_neg head, later, if_neg (List.cons_ne_nil entry rest)]
      rfl

/-! ## The first node with a key -/

attribute [ext] Ht

theorem htLookup_of_found (chain : ht.entries (hashSsn key) = before ++ entry :: after)
    (absent : ∀ entry ∈ before, ckey entry.key ≠ ckey key) (found : ckey entry.key = ckey key) :
    htLookup ht key = some entry.value := by
  rw [htLookup_eq, chain, chainLookup_of_found absent found]

theorem htLookup_of_absent
    (absent : ∀ entry ∈ ht.entries (hashSsn key), ckey entry.key ≠ ckey key) :
    htLookup ht key = none := by
  rw [htLookup_eq, chainLookup_eq_none]
  exact absent

theorem htInsert_of_absent
    (absent : ∀ entry ∈ ht.entries (hashSsn key), ckey entry.key ≠ ckey key) :
    htInsert ht key value =
      { entries := Function.update ht.entries (hashSsn key)
          (ht.entries (hashSsn key) ++ [⟨key, value⟩])
        numEntries := if ht.entries (hashSsn key) = [] then ht.numEntries + 1 else ht.numEntries
        length := ht.length + 1 } := by
  apply Ht.ext
  · rw [htInsert_entries, chainInsert_of_absent absent]
  · rw [numEntries_htInsert]
  · rw [length_htInsert, htLookup_of_absent absent]
    rfl

theorem htInsert_of_found (chain : ht.entries (hashSsn key) = before ++ entry :: after)
    (absent : ∀ entry ∈ before, ckey entry.key ≠ ckey key) (found : ckey entry.key = ckey key) :
    htInsert ht key value =
      { ht with
        entries := Function.update ht.entries (hashSsn key)
          (before ++ { entry with value := value } :: after) } := by
  apply Ht.ext
  · rw [htInsert_entries, chain, chainInsert_of_found absent found]
  · rw [numEntries_htInsert, chain, if_neg (by simp)]
  · rw [length_htInsert, htLookup_of_found chain absent found]
    rfl

theorem htRemove_of_absent
    (absent : ∀ entry ∈ ht.entries (hashSsn key), ckey entry.key ≠ ckey key) :
    htRemove ht key = ht := by
  rcases htRemove_cases ht key with ⟨-, unchanged⟩ | ⟨chain, -, present, -, -⟩
  · exact unchanged
  · exact absurd (htLookup_of_absent absent) present

theorem htRemove_of_found (chain : ht.entries (hashSsn key) = before ++ entry :: after)
    (absent : ∀ entry ∈ before, ckey entry.key ≠ ckey key) (found : ckey entry.key = ckey key) :
    htRemove ht key =
      { entries := Function.update ht.entries (hashSsn key) (before ++ after)
        numEntries := if before ++ after = [] then ht.numEntries - 1 else ht.numEntries
        length := ht.length - 1 } := by
  have removed : chainRemove key (ht.entries (hashSsn key)) = some (before ++ after) := by
    rw [chain, chainRemove_of_found absent found]
  rcases htRemove_cases ht key with ⟨missing, -⟩ | ⟨rest, removed', -, entries, length⟩
  · rw [htLookup_of_found chain absent found] at missing
    cases missing
  · cases removed.symm.trans removed'
    exact Ht.ext entries (numEntries_htRemove removed) length

/-! ## Counting -/

/-- `length` is the number of nodes and `num_entries` the number of buckets in use. -/
structure Ht.Counted (ht : Ht) : Prop where
  length : ht.length = ∑ index, (ht.entries index).length
  numEntries : ht.numEntries = (Finset.univ.filter fun index => ht.entries index ≠ []).card

theorem counted_htCreate : htCreate.Counted := by
  refine ⟨?_, ?_⟩
  · simp [htCreate]
  · simp [htCreate]

theorem Ht.Counted.length_le (counted : ht.Counted) (index : UInt8) :
    (ht.entries index).length ≤ ht.length := by
  rw [counted.length]
  exact Finset.single_le_sum (f := fun i => (ht.entries i).length) (fun _ _ => Nat.zero_le _)
    (Finset.mem_univ index)

theorem Ht.Counted.one_le (counted : ht.Counted) {index : UInt8} (used : ht.entries index ≠ []) :
    1 ≤ ht.numEntries := by
  rw [counted.numEntries]
  exact Finset.card_pos.mpr ⟨index, Finset.mem_filter.mpr ⟨Finset.mem_univ index, used⟩⟩

theorem sum_update (measure : List HtNode → ℕ) (entries : UInt8 → List HtNode) (index : UInt8)
    (chain : List HtNode) :
    (∑ i, measure (Function.update entries index chain i)) + measure (entries index) =
      (∑ i, measure (entries i)) + measure chain := by
  have others : ∑ i ∈ Finset.univ.erase index, measure (Function.update entries index chain i) =
      ∑ i ∈ Finset.univ.erase index, measure (entries i) := by
    refine Finset.sum_congr rfl fun i mem => ?_
    rw [Function.update_of_ne (Finset.ne_of_mem_erase mem)]
  rw [← Finset.add_sum_erase _ _ (Finset.mem_univ index),
    ← Finset.add_sum_erase (f := fun i => measure (entries i)) _ (Finset.mem_univ index), others,
    Function.update_self]
  omega

theorem Ht.Counted.replace {ht' : Ht} (counted : ht.Counted) {index : UInt8} {chain : List HtNode}
    (entries : ht'.entries = Function.update ht.entries index chain)
    (length : ht'.length + (ht.entries index).length = ht.length + chain.length)
    (numEntries : ht'.numEntries + (if ht.entries index ≠ [] then 1 else 0) =
      ht.numEntries + if chain ≠ [] then 1 else 0) : ht'.Counted := by
  have nodes := sum_update List.length ht.entries index chain
  have buckets := sum_update (fun chain => if chain ≠ [] then 1 else 0) ht.entries index chain
  have old_length := counted.length
  have old_buckets := counted.numEntries
  rw [Finset.card_filter] at old_buckets
  refine ⟨?_, ?_⟩
  · rw [entries]
    omega
  · rw [entries, Finset.card_filter]
    omega

theorem Ht.Counted.htInsert (counted : ht.Counted) (key : Ssn) (value : ValuePair) :
    (htInsert ht key value).Counted := by
  have keys := congrArg List.length (chainInsert_keys key value (ht.entries (hashSsn key)))
  rw [List.length_map, List.length_append, List.length_map] at keys
  have used : (chainInsert key value (ht.entries (hashSsn key))).1 ≠ [] := by
    cases ht.entries (hashSsn key) with
    | nil => exact List.cons_ne_nil _ _
    | cons entry next =>
        rw [chainInsert]
        split
        · exact List.cons_ne_nil _ _
        · exact List.cons_ne_nil _ _
  refine counted.replace (htInsert_entries ht key value) ?_ ?_
  · rw [length_htInsert, htLookup_eq, keys]
    split
    · simp only [List.length_singleton]
      omega
    · simp only [List.length_nil]
      omega
  · rw [numEntries_htInsert, if_pos used]
    split
    · simp [*]
    · simp [*]

theorem Ht.Counted.htRemove (counted : ht.Counted) (key : Ssn) :
    (htRemove ht key).Counted := by
  rcases htRemove_cases ht key with ⟨-, unchanged⟩ | ⟨chain, removed, -, entries, length⟩
  · rwa [unchanged]
  · have shorter := chainRemove_length removed
    have used : ht.entries (hashSsn key) ≠ [] := by
      rintro empty
      rw [empty] at removed
      cases removed
    have some_node : (ht.entries (hashSsn key)).length ≤ ht.length := counted.length_le _
    have some_bucket : 1 ≤ ht.numEntries := counted.one_le used
    refine counted.replace entries ?_ ?_
    · rw [length]
      omega
    · rw [numEntries_htRemove removed, if_pos used]
      split
      · simp [*]
      · simp [*]

end

end DhtRing

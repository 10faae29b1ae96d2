import DhtRing.Lib.Transition
import DhtRing.TableMemory

/-!
# Runs of the hash table

Whatever is called on a table from `ht_create`, no call goes wrong, and the memory holds the
chains that belong to the table.  `ht_destroy` then frees every node once, and it stops
before it has no bucket left to look at.
-/

set_option autoImplicit false

namespace DhtRing

open Linked

namespace HtMemory

variable {mem : HtMemory} {cells : UInt8 → List (ℕ × HtNode)}

/-! ## Calls -/

inductive Call where
  | insert (key : Ssn) (value : ValuePair) (n : ℕ)
  | remove (key : Ssn)
  | lookup (key : Ssn)

def Call.step (mem : HtMemory) : Call → Option HtMemory
  | .insert key value n => mem.htInsert key value n
  | .remove key => mem.htRemove key
  | .lookup key => (mem.htLookup key).map fun _ => mem

def Call.Allocates (mem : HtMemory) : Call → Prop
  | .insert _ _ n => mem.heap n = none
  | _ => True

instance (mem : HtMemory) : (call : Call) → Decidable (call.Allocates mem)
  | .insert _ _ n => inferInstanceAs (Decidable (mem.heap n = none))
  | .remove _ => inferInstanceAs (Decidable True)
  | .lookup _ => inferInstanceAs (Decidable True)

/-- These calls, on a table from `ht_create`, end with this one. -/
def Reached (calls : List Call) (mem : HtMemory) : Prop :=
  Transition.Run Call.step (fun mem call => call.Allocates mem) htCreate calls mem

def Call.onTable (ht : Ht) : Call → Ht
  | .insert key value _ => DhtRing.htInsert ht key value
  | .remove key => DhtRing.htRemove ht key
  | .lookup _ => ht

theorem Holds.step (holds : mem.Holds cells) (call : Call) (allocates : call.Allocates mem) :
    ∃ mem' cells', call.step mem = some mem' ∧ mem'.Holds cells' ∧
      mem'.table cells' = call.onTable (mem.table cells) := by
  cases call with
  | insert key value n => exact holds.htInsert allocates key value
  | remove key => exact holds.htRemove key
  | lookup key =>
      refine ⟨mem, cells, ?_, holds, rfl⟩
      rw [Call.step, holds.htLookup key]
      rfl

/-- Every run of calls is one on tables of lists. -/
theorem Reached.holds {calls : List Call} (reached : Reached calls mem) :
    ∃ cells, mem.Holds cells ∧ mem.table cells = calls.foldl Call.onTable DhtRing.htCreate := by
  refine Transition.Run.induct
    (P := fun calls mem => ∃ cells, mem.Holds cells ∧
      mem.table cells = calls.foldl Call.onTable DhtRing.htCreate)
    reached ⟨fun _ => [], holds_htCreate, rfl⟩ ?_
  rintro calls before call after - ⟨cells, holds, same⟩ allocates stepped
  obtain ⟨mem', cells', stepped', holds', same'⟩ := holds.step call allocates
  cases stepped.symm.trans stepped'
  refine ⟨cells', holds', ?_⟩
  rw [same', same, List.foldl_append]
  rfl

/-! ## Destroying a table -/

/-- The inner loop frees the chain of a bucket from its first node to its last. -/
theorem Holds.destroyChain (holds : mem.Holds cells) (index : UInt8) {fuel : ℕ}
    (enough : (cells index).length ≤ fuel) :
    ∃ mem', destroyChain fuel (mem.entries index) mem = some mem' ∧
      mem'.Holds (Function.update cells index []) ∧
      mem'.table (Function.update cells index []) = ((cells index).map Prod.snd).foldl
        (fun ht entry => DhtRing.htRemove ht entry.key) (mem.table cells) ∧
      mem'.freed = mem.freed ++ (cells index).map Prod.fst := by
  induction chain : cells index generalizing mem cells fuel with
  | nil =>
      have first : mem.entries index = none :=
        (holds.lists.linked index).first_eq_none_iff.mpr chain
      have unchanged : Function.update cells index [] = cells := by
        rw [← chain, Function.update_eq_self]
      rw [first, unchanged]
      refine ⟨mem, ?_, holds, rfl, by simp⟩
      cases fuel <;> rfl
  | cons cell rest ih =>
      obtain ⟨address, node⟩ := cell
      have listed : node ∈ (mem.table cells).entries index := by
        rw [table_entries, chain]
        exact List.mem_cons_self
      obtain rfl : hashSsn node.key = index := holds.sound.bucket index node listed
      obtain ⟨mem₁, next, here, ran, holds₁, same₁, entries₁, freed₁⟩ :=
        holds.htRemove_head chain (sameAs_iff.mpr rfl)
      have first := (chain ▸ holds.lists.linked (hashSsn node.key)).1
      rw [chain] at enough
      cases fuel with
      | zero => cases enough
      | succ fuel =>
          have rest_eq : Function.update cells (hashSsn node.key) rest (hashSsn node.key) = rest :=
            Function.update_self ..
          have enough₁ : (Function.update cells (hashSsn node.key) rest (hashSsn node.key)).length ≤
              fuel := by
            rw [rest_eq]
            exact Nat.le_of_succ_le_succ enough
          obtain ⟨mem', ran', holds', same', freed'⟩ := ih holds₁ enough₁ rest_eq
          rw [Function.update_idem] at holds' same'
          refine ⟨mem', ?_, holds', ?_, ?_⟩
          · rw [first, HtMemory.destroyChain]
            simp only [here, Option.bind_eq_bind, Option.bind_some, ran]
            rw [← entries₁]
            exact ran'
          · rw [same', same₁]
            rfl
          · rw [freed', freed₁, List.append_assoc]
            rfl

def nodesFrom (cells : UInt8 → List (ℕ × HtNode)) (i : ℕ) : List ℕ :=
  (List.range' i (maxSize - i)).flatMap fun k => (cells (UInt8.ofNat k)).map Prod.fst

theorem nodesFrom_of_lt {i : ℕ} (inside : i < maxSize) :
    nodesFrom cells i = (cells (UInt8.ofNat i)).map Prod.fst ++ nodesFrom cells (i + 1) := by
  have one_less : maxSize - i = maxSize - (i + 1) + 1 := by omega
  rw [nodesFrom, nodesFrom, one_less, List.range'_succ, List.flatMap_cons]

theorem nodesFrom_update {i : ℕ} (inside : i < maxSize) (xs : List (ℕ × HtNode)) :
    nodesFrom (Function.update cells (UInt8.ofNat i) xs) (i + 1) = nodesFrom cells (i + 1) := by
  refine List.flatMap_congr fun k listed => ?_
  obtain ⟨after, before⟩ := List.mem_range'_1.mp listed
  have other : UInt8.ofNat k ≠ UInt8.ofNat i := by
    intro same
    have numbers := congrArg UInt8.toNat same
    rw [UInt8.toNat_ofNat', UInt8.toNat_ofNat'] at numbers
    simp only [maxSize] at inside before
    omega
  rw [Function.update_of_ne other]

theorem Holds.all_empty_iff (holds : mem.Holds cells) :
    (∀ index, cells index = []) ↔ mem.isEmpty = true := by
  have length : mem.length = _ := holds.counted.length
  rw [isEmpty, beq_iff_eq, length, Finset.sum_eq_zero_iff]
  simp [table_entries]

/-- The outer loop frees the nodes of the buckets that are left, and comes to its end at the
latest behind the last bucket. -/
theorem Holds.destroyFrom (holds : mem.Holds cells) {turns i : ℕ} (inside : i ≤ maxSize)
    (enough : maxSize < turns + i) (below : ∀ index : UInt8, index.toNat < i → cells index = []) :
    ∃ j last, destroyFrom turns i mem = some (j, last) ∧ j ≤ maxSize ∧
      (∀ address, last.heap address = none) ∧ last.freed = mem.freed ++ nodesFrom cells i ∧
      htDestroyFrom (maxSize - i) (mem.table cells) = true := by
  induction turns generalizing i mem cells with
  | zero => omega
  | succ turns ih =>
      by_cases empty : mem.isEmpty = true
      · have all_empty := holds.all_empty_iff.mpr empty
        refine ⟨i, mem, ?_, inside, ?_, ?_, ?_⟩
        · rw [HtMemory.destroyFrom, if_pos empty]
        · intro address
          by_contra allocated
          obtain ⟨index, listed⟩ := holds.lists.owned address allocated
          rw [all_empty index] at listed
          cases listed
        · have none_left : nodesFrom cells i = [] := by
            rw [nodesFrom, List.flatMap_eq_nil_iff]
            intro k _
            rw [all_empty]
            rfl
          rw [none_left, List.append_nil]
        · cases left : maxSize - i with
          | zero => exact empty
          | succ left => exact if_pos empty
      · have more : i < maxSize := by
          by_contra done
          refine empty (holds.all_empty_iff.mp fun index => below index ?_)
          have := index.toNat_lt
          simp only [maxSize] at done
          omega
        obtain ⟨mem₁, ran₁, holds₁, same₁, freed₁⟩ :=
          holds.destroyChain (UInt8.ofNat i) (holds.length_le _)
        have below₁ : ∀ index : UInt8, index.toNat < i + 1 →
            Function.update cells (UInt8.ofNat i) [] index = [] := by
          intro index before
          by_cases here : index = UInt8.ofNat i
          · rw [here, Function.update_self]
          · rw [Function.update_of_ne here]
            refine below index (Nat.lt_of_le_of_ne (Nat.le_of_lt_succ before) fun same => here ?_)
            rw [← same, UInt8.ofNat_toNat]
        obtain ⟨j, last, ran, bound, none_left, freed, list_level⟩ :=
          ih holds₁ (Nat.succ_le_of_lt more) (by omega) below₁
        refine ⟨j, last, ?_, bound, none_left, ?_, ?_⟩
        · rw [HtMemory.destroyFrom, if_neg empty, if_pos more, ran₁]
          exact ran
        · rw [freed, freed₁, nodesFrom_update more, nodesFrom_of_lt more, List.append_assoc]
        · have one_less : maxSize - i = maxSize - (i + 1) + 1 := by omega
          have here : 255 - (maxSize - (i + 1)) = i := by
            simp only [maxSize] at more ⊢
            omega
          rw [one_less, htDestroyFrom, here]
          refine (if_neg empty).trans ?_
          rw [same₁] at list_level
          exact list_level

theorem Holds.nodup_nodes (holds : mem.Holds cells) : (nodesFrom cells 0).Nodup := by
  rw [nodesFrom, List.nodup_flatMap]
  refine ⟨fun k _ => (holds.lists.linked (UInt8.ofNat k)).nodup, ?_⟩
  have numbers : (List.range' 0 (maxSize - 0)).Nodup := List.nodup_range'
  refine List.Pairwise.imp_of_mem ?_ numbers
  intro j k j_mem k_mem apart address in_j in_k
  have same := congrArg UInt8.toNat (holds.lists.apart _ _ address in_j in_k)
  rw [UInt8.toNat_ofNat', UInt8.toNat_ofNat'] at same
  have j_lt := (List.mem_range'_1.mp j_mem).2
  have k_lt := (List.mem_range'_1.mp k_mem).2
  simp only [maxSize] at j_lt k_lt
  omega

theorem Holds.mem_nodes_iff (holds : mem.Holds cells) (address : ℕ) :
    address ∈ nodesFrom cells 0 ↔ mem.heap address ≠ none := by
  rw [holds.lists.allocated_iff, nodesFrom, List.mem_flatMap]
  constructor
  · rintro ⟨k, -, listed⟩
    exact ⟨UInt8.ofNat k, listed⟩
  · rintro ⟨index, listed⟩
    refine ⟨index.toNat, List.mem_range'_1.mpr ⟨Nat.zero_le _, ?_⟩, ?_⟩
    · have := index.toNat_lt
      simp only [maxSize]
      omega
    · rwa [UInt8.ofNat_toNat]

/-- `ht_destroy` frees every node once and nothing else, and looks at no bucket behind the
last one. -/
theorem Holds.htDestroy (holds : mem.Holds cells) :
    ∃ i last, mem.htDestroy = some (i, last) ∧ i ≤ maxSize ∧ (∀ address, last.heap address = none) ∧
      last.freed = mem.freed ++ nodesFrom cells 0 ∧ DhtRing.htDestroy (mem.table cells) = true :=
  holds.destroyFrom (Nat.zero_le _) (by decide) fun _ before => absurd before (Nat.not_lt_zero _)

/-! ## Tables from `ht_create` -/

/-- In every table that calls can make, each node is in the bucket of its key and no bucket
has a key twice, and the counters are right.  No call on it goes wrong, and `ht_destroy`
frees every node exactly once. -/
theorem table_of_calls {calls : List Call} (reached : Reached calls mem) :
    ∃ cells : UInt8 → List (ℕ × HtNode),
      (∀ index, Segment mem.heap (mem.entries index) (cells index) none) ∧
      (∀ address, mem.heap address ≠ none ↔ ∃ index, address ∈ (cells index).map Prod.fst) ∧
      (∀ index, ∀ cell ∈ cells index, hashSsn cell.2.key = index) ∧
      (∀ index, (cells index).Pairwise fun a b => strncmp a.2.key.toList b.2.key.toList ≠ 0) ∧
      mem.length = ∑ index, (cells index).length ∧
      mem.numEntries = (Finset.univ.filter fun index => cells index ≠ []).card ∧
      (∀ call : Call, call.Allocates mem → ∃ mem', call.step mem = some mem') ∧
      ∃ i last freed, mem.htDestroy = some (i, last) ∧ i ≤ maxSize ∧
        (∀ address, last.heap address = none) ∧ last.freed = mem.freed ++ freed ∧ freed.Nodup ∧
        ∀ address, address ∈ freed ↔ mem.heap address ≠ none := by
  obtain ⟨cells, holds, -⟩ := reached.holds
  refine ⟨cells, holds.lists.linked, holds.lists.allocated_iff, ?_, ?_, ?_, ?_, ?_, ?_⟩
  · intro index cell listed
    exact holds.sound.bucket index cell.2 (List.mem_map_of_mem listed)
  · intro index
    have distinct := holds.sound.distinct index
    rw [table_entries, List.map_map, List.Nodup, List.pairwise_map] at distinct
    exact distinct.imp fun apart same => apart ((strncmp_ssn _ _).mp same)
  · have length := holds.counted.length
    simpa only [table, List.length_map] using length
  · have numEntries := holds.counted.numEntries
    simpa only [table, ne_eq, List.map_eq_nil_iff] using numEntries
  · intro call allocates
    obtain ⟨mem', -, stepped, -, -⟩ := holds.step call allocates
    exact ⟨mem', stepped⟩
  · obtain ⟨i, last, destroyed, bound, none_left, freed, -⟩ := holds.htDestroy
    exact ⟨i, last, nodesFrom cells 0, destroyed, bound, none_left, freed, holds.nodup_nodes,
      holds.mem_nodes_iff⟩

/-- Two keys of one bucket, the first of which is removed and comes back. -/
def bucketmates : List Call :=
  let key₁ : Ssn := #v[97, 97, 97, 97, 97, 97, 97, 97, 97, 97, 97, 97]
  let key₂ : Ssn := #v[97, 97, 97, 97, 97, 97, 97, 97, 97, 97, 98, 64]
  let pair : ValuePair := ⟨⟨[], nil_fits⟩, ⟨[], nil_fits⟩⟩
  [.insert key₁ pair 0, .insert key₂ pair 1, .remove key₁, .insert key₁ pair 0, .lookup key₂]

theorem table_of_bucketmates :
    ∃ mem, Reached bucketmates mem ∧ (mem.numEntries, mem.length) = (1, 2) ∧
      ∃ i last, mem.htDestroy = some (i, last) ∧ i ≤ maxSize ∧ ∀ address, last.heap address = none := by
  have counters : (Transition.execChecked Call.step (fun mem call => decide (call.Allocates mem))
      htCreate bucketmates).map (fun mem => (mem.numEntries, mem.length)) = some (1, 2) := by decide
  obtain ⟨mem, executed, counted⟩ := Option.map_eq_some_iff.mp counters
  have reached : Reached bucketmates mem :=
    Transition.run_of_execChecked (fun mem call => of_decide_eq_true) executed
  obtain ⟨cells, -, -, -, -, -, -, -, i, last, freed, destroyed, bound, none_left, -⟩ :=
    table_of_calls reached
  exact ⟨mem, reached, counted, i, last, destroyed, bound, none_left⟩

end HtMemory

end DhtRing

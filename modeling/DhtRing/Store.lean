import DhtRing.KeyArray

/-!
# Tables over keys without zero bytes

`Holds ht ssns keys`: the chained table `ht` and the array `ssns` both hold
exactly the keys of the list `keys`, none of which has a zero byte.  On such keys
a lookup answers what is stored under exactly the key.  Each operation on the table
is shown to keep this, with what it does to the table as a map and what it sends.
-/

set_option autoImplicit false

namespace DhtRing

structure Holds (ht : Ht) (ssns : Nat → Option Ssn) (keys : List Ssn) : Prop where
  sound : ht.Sound
  nodup : keys.Nodup
  nonzero : ∀ key ∈ keys, Nonzero key
  slots : ∀ i, i < keys.length → ssns i = keys[i]?
  length : ht.length = keys.length
  present : ∀ key, (htLookup ht key).isSome ↔ key ∈ keys

theorem holds_htCreate (ssns : Nat → Option Ssn) : Holds htCreate ssns [] where
  sound := sound_htCreate
  nodup := List.nodup_nil
  nonzero := by simp
  slots := by simp
  length := rfl
  present := by simp [htLookup, htCreate]

section

variable {ht : Ht} {ssns : Nat → Option Ssn} {keys : List Ssn}

theorem Holds.mirrors (holds : Holds ht ssns keys) : Mirrors ht ssns keys where
  sound := holds.sound
  nodup := holds.nodup
  slots := holds.slots
  length := holds.length
  present := by
    intro key
    constructor
    · intro stored
      obtain ⟨pair, get⟩ := Option.isSome_iff_exists.mp stored
      rw [← holds.present, htLookup_eq_get holds.sound, Ht.resident_self holds.sound stored]
      exact stored
    · intro mem
      have found := (holds.present key).mpr mem
      rw [htLookup_eq_get holds.sound] at found
      cases resident : ht.resident key with
      | none => simp [resident] at found
      | some other =>
          obtain ⟨same, stored⟩ := Ht.resident_some resident holds.sound
          rwa [(sameKey_of_nonzero (holds.nonzero key mem)).mp same] at stored

theorem Mirrors.holds (mirrors : Mirrors ht ssns keys) (nonzero : ∀ key ∈ keys, Nonzero key) :
    Holds ht ssns keys where
  sound := mirrors.sound
  nodup := mirrors.nodup
  nonzero := nonzero
  slots := mirrors.slots
  length := mirrors.length
  present := by
    intro key
    rw [htLookup_eq_get mirrors.sound]
    cases resident : ht.resident key with
    | none =>
        have absent : key ∉ keys := fun mem => by
          rw [mirrors.resident_of_mem mem] at resident
          cases resident
        simp [absent]
    | some other =>
        obtain ⟨same, stored⟩ := Ht.resident_some resident mirrors.sound
        have mem := (mirrors.present other).mp stored
        have eq := (sameKey_of_nonzero (nonzero other mem)).mp ⟨same.1.symm, same.2.symm⟩
        rw [Option.bind_some, eq]
        exact mirrors.present other

theorem Holds.lookup_eq_none (holds : Holds ht ssns keys) {key : Ssn} (absent : key ∉ keys) :
    htLookup ht key = none := by
  rw [← holds.present, Bool.not_eq_true, Option.isSome_eq_false_iff] at absent
  exact Option.isNone_iff_eq_none.mp absent

/-! ## Insert -/

theorem Holds.lookup_insert {key : Ssn} (nonzero : Nonzero key) (pair : ValuePair) (other : Ssn) :
    htLookup (htInsert ht key pair) other =
      if other = key then some pair else htLookup ht other := by
  simp only [htLookup_htInsert, sameKey_of_nonzero nonzero]

theorem Holds.insert_present (holds : Holds ht ssns keys) {key : Ssn} (mem : key ∈ keys)
    (pair : ValuePair) : Holds (htInsert ht key pair) ssns keys :=
  (holds.mirrors.insert_present (holds.mirrors.resident_of_mem mem) pair).holds holds.nonzero

theorem Holds.resident_eq_none (holds : Holds ht ssns keys) {key : Ssn} (absent : key ∉ keys)
    (nonzero : Nonzero key) : ht.resident key = none := by
  cases resident : ht.resident key with
  | none => rfl
  | some other =>
      obtain ⟨same, stored⟩ := Ht.resident_some resident holds.sound
      rw [(sameKey_of_nonzero nonzero).mp same, holds.mirrors.present] at stored
      exact absurd stored absent

theorem Holds.insert_absent (holds : Holds ht ssns keys) {key : Ssn} (absent : key ∉ keys)
    (nonzero : Nonzero key) (pair : ValuePair) :
    Holds (htInsert ht key pair) (Function.update ssns keys.length (some key)) (keys ++ [key]) := by
  refine (holds.mirrors.insert_absent (holds.resident_eq_none absent nonzero) pair).holds ?_
  intro other mem
  rcases List.mem_append.mp mem with old | new
  · exact holds.nonzero other old
  · rw [List.mem_singleton.mp new]
    exact nonzero

/-! ## Remove -/

theorem Holds.lookup_remove (holds : Holds ht ssns keys) {key : Ssn} (nonzero : Nonzero key)
    (other : Ssn) :
    htLookup (htRemove ht key) other = if other = key then none else htLookup ht other := by
  simp only [htLookup_htRemove holds.sound, sameKey_of_nonzero nonzero]

theorem findSsn_eq (key : Ssn) (nonzero : Nonzero key) (keys : List Ssn) (ssns : Nat → Option Ssn)
    (i : Nat) (slots : ∀ j, j < keys.length → ssns (i + j) = keys[j]?) :
    findSsn ssns key keys.length i =
      some (if key ∈ keys then some (i + keys.idxOf key) else none) := by
  have same : (fun other => decide (ckey other = ckey key)) = fun other => decide (other = key) := by
    funext other
    simp only [ckey_inj_of_nonzero nonzero]
  rw [findSsn_slots key keys ssns i slots, same]
  congr 1
  by_cases mem : key ∈ keys
  · have found : keys.findIdx? (fun other => decide (other = key)) = some (keys.idxOf key) := by
      rw [List.findIdx?_eq_some_iff_findIdx_eq]
      have idx : keys.idxOf key < keys.length := List.idxOf_lt_length_of_mem mem
      refine ⟨idx, ?_⟩
      rw [List.idxOf]
      congr 1
      funext other
      rw [Bool.eq_iff_iff, decide_eq_true_eq, beq_iff_eq]
    rw [found, if_pos mem, Option.map_some]
  · have missing : keys.findIdx? (fun other => decide (other = key)) = none := by
      rw [List.findIdx?_eq_none_iff]
      intro other other_mem
      simpa using fun eq : other = key => mem (eq ▸ other_mem)
    rw [missing, if_neg mem, Option.map_none]

theorem Holds.remove (holds : Holds ht ssns keys) {key : Ssn} (mem : key ∈ keys) {i : Nat}
    (found : keys[i]? = some key) :
    Holds (htRemove ht key) (closeGap ssns i keys.length) (keys.eraseIdx i) :=
  (holds.mirrors.remove (holds.mirrors.resident_of_mem mem) found).holds fun other other_mem =>
    holds.nonzero other (List.mem_of_mem_eraseIdx other_mem)

end

/-! ## The handlers of requests in range -/

def SelfData.value (selfData : SelfData) (key : Ssn) : Option ValuePair :=
  selfData.hashTable.bind fun ht => htLookup ht key

/-- The data of a node whose table and key array agree on `keys`. -/
def Stores (selfData : SelfData) (keys : List Ssn) : Prop :=
  ∃ ht, selfData.hashTable = some ht ∧ Holds ht selfData.ssns keys

variable {selfData : SelfData} {keys : List Ssn}

/-- `handle_ht_insert` on a key in range, when the key array has room. -/
theorem handleHtInsert_spec (stores : Stores selfData keys) {key : Ssn} (nonzero : Nonzero key)
    (pair : ValuePair) (in_range : checkRange selfData key = true)
    (room : key ∈ keys ∨ keys.length < maxSize) :
    ∃ ht ssns, handleHtInsert selfData key pair = ⟨selfData.withStore ht ssns, [], .run⟩ ∧
      Stores (selfData.withStore ht ssns) (if key ∈ keys then keys else keys ++ [key]) ∧
      ∀ other, (selfData.withStore ht ssns).value other =
        if other = key then some pair else selfData.value other := by
  obtain ⟨ht, table, holds⟩ := stores
  have values : ∀ ssns other, (selfData.withStore (htInsert ht key pair) ssns).value other =
      if other = key then some pair else selfData.value other := by
    intro ssns other
    simp only [SelfData.value, SelfData.withStore, table, Option.bind_some]
    exact Holds.lookup_insert nonzero pair other
  by_cases mem : key ∈ keys
  · have same_length : getNumEntries ht = getNumEntries (htInsert ht key pair) := by
      rw [getNumEntries, getNumEntries, holds.length, (holds.insert_present mem pair).length]
    refine ⟨htInsert ht key pair, selfData.ssns, ?_, ?_, values _⟩
    · rw [handleHtInsert, if_pos in_range, table]
      simp only [if_pos same_length]
      rfl
    · rw [if_pos mem]
      exact ⟨_, rfl, holds.insert_present mem pair⟩
  · have grown := holds.insert_absent mem nonzero pair
    have longer : getNumEntries ht ≠ getNumEntries (htInsert ht key pair) := by
      have := grown.length
      rw [List.length_append, List.length_singleton] at this
      rw [getNumEntries, getNumEntries, holds.length, this]
      omega
    have space : getNumEntries ht < maxSize := by
      rw [getNumEntries, holds.length]
      exact room.resolve_left mem
    refine ⟨htInsert ht key pair, Function.update selfData.ssns keys.length (some key), ?_, ?_,
      values _⟩
    · rw [handleHtInsert, if_pos in_range, table]
      simp only [if_neg longer, if_pos space]
      rw [show getNumEntries ht = keys.length from holds.length]
      rfl
    · rw [if_neg mem]
      exact ⟨_, rfl, grown⟩

theorem handleHtRemove_spec (stores : Stores selfData keys) {key : Ssn} (nonzero : Nonzero key)
    (in_range : checkRange selfData key = true) :
    ∃ ht ssns, handleHtRemove selfData key = ⟨selfData.withStore ht ssns, [], .run⟩ ∧
      Stores (selfData.withStore ht ssns) (keys.erase key) ∧
      ∀ other, (selfData.withStore ht ssns).value other =
        if other = key then none else selfData.value other := by
  obtain ⟨ht, table, holds⟩ := stores
  have scan : findSsn selfData.ssns key (getNumEntries ht) 0 =
      some (if key ∈ keys then some (keys.idxOf key) else none) := by
    rw [show getNumEntries ht = keys.length from holds.length,
      findSsn_eq key nonzero keys selfData.ssns 0 (by simpa using holds.slots)]
    simp
  by_cases mem : key ∈ keys
  · have found : keys[keys.idxOf key]? = some key := by
      rw [List.getElem?_eq_getElem (List.idxOf_lt_length_of_mem mem), List.getElem_idxOf]
    have removed := holds.remove mem found
    refine ⟨htRemove ht key, closeGap selfData.ssns (keys.idxOf key) keys.length, ?_, ?_, ?_⟩
    · rw [handleHtRemove, if_pos in_range, table]
      simp only [scan, if_pos mem]
      rw [show getNumEntries ht = keys.length from holds.length]
      rfl
    · refine ⟨_, rfl, ?_⟩
      rw [← List.eraseIdx_idxOf_eq_erase]
      exact removed
    · intro other
      simp only [SelfData.value, SelfData.withStore, table, Option.bind_some]
      exact holds.lookup_remove nonzero other
  · refine ⟨ht, selfData.ssns, ?_, ?_, ?_⟩
    · rw [handleHtRemove, if_pos in_range, table]
      simp only [scan, if_neg mem]
      rw [SelfData.withStore, ← table]
    · rw [List.erase_of_not_mem mem]
      exact ⟨_, rfl, holds⟩
    · intro other
      simp only [SelfData.value, SelfData.withStore, table, Option.bind_some]
      by_cases same : other = key
      · rw [if_pos same, same, holds.lookup_eq_none mem]
      · rw [if_neg same]

/-- `handle_ht_lookup` on a key in range answers what is stored, or nothing. -/
theorem handleHtLookup_spec (stores : Stores selfData keys) (key : Ssn) (sender : Addr)
    (in_range : checkRange selfData key = true) :
    handleHtLookup selfData key sender =
      ⟨selfData, match selfData.value key with
        | some pair => [.udp sender (.valLookupResponse key pair)]
        | none => [], .run⟩ := by
  obtain ⟨ht, table, -⟩ := stores
  rw [handleHtLookup, if_pos in_range, table]
  simp only [SelfData.value, table, Option.bind_some]
  cases htLookup ht key <;> rfl

theorem Stores.mirrored (stores : Stores selfData keys) : Mirrored selfData keys := by
  obtain ⟨ht, table, holds⟩ := stores
  exact ⟨ht, table, holds.mirrors⟩

end DhtRing

import Mathlib.Data.List.Induction
import DhtRing.Store
import DhtRing.Wiring

/-!
# Sequences of calls on one table

What the handlers make of a node's table and key array over any sequence of calls.
The table finds a key in the bucket of its hash, the array is searched for the first
key that agrees up to the zero byte: the two stay in step as long as they mean the
same key.
-/

set_option autoImplicit false

namespace DhtRing

/-! ## Calls -/

inductive TableCall where
  | insert (ssn : Ssn) (pair : ValuePair)
  | remove (ssn : Ssn)
  | lookup (ssn : Ssn) (sender : Addr)
  | newRange (rangeStart rangeEnd : UInt8)
  | split (oldSucc : Addr)

def TableCall.run (selfData : SelfData) : TableCall → Outcome
  | .insert ssn pair => handleHtInsert selfData ssn pair
  | .remove ssn => handleHtRemove selfData ssn
  | .lookup ssn sender => handleHtLookup selfData ssn sender
  | .newRange rangeStart rangeEnd => updateRange selfData rangeStart rangeEnd
  | .split oldSucc => sendNewRangeAndEntries selfData oldSucc

/-- `P` holds of each call and the data that it finds. -/
def Throughout (P : SelfData → TableCall → Prop) : SelfData → List TableCall → Prop
  | _, [] => True
  | selfData, call :: rest => P selfData call ∧ Throughout P (call.run selfData).selfData rest

def TableCall.key : TableCall → Option Ssn
  | .insert ssn _ => some ssn
  | .remove ssn => some ssn
  | .lookup ssn _ => some ssn
  | _ => none

def SelfData.keyList (selfData : SelfData) : List Ssn :=
  match selfData.hashTable with
  | none => []
  | some ht => (List.range (getNumEntries ht)).filterMap selfData.ssns

def SelfData.firstMatch (selfData : SelfData) (ssn : Ssn) : Option Ssn :=
  selfData.keyList.find? fun key => ckey key = ckey ssn

section

variable {P Q R : SelfData → TableCall → Prop}

/-- The rule for sequences: two properties that agree on each call that `I` admits,
and that keep `I`. -/
theorem throughout_iff {I : SelfData → Prop}
    (step : ∀ selfData call, I selfData → R selfData call →
      (P selfData call ↔ Q selfData call) ∧
        (Q selfData call → I (call.run selfData).selfData)) :
    ∀ calls selfData, I selfData → Throughout R selfData calls →
      (Throughout P selfData calls ↔ Throughout Q selfData calls) := by
  intro calls
  induction calls with
  | nil =>
      intro selfData _ _
      exact Iff.rfl
  | cons call rest ih =>
      intro selfData inv allowed
      obtain ⟨same, keeps⟩ := step selfData call inv allowed.1
      constructor
      · intro ⟨here, later⟩
        exact ⟨same.mp here, (ih _ (keeps (same.mp here)) allowed.2).mp later⟩
      · intro ⟨here, later⟩
        exact ⟨same.mpr here, (ih _ (keeps here) allowed.2).mpr later⟩

end

theorem filterMap_getElem?_range {α : Type*} (list : List α) :
    (List.range list.length).filterMap (fun i => list[i]?) = list := by
  induction list using List.reverseRecOn with
  | nil => rfl
  | append_singleton init last ih =>
      rw [List.length_append, List.length_singleton, List.range_succ, List.filterMap_append]
      have before : ∀ i ∈ List.range init.length, (init ++ [last])[i]? = init[i]? :=
        fun i mem => List.getElem?_append_left (List.mem_range.mp mem)
      rw [List.filterMap_congr before, ih]
      simp

section

variable {selfData : SelfData} {keys : List Ssn} {ssn : Ssn}

theorem Mirrored.keyList (mirrored : Mirrored selfData keys) : selfData.keyList = keys := by
  obtain ⟨ht, table, mirrors⟩ := mirrored
  simp only [SelfData.keyList, table]
  rw [show getNumEntries ht = keys.length from mirrors.length]
  have slots : ∀ j ∈ List.range keys.length, selfData.ssns j = keys[j]? :=
    fun j mem => mirrors.slots j (List.mem_range.mp mem)
  rw [List.filterMap_congr slots, filterMap_getElem?_range]

theorem Mirrored.findSsn {ht : Ht} (mirrored : Mirrored selfData keys)
    (table : selfData.hashTable = some ht) (ssn : Ssn) :
    findSsn selfData.ssns ssn (getNumEntries ht) 0 =
      some (keys.findIdx? fun key => ckey key = ckey ssn) := by
  obtain ⟨ht', table', mirrors⟩ := mirrored
  cases table.symm.trans table'
  rw [show getNumEntries ht = keys.length from mirrors.length,
    findSsn_slots ssn keys selfData.ssns 0 (by simpa using mirrors.slots)]
  simp

theorem handleHtInsert_out (pair : ValuePair) (out : checkRange selfData ssn = false) :
    (handleHtInsert selfData ssn pair).selfData = selfData := by
  rw [handleHtInsert, if_neg (by simp [out])]

theorem handleHtRemove_out (out : checkRange selfData ssn = false) :
    (handleHtRemove selfData ssn).selfData = selfData := by
  rw [handleHtRemove, if_neg (by simp [out]), sendOrExit_selfData]

theorem handleHtLookup_selfData (sender : Addr) :
    (handleHtLookup selfData ssn sender).selfData = selfData := by
  unfold handleHtLookup sendOrExit
  split
  · split
    · rfl
    · split <;> rfl
  · split <;> rfl

theorem updateRange_store (selfData : SelfData) (rangeStart rangeEnd : UInt8) :
    (updateRange selfData rangeStart rangeEnd).selfData.hashTable = selfData.hashTable ∧
      (updateRange selfData rangeStart rangeEnd).selfData.ssns = selfData.ssns ∧
      (updateRange selfData rangeStart rangeEnd).selfData.fdsSuccessor = selfData.fdsSuccessor := by
  unfold updateRange sendOrExit
  dsimp only
  split
  · split <;> exact ⟨rfl, rfl, rfl⟩
  · split
    · split <;> exact ⟨rfl, rfl, rfl⟩
    · split <;> exact ⟨rfl, rfl, rfl⟩

theorem handleHtInsert_present (mirrored : Mirrored selfData keys) {ht : Ht} {other : Ssn}
    (table : selfData.hashTable = some ht) (in_range : checkRange selfData ssn = true)
    (resident : ht.resident ssn = some other) (pair : ValuePair) :
    handleHtInsert selfData ssn pair =
        ⟨selfData.withStore (htInsert ht ssn pair) selfData.ssns, [], .run⟩ ∧
      Mirrored (selfData.withStore (htInsert ht ssn pair) selfData.ssns) keys := by
  obtain ⟨ht', table', mirrors⟩ := mirrored
  cases table.symm.trans table'
  have after := mirrors.insert_present resident pair
  refine ⟨?_, _, rfl, after⟩
  have same : getNumEntries ht = getNumEntries (htInsert ht ssn pair) := by
    rw [getNumEntries, getNumEntries, mirrors.length, after.length]
  rw [handleHtInsert, if_pos in_range, table]
  simp only [if_pos same]
  rfl

theorem handleHtInsert_absent (mirrored : Mirrored selfData keys) {ht : Ht}
    (table : selfData.hashTable = some ht) (in_range : checkRange selfData ssn = true)
    (absent : ht.resident ssn = none) (pair : ValuePair) :
    if keys.length < maxSize then
      handleHtInsert selfData ssn pair = ⟨selfData.withStore (htInsert ht ssn pair)
          (Function.update selfData.ssns keys.length (some ssn)), [], .run⟩ ∧
        Mirrored (selfData.withStore (htInsert ht ssn pair)
          (Function.update selfData.ssns keys.length (some ssn))) (keys ++ [ssn])
    else
      handleHtInsert selfData ssn pair =
        ⟨{ selfData with hashTable := some (htInsert ht ssn pair) }, [], .fault⟩ := by
  obtain ⟨ht', table', mirrors⟩ := mirrored
  cases table.symm.trans table'
  have after := mirrors.insert_absent absent pair
  have length : getNumEntries ht = keys.length := mirrors.length
  have longer : getNumEntries ht ≠ getNumEntries (htInsert ht ssn pair) := by
    have grown := after.length
    rw [List.length_append, List.length_singleton] at grown
    rw [length, getNumEntries, grown]
    omega
  rw [length] at longer
  split
  · rename_i room
    refine ⟨?_, _, rfl, after⟩
    rw [handleHtInsert, if_pos in_range, table]
    simp only [length, if_neg longer, if_pos room]
    rfl
  · rename_i full
    rw [handleHtInsert, if_pos in_range, table]
    simp only [length, if_neg longer, if_neg full]

end

/-! ## Table and key array -/

/-- `ssns` holds each key of the table once, in its first slots, and nothing else. -/
def InStep (selfData : SelfData) : Prop := ∃ keys, Mirrored selfData keys

/-- A transfer from this node finds the value of each key and skips no entry. -/
structure SkipsNothing (selfData : SelfData) : Prop where
  leaving : ∀ index fd key pair, selfData.fd index = some fd → selfData.get key = some pair →
    .tcp fd (.valInsert key pair) ∈ (sendAllEntries selfData index).effects
  splitting : ∀ conn oldSucc key pair, selfData.fdsSuccessor = some conn →
    selfData.get key = some pair →
      if checkRange (sendNewRangeAndEntries selfData oldSucc).selfData key
      then (sendNewRangeAndEntries selfData oldSucc).selfData.get key = some pair
      else .tcp (.up conn) (.valInsert key pair) ∈
        (sendNewRangeAndEntries selfData oldSucc).effects

/-- The node never has more entries than slots, and a split has a successor to send
to. -/
structure Admitted (selfData : SelfData) (call : TableCall) : Prop where
  room : ∀ ht, (call.run selfData).selfData.hashTable = some ht → getNumEntries ht ≤ maxSize
  connected : ∀ oldSucc, call = .split oldSucc → selfData.fdsSuccessor ≠ none

/-- The key whose slot a remove frees lies in the bucket that it searches. -/
def ScansBucket (selfData : SelfData) : TableCall → Prop
  | .remove ssn => checkRange selfData ssn = true →
      ∀ key, selfData.firstMatch ssn = some key → hashSsn key = hashSsn ssn
  | _ => True

section

variable {selfData : SelfData} {keys : List Ssn} {ssn : Ssn}

theorem mem_insertAll {fd : Loc} {entries : List (Ssn × ValuePair)} {entry : Ssn × ValuePair}
    (mem : entry ∈ entries) : .tcp fd (.valInsert entry.1 entry.2) ∈ insertAll fd entries :=
  List.mem_map.mpr ⟨entry, mem, rfl⟩

theorem mem_listed {some_keys : List Ssn} {key : Ssn} {pair : ValuePair} (mem : key ∈ some_keys)
    (get : selfData.get key = some pair) : (key, pair) ∈ selfData.listed some_keys := by
  refine List.mem_filterMap.mpr ⟨key, mem, ?_⟩
  rw [get, Option.map_some]

theorem Mirrored.skipsNothing (mirrored : Mirrored selfData keys) : SkipsNothing selfData := by
  have stored : ∀ {key pair}, selfData.get key = some pair → key ∈ keys := by
    intro key pair get
    rw [← mirrored.get_isSome, get]
    rfl
  constructor
  · intro index fd key pair connected get
    obtain ⟨ssns, run⟩ := sendAllEntries_mirrored connected mirrored
    rw [run]
    exact mem_insertAll (mem_listed (stored get) get)
  · intro conn oldSucc key pair successor get
    obtain ⟨ht, ssns, run, -, values⟩ :=
      sendNewRangeAndEntries_mirrored successor mirrored oldSucc
    have range : ∀ other, checkRange (sendNewRangeAndEntries selfData oldSucc).selfData other =
        checkRange { selfData with
          rangeEnd := middlePoint selfData.rangeStart selfData.rangeEnd } other := by
      intro other
      rw [run]
      rfl
    rw [range]
    split
    · rename_i in_range
      rw [run]
      dsimp only
      rw [values key, if_neg (by rw [in_range]; simp), get]
    · rename_i out
      rw [run]
      refine List.mem_cons_of_mem _ (mem_insertAll (mem_listed ?_ get))
      exact List.mem_filter.mpr ⟨stored get, by simpa using out⟩

/-- A remove that frees the slot of a key from another bucket. -/
theorem Mirrors.out_of_step {ht : Ht} {ssns : Nat → Option Ssn} (mirrors : Mirrors ht ssns keys)
    {i : Nat} {key : Ssn} (found : keys[i]? = some key) (other : hashSsn key ≠ hashSsn ssn)
    (keys' : List Ssn) : ¬ Mirrors (htRemove ht ssn) (closeGap ssns i keys.length) keys' := by
  intro after
  have inside : i < keys.length := (List.getElem?_eq_some_iff.mp found).1
  have length := length_htRemove_eq mirrors.sound ssn
  rw [after.length, mirrors.length] at length
  cases resident : ht.resident ssn with
  | none =>
      -- the table keeps all its keys, and the last slot is empty
      simp only [resident, Option.isSome_none, Bool.false_eq_true, if_false] at length
      have slot := after.slots (keys.length - 1) (by omega)
      rw [closeGap, if_pos (by omega), eq_comm, List.getElem?_eq_none_iff] at slot
      omega
  | some stored =>
      -- the table keeps the key whose slot is gone
      simp only [resident, Option.isSome_some, if_true] at length
      have apart : stored ≠ key := by
        rintro rfl
        exact other (Ht.resident_some resident mirrors.sound).1.1
      have kept : key ∈ keys' := by
        rw [← after.present, get_htRemove mirrors.sound, resident, if_neg (by simpa using apart),
          mirrors.present]
        exact List.mem_of_getElem? found
      obtain ⟨j, hj, at_j⟩ := List.getElem_of_mem kept
      have slot := after.slots j hj
      rw [List.getElem?_eq_getElem hj, at_j, closeGap, if_neg (by omega)] at slot
      split at slot
      · rw [mirrors.slots (j + 1) (by omega)] at slot
        have := (List.getElem?_inj (by omega) mirrors.nodup).mp (slot.trans found.symm)
        omega
      · rw [mirrors.slots j (by omega)] at slot
        have := (List.getElem?_inj (by omega) mirrors.nodup).mp (slot.trans found.symm)
        omega

theorem handleHtRemove_inStep_iff (mirrored : Mirrored selfData keys)
    (in_range : checkRange selfData ssn = true) :
    InStep (handleHtRemove selfData ssn).selfData ↔
      ∀ key, selfData.firstMatch ssn = some key → hashSsn key = hashSsn ssn := by
  obtain ⟨ht, table, mirrors⟩ := id mirrored
  have scan := mirrored.findSsn table ssn
  rw [SelfData.firstMatch, mirrored.keyList, List.find?_eq_bind_findIdx?_getElem?,
    handleHtRemove, if_pos in_range, table]
  cases search : keys.findIdx? fun key => decide (ckey key = ckey ssn) with
  | none =>
      rw [search] at scan
      simp only [scan, Option.bind_none]
      exact iff_of_true ⟨keys, mirrored⟩ fun key found => by cases found
  | some i =>
      rw [search] at scan
      simp only [scan, Option.bind_some]
      obtain ⟨inside, agrees, -⟩ := List.findIdx?_eq_some_iff_getElem.mp search
      rw [decide_eq_true_eq] at agrees
      have at_i : keys[i]? = some keys[i] := List.getElem?_eq_getElem inside
      rw [at_i, show getNumEntries ht = keys.length from mirrors.length]
      constructor
      · rintro ⟨keys', after, table', mirrors'⟩ key found
        cases found
        cases table'
        by_contra other
        exact mirrors.out_of_step at_i other keys' mirrors'
      · intro right
        have same : SameKey keys[i] ssn := ⟨right _ rfl, agrees⟩
        have resident := Ht.resident_of_stored mirrors.sound same
          ((mirrors.present _).mpr (List.getElem_mem inside))
        exact ⟨_, _, rfl, mirrors.remove resident at_i⟩

theorem TableCall.inStep_iff {call : TableCall} (inStep : InStep selfData)
    (admitted : Admitted selfData call) :
    InStep (call.run selfData).selfData ↔ ScansBucket selfData call := by
  obtain ⟨keys, mirrored⟩ := inStep
  have connected := admitted.connected
  have room := admitted.room
  cases call with
  | insert ssn pair =>
      refine ⟨fun _ => trivial, fun _ => ?_⟩
      change InStep (handleHtInsert selfData ssn pair).selfData
      by_cases in_range : checkRange selfData ssn = true
      · obtain ⟨ht, table, mirrors⟩ := id mirrored
        cases resident : ht.resident ssn with
        | some other =>
            obtain ⟨run, after⟩ := handleHtInsert_present mirrored table in_range resident pair
            rw [run]
            exact ⟨keys, after⟩
        | none =>
            have run := handleHtInsert_absent mirrored table in_range resident pair
            split at run
            · rw [run.1]
              exact ⟨_, run.2⟩
            · rename_i full
              -- a full array would have to hold one key more
              have overfull := room (htInsert ht ssn pair) (by
                change (handleHtInsert selfData ssn pair).selfData.hashTable = _
                rw [run])
              rw [getNumEntries, length_htInsert_eq mirrors.sound, resident, mirrors.length]
                at overfull
              simp only [Option.isSome_none, Bool.false_eq_true, if_false] at overfull
              omega
      · rw [handleHtInsert_out pair (by simpa using in_range)]
        exact ⟨keys, mirrored⟩
  | remove ssn =>
      change InStep (handleHtRemove selfData ssn).selfData ↔ _
      by_cases in_range : checkRange selfData ssn = true
      · rw [handleHtRemove_inStep_iff mirrored in_range]
        exact ⟨fun right _ => right, fun right => right in_range⟩
      · rw [handleHtRemove_out (by simpa using in_range)]
        exact ⟨fun _ inside => absurd inside in_range, fun _ => ⟨keys, mirrored⟩⟩
  | lookup ssn sender =>
      change InStep (handleHtLookup selfData ssn sender).selfData ↔ _
      rw [handleHtLookup_selfData]
      exact ⟨fun _ => trivial, fun _ => ⟨keys, mirrored⟩⟩
  | newRange rangeStart rangeEnd =>
      obtain ⟨ht, table, mirrors⟩ := mirrored
      obtain ⟨same_table, same_ssns, -⟩ := updateRange_store selfData rangeStart
        rangeEnd
      refine ⟨fun _ => trivial, fun _ => ⟨keys, ht, same_table.trans table, ?_⟩⟩
      change Mirrors ht (updateRange selfData rangeStart rangeEnd).selfData.ssns keys
      rw [same_ssns]
      exact mirrors
  | split oldSucc =>
      obtain ⟨conn, successor⟩ := Option.ne_none_iff_exists'.mp (connected oldSucc rfl)
      obtain ⟨ht, ssns, run, after, -⟩ :=
        sendNewRangeAndEntries_mirrored successor mirrored oldSucc
      refine ⟨fun _ => trivial, fun _ => ?_⟩
      change InStep (sendNewRangeAndEntries selfData oldSucc).selfData
      rw [run]
      exact ⟨_, after⟩

end

/-- From an empty table on, table and array stay in step and no transfer skips an
entry, exactly when each remove frees the slot of a key in the bucket that it
searches. -/
theorem inStep_throughout_iff {selfData : SelfData} (empty : selfData.hashTable = some htCreate)
    (calls : List TableCall) (admitted : Throughout Admitted selfData calls) :
    Throughout (fun selfData call => InStep (call.run selfData).selfData ∧
        SkipsNothing (call.run selfData).selfData) selfData calls ↔
      Throughout ScansBucket selfData calls := by
  refine throughout_iff (I := InStep) ?_ calls selfData
    ⟨[], htCreate, empty, mirrors_htCreate _⟩ admitted
  intro selfData call inStep allowed
  have step := TableCall.inStep_iff inStep allowed
  refine ⟨⟨fun both => step.mp both.1, fun scans => ?_⟩, step.mpr⟩
  obtain ⟨keys, mirrored⟩ := step.mpr scans
  exact ⟨⟨keys, mirrored⟩, mirrored.skipsNothing⟩

def loneNode : SelfData := q4 (SelfData.setup ⟨1, 5000⟩)

def noText : Text := ⟨[], nil_fits⟩

def zeroKey (high low : UInt8) : Ssn := #v[1, 0, 0, 0, 0, 0, 0, 0, 0, 0, high, low]

theorem admitted_of_small {selfData : SelfData} {call : TableCall} (bound : ℕ) (small : bound ≤ 256)
    (counted : (call.run selfData).selfData.hashTable.all fun ht => decide (ht.length ≤ bound))
    (connected : ∀ oldSucc, call ≠ .split oldSucc) : Admitted selfData call where
  room ht table := by
    rw [table, Option.all_some, decide_eq_true_eq] at counted
    exact Nat.le_trans counted small
  connected oldSucc eq := absurd eq (connected oldSucc)

theorem inStep_throughout_loneNode :
    Throughout (fun selfData call => InStep (call.run selfData).selfData ∧
        SkipsNothing (call.run selfData).selfData) loneNode
      [.insert (zeroKey 0 1) ⟨noText, noText⟩, .remove (zeroKey 0 1)] := by
  have admitted : Throughout Admitted loneNode
      [.insert (zeroKey 0 1) ⟨noText, noText⟩, .remove (zeroKey 0 1)] := by
    refine ⟨?_, ?_, trivial⟩
    · exact admitted_of_small 1 (by decide) (by decide) (by simp)
    · exact admitted_of_small 1 (by decide) (by decide) (by simp)
  refine (inStep_throughout_iff rfl _ admitted).mpr ⟨trivial, ?_, trivial⟩
  · intro _ key found
    have first : SelfData.firstMatch (TableCall.run loneNode
        (.insert (zeroKey 0 1) ⟨noText, noText⟩)).selfData (zeroKey 0 1) = some (zeroKey 0 1) := by
      decide
    rw [first] at found
    cases found
    rfl

/-- Two keys that agree up to the zero byte, in different buckets: removing the second
frees the slot of the first. -/
theorem remove_frees_other_slot : ∃ calls : List TableCall,
    Throughout Admitted loneNode calls ∧
      ¬ Throughout (fun selfData call => InStep (call.run selfData).selfData ∧
        SkipsNothing (call.run selfData).selfData) loneNode calls := by
  refine ⟨[.insert (zeroKey 0 1) ⟨noText, noText⟩, .insert (zeroKey 0 2) ⟨noText, noText⟩,
    .remove (zeroKey 0 2)], ⟨?_, ?_, ?_, trivial⟩, ?_⟩
  · exact admitted_of_small 1 (by decide) (by decide) (by simp)
  · exact admitted_of_small 2 (by decide) (by decide) (by simp)
  · exact admitted_of_small 2 (by decide) (by decide) (by simp)
  · rintro ⟨-, -, ⟨⟨keys, ht, table, mirrors⟩, -⟩, -⟩
    cases table
    have length := mirrors.length
    have slot := mirrors.slots 0 (by rw [← length]; decide)
    have mem : zeroKey 0 2 ∈ keys := List.mem_of_getElem? (slot.symm.trans (by decide))
    have stored := (mirrors.present (zeroKey 0 2)).mpr mem
    revert stored
    decide

/-! ## The table as a finite map -/

/-- What a call should do to the map of the stored entries. -/
def TableCall.onMap (map : Ssn → Option ValuePair) : TableCall → Ssn → Option ValuePair
  | .insert ssn pair => Function.update map ssn (some pair)
  | .remove ssn => Function.update map ssn none
  | _ => map

def TableCall.answer (map : Ssn → Option ValuePair) : TableCall → List Effect
  | .lookup ssn sender =>
      match map ssn with
      | some pair => [.udp sender (.valLookupResponse ssn pair)]
      | none => []
  | _ => []

structure Represents (selfData : SelfData) (map : Ssn → Option ValuePair) : Prop where
  get : ∀ key, selfData.get key = map key
  count : ∃ (ht : Ht) (keys : List Ssn), selfData.hashTable = some ht ∧ keys.Nodup ∧
    (∀ key, key ∈ keys ↔ (map key).isSome) ∧ getNumEntries ht = keys.length

/-- Each call does to the table what it should do to the map. -/
def ActsAsMap : SelfData → (Ssn → Option ValuePair) → List TableCall → Prop
  | _, _, [] => True
  | selfData, map, call :: rest =>
      (call.run selfData).effects = call.answer map ∧ (call.run selfData).ctl = .run ∧
        Represents (call.run selfData).selfData (call.onMap map) ∧
        ActsAsMap (call.run selfData).selfData (call.onMap map) rest

def OnOwnRange (selfData : SelfData) (call : TableCall) : Prop :=
  ∃ ssn, call.key = some ssn ∧ checkRange selfData ssn = true

/-- No other stored key is taken for the key of the call, and a new key has room. -/
def Distinguishes (selfData : SelfData) : TableCall → Prop
  | .insert ssn _ =>
      (∀ other, (selfData.get other).isSome → SameKey other ssn → other = ssn) ∧
        ((selfData.get ssn).isSome ∨ selfData.keyList.length < maxSize)
  | .remove ssn => ∀ key, selfData.firstMatch ssn = some key → key = ssn
  | .lookup ssn _ => ∀ other, (selfData.get other).isSome → SameKey other ssn → other = ssn
  | _ => True

section

variable {selfData : SelfData} {keys : List Ssn} {ssn : Ssn}

theorem get_withStore (ht : Ht) (ssns : Nat → Option Ssn) (key : Ssn) :
    (selfData.withStore ht ssns).get key = ht.get key := rfl

theorem Mirrored.represents (mirrored : Mirrored selfData keys) :
    Represents selfData selfData.get := by
  have stored := mirrored.get_isSome
  obtain ⟨ht, table, mirrors⟩ := mirrored
  exact ⟨fun _ => rfl, ht, keys, table, mirrors.nodup, fun key => (stored key).symm,
    mirrors.length⟩

theorem insert_onMap (mirrored : Mirrored selfData keys) (pair : ValuePair)
    (in_range : checkRange selfData ssn = true)
    (distinguishes : Distinguishes selfData (.insert ssn pair)) :
    ∃ after keys', handleHtInsert selfData ssn pair = ⟨after, [], .run⟩ ∧ Mirrored after keys' ∧
      after.get = Function.update selfData.get ssn (some pair) := by
  obtain ⟨apart, room⟩ := distinguishes
  obtain ⟨ht, table, mirrors⟩ := id mirrored
  have get : ∀ key, selfData.get key = ht.get key := by
    intro key
    simp [SelfData.get, table]
  have written : ∀ ssns, (ht.resident ssn).getD ssn = ssn →
      (selfData.withStore (htInsert ht ssn pair) ssns).get =
        Function.update selfData.get ssn (some pair) := by
    intro ssns self
    funext key
    rw [get_withStore, get_htInsert mirrors.sound, self, ← get, Function.update_apply]
  cases resident : ht.resident ssn with
  | some other =>
      obtain ⟨same, stored⟩ := Ht.resident_some resident mirrors.sound
      rw [← get] at stored
      obtain rfl := apart other stored same
      obtain ⟨run, after⟩ := handleHtInsert_present mirrored table in_range resident pair
      exact ⟨_, keys, run, after, written _ (by rw [resident]; rfl)⟩
  | none =>
      have absent : ht.get ssn = none := by
        by_contra stored
        rw [Ht.resident_self mirrors.sound (Option.isSome_iff_ne_none.mpr stored)] at resident
        cases resident
      have space : keys.length < maxSize := by
        rw [mirrored.keyList, get, absent] at room
        simpa using room
      have run := handleHtInsert_absent mirrored table in_range resident pair
      rw [if_pos space] at run
      exact ⟨_, _, run.1, run.2, written _ (by rw [resident]; rfl)⟩

theorem remove_onMap (mirrored : Mirrored selfData keys)
    (in_range : checkRange selfData ssn = true)
    (distinguishes : Distinguishes selfData (.remove ssn)) :
    ∃ after keys', handleHtRemove selfData ssn = ⟨after, [], .run⟩ ∧ Mirrored after keys' ∧
      after.get = Function.update selfData.get ssn none := by
  obtain ⟨ht, table, mirrors⟩ := id mirrored
  have scan := mirrored.findSsn table ssn
  have first : ∀ key, selfData.firstMatch ssn = some key → key = ssn := distinguishes
  rw [SelfData.firstMatch, mirrored.keyList, List.find?_eq_bind_findIdx?_getElem?] at first
  cases search : keys.findIdx? fun key => decide (ckey key = ckey ssn) with
  | none =>
      refine ⟨selfData, keys, ?_, mirrored, ?_⟩
      · rw [handleHtRemove, if_pos in_range, table]
        simp only [scan, search]
      · have absent : ssn ∉ keys := by
          intro mem
          simpa using List.findIdx?_eq_none_iff.mp search ssn mem
        rw [← mirrored.get_isSome, Bool.not_eq_true, Option.isSome_eq_false_iff,
          Option.isNone_iff_eq_none] at absent
        rw [← absent, Function.update_eq_self]
  | some i =>
      obtain ⟨inside, agrees, -⟩ := List.findIdx?_eq_some_iff_getElem.mp search
      have at_i : keys[i]? = some keys[i] := List.getElem?_eq_getElem inside
      rw [search, Option.bind_some, at_i] at first
      have self : keys[i] = ssn := first _ rfl
      rw [self] at at_i
      have resident := mirrors.resident_of_mem (List.mem_of_getElem? at_i)
      refine ⟨selfData.withStore (htRemove ht ssn) (closeGap selfData.ssns i keys.length), _, ?_,
        ⟨_, rfl, mirrors.remove resident at_i⟩, ?_⟩
      · rw [handleHtRemove, if_pos in_range, table]
        simp only [scan, search]
        rw [show getNumEntries ht = keys.length from mirrors.length]
        rfl
      · funext key
        rw [get_withStore, get_htRemove mirrors.sound, resident, Function.update_apply]
        simp [SelfData.get, table, eq_comm]

theorem lookup_onMap (mirrored : Mirrored selfData keys) (sender : Addr)
    (in_range : checkRange selfData ssn = true)
    (distinguishes : Distinguishes selfData (.lookup ssn sender)) :
    handleHtLookup selfData ssn sender =
      ⟨selfData, TableCall.answer selfData.get (.lookup ssn sender), .run⟩ := by
  obtain ⟨ht, table, mirrors⟩ := mirrored
  have get : ∀ key, selfData.get key = ht.get key := by
    intro key
    simp [SelfData.get, table]
  have found : htLookup ht ssn = selfData.get ssn := by
    rw [htLookup_eq_get mirrors.sound, get]
    cases resident : ht.resident ssn with
    | some other =>
        obtain ⟨same, stored⟩ := Ht.resident_some resident mirrors.sound
        rw [← get] at stored
        rw [distinguishes other stored same, Option.bind_some]
    | none =>
        rw [Option.bind_none, eq_comm]
        by_contra stored
        rw [Ht.resident_self mirrors.sound (Option.isSome_iff_ne_none.mpr stored)] at resident
        cases resident
  rw [handleHtLookup, if_pos in_range, table]
  simp only [found, TableCall.answer]
  cases selfData.get ssn <;> rfl

end

/-- From an empty table on, requests in range work on it as on a finite map, when no
stored key is taken for another. -/
theorem actsAsMap_of_distinguishes {selfData : SelfData}
    (empty : selfData.hashTable = some htCreate) (calls : List TableCall)
    (in_range : Throughout OnOwnRange selfData calls)
    (distinguishes : Throughout Distinguishes selfData calls) :
    ActsAsMap selfData (fun _ => none) calls := by
  have start : Mirrored selfData [] := ⟨htCreate, empty, mirrors_htCreate _⟩
  have nothing : selfData.get = fun _ => none := by
    funext key
    simp [SelfData.get, empty, Ht.get, htCreate]
  rw [← nothing]
  generalize ([] : List Ssn) = keys at start
  clear empty nothing
  induction calls generalizing selfData keys with
  | nil => trivial
  | cons call rest ih =>
      obtain ⟨⟨ssn, key, inside⟩, in_range_rest⟩ := in_range
      obtain ⟨here, later⟩ := distinguishes
      cases call with
      | insert ssn pair =>
          cases key
          obtain ⟨after, keys', run, mirrored, get⟩ := insert_onMap start pair inside here
          simp only [ActsAsMap, TableCall.run, run] at in_range_rest later ⊢
          rw [show TableCall.onMap selfData.get (.insert ssn pair) = after.get from get.symm]
          exact ⟨rfl, trivial, mirrored.represents, ih in_range_rest later _ mirrored⟩
      | remove ssn =>
          cases key
          obtain ⟨after, keys', run, mirrored, get⟩ := remove_onMap start inside here
          simp only [ActsAsMap, TableCall.run, run] at in_range_rest later ⊢
          rw [show TableCall.onMap selfData.get (.remove ssn) = after.get from get.symm]
          exact ⟨rfl, trivial, mirrored.represents, ih in_range_rest later _ mirrored⟩
      | lookup ssn sender =>
          cases key
          have run := lookup_onMap start sender inside here
          simp only [ActsAsMap, TableCall.run, run] at in_range_rest later ⊢
          exact ⟨trivial, trivial, start.represents, ih in_range_rest later _ start⟩
      | _ => cases key

/-- A key of its own, without zero bytes, for each number below 257. -/
def numberedKey (i : ℕ) : Ssn :=
  #v[1, 1, 1, 1, 1, 1, 1, 1, 1, 1, UInt8.ofNat (i / 128 + 1), UInt8.ofNat (i % 128 + 1)]

theorem nonzero_numberedKey {i : ℕ} (small : i < 257) : Nonzero (numberedKey i) := by
  have high : UInt8.ofNat (i / 128 + 1) ≠ 0 := by
    rw [ne_eq, ← UInt8.toNat_inj, UInt8.toNat_ofNat', UInt8.toNat_zero]
    omega
  have low : UInt8.ofNat (i % 128 + 1) ≠ 0 := by
    rw [ne_eq, ← UInt8.toNat_inj, UInt8.toNat_ofNat', UInt8.toNat_zero]
    omega
  intro byte mem
  simp only [numberedKey, Vector.toList_mk, List.mem_cons, List.not_mem_nil, or_false] at mem
  rcases mem with rfl | rfl | rfl | rfl | rfl | rfl | rfl | rfl | rfl | rfl | rfl | rfl
  any_goals decide
  · exact high
  · exact low

theorem initial_fits (byte : UInt8) : [byte].length ≤ 255 := Nat.succ_le_succ (Nat.zero_le 254)

def initial (byte : UInt8) : Text := ⟨[byte], initial_fits byte⟩

/-- Two keys, of which one is inserted again and the other is removed. -/
theorem actsAsMap_loneNode : ActsAsMap loneNode (fun _ => none)
    [.insert (numberedKey 0) ⟨initial 65, noText⟩, .insert (numberedKey 1) ⟨initial 66, noText⟩,
      .insert (numberedKey 0) ⟨initial 67, noText⟩, .remove (numberedKey 1),
      .lookup (numberedKey 0) ⟨9, 9000⟩, .lookup (numberedKey 1) ⟨9, 9000⟩] := by
  have first : ∀ other, SameKey other (numberedKey 0) → other = numberedKey 0 := fun other =>
    (sameKey_of_nonzero (nonzero_numberedKey (by decide))).mp
  have second : ∀ other, SameKey other (numberedKey 1) → other = numberedKey 1 := fun other =>
    (sameKey_of_nonzero (nonzero_numberedKey (by decide))).mp
  refine actsAsMap_of_distinguishes rfl _
    ⟨⟨_, rfl, by decide⟩, ⟨_, rfl, by decide⟩, ⟨_, rfl, by decide⟩, ⟨_, rfl, by decide⟩,
      ⟨_, rfl, by decide⟩, ⟨_, rfl, by decide⟩, trivial⟩
    ⟨⟨fun other _ => first other, Or.inr (by decide)⟩,
      ⟨fun other _ => second other, Or.inr (by decide)⟩,
      ⟨fun other _ => first other, Or.inr (by decide)⟩, ?_,
      fun other _ => first other, fun other _ => second other, trivial⟩
  intro key found
  have slot : some key = some (numberedKey 1) := by
    rw [← found]
    decide
  exact Option.some.inj slot

/-- Two keys that agree up to the zero byte, in one bucket: a lookup of the second
reveals the value of the first. -/
theorem lookup_reveals_other_key : ∃ calls : List TableCall,
    Throughout OnOwnRange loneNode calls ∧ ¬ ActsAsMap loneNode (fun _ => none) calls := by
  refine ⟨[.insert (zeroKey 0 33) ⟨noText, noText⟩, .lookup (zeroKey 1 0) ⟨9, 9000⟩],
    ⟨⟨_, rfl, by decide⟩, ⟨_, rfl, by decide⟩, trivial⟩, ?_⟩
  rintro ⟨-, -, -, effects, -⟩
  revert effects
  decide

/-! ## The end of the key array -/

/-- The slot of `ssns` that `handle_ht_insert` writes. -/
def TableCall.writes (selfData : SelfData) : TableCall → Option Nat
  | .insert ssn pair =>
      if checkRange selfData ssn then
        match selfData.hashTable with
        | none => none
        | some ht =>
            if getNumEntries ht = getNumEntries (htInsert ht ssn pair) then none
            else some (getNumEntries ht)
      else none
  | _ => none

/-- The array has the slot that is written, and a slot for each entry of the table. -/
structure StaysInside (selfData : SelfData) (call : TableCall) : Prop where
  slot : ∀ i, call.writes selfData = some i → i < maxSize
  table : ∀ ht, (call.run selfData).selfData.hashTable = some ht → getNumEntries ht ≤ maxSize

def HasRoom (selfData : SelfData) : TableCall → Prop
  | .insert ssn _ => checkRange selfData ssn = true → ∀ ht, selfData.hashTable = some ht →
      ht.resident ssn = none → getNumEntries ht < maxSize
  | _ => True

def TableWithin (bound : ℕ) (selfData : SelfData) : Prop :=
  ∀ ht, selfData.hashTable = some ht → ht.Sound ∧ ht.length ≤ bound

section

variable {bound : ℕ} {selfData : SelfData} {ssn : Ssn}

theorem htRemove_within {ht : Ht} (sound : ht.Sound) (within : ht.length ≤ bound) (ssn : Ssn) :
    (htRemove ht ssn).Sound ∧ (htRemove ht ssn).length ≤ bound := by
  refine ⟨sound.htRemove ssn, ?_⟩
  rw [length_htRemove_eq sound]
  split <;> omega

theorem sendEntriesOutside_within (rest : ℕ) :
    ∀ (i : ℕ) (selfData : SelfData), TableWithin bound selfData →
      TableWithin bound (sendEntriesOutside rest i selfData).selfData := by
  induction rest with
  | zero => exact fun _ _ within => within
  | succ rest ih =>
      intro i selfData within
      simp only [sendEntriesOutside]
      split
      · rename_i ssn ht slot table
        split
        · exact ih (i + 1) selfData within
        · split
          · exact within
          · apply ih
            intro ht' table'
            cases table'
            obtain ⟨sound, few⟩ := within ht table
            exact htRemove_within sound few ssn
      · exact within

theorem TableWithin.of_same {other : SelfData} (within : TableWithin bound selfData)
    (same : other.hashTable = selfData.hashTable) : TableWithin bound other := by
  intro ht table
  exact within ht (same ▸ table)

theorem TableWithin.andThen {first : Outcome} {rest : SelfData → Outcome}
    (within : TableWithin bound first.selfData)
    (later : ∀ selfData, TableWithin bound selfData → TableWithin bound (rest selfData).selfData) :
    TableWithin bound (first.andThen rest).selfData := by
  unfold Outcome.andThen
  split
  · exact later _ within
  · exact within

theorem TableCall.within {call : TableCall} (within : TableWithin bound selfData)
    (no_insert : ∀ ssn pair, call ≠ .insert ssn pair) :
    TableWithin bound (call.run selfData).selfData := by
  cases call with
  | insert ssn pair => exact absurd rfl (no_insert ssn pair)
  | remove ssn =>
      simp only [TableCall.run, handleHtRemove]
      split
      · split
        · exact within
        · rename_i ht table
          split
          · exact within
          · exact within
          · intro ht' table'
            cases table'
            obtain ⟨sound, few⟩ := within ht table
            exact htRemove_within sound few ssn
      · rw [sendOrExit]
        split <;> exact within
  | lookup ssn sender =>
      rw [TableCall.run, handleHtLookup_selfData]
      exact within
  | newRange rangeStart rangeEnd => exact within.of_same (updateRange_store selfData rangeStart rangeEnd).1
  | split oldSucc =>
      refine TableWithin.andThen ?_ ?_
      · rw [sendOrExit_selfData]
        exact within
      · intro selfData within
        split
        · exact within
        · exact sendEntriesOutside_within _ _ _ within

theorem insert_staysInside_iff (within : TableWithin maxSize selfData) (pair : ValuePair) :
    (StaysInside selfData (.insert ssn pair) ↔ HasRoom selfData (.insert ssn pair)) ∧
      (HasRoom selfData (.insert ssn pair) →
        TableWithin maxSize (handleHtInsert selfData ssn pair).selfData) := by
  by_cases in_range : checkRange selfData ssn = true
  · cases table : selfData.hashTable with
    | none =>
        have run : handleHtInsert selfData ssn pair = ⟨selfData, [], .fault⟩ := by
          rw [handleHtInsert, if_pos in_range, table]
        refine ⟨iff_of_true ⟨?_, ?_⟩ ?_, fun _ => ?_⟩
        · intro i slot
          simp [TableCall.writes, table] at slot
        · intro ht found
          rw [TableCall.run, run, table] at found
          cases found
        · intro _ ht found
          rw [table] at found
          cases found
        · rw [run]
          exact within
    | some ht =>
        obtain ⟨sound, few⟩ := within ht table
        have length := length_htInsert_eq sound ssn pair
        have after : (handleHtInsert selfData ssn pair).selfData.hashTable =
            some (htInsert ht ssn pair) := by
          rw [handleHtInsert, if_pos in_range, table]
          dsimp only
          split
          · rfl
          · split <;> rfl
        cases resident : ht.resident ssn with
        | some other =>
            -- the value of a stored key is replaced
            simp only [resident, Option.isSome_some, if_true] at length
            refine ⟨iff_of_true ⟨?_, ?_⟩ ?_, fun _ => ?_⟩
            · intro i slot
              simp [TableCall.writes, table, in_range, getNumEntries, length] at slot
            · intro ht' found
              cases after.symm.trans found
              rw [getNumEntries, length]
              exact few
            · intro _ ht' found none
              cases table.symm.trans found
              rw [resident] at none
              cases none
            · intro ht' found
              cases after.symm.trans found
              exact ⟨sound.htInsert ssn pair, by rw [length]; exact few⟩
        | none =>
            -- the table gains an entry, and the slot behind the others is written
            simp only [resident, Option.isSome_none, Bool.false_eq_true, if_false] at length
            have writes : TableCall.writes selfData (.insert ssn pair) = some ht.length := by
              simp [TableCall.writes, in_range, table, getNumEntries, length]
            refine ⟨⟨fun inside _ ht' found _ => ?_, fun room => ⟨?_, ?_⟩⟩, fun room => ?_⟩
            · cases table.symm.trans found
              exact inside.slot _ writes
            · intro i slot
              cases writes.symm.trans slot
              exact room in_range ht table resident
            · intro ht' found
              cases after.symm.trans found
              rw [getNumEntries, length]
              exact room in_range ht table resident
            · intro ht' found
              cases after.symm.trans found
              refine ⟨sound.htInsert ssn pair, ?_⟩
              rw [length]
              exact room in_range ht table resident
  · have out : checkRange selfData ssn = false := by simpa using in_range
    have run := handleHtInsert_out pair out
    refine ⟨iff_of_true ⟨?_, ?_⟩ fun inside => absurd inside in_range, fun _ => ?_⟩
    · intro i slot
      simp [TableCall.writes, out] at slot
    · intro ht found
      rw [TableCall.run, run] at found
      exact (within ht found).2
    · rw [run]
      exact within

end

/-- In every sequence of calls that begins with an empty table, `handle_ht_insert` stays
inside the array exactly when each new key finds a free slot. -/
theorem staysInside_throughout_iff {selfData : SelfData}
    (empty : selfData.hashTable = some htCreate)
    (calls : List TableCall) :
    Throughout StaysInside selfData calls ↔ Throughout HasRoom selfData calls := by
  have start : TableWithin maxSize selfData := by
    intro ht table
    cases empty.symm.trans table
    exact ⟨sound_htCreate, Nat.zero_le _⟩
  have all : Throughout (fun _ _ => True) selfData calls := by
    generalize selfData = first
    induction calls generalizing first with
    | nil => trivial
    | cons call rest ih => exact ⟨trivial, ih _⟩
  refine throughout_iff (I := TableWithin maxSize) ?_ calls selfData start all
  intro selfData call within _
  by_cases inserts : ∃ ssn pair, call = .insert ssn pair
  · obtain ⟨ssn, pair, rfl⟩ := inserts
    exact insert_staysInside_iff within pair
  · have other : ∀ ssn pair, call ≠ .insert ssn pair := fun ssn pair eq => inserts ⟨ssn, pair, eq⟩
    have after := TableCall.within within other
    have idle : call.writes selfData = none ∧ HasRoom selfData call := by
      cases call with
      | insert ssn pair => exact absurd rfl (other ssn pair)
      | _ => exact ⟨rfl, trivial⟩
    refine ⟨iff_of_true ⟨?_, fun ht table => (after ht table).2⟩ idle.2, fun _ => after⟩
    intro i slot
    rw [idle.1] at slot
    cases slot

theorem staysInside_loneNode : Throughout StaysInside loneNode
    [.insert (numberedKey 0) ⟨noText, noText⟩, .insert (numberedKey 0) ⟨initial 65, noText⟩,
      .insert (numberedKey 1) ⟨noText, noText⟩, .remove (numberedKey 0),
      .insert (numberedKey 2) ⟨noText, noText⟩] := by
  refine (staysInside_throughout_iff rfl _).mpr ⟨?_, ?_, ?_, ?_, ?_, trivial⟩
  · rintro _ ht ⟨⟩ _
    decide
  · rintro _ ht ⟨⟩ _
    decide
  · rintro _ ht ⟨⟩ _
    decide
  · trivial
  · rintro _ ht ⟨⟩ _
    decide

theorem numberedKey_inj {i j : ℕ} (hi : i < 257) (hj : j < 257)
    (same : numberedKey i = numberedKey j) : i = j := by
  simp only [numberedKey, Vector.mk.injEq, Array.mk.injEq, List.cons.injEq, true_and, and_true]
    at same
  obtain ⟨high, low⟩ := same
  rw [← UInt8.toNat_inj, UInt8.toNat_ofNat', UInt8.toNat_ofNat'] at high low
  omega

def filled : ℕ → SelfData
  | 0 => loneNode
  | n + 1 => (handleHtInsert (filled n) (numberedKey n) ⟨noText, noText⟩).selfData

theorem stores_filled : ∀ n, n ≤ maxSize →
    Stores (filled n) ((List.range n).map numberedKey) ∧
      ∀ ssn, checkRange (filled n) ssn = checkRange loneNode ssn := by
  intro n
  induction n with
  | zero =>
      intro _
      exact ⟨⟨htCreate, rfl, holds_htCreate _⟩, fun _ => rfl⟩
  | succ n ih =>
      intro small
      obtain ⟨stores, range⟩ := ih (by omega)
      have below : n < 256 := small
      have in_range : checkRange (filled n) (numberedKey n) = true := by
        rw [range, checkRange_eq_true]
        exact ⟨Nat.zero_le _, Nat.le_of_lt_succ (hashSsn _).toNat_lt⟩
      have fresh : numberedKey n ∉ (List.range n).map numberedKey := by
        intro mem
        obtain ⟨j, listed, same⟩ := List.mem_map.mp mem
        have less := List.mem_range.mp listed
        have := numberedKey_inj (by omega) (by omega) same
        omega
      obtain ⟨ht, ssns, run, after, -⟩ := handleHtInsert_spec stores
        (nonzero_numberedKey (by omega)) ⟨noText, noText⟩ in_range
        (Or.inr (by simpa [maxSize] using below))
      rw [if_neg fresh] at after
      have eq : filled (n + 1) = (filled n).withStore ht ssns := by rw [filled, run]
      rw [eq, List.range_succ, List.map_append, List.map_singleton]
      exact ⟨after, fun ssn => range ssn⟩

theorem throughout_filled {P : SelfData → TableCall → Prop} (m n : ℕ)
    (all : Throughout P (filled m) ((List.range' m n).map fun i =>
      .insert (numberedKey i) ⟨noText, noText⟩)) {i : ℕ} (from_m : m ≤ i) (below : i < m + n) :
    P (filled i) (.insert (numberedKey i) ⟨noText, noText⟩) := by
  induction n generalizing m with
  | zero => omega
  | succ n ih =>
      rw [List.range'_succ, List.map_cons] at all
      by_cases first : i = m
      · rw [first]
        exact all.1
      · exact ih (m + 1) all.2 (by omega) (by omega)

/-- The insert of a key number 257 writes behind the array. -/
theorem insert_past_array : ∃ calls : List TableCall, ¬ Throughout StaysInside loneNode calls := by
  refine ⟨(List.range' 0 257).map fun i => .insert (numberedKey i) ⟨noText, noText⟩, ?_⟩
  intro all
  have last := (throughout_filled 0 257 all (i := 256) (by omega) (by omega)).slot
  obtain ⟨⟨ht, table, holds⟩, range⟩ := stores_filled 256 le_rfl
  have length : ht.length = 256 := by
    rw [holds.length, List.length_map, List.length_range]
  have in_range : checkRange (filled 256) (numberedKey 256) = true := by
    rw [range, checkRange_eq_true]
    exact ⟨Nat.zero_le _, Nat.le_of_lt_succ (hashSsn _).toNat_lt⟩
  have absent : ht.resident (numberedKey 256) = none := by
    cases resident : ht.resident (numberedKey 256) with
    | none => rfl
    | some other =>
        obtain ⟨same, stored⟩ := Ht.resident_some resident holds.sound
        rw [(sameKey_of_nonzero (nonzero_numberedKey (by omega))).mp same, holds.mirrors.present]
          at stored
        obtain ⟨j, listed, eq⟩ := List.mem_map.mp stored
        have less := List.mem_range.mp listed
        have := numberedKey_inj (by omega) (by omega) eq
        omega
  have grown := length_htInsert_eq holds.sound (numberedKey 256) ⟨noText, noText⟩
  simp only [absent, Option.isSome_none, Bool.false_eq_true, if_false] at grown
  have writes : TableCall.writes (filled 256) (.insert (numberedKey 256) ⟨noText, noText⟩) =
      some 256 := by
    simp [TableCall.writes, in_range, table, getNumEntries, grown, length]
  exact absurd (last 256 writes) (by decide)

end DhtRing

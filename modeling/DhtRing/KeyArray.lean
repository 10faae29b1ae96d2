import Mathlib.Data.List.Basic
import Mathlib.Data.List.Nodup
import DhtRing.Node

/-!
# The table and the key array in step

`Ht.get` is what the table stores under exactly a key, `Ht.resident` the stored key
that the table takes for a key when it searches for it.  `Mirrors ht ssns keys` says
that the table and the array `ssns` both hold just the keys of the list `keys`.
-/

set_option autoImplicit false

namespace DhtRing

/-! ## What a table holds -/

def Ht.get (ht : Ht) (key : Ssn) : Option ValuePair :=
  ((ht.entries (hashSsn key)).find? fun entry => entry.key = key).map HtNode.value

/-- The stored key that the table takes for `key`. -/
def Ht.resident (ht : Ht) (key : Ssn) : Option Ssn :=
  ((ht.entries (hashSsn key)).find? fun entry => ckey entry.key = ckey key).map HtNode.key

section

variable {key other : Ssn} {value : ValuePair}

theorem find_chainInsert (key other : Ssn) (value : ValuePair) (chain : List HtNode) :
    (((chainInsert key value chain).1.find? fun entry => entry.key = other).map HtNode.value) =
      if other = ((chain.find? fun entry => ckey entry.key = ckey key).map HtNode.key).getD key
      then some value
      else (chain.find? fun entry => entry.key = other).map HtNode.value := by
  induction chain with
  | nil =>
      by_cases same : other = key
      · simp [chainInsert, same]
      · simp [chainInsert, same, Ne.symm same]
  | cons entry next ih =>
      simp only [chainInsert, strncmp_ssn]
      by_cases taken : ckey entry.key = ckey key
      · by_cases here : entry.key = other
        · subst here
          simp [taken]
        · simp [taken, here, Ne.symm here]
      · by_cases here : entry.key = other
        · -- the entry that the walk passes is not the one it writes
          subst here
          have apart : entry.key ≠ ((next.find? fun entry => ckey entry.key = ckey key).map
              HtNode.key).getD key := by
            intro eq
            cases found : next.find? fun entry => ckey entry.key = ckey key with
            | none =>
                rw [found] at eq
                exact taken (by rw [eq]; rfl)
            | some resident =>
                rw [found] at eq
                have agrees := List.find?_some found
                rw [decide_eq_true_eq] at agrees
                exact taken (by rw [eq]; exact agrees)
          simp [taken, apart]
        · simp [taken, here, ih]

theorem find_chainRemove {chain chain' : List HtNode}
    (distinct : (chain.map fun entry => ckey entry.key).Nodup)
    (removed : chainRemove key chain = some chain') (other : Ssn) :
    ((chain'.find? fun entry => entry.key = other).map HtNode.value) =
      if (chain.find? fun entry => ckey entry.key = ckey key).map HtNode.key = some other then none
      else (chain.find? fun entry => entry.key = other).map HtNode.value := by
  induction chain generalizing chain' with
  | nil => simp [chainRemove] at removed
  | cons entry next ih =>
      simp only [List.map_cons, List.nodup_cons, List.mem_map, not_exists, not_and] at distinct
      obtain ⟨head, tail⟩ := distinct
      simp only [chainRemove, strncmp_ssn] at removed
      by_cases taken : ckey entry.key = ckey key
      · rw [if_pos taken] at removed
        cases removed
        by_cases here : entry.key = other
        · subst here
          have absent : next.find? (fun rest => rest.key = entry.key) = none := by
            rw [List.find?_eq_none]
            intro rest mem same
            rw [decide_eq_true_eq] at same
            exact head rest mem (by rw [same])
          simp [taken, absent]
        · simp [taken, here]
      · rw [if_neg taken] at removed
        obtain ⟨rest, hrest, rfl⟩ := Option.map_eq_some_iff.mp removed
        by_cases here : entry.key = other
        · subst here
          have apart : (next.find? fun entry => ckey entry.key = ckey key).map HtNode.key ≠
              some entry.key := by
            intro eq
            obtain ⟨resident, found, same⟩ := Option.map_eq_some_iff.mp eq
            have agrees := List.find?_some found
            rw [decide_eq_true_eq, same] at agrees
            exact taken agrees
          simpa [taken] using apart
        · simp [taken, here, ih tail hrest]

end

section

variable {ht : Ht} {key other : Ssn}

theorem Ht.resident_some (found : ht.resident key = some other) (sound : ht.Sound) :
    SameKey other key ∧ (ht.get other).isSome := by
  obtain ⟨entry, search, rfl⟩ := Option.map_eq_some_iff.mp found
  have agrees := List.find?_some search
  rw [decide_eq_true_eq] at agrees
  have mem := List.mem_of_find?_eq_some search
  have bucket := sound.bucket _ entry mem
  refine ⟨⟨bucket, agrees⟩, ?_⟩
  simp only [Ht.get, bucket, Option.isSome_map, List.find?_isSome, decide_eq_true_eq]
  exact ⟨entry, mem, rfl⟩

theorem Ht.mem_of_get {pair : ValuePair} (stored : ht.get key = some pair) :
    ∃ entry ∈ ht.entries (hashSsn key), entry.key = key ∧ entry.value = pair := by
  obtain ⟨entry, search, rfl⟩ := Option.map_eq_some_iff.mp stored
  have same := List.find?_some search
  rw [decide_eq_true_eq] at same
  exact ⟨entry, List.mem_of_find?_eq_some search, same, rfl⟩

theorem Ht.resident_of_stored (sound : ht.Sound) (same : SameKey other key)
    (stored : (ht.get other).isSome) : ht.resident key = some other := by
  obtain ⟨pair, get⟩ := Option.isSome_iff_exists.mp stored
  obtain ⟨entry, mem, eq, -⟩ := Ht.mem_of_get get
  rw [same.1] at mem
  cases search : (ht.entries (hashSsn key)).find? fun entry => ckey entry.key = ckey key with
  | none =>
      have nowhere := List.find?_eq_none.mp search entry mem
      rw [decide_eq_true_eq, eq] at nowhere
      exact absurd same.2 nowhere
  | some found =>
      have agrees := List.find?_some search
      rw [decide_eq_true_eq] at agrees
      have mem_found := List.mem_of_find?_eq_some search
      have alike : found = entry :=
        List.inj_on_of_nodup_map (sound.distinct _) mem_found mem
          (by rw [agrees, eq]; exact same.2.symm)
      rw [Ht.resident, search, alike, Option.map_some, eq]

theorem Ht.resident_self (sound : ht.Sound) (stored : (ht.get key).isSome) :
    ht.resident key = some key :=
  Ht.resident_of_stored sound ⟨rfl, rfl⟩ stored

theorem htLookup_eq_get (sound : ht.Sound) (key : Ssn) :
    htLookup ht key = (ht.resident key).bind ht.get := by
  rw [htLookup_eq]
  cases resident : ht.resident key with
  | none =>
      rw [Ht.resident, Option.map_eq_none_iff, List.find?_eq_none] at resident
      rw [Option.bind_none, chainLookup_eq_none]
      intro entry mem
      have apart := resident entry mem
      rwa [decide_eq_true_eq] at apart
  | some other =>
      obtain ⟨same, stored⟩ := Ht.resident_some resident sound
      obtain ⟨pair, get⟩ := Option.isSome_iff_exists.mp stored
      obtain ⟨entry, mem, eq, value⟩ := Ht.mem_of_get get
      rw [same.1] at mem
      rw [Option.bind_some, get]
      have distinct := sound.distinct (hashSsn key)
      revert mem distinct
      generalize ht.entries (hashSsn key) = chain
      intro mem distinct
      induction chain with
      | nil => cases mem
      | cons first next ih =>
          simp only [List.map_cons, List.nodup_cons, List.mem_map, not_exists, not_and] at distinct
          simp only [chainLookup, strncmp_ssn]
          rcases List.mem_cons.mp mem with rfl | later
          · rw [eq, if_pos same.2, value]
          · have apart : ckey first.key ≠ ckey key := by
              intro agrees
              exact distinct.1 entry later (by rw [eq, same.2, agrees])
            rw [if_neg apart]
            exact ih later distinct.2

theorem get_htInsert (sound : ht.Sound) (key other : Ssn) (pair : ValuePair) :
    (htInsert ht key pair).get other =
      if other = (ht.resident key).getD key then some pair else ht.get other := by
  rw [Ht.get, htInsert_entries]
  by_cases bucket : hashSsn other = hashSsn key
  · rw [bucket, Function.update_self, find_chainInsert]
    simp only [Ht.resident, Ht.get, bucket]
  · have apart : other ≠ (ht.resident key).getD key := by
      rintro rfl
      cases resident : ht.resident key with
      | none => exact bucket (by rw [resident]; rfl)
      | some stored =>
          rw [resident] at bucket
          exact bucket (Ht.resident_some resident sound).1.1
    rw [Function.update_of_ne bucket, if_neg apart]
    rfl

theorem get_htRemove (sound : ht.Sound) (key other : Ssn) :
    (htRemove ht key).get other =
      if ht.resident key = some other then none else ht.get other := by
  rcases htRemove_cases ht key with ⟨absent, unchanged⟩ | ⟨chain, removed, -, entries, -⟩
  · rw [unchanged, if_neg]
    intro resident
    have stored := (Ht.resident_some resident sound).2
    rw [htLookup_eq_get sound, resident, Option.bind_some] at absent
    rw [absent] at stored
    cases stored
  · rw [Ht.get, entries]
    by_cases bucket : hashSsn other = hashSsn key
    · rw [bucket, Function.update_self, find_chainRemove (sound.distinct _) removed]
      simp only [Ht.resident, Ht.get, bucket]
    · have apart : ht.resident key ≠ some other := fun resident =>
        bucket (Ht.resident_some resident sound).1.1
      rw [Function.update_of_ne bucket, if_neg apart]
      rfl

theorem length_htInsert_eq (sound : ht.Sound) (key : Ssn) (pair : ValuePair) :
    (htInsert ht key pair).length =
      if (ht.resident key).isSome then ht.length else ht.length + 1 := by
  rw [length_htInsert, htLookup_eq_get sound]
  cases resident : ht.resident key with
  | none => simp
  | some stored =>
      obtain ⟨pair', get⟩ := Option.isSome_iff_exists.mp (Ht.resident_some resident sound).2
      simp [get]

theorem length_htRemove_eq (sound : ht.Sound) (key : Ssn) :
    (htRemove ht key).length =
      if (ht.resident key).isSome then ht.length - 1 else ht.length := by
  rw [length_htRemove, htLookup_eq_get sound]
  cases resident : ht.resident key with
  | none => simp
  | some stored =>
      obtain ⟨pair', get⟩ := Option.isSome_iff_exists.mp (Ht.resident_some resident sound).2
      simp [get]

end

/-! ## The table and the array -/

structure Mirrors (ht : Ht) (ssns : Nat → Option Ssn) (keys : List Ssn) : Prop where
  sound : ht.Sound
  nodup : keys.Nodup
  slots : ∀ i, i < keys.length → ssns i = keys[i]?
  length : ht.length = keys.length
  present : ∀ key, (ht.get key).isSome ↔ key ∈ keys

theorem mirrors_htCreate (ssns : Nat → Option Ssn) : Mirrors htCreate ssns [] where
  sound := sound_htCreate
  nodup := List.nodup_nil
  slots := by simp
  length := rfl
  present := by simp [Ht.get, htCreate]

section

variable {ht : Ht} {ssns : Nat → Option Ssn} {keys : List Ssn} {key other : Ssn}

theorem Mirrors.insert_present (mirrors : Mirrors ht ssns keys)
    (resident : ht.resident key = some other) (pair : ValuePair) :
    Mirrors (htInsert ht key pair) ssns keys where
  sound := mirrors.sound.htInsert key pair
  nodup := mirrors.nodup
  slots := mirrors.slots
  length := by
    rw [length_htInsert_eq mirrors.sound, resident]
    exact mirrors.length
  present := by
    intro third
    rw [get_htInsert mirrors.sound, resident, Option.getD_some]
    by_cases same : third = other
    · have stored := (Ht.resident_some resident mirrors.sound).2
      rw [mirrors.present] at stored
      simp [same, stored]
    · rw [if_neg same]
      exact mirrors.present third

theorem Mirrors.insert_absent (mirrors : Mirrors ht ssns keys) (absent : ht.resident key = none)
    (pair : ValuePair) :
    Mirrors (htInsert ht key pair) (Function.update ssns keys.length (some key)) (keys ++ [key]) where
  sound := mirrors.sound.htInsert key pair
  nodup := by
    have fresh : key ∉ keys := by
      intro mem
      rw [Ht.resident_self mirrors.sound ((mirrors.present key).mpr mem)] at absent
      cases absent
    exact List.Nodup.append mirrors.nodup (List.nodup_singleton key)
      (by simpa [List.disjoint_singleton] using fresh)
  slots := by
    intro i hi
    rw [List.length_append, List.length_singleton] at hi
    by_cases last : i = keys.length
    · subst last
      simp
    · have inside : i < keys.length := by omega
      rw [Function.update_of_ne last, List.getElem?_append_left inside]
      exact mirrors.slots i inside
  length := by
    rw [length_htInsert_eq mirrors.sound, absent]
    simp [mirrors.length]
  present := by
    intro third
    rw [get_htInsert mirrors.sound, absent, Option.getD_none]
    by_cases same : third = key
    · simp [same]
    · rw [if_neg same, mirrors.present third]
      simp [same]

/-- The table loses the resident of `key`, the array the slot that holds it. -/
theorem Mirrors.remove (mirrors : Mirrors ht ssns keys) (resident : ht.resident key = some other)
    {i : Nat} (found : keys[i]? = some other) :
    Mirrors (htRemove ht key) (closeGap ssns i keys.length) (keys.eraseIdx i) := by
  have inside : i < keys.length := (List.getElem?_eq_some_iff.mp found).1
  have at_i : keys[i] = other := (List.getElem?_eq_some_iff.mp found).2
  have erase : keys.eraseIdx i = keys.erase other := by
    rw [← at_i, mirrors.nodup.erase_getElem i inside]
  have length_erase : (keys.eraseIdx i).length = keys.length - 1 :=
    List.length_eraseIdx_of_lt inside
  refine ⟨mirrors.sound.htRemove key, ?_, ?_, ?_, ?_⟩
  · rw [erase]
    exact mirrors.nodup.erase other
  · intro j hj
    rw [length_erase] at hj
    rw [List.getElem?_eraseIdx, closeGap, if_neg (by omega)]
    by_cases below : j < i
    · rw [if_pos below, if_neg (by omega)]
      exact mirrors.slots j (by omega)
    · rw [if_neg below, if_pos (by omega)]
      exact mirrors.slots (j + 1) (by omega)
  · rw [length_htRemove_eq mirrors.sound, resident, length_erase]
    simp [mirrors.length]
  · intro third
    rw [get_htRemove mirrors.sound, resident, erase, mirrors.nodup.mem_erase_iff]
    by_cases same : third = other
    · simp [same]
    · rw [if_neg (by simpa using Ne.symm same), mirrors.present third]
      simp [same]

theorem Mirrors.resident_of_mem (mirrors : Mirrors ht ssns keys) (mem : key ∈ keys) :
    ht.resident key = some key :=
  Ht.resident_self mirrors.sound ((mirrors.present key).mpr mem)

theorem Mirrors.lookup_of_mem (mirrors : Mirrors ht ssns keys) (mem : key ∈ keys) :
    ∃ pair, ht.get key = some pair ∧ htLookup ht key = some pair := by
  obtain ⟨pair, get⟩ := Option.isSome_iff_exists.mp ((mirrors.present key).mpr mem)
  refine ⟨pair, get, ?_⟩
  rw [htLookup_eq_get mirrors.sound, mirrors.resident_of_mem mem, Option.bind_some, get]

/-- The scan of the array finds the first key that agrees up to the zero byte. -/
theorem findSsn_slots (key : Ssn) :
    ∀ (keys : List Ssn) (ssns : Nat → Option Ssn) (i : Nat),
      (∀ j, j < keys.length → ssns (i + j) = keys[j]?) →
      findSsn ssns key keys.length i =
        some ((keys.findIdx? fun other => ckey other = ckey key).map (i + ·)) := by
  intro keys
  induction keys with
  | nil =>
      intro ssns i _
      rfl
  | cons head tail ih =>
      intro ssns i slots
      have here : ssns i = some head := by simpa using slots 0 (by simp)
      have later : ∀ j, j < tail.length → ssns (i + 1 + j) = tail[j]? := by
        intro j hj
        have := slots (j + 1) (by simpa using hj)
        rwa [List.getElem?_cons_succ, show i + (j + 1) = i + 1 + j by omega] at this
      simp only [List.length_cons, findSsn, here, strncmp_ssn, List.findIdx?_cons]
      by_cases same : ckey head = ckey key
      · simp [same]
      · rw [if_neg same, ih ssns (i + 1) later]
        simp only [same, decide_false, Bool.false_eq_true, if_false, Option.map_map]
        congr 2
        funext j
        simp only [Function.comp_apply]
        omega

end

/-! ## Transfers -/

def SelfData.withStore (selfData : SelfData) (ht : Ht) (ssns : Nat → Option Ssn) : SelfData :=
  { selfData with hashTable := some ht, ssns := ssns }

def insertAll (fd : Loc) (entries : List (Ssn × ValuePair)) : List Effect :=
  entries.map fun entry => .tcp fd (.valInsert entry.1 entry.2)

def SelfData.get (selfData : SelfData) (key : Ssn) : Option ValuePair :=
  selfData.hashTable.bind fun ht => ht.get key

def SelfData.listed (selfData : SelfData) (keys : List Ssn) : List (Ssn × ValuePair) :=
  keys.filterMap fun key => (selfData.get key).map fun pair => (key, pair)

def Mirrored (selfData : SelfData) (keys : List Ssn) : Prop :=
  ∃ ht, selfData.hashTable = some ht ∧ Mirrors ht selfData.ssns keys

theorem listed_congr {first second : SelfData} {keys : List Ssn}
    (same : ∀ key ∈ keys, first.get key = second.get key) :
    first.listed keys = second.listed keys := by
  induction keys with
  | nil => rfl
  | cons head tail ih =>
      have tails := ih fun key mem => same key (List.mem_cons_of_mem _ mem)
      simp only [SelfData.listed, List.filterMap_cons, same head List.mem_cons_self] at tails ⊢
      rw [tails]

/-- The loop of `send_new_range_and_entries`: the first `i` keys are in range, and
of the others those out of range are sent and removed. -/
theorem sendEntriesOutside_mirrored (conn : Conn) (todo : List Ssn) :
    ∀ (selfData : SelfData) (done : List Ssn),
      selfData.fdsSuccessor = some conn → Mirrored selfData (done ++ todo) →
      ∃ ht ssns, sendEntriesOutside todo.length done.length selfData =
          ⟨selfData.withStore ht ssns,
            insertAll (.up conn) (selfData.listed (todo.filter fun k => !checkRange selfData k)),
            .run⟩ ∧
        Mirrored (selfData.withStore ht ssns) (done ++ todo.filter (checkRange selfData)) ∧
        ∀ key, (selfData.withStore ht ssns).get key =
          if key ∈ todo ∧ checkRange selfData key = false then none else selfData.get key := by
  induction todo with
  | nil =>
      intro selfData done _ mirrored
      obtain ⟨ht, table, mirrors⟩ := mirrored
      refine ⟨ht, selfData.ssns, ?_, ?_, ?_⟩
      · rw [SelfData.withStore, ← table]
        rfl
      · exact ⟨_, rfl, by simpa [SelfData.withStore] using mirrors⟩
      · intro key
        simp [SelfData.get, SelfData.withStore, table]
  | cons head tail ih =>
      intro selfData done successor mirrored
      obtain ⟨ht, table, mirrors⟩ := mirrored
      have slot : selfData.ssns done.length = some head := by
        rw [mirrors.slots done.length (by simp)]
        simp
      have mem : head ∈ done ++ head :: tail := by simp
      by_cases in_range : checkRange selfData head = true
      · -- the key stays, the index advances
        obtain ⟨table', ssns', run, mirrored', values⟩ := ih selfData (done ++ [head]) successor
          ⟨ht, table, by simpa using mirrors⟩
        refine ⟨table', ssns', ?_, ?_, ?_⟩
        · rw [List.length_append, List.length_singleton] at run
          simp only [List.length_cons, sendEntriesOutside, slot, table, in_range, if_true, run]
          simp [in_range]
        · simpa [in_range] using mirrored'
        · intro key
          rw [values key]
          have swap : (key ∈ head :: tail ∧ checkRange selfData key = false) ↔
              (key ∈ tail ∧ checkRange selfData key = false) := by
            constructor
            · rintro ⟨here, out⟩
              rcases List.mem_cons.mp here with rfl | there
              · rw [in_range] at out
                cases out
              · exact ⟨there, out⟩
            · exact fun h => ⟨List.mem_cons_of_mem _ h.1, h.2⟩
          simp only [swap]
      · -- the key is sent, removed from the table and its gap closed
        have out : checkRange selfData head = false := by simpa using in_range
        obtain ⟨pair, get, lookup⟩ := mirrors.lookup_of_mem mem
        have at_done : (done ++ head :: tail)[done.length]? = some head := by simp
        have erased : (done ++ head :: tail).eraseIdx done.length = done ++ tail := by
          rw [List.eraseIdx_append_of_length_le le_rfl]
          simp
        have length : (done ++ head :: tail).length = done.length + tail.length + 1 := by
          simp only [List.length_append, List.length_cons]
          omega
        have removed := mirrors.remove (mirrors.resident_of_mem mem) at_done
        rw [erased, length] at removed
        let ssns := closeGap selfData.ssns done.length (done.length + tail.length + 1)
        let after := selfData.withStore (htRemove ht head) ssns
        have values_after : ∀ key, after.get key =
            if key = head then none else selfData.get key := by
          intro key
          simp only [after, SelfData.get, SelfData.withStore, table, Option.bind_some]
          rw [get_htRemove mirrors.sound, mirrors.resident_of_mem mem]
          by_cases same : key = head
          · simp [same]
          · rw [if_neg same, if_neg (by simpa using Ne.symm same)]
        obtain ⟨table', ssns', run, mirrored', values⟩ := ih after done successor
          ⟨_, rfl, removed⟩
        have range_after : ∀ key, checkRange after key = checkRange selfData key := fun _ => rfl
        have distinct : head ∉ tail := by
          have := mirrors.nodup
          rw [List.nodup_append] at this
          exact (List.nodup_cons.mp this.2.1).1
        refine ⟨table', ssns', ?_, ?_, ?_⟩
        · simp only [List.length_cons, sendEntriesOutside, slot, table, out, Bool.false_eq_true,
            if_false, lookup]
          change Outcome.mk (sendEntriesOutside tail.length done.length after).selfData
            (sendInsertPduTcp selfData .successor head pair ++
              (sendEntriesOutside tail.length done.length after).effects)
            (sendEntriesOutside tail.length done.length after).ctl = _
          rw [run]
          have value_head : selfData.get head = some pair := by
            simp [SelfData.get, table, get]
          have same : after.listed (tail.filter fun k => !checkRange after k) =
              selfData.listed (tail.filter fun k => !checkRange selfData k) := by
            refine listed_congr fun key key_mem => ?_
            have not_head : key ≠ head := by
              rintro rfl
              exact distinct (List.mem_filter.mp key_mem).1
            rw [values_after key, if_neg not_head]
          simp only [same]
          simp [sendInsertPduTcp, SelfData.fd, successor, insertAll, SelfData.listed, out,
            value_head, after, SelfData.withStore]
        · rw [List.filter_cons_of_neg (by simp [out])]
          exact mirrored'
        · intro key
          change (after.withStore table' ssns').get key = _
          rw [values key, range_after, values_after key]
          by_cases same : key = head
          · simp [same, out]
          · simp [same]

variable {selfData : SelfData} {keys : List Ssn}

theorem Mirrored.get_isSome (mirrored : Mirrored selfData keys) (key : Ssn) :
    (selfData.get key).isSome ↔ key ∈ keys := by
  obtain ⟨ht, table, mirrors⟩ := mirrored
  simp only [SelfData.get, table, Option.bind_some]
  exact mirrors.present key

theorem sendNewRangeAndEntries_mirrored {conn : Conn}
    (successor : selfData.fdsSuccessor = some conn) (mirrored : Mirrored selfData keys)
    (oldSucc : Addr) :
    let middle := middlePoint selfData.rangeStart selfData.rangeEnd
    let kept := { selfData with rangeEnd := middle }
    ∃ ht ssns, sendNewRangeAndEntries selfData oldSucc =
        ⟨kept.withStore ht ssns,
          .tcp (.up conn) (.netJoinResponse oldSucc (middle + 1) selfData.rangeEnd) ::
            insertAll (.up conn) (selfData.listed (keys.filter fun k => !checkRange kept k)),
          .run⟩ ∧
      Mirrored (kept.withStore ht ssns) (keys.filter (checkRange kept)) ∧
      ∀ key, (kept.withStore ht ssns).get key =
        if checkRange kept key = false then none else selfData.get key := by
  intro middle kept
  have get_isSome := mirrored.get_isSome
  obtain ⟨ht, table, mirrors⟩ := mirrored
  obtain ⟨table', ssns', run, mirrored', values⟩ := sendEntriesOutside_mirrored conn keys kept []
    successor ⟨ht, table, by simpa using mirrors⟩
  refine ⟨table', ssns', ?_, by simpa using mirrored', ?_⟩
  · have fd : kept.fd .successor = some (.up conn) := by simp [SelfData.fd, kept, successor]
    have same : kept.listed (keys.filter fun k => !checkRange kept k) =
        selfData.listed (keys.filter fun k => !checkRange kept k) := listed_congr fun _ _ => rfl
    have table_kept : kept.hashTable = some ht := table
    rw [sendNewRangeAndEntries]
    change (sendOrExit kept .successor _ _).andThen _ = _
    rw [sendOrExit, fd]
    simp only [Outcome.andThen, table_kept]
    rw [show getNumEntries ht = keys.length from mirrors.length]
    rw [List.length_nil] at run
    rw [run, same]
    rfl
  · intro key
    rw [values key]
    have unchanged : kept.get key = selfData.get key := rfl
    by_cases out : checkRange kept key = false
    · by_cases mem : key ∈ keys
      · simp [out, mem]
      · have absent : selfData.get key = none := by
          simpa using (get_isSome key).not.mpr mem
        simp [out, mem, unchanged, absent]
    · simp [out, unchanged]

theorem sendEntries_mirrored {fd : Loc} {index : FdsIndex} (connected : selfData.fd index = some fd)
    {ht : Ht} (table : selfData.hashTable = some ht) (todo : List Ssn)
    (found : ∀ key ∈ todo, htLookup ht key = ht.get key) :
    ∀ i, (∀ j, j < todo.length → selfData.ssns (i + j) = todo[j]?) →
      sendEntries selfData index ht todo.length i =
        some (insertAll fd (selfData.listed todo)) := by
  induction todo with
  | nil =>
      intro i _
      rfl
  | cons head tail ih =>
      intro i slots
      have here : selfData.ssns i = some head := by simpa using slots 0 (by simp)
      have later : ∀ j, j < tail.length → selfData.ssns (i + 1 + j) = tail[j]? := by
        intro j hj
        have := slots (j + 1) (by simpa using hj)
        rwa [List.getElem?_cons_succ, show i + (j + 1) = i + 1 + j by omega] at this
      have value_head : selfData.get head = htLookup ht head := by
        simp [SelfData.get, table, found head (by simp)]
      have rest := ih (fun key mem => found key (List.mem_cons_of_mem _ mem)) (i + 1) later
      simp only [List.length_cons, sendEntries, here, rest, Option.map_some]
      cases lookup : htLookup ht head with
      | none => simp [insertAll, SelfData.listed, value_head, lookup]
      | some pair =>
          simp [insertAll, SelfData.listed, value_head, lookup, sendInsertPduTcp, connected]

theorem removeEntries_mirrored (ssns : Nat → Option Ssn) (todo : List Ssn) :
    ∀ (i : Nat) (ht : Ht) (array : Nat → Option Ssn), Mirrors ht array todo →
      (∀ j, j < todo.length → ssns (i + j) = todo[j]?) →
      (removeEntries ssns todo.length i ht).length = 0 := by
  induction todo with
  | nil =>
      intro i ht array mirrors _
      exact mirrors.length
  | cons head tail ih =>
      intro i ht array mirrors slots
      have here : ssns i = some head := by simpa using slots 0 (by simp)
      have later : ∀ j, j < tail.length → ssns (i + 1 + j) = tail[j]? := by
        intro j hj
        have := slots (j + 1) (by simpa using hj)
        rwa [List.getElem?_cons_succ, show i + (j + 1) = i + 1 + j by omega] at this
      have removed := mirrors.remove (mirrors.resident_of_mem (List.mem_cons_self (a := head)))
        (i := 0) (by simp)
      simp only [List.length_cons, removeEntries, here]
      exact ih (i + 1) (htRemove ht head) _ (by simpa using removed) later

theorem htDestroy_of_empty {ht : Ht} (empty : ht.length = 0) : htDestroy ht = true := by
  have is_empty : isEmpty ht = true := by simp [isEmpty, empty]
  rw [htDestroy, htDestroyFrom, if_pos is_empty]

/-- `send_all_entries` to a connected neighbour sends every entry and leaves
neither table nor keys. -/
theorem sendAllEntries_mirrored {fd : Loc} {index : FdsIndex}
    (connected : selfData.fd index = some fd) (mirrored : Mirrored selfData keys) :
    ∃ ssns, sendAllEntries selfData index =
      ⟨{ selfData with hashTable := none, ssns := ssns },
        insertAll fd (selfData.listed keys), .run⟩ := by
  obtain ⟨ht, table, mirrors⟩ := mirrored
  have length : getNumEntries ht = keys.length := mirrors.length
  have slots : ∀ j, j < keys.length → selfData.ssns (0 + j) = keys[j]? := by
    simpa using mirrors.slots
  have found : ∀ key ∈ keys, htLookup ht key = ht.get key := by
    intro key mem
    obtain ⟨pair, get, lookup⟩ := mirrors.lookup_of_mem mem
    rw [get, lookup]
  have destroyed := htDestroy_of_empty
    (removeEntries_mirrored selfData.ssns keys 0 ht selfData.ssns mirrors slots)
  refine ⟨fun j => if j < keys.length then none else selfData.ssns j, ?_⟩
  rw [sendAllEntries, table]
  simp only [length, sendEntries_mirrored connected table keys found 0 slots, destroyed, if_true]

end DhtRing

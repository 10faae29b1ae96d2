import DhtRing.Handover
import DhtRing.TableCalls

/-!
# Transfers over sends that fail

The transfers of `hash_handling.c` once more, with what becomes of each call of
`send_tcp_pdu`.  A short count is reported as success, and `send_insert_pdu_tcp`
reports a failure on stderr only: what the node does next does not depend on it.
-/

set_option autoImplicit false

namespace DhtRing

/-! ## Sends -/

inductive SendOutcome where
  | complete
  | short
  | failed
deriving DecidableEq

def SendOutcome.result : SendOutcome → Int
  | .failed => -1
  | _ => 0

structure Attempt where
  pdu : Pdu
  outcome : SendOutcome
deriving DecidableEq

structure Transfer where
  selfData : SelfData
  attempts : List Attempt
  ctl : Ctl

/-- The loop of `send_new_range_and_entries`; `k` sends were tried before. -/
def sendEntriesOutsideUnder (outcomes : ℕ → SendOutcome) : ℕ → ℕ → ℕ → SelfData → Transfer
  | 0, _, _, selfData => ⟨selfData, [], .run⟩
  | rest + 1, i, k, selfData =>
      match selfData.ssns i, selfData.hashTable with
      | some ssn, some ht =>
          if checkRange selfData ssn then sendEntriesOutsideUnder outcomes rest (i + 1) k selfData
          else
            match htLookup ht ssn with
            -- "Failed to find value for key ... when it should exist"
            | none => ⟨selfData, [], .run⟩
            | some pair =>
                let after := sendEntriesOutsideUnder outcomes rest i (k + 1) { selfData with
                  hashTable := some (htRemove ht ssn)
                  ssns := closeGap selfData.ssns i (i + rest + 1) }
                ⟨after.selfData, ⟨.valInsert ssn pair, outcomes k⟩ :: after.attempts, after.ctl⟩
      | _, _ => ⟨selfData, [], .fault⟩

def sendNewRangeAndEntriesUnder (outcomes : ℕ → SendOutcome) (selfData : SelfData)
    (oldSucc : Addr) : Transfer :=
  let middle := middlePoint selfData.rangeStart selfData.rangeEnd
  let response := Pdu.netJoinResponse oldSucc (middle + 1) selfData.rangeEnd
  let kept := { selfData with rangeEnd := middle }
  if (outcomes 0).result < 0 then
    ⟨kept, [⟨response, outcomes 0⟩], .exit "Failed to send NET_JOIN_RESPONSE_PDU"⟩
  else
    match kept.hashTable with
    | none => ⟨kept, [⟨response, outcomes 0⟩], .fault⟩
    | some ht =>
        let after := sendEntriesOutsideUnder outcomes (getNumEntries ht) 0 1 kept
        ⟨after.selfData, ⟨response, outcomes 0⟩ :: after.attempts, after.ctl⟩

def sendEntriesUnder (outcomes : ℕ → SendOutcome) (selfData : SelfData) (ht : Ht) :
    ℕ → ℕ → ℕ → Option (List Attempt)
  | 0, _, _ => some []
  | rest + 1, i, k =>
      match selfData.ssns i with
      | none => none
      | some ssn =>
          match htLookup ht ssn with
          | none => sendEntriesUnder outcomes selfData ht rest (i + 1) k
          | some pair =>
              (sendEntriesUnder outcomes selfData ht rest (i + 1) (k + 1)).map
                (⟨.valInsert ssn pair, outcomes k⟩ :: ·)

def sendAllEntriesUnder (outcomes : ℕ → SendOutcome) (selfData : SelfData) : Transfer :=
  match selfData.hashTable with
  | none => ⟨selfData, [], .fault⟩
  | some ht =>
      let numEntries := getNumEntries ht
      match sendEntriesUnder outcomes selfData ht numEntries 0 0 with
      | none => ⟨selfData, [], .fault⟩
      | some attempts =>
          if htDestroy (removeEntries selfData.ssns numEntries 0 ht) then
            ⟨{ selfData with
                hashTable := none
                ssns := fun j => if j < numEntries then none else selfData.ssns j },
              attempts, .run⟩
          else ⟨selfData, attempts, .fault⟩

/-! ## Which sends are tried -/

def attempted (outcomes : ℕ → SendOutcome) : ℕ → List Pdu → List Attempt
  | _, [] => []
  | k, pdu :: rest => ⟨pdu, outcomes k⟩ :: attempted outcomes (k + 1) rest

def insertPdus (entries : List (Ssn × ValuePair)) : List Pdu :=
  entries.map fun entry => .valInsert entry.1 entry.2

section

variable (outcomes : ℕ → SendOutcome) {selfData : SelfData} {keys : List Ssn}

theorem mem_attempted {pdu : Pdu} {outcome : SendOutcome} {pdus : List Pdu} :
    ∀ k, ⟨pdu, outcome⟩ ∈ attempted outcomes k pdus ↔
      ∃ j, pdus[j]? = some pdu ∧ outcome = outcomes (k + j) := by
  induction pdus with
  | nil => simp [attempted]
  | cons first rest ih =>
      intro k
      rw [attempted, List.mem_cons, Attempt.mk.injEq, ih (k + 1)]
      constructor
      · rintro (⟨rfl, rfl⟩ | ⟨j, at_j, eq⟩)
        · exact ⟨0, rfl, rfl⟩
        · exact ⟨j + 1, at_j, by rw [eq, Nat.add_right_comm]; rfl⟩
      · rintro ⟨j, at_j, eq⟩
        cases j with
        | zero => exact Or.inl ⟨(Option.some.inj at_j).symm, eq⟩
        | succ j => exact Or.inr ⟨j, at_j, by rw [eq, Nat.add_right_comm]; rfl⟩

theorem sendEntriesOutsideUnder_eq {conn : Conn} (rest : ℕ) :
    ∀ (i k : ℕ) (selfData : SelfData), selfData.fdsSuccessor = some conn →
      ∃ pdus, (sendEntriesOutside rest i selfData).effects = pdus.map (.tcp (.up conn)) ∧
        sendEntriesOutsideUnder outcomes rest i k selfData =
          ⟨(sendEntriesOutside rest i selfData).selfData, attempted outcomes k pdus,
            (sendEntriesOutside rest i selfData).ctl⟩ := by
  induction rest with
  | zero => exact fun _ _ _ _ => ⟨[], rfl, rfl⟩
  | succ rest ih =>
      intro i k selfData successor
      simp only [sendEntriesOutside, sendEntriesOutsideUnder]
      cases slot : selfData.ssns i with
      | none => exact ⟨[], rfl, rfl⟩
      | some ssn =>
          cases table : selfData.hashTable with
          | none => exact ⟨[], rfl, rfl⟩
          | some ht =>
              dsimp only
              split
              · exact ih (i + 1) k selfData successor
              · cases htLookup ht ssn with
                | none => exact ⟨[], rfl, rfl⟩
                | some pair =>
                    obtain ⟨pdus, effects, run⟩ := ih i (k + 1) { selfData with
                      hashTable := some (htRemove ht ssn)
                      ssns := closeGap selfData.ssns i (i + rest + 1) } successor
                    refine ⟨.valInsert ssn pair :: pdus, ?_, ?_⟩
                    · simp only [effects]
                      simp [sendInsertPduTcp, SelfData.fd, successor]
                    · simp only [run]
                      rfl

theorem sendEntriesOutsideUnder_congr (rest : ℕ) :
    ∀ (i k : ℕ) (first second : SelfData), first.hashTable = second.hashTable →
      first.ssns = second.ssns → checkRange first = checkRange second →
      (sendEntriesOutsideUnder outcomes rest i k first).attempts =
          (sendEntriesOutsideUnder outcomes rest i k second).attempts ∧
        (sendEntriesOutsideUnder outcomes rest i k first).ctl =
          (sendEntriesOutsideUnder outcomes rest i k second).ctl ∧
        (sendEntriesOutsideUnder outcomes rest i k first).selfData.hashTable =
          (sendEntriesOutsideUnder outcomes rest i k second).selfData.hashTable := by
  induction rest with
  | zero => exact fun _ _ _ _ table _ _ => ⟨rfl, rfl, table⟩
  | succ rest ih =>
      intro i k first second table array range
      simp only [sendEntriesOutsideUnder, table, array, range]
      cases slot : second.ssns i with
      | none => exact ⟨rfl, rfl, table⟩
      | some ssn =>
          cases found : second.hashTable with
          | none => exact ⟨rfl, rfl, table⟩
          | some ht =>
              dsimp only
              split
              · exact ih (i + 1) k first second table array range
              · cases htLookup ht ssn with
                | none => exact ⟨rfl, rfl, table⟩
                | some pair =>
                    obtain ⟨attempts, ctl, after⟩ := ih i (k + 1)
                      { first with
                        hashTable := some (htRemove ht ssn)
                        ssns := closeGap second.ssns i (i + rest + 1) }
                      { second with
                        hashTable := some (htRemove ht ssn)
                        ssns := closeGap second.ssns i (i + rest + 1) } rfl rfl range
                    exact ⟨by rw [attempts], ctl, after⟩

theorem insertAll_eq (conn : Conn) (entries : List (Ssn × ValuePair)) :
    insertAll (.up conn) entries = (insertPdus entries).map (.tcp (.up conn)) := by
  simp [insertAll, insertPdus]

theorem tcp_injective (fd : Loc) : Function.Injective (Effect.tcp fd) := by
  intro first second same
  exact (Effect.tcp.inj same).2

theorem sendEntriesOutsideUnder_mirrored (mirrored : Mirrored selfData keys) (k : ℕ) :
    ∃ ht, sendEntriesOutsideUnder outcomes keys.length 0 k selfData =
        ⟨(sendEntriesOutsideUnder outcomes keys.length 0 k selfData).selfData,
          attempted outcomes k (insertPdus
            (selfData.listed (keys.filter fun key => !checkRange selfData key))), .run⟩ ∧
      (sendEntriesOutsideUnder outcomes keys.length 0 k selfData).selfData.hashTable = some ht ∧
      ∀ key, ht.get key = if checkRange selfData key = false then none else selfData.get key := by
  -- `fds` plays no role, so that the node may as well be connected
  let conn : Conn := ⟨selfData.listening, selfData.listening, 0⟩
  let linked := { selfData with fdsSuccessor := some conn }
  have mirrored_linked : Mirrored linked keys := mirrored
  obtain ⟨ht, ssns, run, -, values⟩ := sendEntriesOutside_mirrored conn keys linked [] rfl
    mirrored_linked
  rw [List.length_nil] at run
  obtain ⟨pdus, effects, under⟩ := sendEntriesOutsideUnder_eq outcomes keys.length 0
    k linked rfl
  obtain ⟨attempts, ctl, table⟩ := sendEntriesOutsideUnder_congr outcomes
    keys.length 0 k selfData linked rfl rfl rfl
  rw [run, insertAll_eq] at effects
  have sent := List.map_injective_iff.mpr (tcp_injective (.up conn)) effects
  rw [under, run, ← sent] at attempts ctl table
  refine ⟨ht, ?_, table, ?_⟩
  · rw [show (sendEntriesOutsideUnder outcomes keys.length 0 k selfData) = ⟨_, _, _⟩ from rfl,
      Transfer.mk.injEq]
    exact ⟨rfl, attempts, ctl⟩
  · intro key
    have value : ht.get key = _ := values key
    rw [value]
    have same : linked.get key = selfData.get key := rfl
    have range : checkRange linked key = checkRange selfData key := rfl
    by_cases mem : key ∈ keys
    · simp only [mem, true_and, range, same]
    · have absent : selfData.get key = none := by
        simpa using (mirrored.get_isSome key).not.mpr mem
      simp [mem, same, absent]

theorem sendEntriesUnder_eq {ht : Ht} (table : selfData.hashTable = some ht) (todo : List Ssn)
    (found : ∀ key ∈ todo, htLookup ht key = ht.get key ∧ (ht.get key).isSome) :
    ∀ i k, (∀ j, j < todo.length → selfData.ssns (i + j) = todo[j]?) →
      sendEntriesUnder outcomes selfData ht todo.length i k =
        some (attempted outcomes k (insertPdus (selfData.listed todo))) := by
  induction todo with
  | nil => exact fun _ _ _ => rfl
  | cons head tail ih =>
      intro i k slots
      have here : selfData.ssns i = some head := by simpa using slots 0 (by simp)
      have later : ∀ j, j < tail.length → selfData.ssns (i + 1 + j) = tail[j]? := by
        intro j hj
        have := slots (j + 1) (by simpa using hj)
        rwa [List.getElem?_cons_succ, show i + (j + 1) = i + 1 + j by omega] at this
      obtain ⟨lookup, stored⟩ := found head (by simp)
      obtain ⟨pair, get⟩ := Option.isSome_iff_exists.mp stored
      have rest := ih (fun key mem => found key (List.mem_cons_of_mem _ mem)) (i + 1) (k + 1) later
      have value : selfData.get head = some pair := by
        simp [SelfData.get, table, get]
      simp only [List.length_cons, sendEntriesUnder, here, lookup, get, rest, Option.map_some]
      simp [SelfData.listed, value, insertPdus, attempted]

theorem sendAllEntriesUnder_mirrored (mirrored : Mirrored selfData keys) :
    ∃ ssns, sendAllEntriesUnder outcomes selfData =
      ⟨{ selfData with hashTable := none, ssns := ssns },
        attempted outcomes 0 (insertPdus (selfData.listed keys)), .run⟩ := by
  obtain ⟨ht, table, mirrors⟩ := mirrored
  have length : getNumEntries ht = keys.length := mirrors.length
  have slots : ∀ j, j < keys.length → selfData.ssns (0 + j) = keys[j]? := by
    simpa using mirrors.slots
  have found : ∀ key ∈ keys, htLookup ht key = ht.get key ∧ (ht.get key).isSome := by
    intro key mem
    obtain ⟨pair, get, lookup⟩ := mirrors.lookup_of_mem mem
    rw [get, lookup]
    exact ⟨rfl, rfl⟩
  have destroyed := htDestroy_of_empty
    (removeEntries_mirrored selfData.ssns keys 0 ht selfData.ssns mirrors slots)
  refine ⟨fun j => if j < keys.length then none else selfData.ssns j, ?_⟩
  rw [sendAllEntriesUnder, table]
  simp only [length, sendEntriesUnder_eq outcomes table keys found 0 0 slots, destroyed, if_true]

end

/-! ## No entry is lost -/

/-- Each entry is still in the table or went out completely. -/
def KeepsOrSends (before : SelfData) (transfer : Transfer) : Prop :=
  ∀ key pair, before.get key = some pair →
    transfer.selfData.get key = some pair ∨ ⟨.valInsert key pair, .complete⟩ ∈ transfer.attempts

/-- Each entry went out completely, or the node reports a failure and still has it. -/
def SendsOrReports (before : SelfData) (transfer : Transfer) : Prop :=
  ∀ key pair, before.get key = some pair →
    ⟨.valInsert key pair, .complete⟩ ∈ transfer.attempts ∨
      (∃ msg, transfer.ctl = .exit msg) ∧ transfer.selfData.get key = some pair

section

variable (outcomes : ℕ → SendOutcome) {selfData : SelfData} {keys : List Ssn}

theorem getElem?_insertPdus {some_keys : List Ssn}
    (stored : ∀ key ∈ some_keys, (selfData.get key).isSome) (j : ℕ) :
    (insertPdus (selfData.listed some_keys))[j]? =
      some_keys[j]?.bind fun key => (selfData.get key).map fun pair => .valInsert key pair := by
  induction some_keys generalizing j with
  | nil => rfl
  | cons head tail ih =>
      obtain ⟨pair, get⟩ := Option.isSome_iff_exists.mp (stored head (by simp))
      have later := ih fun key mem => stored key (List.mem_cons_of_mem _ mem)
      simp only [insertPdus, SelfData.listed, List.filterMap_cons, get, Option.map_some,
        List.map_cons] at later ⊢
      cases j with
      | zero => simp [get]
      | succ j => simpa using later j

theorem sent_iff {some_keys : List Ssn} (nodup : some_keys.Nodup)
    (stored : ∀ key ∈ some_keys, (selfData.get key).isSome) (k : ℕ) :
    (∀ key ∈ some_keys, ∀ pair, selfData.get key = some pair →
        ⟨.valInsert key pair, .complete⟩ ∈
          attempted outcomes k (insertPdus (selfData.listed some_keys))) ↔
      ∀ j < some_keys.length, outcomes (k + j) = .complete := by
  constructor
  · intro all j inside
    obtain ⟨pair, get⟩ := Option.isSome_iff_exists.mp (stored _ (List.getElem_mem inside))
    obtain ⟨i, at_i, complete⟩ := (mem_attempted outcomes k).mp (all _ (List.getElem_mem inside) pair get)
    rw [getElem?_insertPdus stored, Option.bind_eq_some_iff] at at_i
    obtain ⟨key, found, eq⟩ := at_i
    obtain ⟨pair', -, eq⟩ := Option.map_eq_some_iff.mp eq
    obtain ⟨rfl, -⟩ := Pdu.valInsert.inj eq
    have same := (List.getElem?_inj inside nodup).mp
      ((List.getElem?_eq_getElem inside).trans found.symm)
    rw [same]
    exact complete.symm
  · intro all key mem pair get
    obtain ⟨j, inside, rfl⟩ := List.getElem_of_mem mem
    refine (mem_attempted outcomes k).mpr ⟨j, ?_, (all j inside).symm⟩
    rw [getElem?_insertPdus stored, List.getElem?_eq_getElem inside, Option.bind_some, get]
    rfl

def SelfData.lowerHalf (selfData : SelfData) : SelfData :=
  { selfData with rangeEnd := middlePoint selfData.rangeStart selfData.rangeEnd }

def SelfData.upperKeys (selfData : SelfData) (keys : List Ssn) : List Ssn :=
  keys.filter fun key => !checkRange selfData.lowerHalf key

theorem keepsOrSends_iff (mirrored : Mirrored selfData keys) (oldSucc : Addr) :
    KeepsOrSends selfData (sendNewRangeAndEntriesUnder outcomes selfData oldSucc) ↔
      outcomes 0 = .failed ∨
        ∀ j < (selfData.upperKeys keys).length, outcomes (1 + j) = .complete := by
  have stored : ∀ key ∈ selfData.upperKeys keys, (selfData.get key).isSome := fun key mem =>
    (mirrored.get_isSome key).mpr (List.mem_of_mem_filter mem)
  have nodup : (selfData.upperKeys keys).Nodup := by
    obtain ⟨ht, -, mirrors⟩ := mirrored
    exact mirrors.nodup.filter _
  by_cases failed : outcomes 0 = .failed
  · -- the node exits with the table untouched
    have run : sendNewRangeAndEntriesUnder outcomes selfData oldSucc =
        ⟨selfData.lowerHalf,
          [⟨.netJoinResponse oldSucc (middlePoint selfData.rangeStart selfData.rangeEnd + 1)
            selfData.rangeEnd, outcomes 0⟩],
          .exit "Failed to send NET_JOIN_RESPONSE_PDU"⟩ := by
      rw [sendNewRangeAndEntriesUnder, if_pos (by rw [failed]; decide)]
      rfl
    rw [run]
    exact ⟨fun _ => Or.inl failed, fun _ key pair get => Or.inl get⟩
  · have positive : ¬ (outcomes 0).result < 0 := by
      cases outcome : outcomes 0 with
      | failed => exact absurd outcome failed
      | complete => decide
      | short => decide
    have mirrored_kept : Mirrored selfData.lowerHalf keys := mirrored
    obtain ⟨ht, loop, table, values⟩ := sendEntriesOutsideUnder_mirrored outcomes
      mirrored_kept 1
    have count : ∀ before, selfData.hashTable = some before →
        getNumEntries before = keys.length := by
      intro before eq
      obtain ⟨ht', table', mirrors⟩ := mirrored
      cases table'.symm.trans eq
      exact mirrors.length
    obtain ⟨before, eq, -⟩ := id mirrored
    have run : sendNewRangeAndEntriesUnder outcomes selfData oldSucc =
        ⟨(sendEntriesOutsideUnder outcomes keys.length 0 1 selfData.lowerHalf).selfData,
          ⟨.netJoinResponse oldSucc (middlePoint selfData.rangeStart selfData.rangeEnd + 1)
            selfData.rangeEnd, outcomes 0⟩ :: attempted outcomes 1
              (insertPdus (selfData.listed (selfData.upperKeys keys))), .run⟩ := by
      have kept : selfData.lowerHalf.hashTable = some before := eq
      rw [sendNewRangeAndEntriesUnder, if_neg positive]
      change (match selfData.lowerHalf.hashTable with
        | none => _
        | some ht => _) = _
      rw [kept]
      dsimp only
      rw [count before eq]
      change Transfer.mk (sendEntriesOutsideUnder outcomes keys.length 0 1
          selfData.lowerHalf).selfData
        (_ :: (sendEntriesOutsideUnder outcomes keys.length 0 1 selfData.lowerHalf).attempts)
        (sendEntriesOutsideUnder outcomes keys.length 0 1 selfData.lowerHalf).ctl = _
      rw [loop]
      rfl
    rw [run, ← sent_iff outcomes nodup stored 1]
    simp only [failed, false_or]
    constructor
    · intro keeps key mem pair get
      have out : checkRange selfData.lowerHalf key = false := by
        simpa using (List.mem_filter.mp mem).2
      rcases keeps key pair get with still | sent
      · -- a key of the upper half has left the table
        rw [SelfData.get, table, Option.bind_some, values key, if_pos out] at still
        cases still
      · exact (List.mem_cons.mp sent).resolve_left (by simp)
    · intro sends key pair get
      by_cases out : checkRange selfData.lowerHalf key = false
      · have mem : key ∈ selfData.upperKeys keys := by
          refine List.mem_filter.mpr ⟨(mirrored.get_isSome key).mp ?_, by simp [out]⟩
          simp [get]
        exact Or.inr (List.mem_cons_of_mem _ (sends key mem pair get))
      · refine Or.inl ?_
        rw [SelfData.get, table, Option.bind_some, values key, if_neg out]
        exact get

theorem sendsOrReports_iff (mirrored : Mirrored selfData keys) :
    SendsOrReports selfData (sendAllEntriesUnder outcomes selfData) ↔
      ∀ j < keys.length, outcomes j = .complete := by
  obtain ⟨ssns, run⟩ := sendAllEntriesUnder_mirrored outcomes mirrored
  have nodup : keys.Nodup := by
    obtain ⟨ht, -, mirrors⟩ := mirrored
    exact mirrors.nodup
  have each := sent_iff outcomes nodup
    (fun key mem => (mirrored.get_isSome key).mpr mem) 0
  simp only [Nat.zero_add] at each
  rw [run, ← each]
  constructor
  · intro sends key _ pair get
    rcases sends key pair get with sent | ⟨⟨msg, exit⟩, -⟩
    · exact sent
    · cases exit
  · intro sends key pair get
    exact Or.inl (sends key ((mirrored.get_isSome key).mp (by simp [get])) pair get)

end

/-- A split loses no entry exactly when its response fails, which ends the node, or
every `VAL_INSERT` of the upper half goes out completely; and handing over all
entries only when all of them do. -/
theorem transfers_lose_nothing_iff (selfData : SelfData) (keys : List Ssn)
    (mirrored : Mirrored selfData keys) (outcomes : ℕ → SendOutcome) (oldSucc : Addr) :
    (KeepsOrSends selfData (sendNewRangeAndEntriesUnder outcomes selfData oldSucc) ↔
        outcomes 0 = .failed ∨
          ∀ j < (selfData.upperKeys keys).length, outcomes (1 + j) = .complete) ∧
      (SendsOrReports selfData (sendAllEntriesUnder outcomes selfData) ↔
        ∀ j < keys.length, outcomes j = .complete) :=
  ⟨keepsOrSends_iff outcomes mirrored oldSucc, sendsOrReports_iff outcomes mirrored⟩

def oneEntry : SelfData := (handleHtInsert loneNode lastKey ⟨noText, noText⟩).selfData

theorem oneEntry_mirrored : Mirrored oneEntry [lastKey] := by
  have empty : Mirrored loneNode [] := ⟨htCreate, rfl, mirrors_htCreate _⟩
  have in_range : checkRange loneNode lastKey = true := by decide
  have inserted := handleHtInsert_absent empty rfl in_range (by decide) ⟨noText, noText⟩
  rw [if_pos (by decide)] at inserted
  rw [oneEntry, inserted.1]
  exact inserted.2

/-- Two more entries, of which the first is in the lower half. -/
def threeEntries : SelfData :=
  (handleHtInsert (handleHtInsert oneEntry firstKey ⟨noText, noText⟩).selfData (numberedKey 0)
    ⟨initial 65, noText⟩).selfData

theorem threeEntries_mirrored : Mirrored threeEntries [lastKey, firstKey, numberedKey 0] := by
  have second := handleHtInsert_absent oneEntry_mirrored rfl
    (show checkRange oneEntry firstKey = true by decide) (by decide) ⟨noText, noText⟩
  rw [if_pos (by decide)] at second
  have third := handleHtInsert_absent second.2 rfl
    (show checkRange _ (numberedKey 0) = true by decide) (by decide) ⟨initial 65, noText⟩
  rw [if_pos (by decide)] at third
  rw [threeEntries, second.1, third.1]
  exact third.2

/-- The response and the first two `VAL_INSERT`s go out, or all three. -/
theorem transfers_lose_nothing_threeEntries :
    KeepsOrSends threeEntries (sendNewRangeAndEntriesUnder
        (fun k => if k < 3 then .complete else .failed) threeEntries ⟨2, 5000⟩) ∧
      SendsOrReports threeEntries (sendAllEntriesUnder
        (fun k => if k < 3 then .complete else .failed) threeEntries) := by
  have exact_when := transfers_lose_nothing_iff threeEntries _ threeEntries_mirrored
    (fun k => if k < 3 then .complete else .failed) ⟨2, 5000⟩
  have upper : (threeEntries.upperKeys [lastKey, firstKey, numberedKey 0]).length = 2 := by decide
  refine ⟨exact_when.1.mpr (Or.inr fun j small => if_pos ?_),
    exact_when.2.mpr fun j small => if_pos small⟩
  omega

/-- The entry leaves the table although its `VAL_INSERT` failed. -/
theorem failed_send_loses_entry :
    ¬ KeepsOrSends oneEntry (sendNewRangeAndEntriesUnder
        (fun k => if k = 0 then .complete else .failed) oneEntry ⟨2, 5000⟩) ∧
      ¬ SendsOrReports oneEntry (sendAllEntriesUnder (fun _ => .short) oneEntry) := by
  constructor
  · intro keeps
    have lost := keeps lastKey ⟨noText, noText⟩ (by decide +kernel)
    revert lost
    decide +kernel
  · intro sends
    have lost := sends lastKey ⟨noText, noText⟩ (by decide +kernel)
    rcases lost with sent | ⟨⟨msg, exit⟩, -⟩
    · revert sent
      decide +kernel
    · cases exit

end DhtRing

import DhtRing.Handlers
import DhtRing.Segments
import DhtRing.TestNode.WireFormats

/-!
# One chunk in `poll_for_incoming_data`

The loop over the bytes of one `recv` with its `offset`, a `size_t`, and with what its
handlers do.  `pollLoop` is what is left of it when only the PDUs count.
-/

set_option autoImplicit false

namespace DhtRing

open TestNode

/-! ## `handle_val_insert` -/

/-- What `handle_val_insert` does and the number that it returns; a size is returned
when `handle_ht_insert` has returned. -/
def handleValInsertCall (selfData : SelfData) (buffer : ℕ → UInt8) (bytesReceived : ℕ) :
    Outcome × Int :=
  match handleValInsert buffer bytesReceived with
  | none => (⟨selfData, [], .run⟩, -1)
  | some (ssn, pair, size) => (handleHtInsert selfData ssn pair, size)

section

variable {buffer buffer' : ℕ → UInt8} {bytesReceived : ℕ} {ssn : Ssn} {pair : ValuePair}

theorem handleValInsert_of_prefix
    (whole : (Pdu.valInsert ssn pair).bytes <+: bytesAt buffer 0 bytesReceived) :
    handleValInsert buffer bytesReceived =
      some (ssn, pair, (Pdu.valInsert ssn pair).size) := by
  have le := whole.length_le
  rw [Pdu.length_bytes, length_bytesAt] at le
  have found : bytesAt buffer 0 (Pdu.valInsert ssn pair).size = (Pdu.valInsert ssn pair).bytes := by
    obtain ⟨rest, split⟩ := whole
    rw [← Nat.add_sub_cancel' le] at split
    exact (bytesAt_eq_append (Pdu.length_bytes _) split.symm).1
  have size : (Pdu.valInsert ssn pair).size =
      12 + ((pair.name.val.length + 1) + (pair.email.val.length + 1)) + 1 := by
    rw [Pdu.size]
    omega
  rw [size] at found
  exact handleValInsert_of_bytesAt (bytesAt_eq_cons found).2 le

theorem prefix_of_handleValInsert {size : ℕ} (type : buffer 0 = 100)
    (handled : handleValInsert buffer bytesReceived = some (ssn, pair, size)) :
    (Pdu.valInsert ssn pair).bytes <+: bytesAt buffer 0 bytesReceived := by
  obtain ⟨le, large, bytes⟩ := handleValInsert_eq_some handled
  obtain ⟨behind, rfl⟩ := Nat.exists_eq_add_of_le le
  refine ⟨bytesAt buffer (0 + size) behind, ?_⟩
  rw [bytesAt_add, show size = size - 1 + 1 by omega, bytesAt_succ, type, bytes]
  rfl

end

/-- `handle_val_insert` takes just the complete entries, whatever lies behind the bytes
received, and reads back what `send_insert_pdu_tcp` sends. -/
theorem handleValInsertCall_exact (selfData : SelfData) :
    (∀ buffer bytesReceived, buffer 0 = 100 →
      let whole := fun ssn pair =>
        (Pdu.valInsert ssn pair).bytes <+: bytesAt buffer 0 bytesReceived
      let call := handleValInsertCall selfData buffer bytesReceived
      (0 ≤ call.2 ↔ ∃ ssn pair, whole ssn pair) ∧
        (∀ ssn pair, whole ssn pair →
          call = (handleHtInsert selfData ssn pair, ((Pdu.valInsert ssn pair).size : Int))) ∧
        ((¬ ∃ ssn pair, whole ssn pair) → call = (⟨selfData, [], .run⟩, -1)) ∧
        ∀ buffer', (∀ i < bytesReceived, buffer' i = buffer i) →
          handleValInsertCall selfData buffer' bytesReceived = call) ∧
    ∀ (ssn : Ssn) (pair : ValuePair) (fresh : Vector UInt8 (sendBufferSize pair))
      (rest : List UInt8) (stale : ℕ → UInt8),
      let sent := sendInsertPduBuffer ssn pair fresh
      handleValInsertCall selfData (receiveBuffer (sent ++ rest) stale) (sent ++ rest).length =
        (handleHtInsert selfData ssn pair, (sent.length : Int)) := by
  have taken : ∀ {buffer : ℕ → UInt8} {bytesReceived : ℕ} {ssn : Ssn} {pair : ValuePair},
      (Pdu.valInsert ssn pair).bytes <+: bytesAt buffer 0 bytesReceived →
        handleValInsertCall selfData buffer bytesReceived =
          (handleHtInsert selfData ssn pair, ((Pdu.valInsert ssn pair).size : Int)) := by
    intro buffer bytesReceived ssn pair whole
    rw [handleValInsertCall, handleValInsert_of_prefix whole]
  have rejected : ∀ {buffer : ℕ → UInt8} {bytesReceived : ℕ}, buffer 0 = 100 →
      (¬ ∃ ssn pair, (Pdu.valInsert ssn pair).bytes <+: bytesAt buffer 0 bytesReceived) →
        handleValInsertCall selfData buffer bytesReceived = (⟨selfData, [], .run⟩, -1) := by
    intro buffer bytesReceived type nothing
    rw [handleValInsertCall]
    cases handled : handleValInsert buffer bytesReceived with
    | none => rfl
    | some entry => exact absurd ⟨_, _, prefix_of_handleValInsert type handled⟩ nothing
  refine ⟨?_, ?_⟩
  · intro buffer bytesReceived type whole call
    refine ⟨⟨?_, ?_⟩, fun _ _ => taken, rejected type, ?_⟩
    · intro success
      by_contra nothing
      have result : call = (⟨selfData, [], .run⟩, -1) := rejected type nothing
      rw [result] at success
      exact absurd (show (0 : Int) ≤ -1 from success) (by decide)
    · rintro ⟨ssn, pair, here⟩
      have result : call = (_, ((Pdu.valInsert ssn pair).size : Int)) := taken here
      rw [result]
      exact Int.natCast_nonneg _
    · intro buffer' same
      by_cases some_byte : 0 < bytesReceived
      · have bytes : bytesAt buffer' 0 bytesReceived = bytesAt buffer 0 bytesReceived :=
          bytesAt_congr fun j inside => by
            rw [Nat.zero_add]
            exact same j inside
        have type' : buffer' 0 = 100 := (same 0 some_byte).trans type
        by_cases complete : ∃ ssn pair, whole ssn pair
        · obtain ⟨ssn, pair, here⟩ := complete
          have here' : (Pdu.valInsert ssn pair).bytes <+: bytesAt buffer' 0 bytesReceived := by
            rw [bytes]
            exact here
          exact (taken here').trans (taken here).symm
        · refine (rejected type' ?_).trans (rejected type complete).symm
          rw [bytes]
          exact complete
      · obtain rfl : bytesReceived = 0 := by omega
        rfl
  · intro ssn pair fresh rest stale sent
    have bytes : sent = (Pdu.valInsert ssn pair).bytes := sendInsertPduBuffer_eq ssn pair fresh
    have received : bytesAt (receiveBuffer (sent ++ rest) stale) 0 (sent ++ rest).length =
        sent ++ rest := by
      have found := bytesAt_receiveBuffer [] (sent ++ rest) [] stale
      rw [List.append_nil] at found
      exact found
    have whole : (Pdu.valInsert ssn pair).bytes <+:
        bytesAt (receiveBuffer (sent ++ rest) stale) 0 (sent ++ rest).length := by
      rw [received, bytes]
      exact List.prefix_append _ _
    rw [taken whole, bytes, Pdu.length_bytes]

/-- An entry without texts that is followed by one more byte. -/
theorem handleValInsertCall_exact_shortInsert :
    handleValInsertCall (.setup ⟨1, 1⟩) (Recv.over 0 (shortInsert.bytes ++ [5])).buffer 16 =
      (handleHtInsert (.setup ⟨1, 1⟩) (Vector.replicate ssnLength 49)
        ⟨⟨[], by decide⟩, ⟨[], by decide⟩⟩, 15) :=
  ((handleValInsertCall_exact (.setup ⟨1, 1⟩)).1
    (Recv.over 0 (shortInsert.bytes ++ [5])).buffer 16 rfl).2.1 _ _ ⟨[5], rfl⟩

/-! ## The loop -/

/-- What a handler meets outside: `accepted` is the connection that it accepts, if it waits
for one. -/
structure World where
  env : Env
  accepted : Option Conn

def Outcome.returned (outcome : Outcome) (world : World) : Option (SelfData × List Effect) :=
  match outcome.ctl, world.accepted with
  | .run, _ => some (outcome.selfData, outcome.effects)
  | .accept, some conn => some (outcome.selfData.acceptPredecessor conn, outcome.effects)
  | .accept, none => some (outcome.selfData, outcome.effects)
  | .exit _, _ => none
  | .fault, _ => none

def handlePdu (world : World) (selfData : SelfData) (pdu : Pdu) :
    Option (SelfData × List Effect) :=
  (dispatch world.env selfData pdu).bind fun outcome => outcome.returned world

def handleAll (world : ℕ → World) : SelfData × List Effect → ℕ → List Pdu →
    Option (SelfData × List Effect)
  | before, _, [] => some before
  | before, k, pdu :: rest =>
      (handlePdu (world k) before.1 pdu).bind fun after =>
        handleAll world (after.1, before.2 ++ after.2) (k + 1) rest

/-- The loop before an iteration; `handed` are the PDUs that the handlers have got. -/
structure LoopState where
  offset : UInt64
  node : SelfData × List Effect
  handed : List Pdu

namespace Recv

variable (recv : Recv)

def bytesReceived : UInt64 := UInt64.ofNat recv.chunk.length

def found (offset : UInt64) : Option (Pdu × ℕ) :=
  nextPdu recv.buffer recv.bytesReceived.toNat offset.toNat

/-- The body of the loop, when the handler returns: `offset = -1` is the largest `size_t`. -/
def body (world : World) (state : LoopState) : Option LoopState :=
  match recv.found state.offset with
  | none => some { state with offset := -1 }
  | some (pdu, size) =>
      (handlePdu world state.node.1 pdu).map fun after =>
        { offset := state.offset + UInt64.ofNat size
          node := (after.1, state.node.2 ++ after.2)
          handed := state.handed ++ [pdu] }

inductive Reaches (world : ℕ → World) (selfData : SelfData) : ℕ → LoopState → Prop
  | start : Reaches world selfData 0 ⟨0, (selfData, []), []⟩
  | next {k : ℕ} {state after : LoopState} (before : Reaches world selfData k state)
      (test : state.offset < recv.bytesReceived) (step : recv.body (world k) state = some after) :
      Reaches world selfData (k + 1) after

/-- No handler keeps the loop from going on. -/
def HandlersReturn (world : ℕ → World) (selfData : SelfData) : Prop :=
  ∀ k state, recv.Reaches world selfData k state → state.offset < recv.bytesReceived →
    recv.body (world k) state ≠ none

/-- An unknown type, or a `VAL_INSERT` for which `handle_val_insert` answers -1. -/
def Rejects (state : LoopState) : Prop :=
  recv.buffer state.offset.toNat ∉ ([100, 102, 101, 3, 6, 7, 5] : List UInt8) ∨
    recv.buffer state.offset.toNat = 100 ∧
      (handleValInsertCall state.node.1 (fun i => recv.buffer (state.offset.toNat + i))
        (recv.bytesReceived - state.offset).toNat).2 < 0

end Recv

section

variable {world : ℕ → World} {selfData : SelfData} {recv : Recv}

theorem handleAll_snoc (world : ℕ → World) (pdu : Pdu) (pdus : List Pdu) :
    ∀ (before : SelfData × List Effect) (k : ℕ), handleAll world before k (pdus ++ [pdu]) =
      (handleAll world before k pdus).bind fun mid =>
        (handlePdu (world (k + pdus.length)) mid.1 pdu).map fun after =>
          (after.1, mid.2 ++ after.2) := by
  induction pdus with
  | nil =>
      intro before k
      simp only [List.nil_append, handleAll, Option.bind_some, List.length_nil, Nat.add_zero]
      cases handlePdu (world k) before.1 pdu <;> rfl
  | cons head tail ih =>
      intro before k
      simp only [List.cons_append, handleAll]
      cases handlePdu (world k) before.1 head with
      | none => rfl
      | some after =>
          simp only [Option.bind_some, ih]
          rw [List.length_cons, Nat.add_right_comm, Nat.add_assoc]

theorem Pdu.size_le (pdu : Pdu) : pdu.size ≤ 525 := by
  cases pdu with
  | valInsert ssn pair =>
      have name := pair.name.property
      have email := pair.email.property
      rw [Pdu.size]
      omega
  | valLookupResponse ssn pair =>
      have name := pair.name.property
      have email := pair.email.property
      rw [Pdu.size]
      omega
  | _ =>
      rw [Pdu.size]
      omega

theorem encodeAll_snoc (pdus : List Pdu) (pdu : Pdu) :
    encodeAll (pdus ++ [pdu]) = encodeAll pdus ++ pdu.bytes := by
  rw [encodeAll, List.flatMap_append, List.flatMap_singleton]
  rfl

theorem length_le_encodeAll (pdus : List Pdu) : pdus.length ≤ (encodeAll pdus).length := by
  induction pdus with
  | nil => exact Nat.zero_le _
  | cons pdu pdus ih =>
      have pos := pdu.size_pos
      rw [length_encodeAll_cons, List.length_cons]
      omega

namespace Recv

theorem toNat_bytesReceived (fits : recv.chunk.length ≤ bufferSize) :
    recv.bytesReceived.toNat = recv.chunk.length := by
  rw [bytesReceived, UInt64.toNat_ofNat']
  exact Nat.mod_eq_of_lt (by rw [bufferSize] at fits; omega)

theorem toNat_offset_add (fits : recv.chunk.length ≤ bufferSize) {offset : UInt64} {size : ℕ}
    (test : offset < recv.bytesReceived) (small : size ≤ 525) :
    (offset + UInt64.ofNat size).toNat = offset.toNat + size := by
  rw [UInt64.lt_iff_toNat_lt, toNat_bytesReceived fits] at test
  rw [UInt64.toNat_add, UInt64.toNat_ofNat']
  rw [bufferSize] at fits
  omega

/-- The loop has gone past the PDUs that the handlers have got, and these lie in the
buffer one behind the other. -/
structure Along (recv : Recv) (world : ℕ → World) (selfData : SelfData) (k : ℕ)
    (state : LoopState) : Prop where
  accepted : ∀ pdu ∈ state.handed, pdu.accepted = true
  count : state.handed.length = k
  offset : state.offset.toNat = (encodeAll state.handed).length
  bytes : bytesAt recv.buffer 0 (encodeAll state.handed).length = encodeAll state.handed
  node : handleAll world (selfData, []) 0 state.handed = some state.node
  dispatched : recv.dispatched = state.handed ++
    pollLoop recv.buffer recv.chunk.length (recv.chunk.length - k) state.offset.toNat

theorem Along.le_offset {k : ℕ} {state : LoopState} (along : recv.Along world selfData k state) :
    k ≤ state.offset.toNat := by
  rw [along.offset, ← along.count]
  exact length_le_encodeAll _

theorem Along.step (fits : recv.chunk.length ≤ bufferSize) {k : ℕ} {state after : LoopState}
    (along : recv.Along world selfData k state) (test : state.offset < recv.bytesReceived)
    (step : recv.body (world k) state = some after) :
    (recv.found state.offset = none ∧ after = { state with offset := -1 } ∧
        recv.dispatched = state.handed) ∨
      ∃ pdu, recv.found state.offset = some (pdu, pdu.size) ∧
        after.handed = state.handed ++ [pdu] ∧ recv.Along world selfData (k + 1) after := by
  have inside := UInt64.lt_iff_toNat_lt.mp test
  rw [toNat_bytesReceived fits] at inside
  have fuel : recv.chunk.length - k = recv.chunk.length - (k + 1) + 1 := by
    have le := along.le_offset
    omega
  have unfolded := along.dispatched
  rw [fuel, pollLoop, if_pos inside] at unfolded
  have same : recv.found state.offset =
      nextPdu recv.buffer recv.chunk.length state.offset.toNat := by
    rw [found, toNat_bytesReceived fits]
  rw [body] at step
  cases next : recv.found state.offset with
  | none =>
      rw [next] at step
      rw [← same, next, List.append_nil] at unfolded
      exact Or.inl ⟨rfl, (Option.some.inj step).symm, unfolded⟩
  | some entry =>
      obtain ⟨pdu, size⟩ := entry
      rw [next] at step
      rw [← same, next] at unfolded
      rw [same] at next
      obtain ⟨accepted, -, bytes, -⟩ := nextPdu_eq_some inside next
      obtain rfl : size = pdu.size := by
        rw [← pdu.length_bytes, ← bytes, length_bytesAt]
      obtain ⟨node, handled, rfl⟩ := Option.map_eq_some_iff.mp step
      have offset := toNat_offset_add fits test pdu.size_le
      have length : (encodeAll (state.handed ++ [pdu])).length =
          (encodeAll state.handed).length + pdu.size := by
        rw [encodeAll_snoc, List.length_append, pdu.length_bytes]
      refine Or.inr ⟨pdu, rfl, rfl, ?_, ?_, ?_, ?_, ?_, ?_⟩
      · intro other mem
        rcases List.mem_append.mp mem with old | new
        · exact along.accepted other old
        · rw [List.mem_singleton.mp new]
          exact accepted
      · rw [List.length_append, along.count]
        rfl
      · rw [offset, length, along.offset]
      · rw [length, bytesAt_add, along.bytes, Nat.zero_add, ← along.offset, bytes, encodeAll_snoc]
      · rw [handleAll_snoc, along.node, Option.bind_some, Nat.zero_add, along.count, handled]
        rfl
      · rw [unfolded, offset, List.append_assoc]
        rfl

theorem Along.start : recv.Along world selfData 0 ⟨0, (selfData, []), []⟩ where
  accepted := by simp
  count := rfl
  offset := rfl
  bytes := rfl
  node := rfl
  dispatched := rfl

/-- The loop is among the PDUs of the chunk, or it has met something else and is over. -/
theorem Reaches.along_or_stopped (fits : recv.chunk.length ≤ bufferSize) {k : ℕ}
    {state : LoopState} (reaches : recv.Reaches world selfData k state) :
    recv.Along world selfData k state ∨
      state.offset = -1 ∧ recv.dispatched = state.handed ∧
        ∃ before, recv.Along world selfData (k - 1) before ∧
          state = { before with offset := -1 } ∧ before.offset < recv.bytesReceived := by
  cases reaches with
  | start => exact Or.inl Along.start
  | next before test step =>
      rename_i k before_state
      rcases before.along_or_stopped fits with along | ⟨offset, -⟩
      · rcases along.step fits test step with ⟨-, rfl, dispatched⟩ | ⟨pdu, -, -, next⟩
        · exact Or.inr ⟨rfl, dispatched, before_state, along, rfl, test⟩
        · exact Or.inl next
      · -- the largest `size_t` is behind every chunk
        rw [offset, UInt64.lt_iff_toNat_lt, toNat_bytesReceived fits] at test
        exact absurd (Nat.lt_of_lt_of_le test fits) (by decide)

theorem Reaches.along (fits : recv.chunk.length ≤ bufferSize) {k : ℕ} {state : LoopState}
    (reaches : recv.Reaches world selfData k state) (test : state.offset < recv.bytesReceived) :
    recv.Along world selfData k state := by
  rcases reaches.along_or_stopped fits with along | ⟨offset, -⟩
  · exact along
  · rw [offset, UInt64.lt_iff_toNat_lt, toNat_bytesReceived fits] at test
    exact absurd (Nat.lt_of_lt_of_le test fits) (by decide)

theorem Reaches.unique {k : ℕ} {first second : LoopState}
    (reaches : recv.Reaches world selfData k first)
    (reaches' : recv.Reaches world selfData k second) : first = second := by
  induction reaches generalizing second with
  | start =>
      cases reaches'
      rfl
  | next before test step ih =>
      cases reaches' with
      | next before' test' step' =>
          rw [ih before'] at step
          exact Option.some.inj (step.symm.trans step')

theorem Reaches.earlier {k : ℕ} {state : LoopState}
    (reaches : recv.Reaches world selfData k state) :
    ∀ j < k, ∃ before, recv.Reaches world selfData j before ∧ before.offset < recv.bytesReceived := by
  induction reaches with
  | start => exact fun j lt => absurd lt (Nat.not_lt_zero j)
  | next before test step ih =>
      intro j lt
      rcases Nat.lt_succ_iff_lt_or_eq.mp lt with earlier | rfl
      · exact ih j earlier
      · exact ⟨_, before, test⟩

theorem Reaches.le_length (fits : recv.chunk.length ≤ bufferSize) {k : ℕ} {state : LoopState}
    (reaches : recv.Reaches world selfData k state) : k ≤ recv.chunk.length := by
  cases reaches with
  | start => exact Nat.zero_le _
  | next before test step =>
      have le := (before.along fits test).le_offset
      rw [UInt64.lt_iff_toNat_lt, toNat_bytesReceived fits] at test
      omega

theorem HandlersReturn.ends (fits : recv.chunk.length ≤ bufferSize)
    (returns : recv.HandlersReturn world selfData) :
    ∃ k state, recv.Reaches world selfData k state ∧ ¬ state.offset < recv.bytesReceived := by
  by_contra never
  have always : ∀ k, ∃ state, recv.Reaches world selfData k state := by
    intro k
    induction k with
    | zero => exact ⟨_, .start⟩
    | succ k ih =>
        obtain ⟨state, reaches⟩ := ih
        have test : state.offset < recv.bytesReceived :=
          not_not.mp fun past => never ⟨k, state, reaches, past⟩
        obtain ⟨after, step⟩ := Option.ne_none_iff_exists'.mp (returns k state reaches test)
        exact ⟨after, .next reaches test step⟩
  obtain ⟨state, reaches⟩ := always (recv.chunk.length + 1)
  have le := reaches.le_length fits
  omega

/-- At the end the handlers have got what `pollBuffer` says. -/
theorem Reaches.dispatched (fits : recv.chunk.length ≤ bufferSize) {k : ℕ} {state : LoopState}
    (reaches : recv.Reaches world selfData k state) (past : ¬ state.offset < recv.bytesReceived) :
    recv.dispatched = state.handed := by
  rcases reaches.along_or_stopped fits with along | ⟨-, dispatched, -⟩
  · rw [UInt64.lt_iff_toNat_lt, toNat_bytesReceived fits] at past
    rw [along.dispatched]
    cases recv.chunk.length - k with
    | zero => exact List.append_nil _
    | succ fuel => rw [pollLoop, if_neg past, List.append_nil]
  · exact dispatched

theorem Reaches.le_of_past {k : ℕ} {state : LoopState}
    (reaches : recv.Reaches world selfData k state) (past : ¬ state.offset < recv.bytesReceived)
    {j : ℕ} {other : LoopState} (reaches' : recv.Reaches world selfData j other) : j ≤ k := by
  by_contra later
  obtain ⟨before, here, test⟩ := reaches'.earlier k (Nat.lt_of_not_le later)
  rw [reaches.unique here] at past
  exact past test

theorem Reaches.stop (fits : recv.chunk.length ≤ bufferSize) {k : ℕ} {state : LoopState}
    (reaches : recv.Reaches world selfData k state) (test : state.offset < recv.bytesReceived)
    (nothing : recv.found state.offset = none) :
    recv.Reaches world selfData (k + 1) { state with offset := -1 } ∧
      ¬ (-1 : UInt64) < recv.bytesReceived := by
  refine ⟨.next reaches test ?_, fun test => ?_⟩
  · rw [body, nothing]
  · rw [UInt64.lt_iff_toNat_lt, toNat_bytesReceived fits] at test
    exact absurd (Nat.lt_of_lt_of_le test fits) (by decide)

theorem Reaches.returns {k n : ℕ} {state last : LoopState}
    (reaches : recv.Reaches world selfData k state) (later : recv.Reaches world selfData n last)
    (lt : k < n) : recv.body (world k) state ≠ none := by
  obtain ⟨after, next⟩ : ∃ after, recv.Reaches world selfData (k + 1) after := by
    rcases Nat.lt_or_eq_of_le lt with more | rfl
    · obtain ⟨after, next, -⟩ := later.earlier (k + 1) more
      exact ⟨after, next⟩
    · exact ⟨last, later⟩
  cases next with
  | next before _ step =>
      rw [before.unique reaches] at step
      rw [step]
      exact Option.some_ne_none after

theorem nextPdu_eq_none {buffer : ℕ → UInt8} {bytesReceived offset : ℕ}
    (unknown : buffer offset ∉ ([100, 102, 101, 3, 6, 7, 5] : List UInt8)) :
    nextPdu buffer bytesReceived offset = none := by
  unfold nextPdu
  split
  all_goals first | rfl | (rename_i type; exact absurd (by rw [type]; decide) unknown)

theorem Rejects.found {state : LoopState} (test : state.offset < recv.bytesReceived)
    (rejects : recv.Rejects state) :
    recv.found state.offset = none := by
  rw [Recv.found]
  rcases rejects with unknown | ⟨type, negative⟩
  · exact nextPdu_eq_none unknown
  · have le := UInt64.le_iff_toNat_le.mp (UInt64.le_of_lt test)
    rw [UInt64.toNat_sub_of_le _ _ (UInt64.le_of_lt test)] at negative
    unfold nextPdu
    simp only [type]
    cases handled : handleValInsert (fun i => recv.buffer (state.offset.toNat + i))
        (recv.bytesReceived.toNat - state.offset.toNat) with
    | none => rfl
    | some entry =>
        rw [handleValInsertCall, handled] at negative
        exact absurd negative (Int.not_lt.mpr (Int.natCast_nonneg _))

theorem bytesAt_behind {front tail : List UInt8} (chunk : recv.chunk = front ++ tail) :
    bytesAt recv.buffer front.length tail.length = tail := by
  have received := recv.received
  rw [chunk, List.length_append] at received
  rw [← Nat.zero_add front.length]
  exact (bytesAt_eq_append rfl received).2

theorem getElem_behind {front tail : List UInt8} (chunk : recv.chunk = front ++ tail) {j : ℕ}
    (inside : j < tail.length) : tail[j]? = some (recv.buffer (front.length + j)) := by
  have here := congrArg (fun bytes => bytes[j]?) (bytesAt_behind chunk)
  rw [← here, bytesAt, List.getElem?_map, List.getElem?_range inside, Option.map_some]

/-- The loop comes to every place behind complete PDUs whose handlers return. -/
theorem reaches_of_handled (fits : recv.chunk.length ≤ bufferSize) (pdus : List Pdu) :
    ∀ tail, (∀ pdu ∈ pdus, pdu.accepted = true) → recv.chunk = encodeAll pdus ++ tail →
      ∀ node, handleAll world (selfData, []) 0 pdus = some node →
        ∃ offset, offset.toNat = (encodeAll pdus).length ∧
          recv.Reaches world selfData pdus.length ⟨offset, node, pdus⟩ := by
  induction pdus using List.reverseRecOn with
  | nil =>
      intro tail _ _ node handled
      cases handled
      exact ⟨0, rfl, .start⟩
  | append_singleton pdus pdu ih =>
      intro tail accepted chunk node handled
      rw [handleAll_snoc] at handled
      obtain ⟨mid, before, last⟩ := Option.bind_eq_some_iff.mp handled
      obtain ⟨after, here, rfl⟩ := Option.map_eq_some_iff.mp last
      rw [encodeAll_snoc, List.append_assoc] at chunk
      obtain ⟨offset, place, reaches⟩ := ih (pdu.bytes ++ tail)
        (fun other mem => accepted other (List.mem_append_left _ mem)) chunk mid before
      have length := congrArg List.length chunk
      simp only [List.length_append, pdu.length_bytes] at length
      have pos := pdu.size_pos
      have test : offset < recv.bytesReceived := by
        rw [UInt64.lt_iff_toNat_lt, toNat_bytesReceived fits]
        omega
      have bytes : bytesAt recv.buffer offset.toNat pdu.size = pdu.bytes := by
        have behind := bytesAt_behind chunk
        rw [List.length_append, pdu.length_bytes, ← place] at behind
        exact (bytesAt_eq_append pdu.length_bytes behind).1
      have found : recv.found offset = some (pdu, pdu.size) := by
        rw [Recv.found, toNat_bytesReceived fits]
        exact nextPdu_of_bytesAt (accepted pdu (by simp)) bytes (by omega)
      rw [Nat.zero_add] at here
      refine ⟨offset + UInt64.ofNat pdu.size, ?_, ?_⟩
      · rw [toNat_offset_add fits test pdu.size_le, encodeAll_snoc, List.length_append,
          pdu.length_bytes, place]
      · rw [List.length_append, List.length_singleton]
        refine .next reaches test ?_
        rw [Recv.body, found]
        simp only [here, Option.map_some]

theorem handlersReturn_of_handled (fits : recv.chunk.length ≤ bufferSize) (pdus : List Pdu)
    (tail : List UInt8) (accepted : ∀ pdu ∈ pdus, pdu.accepted = true)
    (chunk : recv.chunk = encodeAll pdus ++ tail)
    (unknown : ∀ type ∈ tail.head?, type ∉ ([100, 102, 101, 3, 6, 7, 5] : List UInt8))
    (handled : (handleAll world (selfData, []) 0 pdus).isSome = true) :
    recv.HandlersReturn world selfData := by
  obtain ⟨node, handled⟩ := Option.isSome_iff_exists.mp handled
  obtain ⟨offset, place, last⟩ := reaches_of_handled fits pdus tail accepted chunk node handled
  obtain ⟨n, ended, reaches_end, past⟩ : ∃ n ended, recv.Reaches world selfData n ended ∧
      ¬ ended.offset < recv.bytesReceived := by
    by_cases test : offset < recv.bytesReceived
    · have inside : 0 < tail.length := by
        have length := congrArg List.length chunk
        rw [List.length_append] at length
        rw [UInt64.lt_iff_toNat_lt, toNat_bytesReceived fits] at test
        omega
      have type := getElem_behind chunk inside
      rw [← List.head?_eq_getElem?, ← place] at type
      exact ⟨_, _, last.stop fits test (nextPdu_eq_none (unknown _ type))⟩
    · exact ⟨_, _, last, test⟩
  intro k state reaches test
  refine reaches.returns reaches_end (Nat.lt_of_le_of_ne (reaches_end.le_of_past past reaches) ?_)
  rintro rfl
  rw [reaches.unique reaches_end] at test
  exact past test

end Recv

/-- The loop ends within as many iterations as there are bytes, runs the handlers of the PDUs
of a chunk in order, and ends where it meets something else. -/
theorem pollWhile_frames (world : ℕ → World) (selfData : SelfData) (recv : Recv)
    (fits : recv.chunk.length ≤ bufferSize) (returns : recv.HandlersReturn world selfData) :
    ∃ k state, recv.Reaches world selfData k state ∧ ¬ state.offset < recv.bytesReceived ∧
      k ≤ recv.chunk.length ∧
      (∀ j other, recv.Reaches world selfData j other → j ≤ k ∧ ¬ other.offset < 0) ∧
      (∀ pdus : List Pdu, (∀ pdu ∈ pdus, pdu.accepted = true) → recv.chunk = encodeAll pdus →
        state.handed = pdus ∧ handleAll world (selfData, []) 0 pdus = some state.node) ∧
      ∀ j other, recv.Reaches world selfData j other → other.offset < recv.bytesReceived →
        recv.Rejects other →
          bytesAt recv.buffer 0 other.offset.toNat = encodeAll other.handed ∧
            handleAll world (selfData, []) 0 other.handed = some other.node ∧
            k = j + 1 ∧ state = { other with offset := -1 } := by
  obtain ⟨k, state, reaches, past⟩ := returns.ends fits
  refine ⟨k, state, reaches, past, reaches.le_length fits, ?_, ?_, ?_⟩
  · exact fun j other reaches' => ⟨reaches.le_of_past past reaches', UInt64.not_lt_zero⟩
  · intro pdus accepted chunk
    have handed : state.handed = pdus := by
      rw [← reaches.dispatched fits past, Recv.dispatched_of_encodeAll accepted chunk]
    refine ⟨handed, ?_⟩
    rw [← handed]
    rcases reaches.along_or_stopped fits with along | ⟨-, -, before, along, stopped, -⟩
    · exact along.node
    · rw [stopped]
      exact along.node
  · intro j other reaches' test rejects
    have along := reaches'.along fits test
    obtain ⟨last, ended⟩ := reaches'.stop fits test (rejects.found test)
    have same : k = j + 1 :=
      Nat.le_antisymm (last.le_of_past ended reaches) (reaches.le_of_past past last)
    subst same
    exact ⟨along.offset ▸ along.bytes, along.node, rfl, reaches.unique last⟩

end

def aloneNode : SelfData := q4 (.setup ⟨1, 1⟩)

def quietWorld (_ : ℕ) : World := ⟨⟨0, fun _ => true⟩, none⟩

/-- Two entries are stored, the first is removed, and the predecessor leaves. -/
def fourPdus : List Pdu :=
  [shortInsert,
    .valInsert (Vector.replicate ssnLength 50)
      ⟨⟨[65], Nat.le_of_ble_eq_true rfl⟩, ⟨[], nil_fits⟩⟩,
    .valRemove (Vector.replicate ssnLength 49), .netCloseConnection]

def namesOf (selfData : SelfData) : Option (List UInt8) × Option (List UInt8) :=
  let nameOf (key : Ssn) : Option (List UInt8) :=
    (selfData.hashTable.bind fun ht => htLookup ht key).map fun pair => pair.name.val
  (nameOf (Vector.replicate ssnLength 49), nameOf (Vector.replicate ssnLength 50))

theorem handled_fourPdus : (handleAll quietWorld (aloneNode, []) 0 fourPdus).map
    (fun node => namesOf node.1) = some (none, some [65]) := by decide +kernel

/-- The bytes of an insert, of no PDU, and of four more. -/
def badByte : List UInt8 := encodeAll [shortInsert] ++ 9 :: encodeAll fourPdus

/-- All four PDUs are handled; behind a byte that starts no PDU none is. -/
theorem pollWhile_frames_fourPdus :
    (∃ k state, (Recv.over 0 (encodeAll fourPdus)).Reaches quietWorld aloneNode k state ∧
      k ≤ 45 ∧ state.handed = fourPdus ∧ namesOf state.node.1 = (none, some [65])) ∧
    ∃ state, (Recv.over 0 badByte).Reaches quietWorld aloneNode 2 state ∧
      state.handed = [shortInsert] ∧ namesOf state.node.1 = (some [], none) := by
  constructor
  · have returns : (Recv.over 0 (encodeAll fourPdus)).HandlersReturn quietWorld aloneNode := by
      refine Recv.handlersReturn_of_handled (by decide) fourPdus [] (by decide)
        (List.append_nil _).symm (by simp) ?_
      obtain ⟨node, handled, -⟩ := Option.map_eq_some_iff.mp handled_fourPdus
      exact Option.isSome_iff_exists.mpr ⟨node, handled⟩
    obtain ⟨k, state, reaches, -, le, -, all, -⟩ :=
      pollWhile_frames quietWorld aloneNode _ (by decide) returns
    obtain ⟨handed, node⟩ := all fourPdus (by decide) rfl
    have names := handled_fourPdus
    rw [node] at names
    exact ⟨k, state, reaches, le, handed, Option.some.inj names⟩
  · have stored : (handleAll quietWorld (aloneNode, []) 0 [shortInsert]).map
        (fun node => namesOf node.1) = some (some [], none) := by decide +kernel
    obtain ⟨node, handled, names⟩ := Option.map_eq_some_iff.mp stored
    have returns : (Recv.over 0 badByte).HandlersReturn quietWorld aloneNode := by
      refine Recv.handlersReturn_of_handled (by decide) [shortInsert] (9 :: encodeAll fourPdus)
        (by decide) rfl (by simp) ?_
      exact Option.isSome_iff_exists.mpr ⟨node, handled⟩
    obtain ⟨k, state, reaches, -, -, -, -, rejected⟩ :=
      pollWhile_frames quietWorld aloneNode _ (by decide) returns
    obtain ⟨offset, place, here⟩ : ∃ offset : UInt64,
        offset.toNat = (encodeAll [shortInsert]).length ∧
          (Recv.over 0 badByte).Reaches quietWorld aloneNode 1 ⟨offset, node, [shortInsert]⟩ :=
      Recv.reaches_of_handled (by decide) [shortInsert] (9 :: encodeAll fourPdus) (by decide) rfl
        node handled
    obtain rfl : offset = 15 := UInt64.toNat_inj.mp place
    have test : (15 : UInt64) < (Recv.over 0 badByte).bytesReceived := by decide
    have unknown : (Recv.over 0 badByte).buffer 15 ∉
        ([100, 102, 101, 3, 6, 7, 5] : List UInt8) := by decide
    obtain ⟨-, -, rfl, rfl⟩ := rejected 1 _ here test (Or.inl unknown)
    exact ⟨_, reaches, rfl, names⟩

/-! ## PDUs that are cut short -/

def fixedSize : UInt8 → Option ℕ
  | 102 => some 19
  | 101 => some 13
  | 3 => some 14
  | 6 => some 3
  | 7 => some 7
  | _ => none

def valInsertReads (buffer : ℕ → UInt8) (bytesReceived : ℕ) : ℕ :=
  if bytesReceived < 1 + ssnLength + 1 then 1
  else
    let nameLength := buffer 13
    if bytesReceived < 14 + nameLength.toNat then 14
    else
      let emailLength := buffer (14 + nameLength.toNat)
      if bytesReceived < 15 + nameLength.toNat + emailLength.toNat then 15 + nameLength.toNat
      else 15 + nameLength.toNat + emailLength.toNat

def readsTo (buffer : ℕ → UInt8) (bytesReceived offset : ℕ) : ℕ :=
  if buffer offset = 100 then
    offset + valInsertReads (fun i => buffer (offset + i)) (bytesReceived - offset)
  else offset + (fixedSize (buffer offset)).getD 1

/-- The start of a PDU of fixed size, not all of it. -/
def CutShort (tail : List UInt8) : Prop :=
  ∃ type size, tail.head? = some type ∧ fixedSize type = some size ∧ tail.length < size

/-- The start of a `VAL_INSERT` up to the end of the name. -/
def LacksEmailLength (tail : List UInt8) : Prop :=
  tail.head? = some 100 ∧ ∃ nameLength, tail[13]? = some nameLength ∧
    tail.length = 14 + nameLength.toNat

/-- Handlers get PDUs only of which all bytes have been received, the node is at every
moment as these left it, and no read goes past the buffer. -/
def Recv.TakesOnlyWhole (recv : Recv) (world : ℕ → World) (selfData : SelfData) : Prop :=
  ∀ k state, recv.Reaches world selfData k state →
    (∃ pdus : List Pdu, (∀ pdu ∈ pdus, pdu.accepted = true) ∧ encodeAll pdus <+: recv.chunk ∧
      handleAll world (selfData, []) 0 pdus = some state.node) ∧
    (state.offset < recv.bytesReceived →
      (∀ pdu size, recv.found state.offset = some (pdu, size) →
        state.offset.toNat + size ≤ recv.chunk.length) ∧
      readsTo recv.buffer recv.chunk.length state.offset.toNat ≤ bufferSize)

/-- Behind complete PDUs whose handlers return, a chunk never ends in a PDU of fixed size,
nor does one that fills the buffer end where the length of an email should follow. -/
def NeverCutShort (world : ℕ → World) (selfData : SelfData) (chunk : List UInt8) : Prop :=
  ∀ (pdus : List Pdu) (tail : List UInt8), (∀ pdu ∈ pdus, pdu.accepted = true) →
    chunk = encodeAll pdus ++ tail → (handleAll world (selfData, []) 0 pdus).isSome = true →
      ¬ CutShort tail ∧ ¬ (chunk.length = bufferSize ∧ LacksEmailLength tail)

section

variable {world : ℕ → World} {selfData : SelfData} {recv : Recv}

theorem fixedSize_of_nextPdu {buffer : ℕ → UInt8} {bytesReceived offset size : ℕ} {pdu : Pdu}
    (next : nextPdu buffer bytesReceived offset = some (pdu, size)) (fixed : buffer offset ≠ 100) :
    (fixedSize (buffer offset)).getD 1 = size := by
  unfold nextPdu at next
  split at next
  · rename_i type
    exact absurd type fixed
  all_goals first
    | cases next; rename_i type; rw [type]; rfl
    | cases next

theorem nextPdu_of_fixedSize {buffer : ℕ → UInt8} {bytesReceived offset size : ℕ}
    (fixed : fixedSize (buffer offset) = some size) :
    ∃ pdu, nextPdu buffer bytesReceived offset = some (pdu, size) := by
  unfold nextPdu
  unfold fixedSize at fixed
  split at fixed
  all_goals first
    | cases fixed; rename_i type; simp only [type]; exact ⟨_, rfl⟩
    | cases fixed

theorem Recv.Along.split {k : ℕ} {state : LoopState} (along : recv.Along world selfData k state)
    (le : state.offset.toNat ≤ recv.chunk.length) :
    ∃ tail, recv.chunk = encodeAll state.handed ++ tail ∧
      tail.length = recv.chunk.length - state.offset.toNat := by
  have received := recv.received
  rw [← Nat.add_sub_cancel' le, bytesAt_add, along.offset, along.bytes] at received
  exact ⟨_, received.symm, by rw [length_bytesAt, along.offset]⟩

/-- In a chunk that is not cut short an iteration stays within the bytes received. -/
theorem Recv.Along.whole (fits : recv.chunk.length ≤ bufferSize)
    (never : NeverCutShort world selfData recv.chunk) {k : ℕ} {state : LoopState}
    (along : recv.Along world selfData k state) (test : state.offset < recv.bytesReceived) :
    (∀ pdu size, recv.found state.offset = some (pdu, size) →
      state.offset.toNat + size ≤ recv.chunk.length) ∧
    readsTo recv.buffer recv.chunk.length state.offset.toNat ≤ bufferSize := by
  rw [UInt64.lt_iff_toNat_lt, Recv.toNat_bytesReceived fits] at test
  obtain ⟨tail, chunk, length⟩ := along.split test.le
  have some_byte : 0 < tail.length := by omega
  have head : tail.head? = some (recv.buffer state.offset.toNat) := by
    rw [List.head?_eq_getElem?, Recv.getElem_behind chunk some_byte, along.offset, Nat.add_zero]
  obtain ⟨not_cut, not_lacking⟩ := never state.handed tail along.accepted chunk
    (by rw [along.node]; rfl)
  -- a PDU of fixed size has all its bytes
  have fixed : state.offset.toNat + (fixedSize (recv.buffer state.offset.toNat)).getD 1 ≤
      recv.chunk.length := by
    cases size : fixedSize (recv.buffer state.offset.toNat) with
    | none => exact test
    | some size' =>
        by_contra beyond
        rw [Option.getD_some] at beyond
        exact not_cut ⟨_, size', head, size, by omega⟩
  constructor
  · intro pdu size found
    rw [Recv.found, Recv.toNat_bytesReceived fits] at found
    by_cases insert : recv.buffer state.offset.toNat = 100
    · exact (nextPdu_eq_some test found).2.2.2 insert
    · rw [fixedSize_of_nextPdu found insert] at fixed
      exact fixed
  · rw [readsTo]
    by_cases insert : recv.buffer state.offset.toNat = 100
    · rw [if_pos insert, valInsertReads]
      split
      · omega
      · rename_i fields
        rw [ssnLength] at fields
        dsimp only
        split
        · omega
        · split
          · -- the length of the email may be the first byte behind the chunk
            by_contra beyond
            refine not_lacking ⟨by omega, by rw [head, insert],
              recv.buffer (state.offset.toNat + 13), ?_, by omega⟩
            rw [Recv.getElem_behind chunk (by omega), along.offset]
          · omega
    · rw [if_neg insert]
      omega

theorem Recv.Along.offset_le (fits : recv.chunk.length ≤ bufferSize)
    (never : NeverCutShort world selfData recv.chunk) {k : ℕ} {state : LoopState}
    (along : recv.Along world selfData k state) (reaches : recv.Reaches world selfData k state) :
    state.offset.toNat ≤ recv.chunk.length := by
  cases reaches with
  | start => exact Nat.zero_le _
  | next before test step =>
      have along_before := before.along fits test
      have whole := (along_before.whole fits never test).1
      rcases along_before.step fits test step with ⟨-, rfl, -⟩ | ⟨pdu, found, handed, -⟩
      · -- behind an end of the loop there are no PDUs
        have last := along_before.count
        have count := along.count
        dsimp only at count
        omega
      · have le := whole pdu pdu.size found
        rw [along_before.offset] at le
        rw [along.offset, handed, encodeAll_snoc, List.length_append, pdu.length_bytes]
        exact le

theorem nextPdu_front {pdu : Pdu} {rest : List UInt8} (accepted : pdu.accepted = true)
    (chunk : recv.chunk = pdu.bytes ++ rest) :
    nextPdu recv.buffer recv.chunk.length 0 = some (pdu, pdu.size) := by
  have received := recv.received
  rw [chunk, List.length_append] at received
  refine nextPdu_of_bytesAt accepted ?_ ?_
  · rw [← pdu.length_bytes]
    exact (bytesAt_eq_append rfl received).1
  · rw [chunk, List.length_append, pdu.length_bytes]
    omega

theorem Pdu.bytes_cancel {first second : Pdu} {rest rest' : List UInt8}
    (accepted : first.accepted = true) (accepted' : second.accepted = true)
    (same : first.bytes ++ rest = second.bytes ++ rest') : first = second ∧ rest = rest' := by
  have found := @nextPdu_front (.over 0 (first.bytes ++ rest)) first rest accepted rfl
  have found' := @nextPdu_front (.over 0 (first.bytes ++ rest)) second rest' accepted' same
  rw [found] at found'
  cases found'
  exact ⟨rfl, List.append_cancel_left same⟩

theorem encodeAll_eq_append {pdus whole : List Pdu} {tail : List UInt8}
    (accepted : ∀ pdu ∈ pdus, pdu.accepted = true) (accepted' : ∀ pdu ∈ whole, pdu.accepted = true)
    (same : encodeAll whole = encodeAll pdus ++ tail) :
    ∃ rest, (∀ pdu ∈ rest, pdu.accepted = true) ∧ tail = encodeAll rest := by
  induction pdus generalizing whole with
  | nil => exact ⟨whole, accepted', same.symm⟩
  | cons pdu pdus ih =>
      obtain ⟨first, others⟩ := List.forall_mem_cons.mp accepted
      cases whole with
      | nil =>
          have length := congrArg List.length same
          have pos := pdu.size_pos
          rw [List.length_append, length_encodeAll_cons] at length
          simp only [encodeAll, List.flatMap_nil, List.length_nil] at length
          omega
      | cons pdu' whole =>
          obtain ⟨first', others'⟩ := List.forall_mem_cons.mp accepted'
          rw [encodeAll, encodeAll, List.flatMap_cons, List.flatMap_cons, List.append_assoc] at same
          exact ih others others' (Pdu.bytes_cancel first' first same).2

theorem Pdu.size_of_fixed {pdu : Pdu} {rest : List Pdu} {type : UInt8} {size : ℕ}
    (head : (encodeAll (pdu :: rest)).head? = some type) (fixed : fixedSize type = some size) :
    size = pdu.size := by
  cases pdu <;> cases head <;> cases fixed <;> rfl

theorem Pdu.size_of_insert {pdu : Pdu} {rest : List Pdu} {nameLength : UInt8}
    (head : (encodeAll (pdu :: rest)).head? = some 100)
    (at_name : (encodeAll (pdu :: rest))[13]? = some nameLength) :
    14 + nameLength.toNat < pdu.size := by
  cases pdu with
  | valInsert ssn pair =>
      -- the length of the name stands behind the type and the twelve bytes of the key
      have split : encodeAll (.valInsert ssn pair :: rest) = (100 :: ssn.toList) ++
          (UInt8.ofNat pair.name.val.length :: (pair.name.val ++ (textBytes pair.email ++
            encodeAll rest))) := by
        simp [encodeAll, Pdu.bytes, Pdu.type, textBytes]
      have key : (100 :: ssn.toList).length = 13 := by simp [ssnLength]
      rw [split, List.getElem?_append_right (by rw [key]), key] at at_name
      have name := pair.name.property
      rw [← Option.some.inj at_name, UInt8.toNat_ofNat', Pdu.size]
      omega
  | _ => cases head

theorem neverCutShort_of_whole {whole : List Pdu} (accepted : ∀ pdu ∈ whole, pdu.accepted = true) :
    NeverCutShort world selfData (encodeAll whole) := by
  intro pdus tail accepted' same _
  obtain ⟨rest, accepted_rest, rfl⟩ := encodeAll_eq_append accepted' accepted same
  cases rest with
  | nil =>
      constructor
      · rintro ⟨type, size, head, -⟩
        cases head
      · rintro ⟨-, head, -⟩
        cases head
  | cons pdu rest =>
      have length := length_encodeAll_cons pdu rest
      constructor
      · rintro ⟨type, size, head, fixed, short⟩
        rw [Pdu.size_of_fixed head fixed] at short
        omega
      · rintro ⟨-, head, nameLength, at_name, short⟩
        have longer := Pdu.size_of_insert head at_name
        omega

/-- The loop takes only whole PDUs exactly when none of fixed size is cut short and no
read of an email's length goes past the buffer. -/
theorem Recv.takesOnlyWhole_iff (world : ℕ → World) (selfData : SelfData) (recv : Recv)
    (fits : recv.chunk.length ≤ bufferSize) :
    recv.TakesOnlyWhole world selfData ↔ NeverCutShort world selfData recv.chunk := by
  constructor
  · intro takes pdus tail accepted chunk handled
    obtain ⟨node, handled⟩ := Option.isSome_iff_exists.mp handled
    obtain ⟨offset, place, reaches⟩ := Recv.reaches_of_handled fits pdus tail accepted chunk node
      handled
    have length := congrArg List.length chunk
    rw [List.length_append] at length
    obtain ⟨-, inside⟩ := takes _ _ reaches
    dsimp only at inside
    have here : ∀ {type}, tail.head? = some type → 0 < tail.length ∧
        recv.buffer offset.toNat = type ∧ offset < recv.bytesReceived := by
      intro type head
      have pos : 0 < tail.length := by
        cases tail with
        | nil => cases head
        | cons _ _ => exact Nat.succ_pos _
      rw [List.head?_eq_getElem?, Recv.getElem_behind chunk pos, Nat.add_zero, ← place] at head
      refine ⟨pos, Option.some.inj head, ?_⟩
      rw [UInt64.lt_iff_toNat_lt, Recv.toNat_bytesReceived fits]
      omega
    constructor
    · rintro ⟨type, size, head, fixed, short⟩
      obtain ⟨-, type_eq, test⟩ := here head
      rw [← type_eq] at fixed
      obtain ⟨pdu, next⟩ : ∃ pdu, nextPdu recv.buffer recv.bytesReceived.toNat offset.toNat =
        some (pdu, size) := nextPdu_of_fixedSize fixed
      have le := (inside test).1 pdu size next
      omega
    · rintro ⟨full, head, nameLength, field, cut⟩
      obtain ⟨-, type_eq, test⟩ := here head
      rw [Recv.getElem_behind chunk (by omega), ← place, Option.some.injEq] at field
      have le := (inside test).2
      rw [readsTo, if_pos type_eq, valInsertReads, ssnLength] at le
      simp only [field] at le
      rw [if_neg (by omega), if_neg (by omega), if_pos (by omega)] at le
      omega
  · intro never k state reaches
    have pdus_before : ∀ {k state}, recv.Along world selfData k state →
        state.offset.toNat ≤ recv.chunk.length →
          ∃ pdus : List Pdu, (∀ pdu ∈ pdus, pdu.accepted = true) ∧
            encodeAll pdus <+: recv.chunk ∧
              handleAll world (selfData, []) 0 pdus = some state.node := by
      intro k state along le
      obtain ⟨tail, chunk, -⟩ := along.split le
      exact ⟨state.handed, along.accepted, ⟨tail, chunk.symm⟩, along.node⟩
    refine ⟨?_, fun test => (reaches.along fits test).whole fits never test⟩
    rcases reaches.along_or_stopped fits with along | ⟨-, -, before, along, stopped, test⟩
    · exact pdus_before along (along.offset_le fits never reaches)
    · rw [UInt64.lt_iff_toNat_lt, Recv.toNat_bytesReceived fits] at test
      have before := pdus_before along test.le
      rw [stopped]
      exact before

end

/-- Two inserts, a remove and a close in one chunk. -/
theorem takesOnlyWhole_fourPdus :
    (Recv.over 0 (encodeAll fourPdus)).TakesOnlyWhole quietWorld aloneNode :=
  (Recv.takesOnlyWhole_iff quietWorld aloneNode _ (by decide)).mpr
    (neverCutShort_of_whole (by decide))

/-- The type byte of a `NET_NEW_RANGE` alone. -/
theorem takesOnlyWhole_fails : ¬ ∀ (world : ℕ → World) (selfData : SelfData) (recv : Recv),
    1 ≤ recv.chunk.length → recv.chunk.length ≤ bufferSize → recv.TakesOnlyWhole world selfData := by
  intro claim
  have takes := claim quietWorld aloneNode (Recv.over 0 [6]) (by decide) (by decide)
  have whole := ((takes 0 _ .start).2 (by decide)).1 (.netNewRange 0 0) 3 rfl
  exact absurd whole (by decide)

end DhtRing

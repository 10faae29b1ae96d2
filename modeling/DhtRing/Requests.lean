import DhtRing.Progress
import DhtRing.TableCalls

/-!
# Requests on their way

The requests at each place, what the handlers do to them, and the tables they work
on, as far as a membership change needs it.
-/

set_option autoImplicit false

namespace DhtRing

def Net.requests (net : Net) (loc : Loc) : List Msg :=
  (net.queue loc).filter fun msg => msg.pdu.requestKey.isSome

def transfer (entry : Ssn × ValuePair) : Msg := ⟨.valInsert entry.1 entry.2, none⟩

section

variable {net : Net} {loc fd : Loc} {msg : Msg} {rest : List Msg} {req : Option ℕ}

theorem mem_requests :
    msg ∈ net.requests loc ↔ msg ∈ net.queue loc ∧ msg.pdu.requestKey.isSome := by
  rw [Net.requests, List.mem_filter]

@[simp] theorem setNode_requests (n : Addr) (proc : Proc) :
    (net.setNode n proc).requests = net.requests := rfl

theorem setQueue_requests (msgs : List Msg) :
    (net.setQueue loc msgs).requests =
      Function.update net.requests loc (msgs.filter fun msg => msg.pdu.requestKey.isSome) := by
  funext other
  rw [Net.requests, setQueue_queue]
  by_cases here : other = loc
  · rw [here, Function.update_self, Function.update_self]
  · rw [Function.update_of_ne here, Function.update_of_ne here]
    rfl

theorem push_requests (new : Msg) :
    (net.push fd new).requests = if new.pdu.requestKey.isSome
      then Function.update net.requests fd (net.requests fd ++ [new]) else net.requests := by
  rw [Net.push, setQueue_requests, List.filter_append]
  by_cases request : new.pdu.requestKey.isSome
  · simp only [List.filter_singleton, request, if_true, cond_true]
    rfl
  · simp only [List.filter_singleton, Bool.eq_false_iff.mpr request, cond_false, List.append_nil,
      Bool.false_eq_true, if_false]
    exact Function.update_eq_self fd net.requests

theorem requests_of_plain (queue : net.queue loc = msg :: rest)
    (plain : msg.pdu.requestKey = none) :
    (net.setQueue loc rest).requests = net.requests := by
  rw [setQueue_requests]
  have same : rest.filter (fun msg => msg.pdu.requestKey.isSome) = net.requests loc := by
    rw [Net.requests, queue, List.filter_cons_of_neg (by simp [plain])]
  rw [same]
  exact Function.update_eq_self loc net.requests

theorem requests_of_head (queue : net.queue loc = msg :: rest)
    (request : msg.pdu.requestKey.isSome) :
    net.requests loc = msg :: (net.setQueue loc rest).requests loc := by
  rw [setQueue_requests, Function.update_self, Net.requests, queue]
  exact List.filter_cons_of_pos (p := fun msg : Msg => msg.pdu.requestKey.isSome) request

theorem performAll_requests_plain {effects : List Effect}
    (plain : ∀ fd pdu, .tcp fd pdu ∈ effects → pdu.requestKey = none) :
    (net.performAll req effects).requests = net.requests := by
  refine performAll_induct (P := fun other => other.requests = net.requests) rfl effects ?_
  intro other effect mem same
  cases effect with
  | tcp fd pdu =>
      simp only [Net.perform]
      split
      · exact same
      · rw [push_requests, if_neg (by simp [plain fd pdu mem])]
        exact same
  | _ => exact same

/-- The entries of a transfer follow each other to an open place. -/
theorem performAll_insertAll (is_open : net.shut fd = false) (entries : List (Ssn × ValuePair)) :
    (net.performAll none (insertAll fd entries)).requests =
      Function.update net.requests fd (net.requests fd ++ entries.map transfer) := by
  have sent : insertAll fd entries = sends fd (entries.map fun entry => .valInsert entry.1 entry.2) := by
    rw [insertAll, sends, List.map_map]
    rfl
  rw [sent, performAll_sends is_open, setQueue_requests, List.filter_append, List.map_map]
  have requests : ∀ msg ∈ entries.map transfer, msg.pdu.requestKey.isSome = true := by
    intro msg mem
    obtain ⟨entry, -, rfl⟩ := List.mem_map.mp mem
    rfl
  exact congrArg _ (congrArg _ (List.filter_eq_self.mpr requests))

end

/-! ## Tables -/

/-- Table and key array are in step, and every key is in the node's range. -/
def Tidy (selfData : SelfData) : Prop :=
  ∃ keys, Mirrored selfData keys ∧ keys.length ≤ maxSize ∧
    ∀ key ∈ keys, checkRange selfData key = true

def Net.stored (net : Net) (n : Addr) (key : Ssn) : Option ValuePair :=
  if (net.node n).pc.inRing then (net.node n).selfData.get key else none

def Pdu.call : Pdu → Option TableCall
  | .valInsert ssn pair => some (.insert ssn pair)
  | .valRemove ssn => some (.remove ssn)
  | .valLookup ssn sender => some (.lookup ssn sender)
  | _ => none

section

variable {env : Env} {selfData : SelfData} {keys : List Ssn} {ssn : Ssn}

theorem Tidy.range (tidy : Tidy selfData) {key : Ssn} (stored : selfData.get key ≠ none) :
    checkRange selfData key = true := by
  obtain ⟨keys, mirrored, -, inside⟩ := tidy
  apply inside
  rw [← mirrored.get_isSome]
  exact Option.isSome_iff_ne_none.mpr stored

theorem Tidy.of_create (empty : selfData.hashTable = some htCreate) : Tidy selfData :=
  ⟨[], ⟨htCreate, empty, mirrors_htCreate _⟩, Nat.zero_le _, by simp⟩

theorem Tidy.widen (tidy : Tidy selfData) {other : SelfData}
    (table : other.hashTable = selfData.hashTable) (ssns : other.ssns = selfData.ssns)
    (wider : ∀ key, checkRange selfData key = true → checkRange other key = true) : Tidy other := by
  obtain ⟨keys, ⟨ht, stored, mirrors⟩, room, inside⟩ := tidy
  exact ⟨keys, ⟨ht, table.trans stored, ssns ▸ mirrors⟩, room,
    fun key mem => wider key (inside key mem)⟩

/-- A request in range keeps the table tidy, when a free slot is there for a new key and
a remove frees the slot of a key in the bucket that it searches. -/
theorem Tidy.serve (tidy : Tidy selfData) {pdu : Pdu} {call : TableCall}
    (asks : pdu.call = some call)
    (key : pdu.requestKey = some ssn) (in_range : checkRange selfData ssn = true)
    (room : HasRoom selfData call) (bucket : ScansBucket selfData call) {outcome : Outcome}
    (dispatched : dispatch env selfData pdu = some outcome) :
    outcome.ctl = .run ∧ Tidy outcome.selfData ∧
      ∀ effect ∈ outcome.effects, ∃ dest reply, effect = .udp dest reply := by
  obtain ⟨keys, mirrored, small, inside⟩ := tidy
  obtain ⟨ht, table, mirrors⟩ := id mirrored
  cases pdu with
  | valInsert ssn pair =>
      cases asks
      cases key
      cases dispatched
      cases resident : ht.resident ssn with
      | some other =>
          obtain ⟨run, after⟩ := handleHtInsert_present mirrored table in_range resident pair
          rw [run]
          exact ⟨rfl, ⟨keys, after, small, inside⟩, by simp⟩
      | none =>
          have space : keys.length < maxSize := by
            have := room in_range ht table resident
            rwa [show getNumEntries ht = keys.length from mirrors.length] at this
          have run := handleHtInsert_absent mirrored table in_range resident pair
          rw [if_pos space] at run
          rw [run.1]
          refine ⟨rfl, ⟨keys ++ [ssn], run.2, by simpa using Nat.succ_le_of_lt space, ?_⟩, by simp⟩
          intro key mem
          rcases List.mem_append.mp mem with old | new
          · exact inside key old
          · rw [List.mem_singleton.mp new]
            exact in_range
  | valRemove ssn =>
      cases asks
      cases key
      cases dispatched
      have scan := mirrored.findSsn table ssn
      have right := bucket in_range
      rw [SelfData.firstMatch, mirrored.keyList, List.find?_eq_bind_findIdx?_getElem?] at right
      rw [handleHtRemove, if_pos in_range, table]
      cases search : keys.findIdx? fun key => decide (ckey key = ckey ssn) with
      | none =>
          simp only [scan, search]
          exact ⟨trivial, ⟨keys, mirrored, small, inside⟩, by simp⟩
      | some i =>
          obtain ⟨bound, agrees, -⟩ := List.findIdx?_eq_some_iff_getElem.mp search
          rw [decide_eq_true_eq] at agrees
          have at_i : keys[i]? = some keys[i] := List.getElem?_eq_getElem bound
          rw [search, Option.bind_some, at_i] at right
          have resident := Ht.resident_of_stored mirrors.sound ⟨right _ rfl, agrees⟩
            ((mirrors.present _).mpr (List.getElem_mem bound))
          simp only [scan, search]
          rw [show getNumEntries ht = keys.length from mirrors.length]
          refine ⟨trivial, ⟨keys.eraseIdx i, ⟨_, rfl, mirrors.remove resident at_i⟩, ?_, ?_⟩, by simp⟩
          · exact Nat.le_trans (List.length_eraseIdx_le ..) small
          · intro key mem
            exact inside key (List.mem_of_mem_eraseIdx mem)
  | valLookup ssn sender =>
      cases asks
      cases key
      cases dispatched
      have same : Tidy (handleHtLookup selfData ssn sender).selfData := by
        rw [handleHtLookup_selfData]
        exact ⟨keys, mirrored, small, inside⟩
      refine ⟨?_, same, ?_⟩
      · rw [handleHtLookup, if_pos in_range, table]
        dsimp only
        split <;> rfl
      · intro effect mem
        rw [handleHtLookup, if_pos in_range, table] at mem
        dsimp only at mem
        split at mem
        · exact ⟨_, _, List.mem_singleton.mp mem⟩
        · cases mem
  | _ => cases key

/-- The node of `selfData` once it has connected to `src` and kept the lower half. -/
def SelfData.halved (env : Env) (selfData : SelfData) (src : Addr) : SelfData :=
  { selfData with
    rangeEnd := middlePoint selfData.rangeStart selfData.rangeEnd
    successor := ⟨some (env.conn selfData src), src⟩
    fdsSuccessor := some (env.conn selfData src) }

def SelfData.grants (selfData : SelfData) (oldSucc : Addr) : Pdu :=
  .netJoinResponse oldSucc (middlePoint selfData.rangeStart selfData.rangeEnd + 1) selfData.rangeEnd

/-- A split with a tidy table: the entries outside the lower half are sent after the
response and removed. -/
structure Splits (env : Env) (selfData : SelfData) (keys : List Ssn) (src oldSucc : Addr)
    (pre : List Effect) (outcome : Outcome) : Prop where
  effects : outcome.effects = pre ++ .connect (env.conn selfData src) ::
    .tcp (.up (env.conn selfData src)) (selfData.grants oldSucc) ::
      insertAll (.up (env.conn selfData src))
        (selfData.listed (keys.filter fun key => !checkRange (selfData.halved env src) key))
  wiring : outcome.selfData.wiring = (selfData.halved env src).wiring
  mirrored : Mirrored outcome.selfData (keys.filter (checkRange (selfData.halved env src)))
  get : ∀ key, outcome.selfData.get key =
    if checkRange (selfData.halved env src) key = false then none else selfData.get key

theorem checkRange_of_wiring {first second : SelfData} (same : first.wiring = second.wiring)
    (key : Ssn) : checkRange first key = checkRange second key := by
  have start : first.rangeStart = second.rangeStart := congrArg Wiring.rangeStart same
  have stop : first.rangeEnd = second.rangeEnd := congrArg Wiring.rangeEnd same
  rw [checkRange, checkRange, start, stop]

variable {src oldSucc : Addr} {pre : List Effect} {outcome : Outcome}

theorem Splits.tidy (splits : Splits env selfData keys src oldSucc pre outcome)
    (room : keys.length ≤ maxSize) : Tidy outcome.selfData := by
  refine ⟨_, splits.mirrored, Nat.le_trans (List.length_filter_le ..) room, ?_⟩
  intro key mem
  rw [checkRange_of_wiring splits.wiring]
  exact (List.mem_filter.mp mem).2

variable (maxSpan : UInt8)

/-- A node with two neighbours that is named splits. -/
theorem handleNetJoin_named {max : Addr} (linked : selfData.predecessor ≠ none)
    (linked' : selfData.successor.socket ≠ none) (named : max = selfData.listening)
    (answered : env.answers src = true) (mirrored : Mirrored selfData keys) :
    (handleNetJoin env selfData src maxSpan max).ctl = .run ∧
      Splits env selfData keys src selfData.successor.destAddr
        (sendSuccessor selfData .netCloseConnection) (handleNetJoin env selfData src maxSpan max) := by
  let conn := env.conn selfData src
  let wired := { selfData with
    successor := ⟨some conn, src⟩
    fdsSuccessor := some conn }
  obtain ⟨ht, ssns, run, after, values⟩ := sendNewRangeAndEntries_mirrored
    (show wired.fdsSuccessor = some conn from rfl) (show Mirrored wired keys from mirrored)
    selfData.successor.destAddr
  let joined := (Outcome.mk wired [.connect conn] .run).andThen fun data =>
    sendNewRangeAndEntries data selfData.successor.destAddr
  have given : joined = ⟨(selfData.halved env src).withStore ht ssns,
      .connect conn :: .tcp (.up conn) (selfData.grants selfData.successor.destAddr) ::
        insertAll (.up conn) (selfData.listed
          (keys.filter fun key => !checkRange (selfData.halved env src) key)), .run⟩ := by
    simp only [joined, andThen_run, run]
    rfl
  have whole : handleNetJoin env selfData src maxSpan max = ⟨joined.selfData,
      sendSuccessor selfData .netCloseConnection ++ joined.effects, joined.ctl⟩ := by
    rw [handleNetJoin, if_neg (fun h => linked h.1), if_neg (by tauto), if_pos named, andThen_run,
      connectToTcp_answered answered]
  rw [whole, given]
  exact ⟨rfl, rfl, rfl, after, values⟩

/-- A node that is alone splits and waits. -/
theorem handleNetJoin_first (max : Addr) (alone : selfData.predecessor = none)
    (alone' : selfData.successor.socket = none) (answered : env.answers src = true)
    (mirrored : Mirrored selfData keys) :
    (handleNetJoin env selfData src maxSpan max).ctl = .accept ∧
      Splits env selfData keys src selfData.listening []
        (handleNetJoin env selfData src maxSpan max) := by
  let conn := env.conn selfData src
  let wired := { selfData with
    successor := ⟨some conn, src⟩
    fdsSuccessor := some conn }
  obtain ⟨ht, ssns, run, after, values⟩ := sendNewRangeAndEntries_mirrored
    (show wired.fdsSuccessor = some conn from rfl) (show Mirrored wired keys from mirrored)
    selfData.listening
  let joined := (Outcome.mk wired [.connect conn] .run).andThen fun data =>
    (sendNewRangeAndEntries data data.listening).andThen fun data => ⟨data, [], .accept⟩
  have given : joined = ⟨(selfData.halved env src).withStore ht ssns,
      .connect conn :: .tcp (.up conn) (selfData.grants selfData.listening) ::
        insertAll (.up conn) (selfData.listed
          (keys.filter fun key => !checkRange (selfData.halved env src) key)), .accept⟩ := by
    have listening : wired.listening = selfData.listening := rfl
    simp only [joined, andThen_run, listening, run, List.append_nil]
    rfl
  have whole : handleNetJoin env selfData src maxSpan max = joined := by
    rw [handleNetJoin, if_pos ⟨alone, alone'⟩, connectToTcp_answered answered]
  rw [whole, given]
  exact ⟨rfl, rfl, rfl, after, values⟩

end

end DhtRing

import DhtRing.Steps
import DhtRing.Lib.Transition

/-!
# The node that a `NET_JOIN` names

The election records the node with the largest span in the PDU and resolves the
join when the PDU comes back to that node.  Nothing looks at the record again in
between, so the join depends on the named node staying in the ring.
-/

set_option autoImplicit false

namespace DhtRing

open Transition

def Net.flying (net : Net) (pdu : Pdu) : Prop := ∃ loc, ∃ msg ∈ net.queue loc, msg.pdu = pdu

def Net.carries (net : Net) (msg : Msg) : Prop := ∃ loc, msg ∈ net.queue loc

/-- Some `NET_JOIN` on its way has its maximum set to the address `n`. -/
def Net.names (net : Net) (n : Addr) : Prop :=
  n ≠ ⟨0, 0⟩ ∧ ∃ src maxSpan, net.flying (.netJoin src maxSpan n)

/-- The node is in the ring and has not given its range away. -/
def Pc.inRing : Pc → Bool
  | .q6 | .q6Accept | .awaitResponse => true
  | _ => false

/-- The handler leaves through `exit_with_error` or crashes. -/
def Ctl.ends : Ctl → Bool
  | .exit _ | .fault => true
  | _ => false

/-! ## Where a handler ends the node -/

/-- The loop of `send_new_range_and_entries` over the keys comes to a null slot: from slot
`k` on it takes out of the table what does not stay. -/
def meetsNull (ssns : Nat → Option Ssn) (stays : Ssn → Bool) : Nat → Nat → Ht → Bool
  | 0, _, _ => false
  | rest + 1, k, ht =>
      match ssns k with
      | none => true
      | some ssn =>
          if stays ssn then meetsNull ssns stays rest (k + 1) ht
          else (htLookup ht ssn).isSome && meetsNull ssns stays rest (k + 1) (htRemove ht ssn)

/-- A node that splits for `src` cannot connect to it, has no table, or has a null slot
among its keys. -/
def SelfData.splitFails (env : Env) (selfData : SelfData) (src : Addr) : Bool :=
  !env.answers src || selfData.hashTable.all fun ht =>
    meetsNull selfData.ssns (checkRange { selfData with
      rangeEnd := middlePoint selfData.rangeStart selfData.rangeEnd }) (getNumEntries ht) 0 ht

/-- The handler of the PDU ends a node with this data. -/
def SelfData.failsOn (env : Env) (selfData : SelfData) : Pdu → Bool
  | .valInsert ssn pair =>
      checkRange selfData ssn && selfData.hashTable.all fun ht =>
        getNumEntries ht != getNumEntries (htInsert ht ssn pair) && maxSize ≤ getNumEntries ht
  | .valRemove ssn =>
      if checkRange selfData ssn then
        selfData.hashTable.all fun ht => (findSsn selfData.ssns ssn (getNumEntries ht) 0).isNone
      else selfData.fdsSuccessor.isNone
  | .valLookup ssn _ =>
      if checkRange selfData ssn then selfData.hashTable.isNone else selfData.fdsSuccessor.isNone
  | .netJoin src _ max =>
      if selfData.predecessor.isNone && selfData.successor.socket.isNone then
        selfData.splitFails env src
      else selfData.predecessor.isNone || selfData.successor.socket.isNone ||
        (max = selfData.listening && selfData.splitFails env src)
  | .netNewRange rangeStart rangeEnd =>
      if rangeStart < selfData.rangeStart then selfData.fdsPredecessor.isNone
      else if selfData.rangeEnd < rangeEnd then selfData.fdsSuccessor.isNone
      else true
  | .netLeaving new => !decide (new = selfData.listening) && !env.answers new
  | _ => false

/-- A step that keeps the joins on their way resolvable: no node that one of them
names begins to leave; no PDU is handled that ends a node that another one names;
and a node outside `q6` does not enter itself as the maximum. -/
def Spares (net : Net) : Act → Prop
  | .leave n => ¬ net.names n
  | .deliver n i =>
      ∀ loc msg rest, (net.node n).reads n i = some loc → net.queue loc = msg :: rest →
        ((net.node n).selfData.failsOn net.env msg.pdu = true →
          ¬ (net.setQueue loc rest).names n) ∧
        ∀ src maxSpan max, msg.pdu = .netJoin src maxSpan max → (net.node n).pc ≠ .q6 →
          (net.node n).selfData.selfRange ≤ maxSpan.toNat
  | _ => True

section

variable {env : Env} {selfData : SelfData} {pdu : Pdu} {outcome : Outcome}

theorem sendOrExit_ends (selfData : SelfData) (index : FdsIndex) (pdu : Pdu) (msg : String) :
    (sendOrExit selfData index pdu msg).ctl.ends = (selfData.fd index).isNone := by
  unfold sendOrExit
  cases selfData.fd index <;> rfl

theorem Outcome.andThen_ends {first : Outcome} {rest : SelfData → Outcome}
    (goes_on : first.ctl ≠ .accept) :
    (first.andThen rest).ctl.ends = (first.ctl.ends || (rest first.selfData).ctl.ends) := by
  unfold Outcome.andThen
  cases ctl : first.ctl with
  | run => rfl
  | accept => exact absurd ctl goes_on
  | exit msg => rw [ctl]; rfl
  | fault => rw [ctl]; rfl

theorem sendEntriesOutside_ends (ssns : Nat → Option Ssn) (rest : Nat) :
    ∀ (i k : Nat) (selfData : SelfData) (ht : Ht), selfData.hashTable = some ht →
      (∀ d < rest, selfData.ssns (i + d) = ssns (k + d)) →
        (sendEntriesOutside rest i selfData).ctl.ends =
          meetsNull ssns (checkRange selfData) rest k ht := by
  induction rest with
  | zero => exact fun _ _ _ _ _ _ => rfl
  | succ rest ih =>
      intro i k selfData ht table same
      have here : selfData.ssns i = ssns k := same 0 (Nat.succ_pos rest)
      rw [sendEntriesOutside, meetsNull, table, here]
      cases ssns k with
      | none => rfl
      | some ssn =>
          dsimp only
          split
          · refine ih (i + 1) (k + 1) selfData ht table fun d lt => ?_
            have next := same (d + 1) (Nat.succ_lt_succ lt)
            rw [Nat.add_right_comm i 1 d, Nat.add_right_comm k 1 d]
            exact next
          · cases htLookup ht ssn with
            | none => rfl
            | some pair =>
                -- the slots behind the gap move down by one
                refine ih i (k + 1) _ (htRemove ht ssn) rfl fun d lt => ?_
                have next : selfData.ssns (i + d + 1) = ssns (k + 1 + d) := by
                  rw [Nat.add_right_comm k 1 d]
                  exact same (d + 1) (Nat.succ_lt_succ lt)
                rw [← next]
                simp only [closeGap]
                rw [if_neg (by omega), if_pos (by omega)]

theorem sendNewRangeAndEntries_ends {conn : Conn} (successor : selfData.fdsSuccessor = some conn)
    (oldSucc : Addr) :
    (sendNewRangeAndEntries selfData oldSucc).ctl.ends = selfData.hashTable.all fun ht =>
      meetsNull selfData.ssns (checkRange { selfData with
        rangeEnd := middlePoint selfData.rangeStart selfData.rangeEnd }) (getNumEntries ht) 0 ht := by
  have fd : ({ selfData with
      rangeEnd := middlePoint selfData.rangeStart selfData.rangeEnd } : SelfData).fd .successor =
        some (.up conn) := by simp [SelfData.fd, successor]
  simp only [sendNewRangeAndEntries, sendOrExit, fd, Outcome.andThen]
  cases table : selfData.hashTable with
  | none => rfl
  | some ht => exact sendEntriesOutside_ends selfData.ssns _ 0 0 _ ht rfl fun _ _ => rfl

theorem sendNewRangeAndEntries_returns (selfData : SelfData) (oldSucc : Addr) {conn : Conn}
    (successor : selfData.fdsSuccessor = some conn) :
    (sendNewRangeAndEntries selfData oldSucc).ctl ≠ .accept := by
  obtain ⟨data, moved, ctl, eq, -, run | fault, -⟩ :=
    sendNewRangeAndEntries_wiring selfData conn successor oldSucc
  · simp [eq, run]
  · simp [eq, fault]

theorem connectToTcp_ends {socket : Option Conn} {src : Addr} {rest : SelfData → Outcome} :
    ((connectToTcp env { selfData with successor := ⟨socket, src⟩ }).andThen rest).ctl.ends =
      (!env.answers src || (rest { selfData with
        successor := ⟨some (env.conn selfData src), src⟩
        fdsSuccessor := some (env.conn selfData src) }).ctl.ends) := by
  cases answered : env.answers src with
  | true =>
      rw [connectToTcp_answered answered, Outcome.andThen_ends (by simp)]
      rfl
  | false =>
      rw [connectToTcp_refused answered, Outcome.andThen_ends (by simp)]
      rfl

theorem handleNetJoin_ends (src : Addr) (maxSpan : UInt8) (max : Addr) :
    (handleNetJoin env selfData src maxSpan max).ctl.ends =
      selfData.failsOn env (.netJoin src maxSpan max) := by
  rw [SelfData.failsOn]
  cases linked : selfData.predecessor with
  | none =>
      cases linked' : selfData.successor.socket with
      | none =>
          rw [handleNetJoin, if_pos ⟨linked, linked'⟩, connectToTcp_ends,
            Outcome.andThen_ends (sendNewRangeAndEntries_returns _ _ rfl),
            sendNewRangeAndEntries_ends rfl]
          exact congrArg (!env.answers src || ·) (Bool.or_false _)
      | some conn =>
          rw [handleNetJoin, if_neg (by simp [linked']), if_pos (Or.inl linked)]
          rfl
  | some pred =>
      cases linked' : selfData.successor.socket with
      | none =>
          rw [handleNetJoin, if_neg (by simp [linked]), if_pos (Or.inr linked')]
          rfl
      | some conn =>
          have both : selfData.predecessor ≠ none ∧ selfData.successor.socket ≠ none := by
            simp [linked, linked']
          by_cases named : max = selfData.listening
          · rw [handleNetJoin, if_neg (by tauto), if_neg (by tauto), if_pos named, decide_eq_true named]
            dsimp only
            rw [Outcome.andThen_ends (by simp), connectToTcp_ends, sendNewRangeAndEntries_ends rfl]
            rfl
          · rw [handleNetJoin_forward env src maxSpan both.1 both.2 named]
            simp [named, Ctl.ends]

/-- A handler ends the node exactly on what `failsOn` says. -/
theorem ends_eq_failsOn (dispatched : dispatch env selfData pdu = some outcome) :
    outcome.ctl.ends = selfData.failsOn env pdu := by
  cases pdu with
  | netJoin src maxSpan max =>
      cases dispatched
      exact handleNetJoin_ends src maxSpan max
  | valInsert ssn pair =>
      cases dispatched
      simp only [handleHtInsert, SelfData.failsOn]
      cases in_range : checkRange selfData ssn with
      | false => rfl
      | true =>
          cases table : selfData.hashTable with
          | none => rfl
          | some ht =>
              by_cases old : getNumEntries ht = getNumEntries (htInsert ht ssn pair)
              · simp [← old, Ctl.ends]
              · by_cases room : getNumEntries ht < maxSize
                · simp [old, room, Ctl.ends]
                · simp [old, room, Ctl.ends, Nat.le_of_not_lt room]
  | valRemove ssn =>
      cases dispatched
      simp only [handleHtRemove, SelfData.failsOn]
      split
      · cases table : selfData.hashTable with
        | none => rfl
        | some ht =>
            dsimp only
            cases scan : findSsn selfData.ssns ssn (getNumEntries ht) 0 with
            | none => simp [scan, Ctl.ends]
            | some found => cases found <;> simp [scan, Ctl.ends]
      · rw [sendOrExit_ends]
        exact Option.isNone_map
  | valLookup ssn sender =>
      cases dispatched
      simp only [handleHtLookup, SelfData.failsOn]
      split
      · cases table : selfData.hashTable with
        | none => rfl
        | some ht =>
            dsimp only
            cases htLookup ht ssn <;> rfl
      · rw [sendOrExit_ends]
        exact Option.isNone_map
  | netNewRange rangeStart rangeEnd =>
      cases dispatched
      simp only [handleNetNewRange, updateRange, SelfData.failsOn]
      split
      · rw [sendOrExit_ends]
        exact Option.isNone_map
      · split
        · rw [sendOrExit_ends]
          exact Option.isNone_map
        · rfl
  | netLeaving new =>
      cases dispatched
      rw [handleNetLeavingPdu_eq, SelfData.failsOn]
      split
      · rename_i last
        simp [last, Ctl.ends]
      · rename_i other
        cases answered : env.answers new <;> simp [other, Ctl.ends]
  | netCloseConnection =>
      cases dispatched
      rw [handleNetCloseConnection]
      split <;> rfl
  | _ => cases dispatched

end

/-! ## Messages on their way -/

section

variable {net net' : Net} {pdu : Pdu} {msg : Msg} {loc : Loc}

theorem flying_iff : net.flying pdu ↔ ∃ msg, net.carries msg ∧ msg.pdu = pdu :=
  ⟨fun ⟨loc, msg, mem, eq⟩ => ⟨msg, ⟨loc, mem⟩, eq⟩, fun ⟨msg, ⟨loc, mem⟩, eq⟩ => ⟨loc, msg, mem, eq⟩⟩

theorem carries_of_queue (sub : ∀ loc, ∀ msg ∈ net'.queue loc, msg ∈ net.queue loc)
    (carried : net'.carries msg) : net.carries msg := by
  obtain ⟨loc, mem⟩ := carried
  exact ⟨loc, sub loc msg mem⟩

theorem carries_setQueue {msgs : List Msg} (sub : ∀ msg ∈ msgs, msg ∈ net.queue loc)
    (carried : (net.setQueue loc msgs).carries msg) : net.carries msg := by
  obtain ⟨other, mem⟩ := carried
  rw [setQueue_queue] at mem
  by_cases here : other = loc
  · rw [here, Function.update_self] at mem
    exact ⟨loc, sub msg mem⟩
  · rw [Function.update_of_ne here] at mem
    exact ⟨other, mem⟩

theorem carries_push {new : Msg} (carried : (net.push loc new).carries msg) :
    net.carries msg ∨ msg = new := by
  obtain ⟨other, mem⟩ := carried
  rw [Net.push, setQueue_queue] at mem
  by_cases here : other = loc
  · rw [here, Function.update_self, List.mem_append, List.mem_singleton] at mem
    exact mem.imp_left fun old => ⟨loc, old⟩
  · rw [Function.update_of_ne here] at mem
    exact Or.inl ⟨other, mem⟩

theorem carries_performAll {req : Option Nat} {effects : List Effect}
    (carried : (net.performAll req effects).carries msg) :
    net.carries msg ∨ msg.req = req ∧ ∃ fd, .tcp fd msg.pdu ∈ effects := by
  obtain ⟨loc, mem⟩ := carried
  rcases mem_performAll_queue mem with old | ⟨pdu, sent, rfl⟩
  · exact Or.inl ⟨loc, old⟩
  · exact Or.inr ⟨rfl, loc, sent⟩

theorem carries_note {n : Addr} {head : Msg} {msgs : List Msg}
    (carried : ((net.note n head).setQueue loc msgs).carries msg) :
    (net.setQueue loc msgs).carries msg :=
  carries_of_queue (fun other found mem => by rwa [setQueue_queue, note_queue] at mem) carried

theorem flying_of_queue (sub : ∀ loc, ∀ msg ∈ net'.queue loc, msg ∈ net.queue loc)
    (flying : net'.flying pdu) : net.flying pdu := by
  obtain ⟨msg, carried, eq⟩ := flying_iff.mp flying
  exact flying_iff.mpr ⟨msg, carries_of_queue sub carried, eq⟩

theorem flying_performAll {req : Option Nat} {effects : List Effect}
    (flying : (net.performAll req effects).flying pdu) :
    net.flying pdu ∨ ∃ fd, .tcp fd pdu ∈ effects := by
  obtain ⟨msg, carried, rfl⟩ := flying_iff.mp flying
  rcases carries_performAll carried with old | ⟨-, sent⟩
  · exact Or.inl (flying_iff.mpr ⟨msg, old, rfl⟩)
  · exact Or.inr sent

theorem flying_push (flying : (net.push loc msg).flying pdu) :
    net.flying pdu ∨ msg.pdu = pdu := by
  obtain ⟨found, carried, rfl⟩ := flying_iff.mp flying
  rcases carries_push carried with old | rfl
  · exact Or.inl (flying_iff.mpr ⟨found, old, rfl⟩)
  · exact Or.inr rfl

/-- What the handlers other than `handle_net_join` send to other nodes: the request
itself, or the answer to a `NET_NEW_RANGE`. -/
theorem dispatch_sends {env : Env} {selfData : SelfData} {outcome : Outcome} {fd : Loc}
    {sent : Pdu} (dispatched : dispatch env selfData pdu = some outcome)
    (no_join : ∀ src maxSpan max, pdu ≠ .netJoin src maxSpan max)
    (mem : .tcp fd sent ∈ outcome.effects) :
    (pdu.requestKey.isSome ∧ sent = pdu) ∨ sent = .netNewRangeResponse := by
  cases request : pdu.requestKey with
  | some ssn =>
      rcases (dispatch_request request dispatched).2.2 _ mem with ⟨_, _, eq⟩ | ⟨_, _, eq⟩
      · cases eq
      · cases eq
        exact Or.inl ⟨rfl, rfl⟩
  | none =>
      cases pdu with
      | netJoin src maxSpan max => exact absurd rfl (no_join src maxSpan max)
      | netNewRange rangeStart rangeEnd =>
          refine Or.inr ?_
          cases dispatched
          simp only [handleNetNewRange, updateRange, sendOrExit] at mem
          split at mem
          · split at mem <;> simp_all
          · split at mem
            · split at mem <;> simp_all
            · split at mem <;> simp_all
      | netLeaving new =>
          cases dispatched
          simp only [handleNetLeavingPdu_eq, closeSuccessor] at mem
          split at mem
          · split at mem <;> simp at mem
          · split at mem
            · split at mem <;> simp at mem
            · split at mem <;> simp at mem
      | netCloseConnection =>
          cases dispatched
          simp only [handleNetCloseConnection, closePredecessor] at mem
          split at mem
          · split at mem <;> simp at mem
          · split at mem <;> simp at mem
      | netJoinResponse _ _ _ => cases dispatched
      | netNewRangeResponse => cases dispatched
      | valLookupResponse _ _ => cases dispatched
      | _ => cases request

theorem dispatch_sends_join {env : Env} {selfData : SelfData} {outcome : Outcome} {fd : Loc}
    {src max : Addr} {maxSpan : UInt8} (dispatched : dispatch env selfData pdu = some outcome)
    (sent : .tcp fd (.netJoin src maxSpan max) ∈ outcome.effects) :
    ∃ maxSpan' max', pdu = .netJoin src maxSpan' max' ∧
      .tcp fd (.netJoin src maxSpan max) ∈
        (handleNetJoin env selfData src maxSpan' max').effects := by
  by_cases join : ∃ src' maxSpan' max', pdu = .netJoin src' maxSpan' max'
  · obtain ⟨src', maxSpan', max', rfl⟩ := join
    cases dispatched
    obtain ⟨rfl, -⟩ := handleNetJoin_sends sent
    exact ⟨maxSpan', max', rfl, sent⟩
  · rcases dispatch_sends dispatched (fun src' maxSpan' max' eq => join ⟨src', maxSpan', max', eq⟩)
      sent with ⟨-, eq⟩ | eq
    · exact absurd ⟨src, maxSpan, max, eq.symm⟩ join
    · cases eq

theorem no_join_offerRange {selfData : SelfData} {fd : Loc} {src max : Addr} {maxSpan : UInt8} :
    .tcp fd (.netJoin src maxSpan max) ∉ offerRange selfData := by
  unfold offerRange sendSuccessor sendPredecessor
  dsimp only
  split <;> split <;> simp

theorem no_join_sayGoodbye {selfData : SelfData} {new : Addr} {fd : Loc} {src max : Addr}
    {maxSpan : UInt8} : .tcp fd (.netJoin src maxSpan max) ∉ sayGoodbye selfData new := by
  unfold sayGoodbye sendSuccessor sendPredecessor
  split <;> split <;> simp

theorem no_join_handOver {selfData : SelfData} {granted : Bool} {fd : Loc} {src max : Addr}
    {maxSpan : UInt8} :
    .tcp fd (.netJoin src maxSpan max) ∉ (handOver selfData granted).effects := by
  intro mem
  obtain ⟨_, _, _, -, eq⟩ := handOver_inserts mem
  cases eq

theorem q8_silent {env : Env} {selfData : SelfData} {next : Addr} {rangeStart rangeEnd : UInt8}
    {fd : Loc} : .tcp fd pdu ∉ (q8 env selfData next rangeStart rangeEnd).effects := by
  cases answered : env.answers next with
  | true => simp [q8_answered rangeStart rangeEnd answered]
  | false => simp [q8_refused rangeStart rangeEnd answered]

def Net.Puts (net : Net) (msg : Msg) : Act → Prop
  | .client _ pdu => msg = ⟨pdu, some net.issued⟩
  | .join j _ => msg = ⟨joinPdu j, none⟩
  | .leave n => ∃ fd, .tcp fd msg.pdu ∈ offerRange (net.node n).selfData
  | .deliver n i => ∃ back loc head rest outcome fd, (net.node n).pc.polls i = some back ∧
      (net.node n).reads n i = some loc ∧ net.queue loc = head :: rest ∧
      dispatch net.env (net.node n).selfData head.pdu = some outcome ∧
      msg.req = head.tag ∧ .tcp fd msg.pdu ∈ outcome.effects
  | .reply n => msg.req = none ∧ ∃ granted fd,
      .tcp fd msg.pdu ∈ (handOver (net.node n).selfData granted).effects
  | .finish n => ∃ new fd, .tcp fd msg.pdu ∈ sayGoodbye (net.node n).selfData new
  | _ => False

/-- What is on its way after a step was on its way before or was sent by it. -/
theorem step_puts {act : Act} (stepped : net.step act = some net') (carried : net'.carries msg) :
    net.carries msg ∨ net.Puts msg act := by
  have tail : ∀ loc, ∀ msg ∈ (net.queue loc).tail, msg ∈ net.queue loc :=
    fun _ _ mem => List.mem_of_mem_tail mem
  cases act with
  | client n pdu =>
      obtain ⟨-, -, rfl⟩ := client_eq_some stepped
      exact carries_push (carries_of_queue (fun _ _ mem => mem) carried)
  | join j entry =>
      obtain ⟨-, -, -, rfl⟩ := join_eq_some stepped
      exact carries_push (carries_of_queue (fun _ _ mem => mem) carried)
  | leave n =>
      obtain ⟨-, ⟨-, -, rfl⟩ | ⟨-, rfl⟩⟩ := leave_eq_some stepped
      · exact Or.inl carried
      · have sent := carries_performAll (carries_of_queue (fun _ _ mem => mem) carried)
        exact sent.imp_right And.right
  | timeout n =>
      obtain ⟨-, rfl⟩ := timeout_eq_some stepped
      exact Or.inl carried
  | deliver n i =>
      obtain ⟨back, loc, head, rest, outcome, polls, reads, queue, dispatched, rfl⟩ :=
        deliver_eq_some stepped
      rcases carries_performAll (carries_of_queue (fun _ _ mem => mem) carried) with
        old | ⟨req, fd, sent⟩
      · refine Or.inl (carries_setQueue (fun found mem => ?_) (carries_note old))
        rw [queue]
        exact List.mem_cons_of_mem _ mem
      · exact Or.inr ⟨back, loc, head, rest, outcome, fd, polls, reads, queue, dispatched, req, sent⟩
  | discard n i k =>
      obtain ⟨back, loc, head, rest, -, -, queue, -, rfl⟩ := discard_eq_some stepped
      have dropped : (net.setQueue loc (rest.drop k)).carries msg := carried
      refine Or.inl (carries_setQueue (fun found mem => ?_) dropped)
      rw [queue]
      exact List.mem_cons_of_mem _ (List.mem_of_mem_drop mem)
  | eof n i =>
      obtain ⟨back, conn, loc, own, data, -, -, -, -, -, rfl⟩ := eof_eq_some stepped
      exact Or.inl carried
  | accept n =>
      obtain ⟨back, conn, rest, -, -, rfl⟩ := accept_eq_some stepped
      exact Or.inl carried
  | response n =>
      obtain ⟨-, loc, -, ⟨next, rangeStart, rangeEnd, req, rest, queue, rfl⟩ | ⟨-, rfl⟩⟩ :=
        response_eq_some stepped
      · rcases carries_performAll (carries_of_queue (fun _ _ mem => mem) carried) with
          old | ⟨-, fd, sent⟩
        · refine Or.inl (carries_setQueue (fun found mem => ?_) old)
          rw [queue]
          exact List.mem_cons_of_mem _ mem
        · exact absurd sent q8_silent
      · have popped : (net.setQueue loc (net.queue loc).tail).carries msg := carried
        exact Or.inl (carries_setQueue (tail loc) popped)
  | reply n =>
      obtain ⟨-, loc, granted, -, -, rfl⟩ := reply_eq_some stepped
      rcases carries_performAll (carries_of_queue (fun _ _ mem => mem) carried) with
        old | ⟨req, fd, sent⟩
      · exact Or.inl (carries_setQueue (tail loc) old)
      · exact Or.inr ⟨req, granted, fd, sent⟩
  | finish n =>
      obtain ⟨i, new, -, rfl⟩ := finish_eq_some stepped
      rcases carries_performAll (carries_of_queue (fun _ _ mem => mem) carried) with
        old | ⟨-, fd, sent⟩
      · exact Or.inl old
      · exact Or.inr ⟨new, fd, sent⟩

end

/-- Where a `NET_JOIN` on its way comes from: it was on its way before, a joining node
has just sent it, or a node has entered itself as its maximum. -/
theorem step_join_origin {net net' : Net} {act : Act} (stepped : net.step act = some net')
    {src max : Addr} {maxSpan : UInt8} (flying : net'.flying (.netJoin src maxSpan max)) :
    net.flying (.netJoin src maxSpan max) ∨
      ((∃ entry, act = .join src entry) ∧ Pdu.netJoin src maxSpan max = joinPdu src) ∨
        ∃ n i loc msg rest maxSpan', act = .deliver n i ∧ (net.node n).reads n i = some loc ∧
          net.queue loc = msg :: rest ∧ (∃ max', msg.pdu = .netJoin src maxSpan' max') ∧
          max = (net.node n).selfData.listening ∧
          maxSpan = UInt8.ofInt (net.node n).selfData.selfRange ∧
          (maxSpan'.toNat : Int) < (net.node n).selfData.selfRange ∧
          ((net.node n).pc.polls i).any fun back => (net'.node n).pc == back := by
  obtain ⟨msg, carried, eq⟩ := flying_iff.mp flying
  rcases step_puts stepped carried with old | puts
  · exact Or.inl (flying_iff.mpr ⟨msg, old, eq⟩)
  · cases act with
    | client n pdu =>
        obtain ⟨-, request, -⟩ := client_eq_some stepped
        rw [puts] at eq
        cases eq
        cases request
    | join j entry =>
        rw [puts] at eq
        cases eq
        exact Or.inr (Or.inl ⟨⟨entry, rfl⟩, rfl⟩)
    | leave n =>
        obtain ⟨fd, sent⟩ := puts
        rw [eq] at sent
        exact absurd sent no_join_offerRange
    | deliver n i =>
        obtain ⟨back, loc, head, rest, outcome, fd, polls, reads, queue, dispatched, -, sent⟩ := puts
        rw [eq] at sent
        obtain ⟨maxSpan', max', pdu, sent⟩ := dispatch_sends_join dispatched sent
        obtain ⟨-, -, -, run, origin⟩ := handleNetJoin_sends sent
        rcases origin with ⟨rfl, rfl, -⟩ | ⟨rfl, rfl, larger⟩
        · exact Or.inl ⟨loc, head, by rw [queue]; exact List.mem_cons_self, pdu⟩
        · refine Or.inr (Or.inr ⟨n, i, loc, head, rest, maxSpan', rfl, reads, queue, ⟨max', pdu⟩,
            rfl, rfl, larger, ?_⟩)
          obtain ⟨back', loc', head', rest', outcome', polls', reads', queue', dispatched', rfl⟩ :=
            deliver_eq_some stepped
          cases reads.symm.trans reads'
          cases queue.symm.trans queue'
          rw [pdu] at dispatched'
          have same := (Option.some.inj dispatched').symm.trans run
          simp [Net.commit, same, Pc.after, polls']
    | reply n =>
        obtain ⟨-, granted, fd, sent⟩ := puts
        rw [eq] at sent
        exact absurd sent no_join_handOver
    | finish n =>
        obtain ⟨new, fd, sent⟩ := puts
        rw [eq] at sent
        exact absurd sent no_join_sayGoodbye
    | _ => exact puts.elim

/-! ## The invariant -/

theorem polls_q6 {pc back : Pc} {i : FdsIndex} (polls : pc.polls i = some back)
    (q6 : pc = .q6 ∨ pc = .q6Accept) : pc = .q6 ∧ back = .q6 := by
  rcases q6 with rfl | rfl
  · exact ⟨rfl, (Option.some.inj polls).symm⟩
  · cases polls

theorem stays_in_q6 {net net' : Net} {act : Act} (stepped : net.step act = some net') {n : Addr}
    (q6 : (net.node n).pc = .q6 ∨ (net.node n).pc = .q6Accept) :
    ((net'.node n).pc = .q6 ∨ (net'.node n).pc = .q6Accept) ∨ act = .leave n ∨
      ∃ i loc msg rest outcome, act = .deliver n i ∧ (net.node n).reads n i = some loc ∧
        net.queue loc = msg :: rest ∧
        dispatch net.env (net.node n).selfData msg.pdu = some outcome ∧
        outcome.ctl.ends = true := by
  -- a step of another node, or one that keeps the program counter
  have other : ∀ {m : Addr} {proc : Proc}, net'.node = Function.update net.node m proc →
      (n = m → proc.pc = .q6 ∨ proc.pc = .q6Accept) →
      (net'.node n).pc = .q6 ∨ (net'.node n).pc = .q6Accept := by
    intro m proc node stays
    by_cases same : n = m
    · rw [node, same, Function.update_self]
      exact stays same
    · rw [node, Function.update_of_ne same]
      exact q6
  cases act with
  | client m pdu =>
      obtain ⟨-, -, rfl⟩ := client_eq_some stepped
      exact Or.inl q6
  | join j entry =>
      obtain ⟨absent, -, -, rfl⟩ := join_eq_some stepped
      refine Or.inl (other rfl ?_)
      rintro rfl
      rcases q6 with pc | pc <;> simp [pc] at absent
  | leave m =>
      by_cases same : m = n
      · exact Or.inr (Or.inl (by rw [same]))
      · obtain ⟨-, ⟨-, -, rfl⟩ | ⟨-, rfl⟩⟩ := leave_eq_some stepped
        · exact Or.inl (other rfl fun eq => absurd eq.symm same)
        · exact Or.inl (other (performAll_setNode_node ..) fun eq => absurd eq.symm same)
  | timeout m =>
      obtain ⟨waits, rfl⟩ := timeout_eq_some stepped
      refine Or.inl (other rfl ?_)
      rintro rfl
      rcases q6 with pc | pc <;> simp [pc] at waits
  | deliver m i =>
      obtain ⟨back, loc, msg, rest, outcome, polls, reads, queue, dispatched, rfl⟩ :=
        deliver_eq_some stepped
      by_cases same : m = n
      · subst same
        have before := polls_q6 polls q6
        simp only [Net.commit, setNode_node, Function.update_self, before.2]
        cases ctl : outcome.ctl with
        | run => exact Or.inl (Or.inl rfl)
        | accept => exact Or.inl (Or.inr rfl)
        | exit text =>
            exact Or.inr (Or.inr ⟨i, loc, msg, rest, outcome, rfl, reads, queue, dispatched,
              by rw [ctl]; rfl⟩)
        | fault =>
            exact Or.inr (Or.inr ⟨i, loc, msg, rest, outcome, rfl, reads, queue, dispatched,
              by rw [ctl]; rfl⟩)
      · have node := commit_node ((net.note m msg).setQueue loc rest) m back msg.tag outcome
        rw [setQueue_node, note_node] at node
        exact Or.inl (other node fun eq => absurd eq.symm same)
  | discard m i k =>
      obtain ⟨back, loc, msg, rest, polls, -, -, -, rfl⟩ := discard_eq_some stepped
      refine Or.inl (other rfl ?_)
      rintro rfl
      exact Or.inl (polls_q6 polls q6).2
  | eof m i =>
      obtain ⟨back, conn, loc, own, data, polls, -, -, -, -, rfl⟩ := eof_eq_some stepped
      refine Or.inl (other rfl ?_)
      rintro rfl
      exact Or.inl (polls_q6 polls q6).2
  | accept m =>
      obtain ⟨back, conn, rest, accepted, -, rfl⟩ := accept_eq_some stepped
      refine Or.inl (other rfl ?_)
      rintro rfl
      rcases q6 with pc | pc
      · rw [pc] at accepted
        cases accepted
      · rw [pc] at accepted
        exact Or.inl (Option.some.inj accepted).symm
  | response m =>
      obtain ⟨waits, loc, -, ⟨next, rangeStart, rangeEnd, req, rest, -, rfl⟩ | ⟨-, rfl⟩⟩ :=
        response_eq_some stepped
      · refine Or.inl (other (commit_node ..) ?_)
        rintro rfl
        rcases q6 with pc | pc <;> simp [pc] at waits
      · refine Or.inl (other (m := m) rfl ?_)
        rintro rfl
        rcases q6 with pc | pc <;> simp [pc] at waits
  | reply m =>
      obtain ⟨waits, loc, granted, -, -, rfl⟩ := reply_eq_some stepped
      refine Or.inl (other (commit_node ..) ?_)
      rintro rfl
      rcases q6 with pc | pc <;> simp [pc] at waits
  | finish m =>
      obtain ⟨i, new, polls, rfl⟩ := finish_eq_some stepped
      refine Or.inl (other (performAll_setNode_node ..) ?_)
      rintro rfl
      rcases q6 with pc | pc <;> simp [pc] at polls

theorem flying_of_ending {net net' : Net} {n : Addr} {i : FdsIndex}
    (stepped : net.deliver n i = some net') {loc : Loc} {msg : Msg} {rest : List Msg}
    (reads : (net.node n).reads n i = some loc) (queue : net.queue loc = msg :: rest)
    {outcome : Outcome} (dispatched : dispatch net.env (net.node n).selfData msg.pdu = some outcome)
    (ended : outcome.ctl.ends = true) {src max : Addr} {maxSpan : UInt8}
    (flying : net'.flying (.netJoin src maxSpan max)) :
    (net.setQueue loc rest).flying (.netJoin src maxSpan max) := by
  obtain ⟨back, loc', msg', rest', outcome', -, reads', queue', dispatched', rfl⟩ :=
    deliver_eq_some stepped
  cases reads.symm.trans reads'
  cases queue.symm.trans queue'
  cases dispatched.symm.trans dispatched'
  rcases flying_performAll (flying_of_queue (fun _ _ mem => mem) flying) with old | ⟨fd, sent⟩
  · exact flying_iff.mpr ((flying_iff.mp old).imp fun msg carried => carried.imp_left carries_note)
  · obtain ⟨maxSpan', max', pdu, sent⟩ := dispatch_sends_join dispatched sent
    obtain ⟨-, -, -, run, -⟩ := handleNetJoin_sends sent
    rw [pdu] at dispatched
    have same := (Option.some.inj dispatched).symm.trans run
    rw [same] at ended
    cases ended

def Named (net : Net) : Prop :=
  ∀ n, net.names n → (net.node n).pc = .q6 ∨ (net.node n).pc = .q6Accept

theorem Named.preserve {net net' : Net} {act : Act} (named : Named net) (own : net.Addressed)
    (spares : Spares net act) (stepped : net.step act = some net') :
    Named net' := by
  rintro n ⟨set, src, maxSpan, flying⟩
  rcases step_join_origin stepped flying with old | ⟨-, start⟩ | entered
  · have before : net.names n := ⟨set, src, maxSpan, old⟩
    rcases stays_in_q6 stepped (named n before) with stays | rfl | ended
    · exact stays
    · exact absurd before spares
    · obtain ⟨i, loc, msg, rest, outcome, rfl, reads, queue, dispatched, ended⟩ := ended
      -- the handler that ended the node has sent no NET_JOIN
      refine absurd ?_ ((spares loc msg rest reads queue).1 ((ends_eq_failsOn dispatched).symm.trans ended))
      exact ⟨set, src, maxSpan,
        flying_of_ending stepped reads queue dispatched ended flying⟩
  · cases start
    exact absurd rfl set
  · obtain ⟨m, i, loc, msg, rest, maxSpan', rfl, reads, queue, ⟨max', pdu⟩, rfl, -, larger, goes_on⟩ :=
      entered
    rw [own m]
    by_cases q6 : (net.node m).pc = .q6
    · rw [q6] at goes_on
      exact Or.inl (by simpa [Pc.polls] using goes_on)
    · have modest := (spares loc msg rest reads queue).2 src maxSpan' max' pdu q6
      omega

def nodeA : Addr := ⟨1, 5000⟩
def nodeB : Addr := ⟨1, 5001⟩
def nodeC : Addr := ⟨1, 5002⟩

def connAB : Conn := ⟨nodeA, nodeB, 0⟩
def connBA : Conn := ⟨nodeB, nodeA, 1⟩

def pairUp : List Act :=
  [.join nodeB nodeA, .deliver nodeA .udp, .accept nodeB, .response nodeB, .accept nodeA]

/-- A third node asks to join, and the first one enters itself as the maximum. -/
def nameFirst : List Act := pairUp ++ [.join nodeC nodeA, .deliver nodeA .udp]

end DhtRing

import DhtRing.Moved
import DhtRing.Splits

/-!
# Waiting in `poll`

`receive_tcp_data` and `connect_to_tcp` with all that `poll` and the calls behind it can
answer, and the functions of `c_node.c` that wait in them: `shutdown_proceedure` before it
hands its entries over, and the three that connect to a successor.
-/

set_option autoImplicit false

namespace DhtRing

/-! ## `receive_tcp_data` -/

inductive RecvResult where
  | failed
  | closed
  | byte (value : UInt8)
deriving DecidableEq

/-- The answers to the `poll` and the `recv` of `receive_tcp_data`; `pollin` is what
`revents` says. -/
structure Wait where
  ret : Int
  pollin : Bool
  recv : RecvResult

/-- `receive_tcp_data` into a buffer of one byte, or the message of `exit_with_error`. -/
def receiveTcpData (wait : Wait) (buffer : UInt8) : Except String UInt8 :=
  if wait.ret ≤ 0 then .error "Failed to received data"
  else if wait.pollin then
    match wait.recv with
    | .failed => .error "Failed to receive data"
    | .closed => .ok buffer
    | .byte value => .ok value
  else .ok buffer

/-! ## `shutdown_proceedure` -/

/-- `shutdown_proceedure` up to the last poll.  A node without neighbours just exits.  The
buffer for the reply holds the expected type before anything is received. -/
def shutdownProceedure (selfData : SelfData) (wait : Wait) : Option Outcome :=
  if selfData.predecessor = none ∧ selfData.successor.socket = none then none
  else some ((Outcome.mk selfData (offerRange selfData) .run).andThen fun selfData =>
    match receiveTcpData wait Pdu.netNewRangeResponse.type with
    | .error msg => ⟨selfData, [], .exit msg⟩
    | .ok type => handOver selfData (type == Pdu.netNewRangeResponse.type))

/-- The node is connected to the neighbour that it sends `NET_NEW_RANGE` to. -/
def SelfData.HasHeir (selfData : SelfData) : Prop :=
  if selfData.rangeStart = 0 then selfData.successor.socket ≠ none else selfData.predecessor ≠ none

def Confirmed (selfData : SelfData) (wait : Wait) : Prop :=
  selfData.HasHeir ∧ 0 < wait.ret ∧ wait.pollin = true ∧
    wait.recv = .byte Pdu.netNewRangeResponse.type

structure EndsWithEntries (selfData : SelfData) (outcome : Outcome) : Prop where
  ends : ∃ msg, outcome.ctl = .exit msg
  table : outcome.selfData.hashTable = selfData.hashTable
  ssns : outcome.selfData.ssns = selfData.ssns
  sends : ∀ fd ssn pair, .tcp fd (.valInsert ssn pair) ∉ outcome.effects

/-- Entries leave the node only when the takeover has been confirmed. -/
def LeavesOnlyConfirmed (selfData : SelfData) (wait : Wait) : Prop :=
  ∀ outcome, shutdownProceedure selfData wait = some outcome →
    Confirmed selfData wait ∨ EndsWithEntries selfData outcome

section

variable {selfData : SelfData} {wait : Wait}

theorem handOver_not_endsWithEntries (selfData : SelfData) (granted : Bool) (before : List Effect) :
    ¬ EndsWithEntries selfData
      ((Outcome.mk selfData before .run).andThen fun selfData => handOver selfData granted) := by
  rintro ⟨⟨msg, ends⟩, table, -, -⟩
  rw [andThen_run] at ends table
  dsimp only at ends table
  unfold handOver sendAllEntries at ends table
  cases kept : selfData.hashTable with
  | none =>
      simp only [kept, Outcome.andThen] at ends
      cases ends
  | some ht =>
      simp only [kept] at ends table
      cases sent : sendEntries selfData selfData.heir ht (getNumEntries ht) 0 with
      | none =>
          simp only [sent, Outcome.andThen] at ends
          cases ends
      | some effects =>
          simp only [sent] at ends table
          split at ends
          · rename_i destroyed
            rw [if_pos destroyed] at table
            cases granted <;> cases table
          · cases ends

theorem not_insert_offerRange {fd : Loc} {ssn : Ssn} {pair : ValuePair} :
    .tcp fd (.valInsert ssn pair) ∉ offerRange selfData := by
  unfold offerRange sendSuccessor sendPredecessor
  split <;> split <;> simp

/-- Entries leave a node only after the confirmation exactly when it has no neighbour, gets
the confirmation, or fails in `receive_tcp_data`. -/
theorem leavesOnlyConfirmed_iff (selfData : SelfData) (wait : Wait) :
    LeavesOnlyConfirmed selfData wait ↔
      (selfData.predecessor = none ∧ selfData.successor.socket = none) ∨
        Confirmed selfData wait ∨ wait.ret ≤ 0 ∨ (wait.pollin = true ∧ wait.recv = .failed) := by
  by_cases alone : selfData.predecessor = none ∧ selfData.successor.socket = none
  · refine iff_of_true (fun outcome run => ?_) (Or.inl alone)
    rw [shutdownProceedure, if_pos alone] at run
    cases run
  · have run : shutdownProceedure selfData wait = _ := if_neg alone
    constructor
    · intro leaves
      refine Or.inr ?_
      by_contra others
      rw [not_or, not_or] at others
      obtain ⟨unconfirmed, positive, no_failure⟩ := others
      have received : ∃ type, receiveTcpData wait Pdu.netNewRangeResponse.type = .ok type := by
        rw [receiveTcpData, if_neg positive]
        split
        · rename_i pollin
          cases answer : wait.recv with
          | failed => exact absurd ⟨pollin, answer⟩ no_failure
          | closed => exact ⟨_, rfl⟩
          | byte value => exact ⟨_, rfl⟩
        · exact ⟨_, rfl⟩
      obtain ⟨type, received⟩ := received
      simp only [received] at run
      rcases leaves _ run with confirmed | ends
      · exact unconfirmed confirmed
      · exact handOver_not_endsWithEntries selfData _ _ ends
    · rintro (neighbours | confirmed | failure)
      · exact absurd neighbours alone
      · exact fun _ _ => Or.inl confirmed
      · intro outcome run'
        have failed : ∃ msg, receiveTcpData wait Pdu.netNewRangeResponse.type = .error msg := by
          rcases failure with timeout | ⟨pollin, failed⟩
          · exact ⟨_, if_pos timeout⟩
          · rw [receiveTcpData, pollin, failed]
            split
            · exact ⟨_, rfl⟩
            · exact ⟨_, rfl⟩
        obtain ⟨msg, failed⟩ := failed
        simp only [failed, andThen_run, List.append_nil] at run
        rw [run] at run'
        cases run'
        exact Or.inr ⟨⟨msg, rfl⟩, rfl, rfl, fun _ _ _ => not_insert_offerRange⟩

end

/-- The neighbour closes the connection instead of a reply. -/
theorem entries_leave_unconfirmed :
    ¬ ∀ (selfData : SelfData) (wait : Wait), LeavesOnlyConfirmed selfData wait := by
  intro claim
  let node : SelfData :=
    { oneEntryNode with successor := ⟨some ⟨loneNode.listening, ⟨2, 5000⟩, 0⟩, ⟨2, 5000⟩⟩ }
  have connected : ¬ (node.predecessor = none ∧ node.successor.socket = none) :=
    fun alone => absurd alone.2 (by simp [node])
  rcases claim node ⟨1, true, .closed⟩ _ (if_neg connected) with ⟨-, -, -, byte⟩ | ends
  · cases byte
  · exact handOver_not_endsWithEntries node true (offerRange node) ends

/-! ## `connect_to_tcp` -/

structure Revents where
  pollin : Bool
  pollout : Bool
  pollerr : Bool
  pollhup : Bool
  pollnval : Bool
deriving DecidableEq

def Revents.quiet : Revents := ⟨false, false, false, false, false⟩

structure Fds where
  udp : Revents
  successor : Revents
  predecessor : Revents
  listening : Revents
deriving DecidableEq

inductive PollResult where
  | failed
  | answered (fds : Fds)

def PollResult.ret : PollResult → Int
  | .failed => -1
  | .answered fds =>
      ([fds.udp, fds.successor, fds.predecessor, fds.listening].countP (· ≠ .quiet) : ℕ)

def PollResult.successorWritable : PollResult → Bool
  | .failed => false
  | .answered fds => fds.successor.pollout

/-- What the calls of `connect_to_tcp` answer: the socket's number or the message with which
`create_socket` or `set_nonblocking` ends the node, whether `connect` is done or in
progress, what `poll` says, and the pending error of the socket, if `getsockopt` gives it. -/
structure ConnectAttempt where
  socket : Except String Nat
  connects : Bool
  poll : PollResult
  soError : Option Int

def connectToTcpPolled (attempt : ConnectAttempt) (selfData : SelfData) : Outcome :=
  let dest := selfData.successor.destAddr
  match attempt.socket with
  | .error msg => ⟨selfData, [], .exit msg⟩
  | .ok serial =>
      let conn : Conn := ⟨selfData.listening, dest, serial⟩
      let failed := { selfData with successor := ⟨none, dest⟩, fdsSuccessor := some conn }
      if attempt.connects = false then ⟨failed, [], .exit "Failed to connect to successor"⟩
      else
        let ret2 := attempt.poll.ret
        if 0 < ret2 ∧ attempt.poll.successorWritable = true then
          if attempt.soError = some 0 then
            ⟨{ selfData with successor := ⟨some conn, dest⟩, fdsSuccessor := some conn },
              [.connect conn], .run⟩
          else ⟨failed, [], .exit "Connection failed"⟩
        else if ret2 = 0 then ⟨failed, [], .exit "Connection timed out"⟩
        else ⟨failed, [], .exit "Poll failed"⟩

/-- The attempt itself fails: there is no socket, `connect` fails, or the socket has an
error. -/
def ConnectAttempt.Fails (attempt : ConnectAttempt) : Prop :=
  (∃ msg, attempt.socket = .error msg) ∨ attempt.connects = false ∨ attempt.soError ≠ some 0 ∨
    ∃ fds, attempt.poll = .answered fds ∧
      (fds.successor.pollerr = true ∨ fds.successor.pollhup = true ∨ fds.successor.pollnval = true)

def ConnectAttempt.TimesOut (attempt : ConnectAttempt) : Prop := attempt.poll.ret = 0

/-! ## Who connects -/

def handleNetJoinVia (connect : SelfData → Outcome) (selfData : SelfData) (src : Addr)
    (maxSpan : UInt8) (max : Addr) : Outcome :=
  if selfData.predecessor = none ∧ selfData.successor.socket = none then
    (connect { selfData with successor := ⟨none, src⟩ }).andThen fun selfData =>
      (sendNewRangeAndEntries selfData selfData.listening).andThen fun selfData =>
        ⟨selfData, [], .accept⟩
  else if selfData.predecessor = none ∨ selfData.successor.socket = none then
    ⟨selfData, [], .exit "One of predecessor and successor is 0 but not both"⟩
  else if max = selfData.listening then
    let previousSuccessor := selfData.successor.destAddr
    let closed := sendSuccessor selfData .netCloseConnection
    (Outcome.mk selfData closed .run).andThen fun selfData =>
      (connect { selfData with successor := ⟨selfData.successor.socket, src⟩ }).andThen
        fun selfData => sendNewRangeAndEntries selfData previousSuccessor
  else if (maxSpan.toNat : Int) < selfData.selfRange then
    ⟨selfData, sendSuccessor selfData
      (.netJoin src (UInt8.ofInt selfData.selfRange) selfData.listening), .run⟩
  else ⟨selfData, sendSuccessor selfData (.netJoin src maxSpan max), .run⟩

def handleNetLeavingPduVia (connect : SelfData → Outcome) (selfData : SelfData) (new : Addr) :
    Outcome :=
  (Outcome.mk selfData (closeSuccessor selfData) .run).andThen fun selfData =>
    if new = selfData.listening then
      ⟨{ selfData with
          successor := ⟨none, selfData.successor.destAddr⟩
          fdsSuccessor := none }, [], .run⟩
    else connect { selfData with successor := ⟨selfData.successor.socket, new⟩ }

def q8Via (connect : SelfData → Outcome) (selfData : SelfData) (next : Addr)
    (rangeStart rangeEnd : UInt8) : Outcome :=
  (connect { selfData with
      successor := ⟨selfData.successor.socket, next⟩
      rangeStart := rangeStart
      rangeEnd := rangeEnd }).andThen fun selfData =>
    ⟨{ selfData with hashTable := some htCreate }, [], .run⟩

/-- `connect_to_tcp` itself and the three that call it. -/
inductive Connecting where
  | connectToTcp
  | handleNetJoin (src : Addr) (maxSpan : UInt8) (max : Addr)
  | handleNetLeavingPdu (new : Addr)
  | q8 (next : Addr) (rangeStart rangeEnd : UInt8)

def Connecting.run (connect : SelfData → Outcome) (selfData : SelfData) : Connecting → Outcome
  | .connectToTcp => connect selfData
  | .handleNetJoin src maxSpan max => handleNetJoinVia connect selfData src maxSpan max
  | .handleNetLeavingPdu new => handleNetLeavingPduVia connect selfData new
  | .q8 next rangeStart rangeEnd => q8Via connect selfData next rangeStart rangeEnd

def Connecting.handler (env : Env) (selfData : SelfData) : Connecting → Outcome
  | .connectToTcp => DhtRing.connectToTcp env selfData
  | .handleNetJoin src maxSpan max => DhtRing.handleNetJoin env selfData src maxSpan max
  | .handleNetLeavingPdu new => DhtRing.handleNetLeavingPdu env selfData new
  | .q8 next rangeStart rangeEnd => DhtRing.q8 env selfData next rangeStart rangeEnd

def Connecting.Calls (selfData : SelfData) : Connecting → Prop
  | .connectToTcp => True
  | .handleNetJoin _ _ max => selfData.splitsFor max
  | .handleNetLeavingPdu new => new ≠ selfData.listening
  | .q8 _ _ _ => True

/-- While the attempt does not fail or time out, the node goes on as it does with a
connection that is complete. -/
def Connecting.Undisturbed (call : Connecting) (attempt : ConnectAttempt)
    (selfData : SelfData) : Prop :=
  call.Calls selfData → ¬ attempt.Fails → ¬ attempt.TimesOut →
    (∀ msg, (call.run (connectToTcpPolled attempt) selfData).ctl ≠ .exit msg) ∧
      ∃ serial, call.run (connectToTcpPolled attempt) selfData =
        call.handler ⟨serial, fun _ => true⟩ selfData

theorem Connecting.run_connectToTcp (call : Connecting) (env : Env) (selfData : SelfData) :
    call.run (DhtRing.connectToTcp env) selfData = call.handler env selfData := by
  cases call <;> rfl

section

variable {call : Connecting} {attempt : ConnectAttempt} {selfData : SelfData} {connect : SelfData → Outcome}

theorem sendNewRangeAndEntries_ctl {conn : Conn} (successor : selfData.fdsSuccessor = some conn)
    (oldSucc : Addr) : (sendNewRangeAndEntries selfData oldSucc).ctl = .run ∨
      (sendNewRangeAndEntries selfData oldSucc).ctl = .fault := by
  obtain ⟨data, moved, ctl, run, -, goes, -⟩ := sendNewRangeAndEntries_wiring selfData conn
    successor oldSucc
  rw [run]
  exact goes

theorem Connecting.run_not_exit (calls : call.Calls selfData)
    (connected : ∀ selfData, ∃ data effects conn,
      connect selfData = ⟨data, effects, .run⟩ ∧ data.fdsSuccessor = some conn) (msg : String) :
    (call.run connect selfData).ctl ≠ .exit msg := by
  cases call with
  | connectToTcp =>
      obtain ⟨data, effects, conn, run, -⟩ := connected selfData
      rw [Connecting.run, run]
      exact Ctl.noConfusion
  | handleNetJoin src maxSpan max =>
      rcases calls with alone | ⟨predecessor, successor, largest⟩
      · obtain ⟨data, effects, conn, run, fds⟩ :=
          connected { selfData with successor := ⟨none, src⟩ }
        rw [Connecting.run, handleNetJoinVia, if_pos alone, run, andThen_run, Outcome.andThen]
        rcases sendNewRangeAndEntries_ctl fds data.listening with goes | goes <;> simp [goes]
      · obtain ⟨data, effects, conn, run, fds⟩ :=
          connected { selfData with successor := ⟨selfData.successor.socket, src⟩ }
        have split := sendNewRangeAndEntries_ctl fds selfData.successor.destAddr
        rw [Connecting.run, handleNetJoinVia, if_neg (fun alone => predecessor alone.1),
          if_neg (not_or.mpr ⟨predecessor, successor⟩), if_pos largest, andThen_run, run, andThen_run]
        rcases split with goes | goes <;> simp [goes]
  | handleNetLeavingPdu new =>
      obtain ⟨data, effects, conn, run, -⟩ :=
        connected { selfData with successor := ⟨selfData.successor.socket, new⟩ }
      rw [Connecting.run, handleNetLeavingPduVia, andThen_run, if_neg calls, run]
      exact Ctl.noConfusion
  | q8 next rangeStart rangeEnd =>
      obtain ⟨data, effects, conn, run, -⟩ := connected { selfData with
        successor := ⟨selfData.successor.socket, next⟩
        rangeStart := rangeStart
        rangeEnd := rangeEnd }
      rw [Connecting.run, q8Via, run, andThen_run]
      exact Ctl.noConfusion

theorem Connecting.run_exit {msg : String} (calls : call.Calls selfData)
    (ends : ∀ selfData, (connect selfData).ctl = .exit msg) :
    (call.run connect selfData).ctl = .exit msg := by
  have andThen_exit : ∀ (selfData : SelfData) (rest : SelfData → Outcome),
      ((connect selfData).andThen rest).ctl = .exit msg := by
    intro selfData rest
    rw [Outcome.andThen, ends]
    exact ends selfData
  cases call with
  | connectToTcp => exact ends selfData
  | handleNetJoin src maxSpan max =>
      rcases calls with alone | ⟨predecessor, successor, largest⟩
      · rw [Connecting.run, handleNetJoinVia, if_pos alone]
        exact andThen_exit _ _
      · rw [Connecting.run, handleNetJoinVia, if_neg (fun alone => predecessor alone.1),
          if_neg (not_or.mpr ⟨predecessor, successor⟩), if_pos largest, andThen_run]
        exact andThen_exit _ _
  | handleNetLeavingPdu new =>
      rw [Connecting.run, handleNetLeavingPduVia, andThen_run, if_neg calls]
      exact ends _
  | q8 next rangeStart rangeEnd => exact andThen_exit _ _

theorem PollResult.ret_pos {poll : PollResult} (writable : poll.successorWritable = true)
    (ready : poll.ret ≠ 0) : 0 < poll.ret := by
  cases poll with
  | failed => cases writable
  | answered fds =>
      rw [PollResult.ret] at ready ⊢
      omega

theorem connectToTcpPolled_writable {serial : ℕ} (socket : attempt.socket = .ok serial)
    (sound : ¬ attempt.Fails) (ready : ¬ attempt.TimesOut)
    (writable : attempt.poll.successorWritable = true) (selfData : SelfData) :
    connectToTcpPolled attempt selfData = DhtRing.connectToTcp ⟨serial, fun _ => true⟩ selfData := by
  simp only [ConnectAttempt.Fails, not_or, Bool.not_eq_false, not_not] at sound
  obtain ⟨-, connects, error, -⟩ := sound
  have positive := PollResult.ret_pos writable ready
  simp [connectToTcpPolled, socket, connects, error, positive, writable, DhtRing.connectToTcp]

theorem connectToTcpPolled_not_writable {serial : ℕ} (socket : attempt.socket = .ok serial)
    (sound : ¬ attempt.Fails) (ready : ¬ attempt.TimesOut)
    (writable : attempt.poll.successorWritable ≠ true) (selfData : SelfData) :
    (connectToTcpPolled attempt selfData).ctl = .exit "Poll failed" := by
  simp only [ConnectAttempt.Fails, not_or, Bool.not_eq_false, not_not] at sound
  obtain ⟨-, connects, -, -⟩ := sound
  rw [ConnectAttempt.TimesOut] at ready
  simp [connectToTcpPolled, socket, connects, ready, writable]

/-- A connection is disturbed by nothing but its failure exactly when `poll` finds the
successor's descriptor writable. -/
theorem Connecting.undisturbed_iff (call : Connecting) (attempt : ConnectAttempt)
    (selfData : SelfData) :
    call.Undisturbed attempt selfData ↔
      ¬ call.Calls selfData ∨ attempt.Fails ∨ attempt.TimesOut ∨
        attempt.poll.successorWritable = true := by
  constructor
  · intro undisturbed
    by_contra others
    rw [not_or, not_or, not_or, not_not] at others
    obtain ⟨calls, sound, ready, writable⟩ := others
    obtain ⟨serial, socket⟩ : ∃ serial, attempt.socket = .ok serial := by
      cases answer : attempt.socket with
      | error msg => exact absurd (Or.inl ⟨msg, answer⟩) sound
      | ok serial => exact ⟨serial, rfl⟩
    exact (undisturbed calls sound ready).1 _
      (Connecting.run_exit calls (connectToTcpPolled_not_writable socket sound ready writable))
  · rintro (never | fails | timeout | writable) calls sound ready
    · exact absurd calls never
    · exact absurd fails sound
    · exact absurd timeout ready
    · obtain ⟨serial, socket⟩ : ∃ serial, attempt.socket = .ok serial := by
        cases answer : attempt.socket with
        | error msg => exact absurd (Or.inl ⟨msg, answer⟩) sound
        | ok serial => exact ⟨serial, rfl⟩
      have same : connectToTcpPolled attempt = DhtRing.connectToTcp ⟨serial, fun _ => true⟩ :=
        funext (connectToTcpPolled_writable socket sound ready writable)
      rw [same]
      refine ⟨Connecting.run_not_exit calls fun selfData => ⟨_, _, _, rfl, rfl⟩, serial, ?_⟩
      exact call.run_connectToTcp _ selfData

end

def clientFirst : ConnectAttempt where
  socket := .ok 0
  connects := true
  poll := .answered ⟨⟨true, false, false, false, false⟩, .quiet, .quiet, .quiet⟩
  soError := some 0

theorem connecting_disturbed : ¬ ∀ (call : Connecting) (attempt : ConnectAttempt)
    (selfData : SelfData),
    call.Undisturbed attempt selfData := by
  intro claim
  have sound : ¬ clientFirst.Fails := by
    rintro (⟨msg, none⟩ | refused | error | ⟨fds, answer, events⟩)
    · cases none
    · cases refused
    · exact error rfl
    · cases answer
      rcases events with event | event | event <;> cases event
  have ready : ¬ clientFirst.TimesOut := fun timeout =>
    absurd (show clientFirst.poll.ret = 0 from timeout) (by decide)
  have ends := claim (.handleNetLeavingPdu ⟨2, 5000⟩) clientFirst loneNode
    (show (⟨2, 5000⟩ : Addr) ≠ loneNode.listening by decide) sound ready
  exact ends.1 "Poll failed" rfl

end DhtRing

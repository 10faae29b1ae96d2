import DhtRing.HalfConnected

/-!
# The two records of a connection

A node keeps the descriptor of each neighbour twice: in `successor.socket` or
`predecessor.socket`, and in `fds`.  Some code sends through the one and some through
the other.  Here one node runs alone: it handles PDUs, and `recv` fails or answers 0.
-/

set_option autoImplicit false

namespace DhtRing

open Transition

/-! ## A node and its descriptors -/

/-- A node in `q6` and what it has closed of its descriptors. -/
structure Records where
  selfData : SelfData
  closed : Loc → Bool
  udpClosed : Bool
  serial : ℕ

inductive RecvEvent where
  /-- A PDU is handled; `answers` says who answers to `connect`, and `caller` is the
  connection that a waiting handler accepts. -/
  | handle (answers : Addr → Bool) (pdu : Pdu) (caller : Conn)
  /-- `recv` on descriptor `i` answers a negative number. -/
  | recvError (i : FdsIndex)
  /-- `recv` on descriptor `i` answers 0. -/
  | peerClosed (i : FdsIndex)

def Records.perform (records : Records) : Effect → Records
  | .tcp _ _ | .udp _ _ => records
  | .connect conn =>
      { records with
        closed := Function.update records.closed (.up conn) false
        serial := records.serial + 1 }
  | .close fd => { records with closed := Function.update records.closed fd true }

def Records.performAll (records : Records) (effects : List Effect) : Records :=
  effects.foldl Records.perform records

def Records.accept (records : Records) (caller : Conn) : Records :=
  { records with
    selfData := records.selfData.acceptPredecessor caller
    closed := Function.update records.closed (.down caller) false }

/-- One event; no answer when it cannot happen or the node ends. -/
def Records.step (records : Records) : RecvEvent → Option Records
  | .handle answers pdu caller =>
      match dispatch ⟨records.serial, answers⟩ records.selfData pdu with
      | none => some records
      | some outcome =>
          let after := { records.performAll outcome.effects with selfData := outcome.selfData }
          match outcome.ctl with
          | .run => some after
          | .accept => some (after.accept caller)
          | _ => none
  | .recvError .udp => some records
  | .recvError .successor =>
      match records.selfData.fdsSuccessor with
      | some conn =>
          if records.closed (.up conn) then none
          else some { records.performAll (closeSuccessor records.selfData) with
            selfData := { records.selfData with
              successor := ⟨none, records.selfData.successor.destAddr⟩ } }
      | none => none
  | .recvError .predecessor =>
      match records.selfData.fdsPredecessor with
      | some conn =>
          if records.closed (.down conn) then none
          else some { records.performAll (closePredecessor records.selfData) with
            selfData := { records.selfData with predecessor := none } }
      | none => none
  | .peerClosed .udp => some { records with udpClosed := true }
  | .peerClosed .successor =>
      match records.selfData.fdsSuccessor with
      | some conn =>
          if records.closed (.up conn) then none
          else some { records.perform (.close (.up conn)) with
            selfData := { records.selfData with fdsSuccessor := none } }
      | none => none
  | .peerClosed .predecessor =>
      match records.selfData.fdsPredecessor with
      | some conn =>
          if records.closed (.down conn) then none
          else some { records.perform (.close (.down conn)) with
            selfData := { records.selfData with fdsPredecessor := none } }
      | none => none

def Records.founder (listening : Addr) : Records :=
  ⟨q4 (SelfData.setup listening), fun _ => false, false, 0⟩

/-- The node that enters `q6` from `q8`, if its successor answers. -/
def Records.joined (listening : Addr) (caller : Conn) (answers : Addr → Bool) (next : Addr)
    (rangeStart rangeEnd : UInt8) : Option Records :=
  let outcome := q8 ⟨0, answers⟩ ((SelfData.setup listening).acceptPredecessor caller) next
    rangeStart rangeEnd
  match outcome.ctl with
  | .run =>
      some { (Records.founder listening).performAll outcome.effects with
        selfData := outcome.selfData }
  | _ => none

def Records.Enters (records : Records) : Prop :=
  ∃ listening, records = .founder listening ∨ ∃ caller answers next rangeStart rangeEnd,
    Records.joined listening caller answers next rangeStart rangeEnd = some records

/-! ## Agreement -/

/-- Both records name one open descriptor, or both say that there is none. -/
def Agrees (socket fd : Option Conn) (closed : Conn → Bool) : Prop :=
  (∃ conn, socket = some conn ∧ fd = some conn ∧ closed conn = false) ∨ (socket = none ∧ fd = none)

structure Records.Agree (records : Records) : Prop where
  successor : Agrees records.selfData.successor.socket records.selfData.fdsSuccessor
    fun conn => records.closed (.up conn)
  predecessor : Agrees records.selfData.predecessor records.selfData.fdsPredecessor
    fun conn => records.closed (.down conn)
  udp : records.udpClosed = false

def Records.OpenFor (records : Records) : Effect → Prop
  | .tcp fd _ => records.closed fd = false
  | .udp _ _ => records.udpClosed = false
  | _ => True

def Records.SendsOpen (records : Records) : List Effect → Prop
  | [] => True
  | effect :: rest => records.OpenFor effect ∧ (records.perform effect).SendsOpen rest

/-- Whatever the node does next, in `q6` or in `shutdown_proceedure`, it sends to open
descriptors only. -/
structure Records.Safe (records : Records) : Prop where
  handles : ∀ answers pdu outcome,
    dispatch ⟨records.serial, answers⟩ records.selfData pdu = some outcome →
      records.SendsOpen outcome.effects
  offers : records.SendsOpen (offerRange records.selfData)
  handsOver : ∀ granted, records.SendsOpen (handOver records.selfData granted).effects
  leaves : ∀ new, records.SendsOpen (sayGoodbye records.selfData new)

/-- The event is not a failed `recv` on a neighbour's descriptor, or an end of stream. -/
def RecvEvent.Harmless : RecvEvent → Prop
  | .handle _ _ _ => True
  | .recvError i => i = .udp
  | .peerClosed _ => False

section

variable {records : Records}

@[simp] theorem Records.performAll_nil : records.performAll [] = records := rfl

theorem Records.performAll_cons (effect : Effect) (effects : List Effect) :
    records.performAll (effect :: effects) = (records.perform effect).performAll effects := rfl

theorem Records.performAll_append (first second : List Effect) :
    records.performAll (first ++ second) = (records.performAll first).performAll second :=
  List.foldl_append ..

theorem Records.sendsOpen_append (first second : List Effect) :
    records.SendsOpen (first ++ second) ↔
      records.SendsOpen first ∧ (records.performAll first).SendsOpen second := by
  induction first generalizing records with
  | nil => simp [Records.SendsOpen]
  | cons effect rest ih =>
      rw [List.cons_append, Records.SendsOpen, Records.SendsOpen, ih, Records.performAll_cons,
        and_assoc]

theorem Records.sends (records : Records) {effects : List Effect}
    (open_only : ∀ effect ∈ effects, (∃ dest pdu, effect = .udp dest pdu) ∧
        records.udpClosed = false ∨
      ∃ fd pdu, effect = .tcp fd pdu ∧ records.closed fd = false) :
    records.SendsOpen effects ∧ records.performAll effects = records := by
  induction effects with
  | nil => exact ⟨trivial, rfl⟩
  | cons effect rest ih =>
      obtain ⟨later, same⟩ := ih fun other mem => open_only other (List.mem_cons_of_mem _ mem)
      rcases open_only effect List.mem_cons_self with ⟨⟨dest, pdu, rfl⟩, is_open⟩ |
        ⟨fd, pdu, rfl, is_open⟩
      · exact ⟨⟨is_open, later⟩, same⟩
      · exact ⟨⟨is_open, later⟩, same⟩

theorem Agrees.isOpen {socket fd : Option Conn} {closed : Conn → Bool}
    (agrees : Agrees socket fd closed) : socket = fd ∧ ∀ conn, fd = some conn →
      closed conn = false := by
  rcases agrees with ⟨conn, rfl, rfl, is_open⟩ | ⟨rfl, rfl⟩
  · exact ⟨rfl, fun other same => by cases same; exact is_open⟩
  · exact ⟨rfl, fun other same => by cases same⟩

theorem agrees_of_open {socket fd : Option Conn} {closed : Conn → Bool} (same : socket = fd)
    (is_open : ∀ conn, fd = some conn → closed conn = false) : Agrees socket fd closed := by
  subst same
  cases socket with
  | none => exact Or.inr ⟨rfl, rfl⟩
  | some conn => exact Or.inl ⟨conn, rfl, rfl, is_open conn rfl⟩

theorem Records.Agree.fd (agree : records.Agree) {index : FdsIndex} {loc : Loc}
    (held : records.selfData.fd index = some loc) : records.closed loc = false := by
  cases index with
  | udp => cases held
  | successor =>
      obtain ⟨conn, fds, rfl⟩ := Option.map_eq_some_iff.mp held
      exact agree.successor.isOpen.2 conn fds
  | predecessor =>
      obtain ⟨conn, fds, rfl⟩ := Option.map_eq_some_iff.mp held
      exact agree.predecessor.isOpen.2 conn fds

theorem Records.Agree.sendSuccessor (agree : records.Agree) (pdu : Pdu) :
    records.SendsOpen (sendSuccessor records.selfData pdu) ∧
      records.performAll (DhtRing.sendSuccessor records.selfData pdu) = records := by
  obtain ⟨same, is_open⟩ := agree.successor.isOpen
  refine records.sends fun effect mem => Or.inr ?_
  rw [DhtRing.sendSuccessor, same] at mem
  split at mem
  · rename_i conn held
    exact ⟨.up conn, pdu, by simpa using mem, is_open conn held⟩
  · simp at mem

theorem Records.Agree.sendPredecessor (agree : records.Agree) (pdu : Pdu) :
    records.SendsOpen (sendPredecessor records.selfData pdu) ∧
      records.performAll (DhtRing.sendPredecessor records.selfData pdu) = records := by
  obtain ⟨same, is_open⟩ := agree.predecessor.isOpen
  refine records.sends fun effect mem => Or.inr ?_
  rw [DhtRing.sendPredecessor, same] at mem
  split at mem
  · rename_i conn held
    exact ⟨.down conn, pdu, by simpa using mem, is_open conn held⟩
  · simp at mem

theorem Records.connected (udp : records.udpClosed = false) (data : SelfData) {conn : Conn}
    (successor : data.successor.socket = some conn) (fds : data.fdsSuccessor = some conn)
    (predecessor : Agrees data.predecessor data.fdsPredecessor fun conn =>
      records.closed (.down conn)) {moved : List Effect}
    (sends : ∀ effect ∈ moved, ∃ pdu, effect = .tcp (.up conn) pdu) :
    records.SendsOpen (.connect conn :: moved) ∧
      Records.Agree { records.performAll (.connect conn :: moved) with selfData := data } := by
  have is_open : (records.perform (.connect conn)).closed (.up conn) = false := by
    simp [Records.perform]
  obtain ⟨open_moved, same⟩ : (records.perform (.connect conn)).SendsOpen moved ∧
      (records.perform (.connect conn)).performAll moved = records.perform (.connect conn) := by
    refine Records.sends _ fun effect mem => Or.inr ?_
    obtain ⟨pdu, eq⟩ := sends effect mem
    exact ⟨.up conn, pdu, eq, is_open⟩
  refine ⟨⟨trivial, open_moved⟩, ?_⟩
  rw [Records.performAll_cons, same]
  refine ⟨Or.inl ⟨conn, successor, fds, is_open⟩, ?_, udp⟩
  obtain ⟨eq, open_pred⟩ := predecessor.isOpen
  refine agrees_of_open eq fun other held => ?_
  simpa [Records.perform] using open_pred other held

structure Records.Keeps (records : Records) (outcome : Outcome) : Prop where
  sends : records.SendsOpen outcome.effects
  run : outcome.ctl = .run →
    Records.Agree { records.performAll outcome.effects with selfData := outcome.selfData }
  accept : outcome.ctl = .accept → ∀ caller, Records.Agree (Records.accept
    { records.performAll outcome.effects with selfData := outcome.selfData } caller)

theorem Records.accepted (udp : records.udpClosed = false)
    (successor : Agrees records.selfData.successor.socket records.selfData.fdsSuccessor
      fun conn => records.closed (.up conn)) (caller : Conn) : (records.accept caller).Agree := by
  refine ⟨?_, Or.inl ⟨caller, rfl, rfl, by simp [Records.accept]⟩, udp⟩
  obtain ⟨same, is_open⟩ := successor.isOpen
  refine agrees_of_open same fun conn held => ?_
  simpa [Records.accept] using is_open conn held

theorem Records.Agree.keeps_sending (agree : records.Agree) {outcome : Outcome}
    (sends : ∀ effect ∈ outcome.effects, (∃ dest pdu, effect = .udp dest pdu) ∨
      ∃ index fd pdu, records.selfData.fd index = some fd ∧ effect = .tcp fd pdu)
    (successor : outcome.selfData.successor = records.selfData.successor)
    (fdsSuccessor : outcome.selfData.fdsSuccessor = records.selfData.fdsSuccessor)
    (predecessor : outcome.selfData.predecessor = records.selfData.predecessor)
    (fdsPredecessor : outcome.selfData.fdsPredecessor = records.selfData.fdsPredecessor)
    (goes_on : outcome.ctl ≠ .accept) : records.Keeps outcome := by
  have is_open : ∀ effect ∈ outcome.effects, (∃ dest pdu, effect = .udp dest pdu) ∧
      records.udpClosed = false ∨ ∃ fd pdu, effect = .tcp fd pdu ∧ records.closed fd = false := by
    intro effect mem
    rcases sends effect mem with reply | ⟨index, fd, pdu, held, eq⟩
    · exact Or.inl ⟨reply, agree.udp⟩
    · exact Or.inr ⟨fd, pdu, eq, agree.fd held⟩
  obtain ⟨open_sends, same⟩ := records.sends is_open
  refine ⟨open_sends, fun _ => ?_, fun waits => absurd waits goes_on⟩
  rw [same]
  refine ⟨?_, ?_, agree.udp⟩
  · simpa only [successor, fdsSuccessor] using agree.successor
  · simpa only [predecessor, fdsPredecessor] using agree.predecessor

theorem Records.keeps_exit {effects : List Effect} (sends : records.SendsOpen effects)
    (data : SelfData) (msg : String) : records.Keeps ⟨data, effects, .exit msg⟩ :=
  ⟨sends, by simp, by simp⟩

theorem Records.Agree.keeps_join (agree : records.Agree) (answers : Addr → Bool) (src max : Addr)
    (maxSpan : UInt8) :
    records.Keeps (handleNetJoin ⟨records.serial, answers⟩ records.selfData src maxSpan max) := by
  -- a node that has connected to the joining one
  have connected : ∀ {data : SelfData} {conn : Conn} {response : Pdu} {moved : List Effect},
      data.wiring = { records.selfData.wiring with
        rangeEnd := middlePoint records.selfData.rangeStart records.selfData.rangeEnd
        successor := ⟨some conn, src⟩
        fdsSuccessor := some conn } →
      (∀ effect ∈ moved, ∃ ssn pair, effect = .tcp (.up conn) (.valInsert ssn pair)) →
      records.SendsOpen (.connect conn :: .tcp (.up conn) response :: moved) ∧
        Records.Agree { records.performAll (.connect conn :: .tcp (.up conn) response :: moved)
          with selfData := data } := by
    intro data conn response moved wiring inserts
    have successor : data.successor = ⟨some conn, src⟩ := congrArg Wiring.successor wiring
    have predecessor : data.predecessor = records.selfData.predecessor :=
      congrArg Wiring.predecessor wiring
    have fdsPredecessor : data.fdsPredecessor = records.selfData.fdsPredecessor :=
      congrArg Wiring.fdsPredecessor wiring
    refine Records.connected agree.udp data (by rw [successor]) (congrArg Wiring.fdsSuccessor wiring)
      (by rw [predecessor, fdsPredecessor]; exact agree.predecessor) fun effect mem => ?_
    rcases List.mem_cons.mp mem with rfl | later
    · exact ⟨response, rfl⟩
    · obtain ⟨ssn, pair, eq⟩ := inserts effect later
      exact ⟨_, eq⟩
  by_cases alone : records.selfData.predecessor = none
  · by_cases alone' : records.selfData.successor.socket = none
    · cases answered : (Env.mk records.serial answers).answers src with
      | true =>
          obtain ⟨data, moved, ctl, run, wiring, ctl_cases, inserts⟩ :=
            handleNetJoin_alone max maxSpan alone alone' answered
          obtain ⟨sends, after⟩ := connected wiring inserts
          rw [run]
          refine ⟨sends, fun goes_on => ?_, fun _ caller =>
            Records.accepted after.udp after.successor caller⟩
          rcases ctl_cases with rfl | rfl <;> cases goes_on
      | false =>
          have refused : handleNetJoin ⟨records.serial, answers⟩ records.selfData src maxSpan max =
              ⟨{ records.selfData with successor := ⟨none, src⟩ }, [],
                .exit "Connection failed"⟩ := by
            rw [handleNetJoin, if_pos ⟨alone, alone'⟩]
            simp only [Outcome.andThen, connectToTcp_refused answered]
          rw [refused]
          exact Records.keeps_exit (show records.SendsOpen [] from trivial) _ _
    · have half : handleNetJoin ⟨records.serial, answers⟩ records.selfData src maxSpan max =
          ⟨records.selfData, [], .exit "One of predecessor and successor is 0 but not both"⟩ := by
        rw [handleNetJoin, if_neg (fun h => alone' h.2), if_pos (Or.inl alone)]
      rw [half]
      exact Records.keeps_exit (show records.SendsOpen [] from trivial) _ _
  · by_cases alone' : records.selfData.successor.socket = none
    · have half : handleNetJoin ⟨records.serial, answers⟩ records.selfData src maxSpan max =
          ⟨records.selfData, [], .exit "One of predecessor and successor is 0 but not both"⟩ := by
        rw [handleNetJoin, if_neg (fun h => alone h.1), if_pos (Or.inr alone')]
      rw [half]
      exact Records.keeps_exit (show records.SendsOpen [] from trivial) _ _
    · by_cases named : max = records.selfData.listening
      · obtain ⟨farewell, same⟩ := agree.sendSuccessor .netCloseConnection
        cases answered : (Env.mk records.serial answers).answers src with
        | true =>
            obtain ⟨data, moved, ctl, run, wiring, ctl_cases, inserts⟩ :=
              handleNetJoin_resolve maxSpan alone alone' named answered
            obtain ⟨sends, after⟩ := connected wiring inserts
            rw [run]
            refine ⟨?_, fun _ => ?_, fun waits => ?_⟩
            · refine (Records.sendsOpen_append _ _).mpr ⟨farewell, ?_⟩
              rw [same]
              exact sends
            · simp only [Records.performAll_append, same]
              exact after
            · rcases ctl_cases with rfl | rfl <;> cases waits
        | false =>
            rw [handleNetJoin_unreachable maxSpan alone alone' named answered]
            exact Records.keeps_exit farewell _ _
      · rw [handleNetJoin_forward _ src maxSpan alone alone' named]
        obtain ⟨forwards, same⟩ := agree.sendSuccessor
          (if (maxSpan.toNat : Int) < records.selfData.selfRange
            then .netJoin src (UInt8.ofInt records.selfData.selfRange) records.selfData.listening
            else .netJoin src maxSpan max)
        exact ⟨forwards, fun _ => by rw [same]; exact agree, by simp⟩

theorem Records.Agree.keeps_newRange (agree : records.Agree) (rangeStart rangeEnd : UInt8) :
    records.Keeps (handleNetNewRange records.selfData rangeStart rangeEnd) := by
  have send : ∀ (data : SelfData) (index : FdsIndex) (msg : String),
      data.wiring.successor = records.selfData.successor →
      data.wiring.fdsSuccessor = records.selfData.fdsSuccessor →
      data.wiring.predecessor = records.selfData.predecessor →
      data.wiring.fdsPredecessor = records.selfData.fdsPredecessor →
      records.Keeps (sendOrExit data index .netNewRangeResponse msg) := by
    intro data index msg successor fdsSuccessor predecessor fdsPredecessor
    have fd : data.fd index = records.selfData.fd index := by
      cases index with
      | udp => rfl
      | successor => exact congrArg (Option.map Loc.up) fdsSuccessor
      | predecessor => exact congrArg (Option.map Loc.down) fdsPredecessor
    unfold sendOrExit
    split
    · rename_i loc held
      refine agree.keeps_sending (fun effect mem => Or.inr ?_) successor fdsSuccessor predecessor
        fdsPredecessor (by simp)
      exact ⟨index, loc, _, by rw [← fd, held], by simpa using mem⟩
    · exact Records.keeps_exit (show records.SendsOpen [] from trivial) _ _
  unfold handleNetNewRange updateRange
  dsimp only
  split
  · exact send _ _ _ rfl rfl rfl rfl
  · split
    · exact send _ _ _ rfl rfl rfl rfl
    · exact send _ _ _ rfl rfl rfl rfl

theorem Records.closeSuccessor_performAll (records : Records) (selfData : SelfData) :
    records.SendsOpen (closeSuccessor selfData) ∧
      (records.performAll (closeSuccessor selfData)).udpClosed = records.udpClosed ∧
      ∀ conn, (records.performAll (closeSuccessor selfData)).closed (.down conn) =
        records.closed (.down conn) := by
  unfold closeSuccessor
  split
  · refine ⟨⟨trivial, trivial⟩, rfl, fun conn => ?_⟩
    simp [Records.performAll_cons, Records.perform]
  · exact ⟨trivial, rfl, fun _ => rfl⟩

theorem Records.closePredecessor_performAll (records : Records) (selfData : SelfData) :
    records.SendsOpen (closePredecessor selfData) ∧
      (records.performAll (closePredecessor selfData)).udpClosed = records.udpClosed ∧
      ∀ conn, (records.performAll (closePredecessor selfData)).closed (.up conn) =
        records.closed (.up conn) := by
  unfold closePredecessor
  split
  · refine ⟨⟨trivial, trivial⟩, rfl, fun conn => ?_⟩
    simp [Records.performAll_cons, Records.perform]
  · exact ⟨trivial, rfl, fun _ => rfl⟩

theorem Records.Agree.keeps_leaving (agree : records.Agree) (answers : Addr → Bool) (new : Addr) :
    records.Keeps (handleNetLeavingPdu ⟨records.serial, answers⟩ records.selfData new) := by
  obtain ⟨quiet, udp, others⟩ := records.closeSuccessor_performAll records.selfData
  have predecessor : Agrees records.selfData.predecessor records.selfData.fdsPredecessor fun conn =>
      (records.performAll (closeSuccessor records.selfData)).closed (.down conn) := by
    simpa only [others] using agree.predecessor
  rw [handleNetLeavingPdu_eq]
  split
  · exact ⟨quiet, fun _ => ⟨Or.inr ⟨rfl, rfl⟩, predecessor, udp.trans agree.udp⟩, by simp⟩
  · split
    · let conn := Env.conn ⟨records.serial, answers⟩ records.selfData new
      let data := { records.selfData with
        successor := ⟨some conn, new⟩
        fdsSuccessor := some conn }
      have predecessor' : Agrees data.predecessor data.fdsPredecessor fun conn =>
          (records.performAll (closeSuccessor records.selfData)).closed (.down conn) := predecessor
      obtain ⟨sends, after⟩ := Records.connected (udp.trans agree.udp) data rfl rfl predecessor'
        (fun _ mem => absurd mem List.not_mem_nil)
      refine ⟨(Records.sendsOpen_append _ _).mpr ⟨quiet, sends⟩, fun _ => ?_, by simp⟩
      simp only [Records.performAll_append]
      exact after
    · exact Records.keeps_exit quiet _ _

theorem Records.Agree.keeps_close (agree : records.Agree) :
    records.Keeps (handleNetCloseConnection records.selfData) := by
  obtain ⟨quiet, udp, others⟩ := records.closePredecessor_performAll records.selfData
  have successor : Agrees records.selfData.successor.socket records.selfData.fdsSuccessor fun conn =>
      (records.performAll (closePredecessor records.selfData)).closed (.up conn) := by
    simpa only [others] using agree.successor
  unfold handleNetCloseConnection
  split
  · exact ⟨quiet, fun _ => ⟨successor, Or.inr ⟨rfl, rfl⟩, udp.trans agree.udp⟩, by simp⟩
  · refine ⟨quiet, by simp, fun _ caller => ?_⟩
    apply Records.accepted
    · exact udp.trans agree.udp
    · exact successor

theorem Records.Agree.dispatch (agree : records.Agree) {answers : Addr → Bool} {pdu : Pdu}
    {outcome : Outcome}
    (dispatched : dispatch ⟨records.serial, answers⟩ records.selfData pdu = some outcome) :
    records.Keeps outcome := by
  cases request : pdu.requestKey with
  | some ssn =>
      obtain ⟨wiring, goes_on, sends⟩ := dispatch_request request dispatched
      refine agree.keeps_sending (fun effect mem => ?_) (congrArg Wiring.successor wiring)
        (congrArg Wiring.fdsSuccessor wiring) (congrArg Wiring.predecessor wiring)
        (congrArg Wiring.fdsPredecessor wiring) goes_on
      rcases sends effect mem with reply | ⟨conn, held, eq⟩
      · exact Or.inl reply
      · exact Or.inr ⟨.successor, .up conn, pdu, by simp [SelfData.fd, held], eq⟩
  | none =>
      cases pdu with
      | netJoin src maxSpan max =>
          cases dispatched
          exact agree.keeps_join answers src max maxSpan
      | netNewRange rangeStart rangeEnd =>
          cases dispatched
          exact agree.keeps_newRange rangeStart rangeEnd
      | netLeaving new =>
          cases dispatched
          exact agree.keeps_leaving answers new
      | netCloseConnection =>
          cases dispatched
          exact agree.keeps_close
      | netJoinResponse _ _ _ => cases dispatched
      | netNewRangeResponse => cases dispatched
      | valLookupResponse _ _ => cases dispatched
      | _ => cases request

theorem Records.Agree.safe (agree : records.Agree) : records.Safe where
  handles answers pdu outcome dispatched := (agree.dispatch dispatched).sends
  offers := by
    unfold offerRange
    dsimp only
    split
    · exact (agree.sendSuccessor _).1
    · exact (agree.sendPredecessor _).1
  handsOver granted := by
    refine (records.sends fun effect mem => Or.inr ?_).1
    obtain ⟨fd, ssn, pair, held, eq⟩ := handOver_inserts mem
    exact ⟨fd, _, eq, agree.fd held⟩
  leaves new := by
    obtain ⟨closes, same⟩ := agree.sendSuccessor .netCloseConnection
    refine (Records.sendsOpen_append _ _).mpr ⟨closes, ?_⟩
    rw [same]
    exact (agree.sendPredecessor _).1

/-! ## Events -/

/-- An event at a neighbour's descriptor needs the descriptor to be open. -/
theorem opened_eq_some {held : Option Conn} {closed : Conn → Bool} {next : Conn → Records}
    {after : Records}
    (stepped : (match held with
      | some conn => if closed conn then none else some (next conn)
      | none => none) = some after) :
    ∃ conn, held = some conn ∧ after = next conn := by
  cases held with
  | none => cases stepped
  | some conn =>
      dsimp only at stepped
      split at stepped
      · cases stepped
      · exact ⟨conn, rfl, (Option.some.inj stepped).symm⟩

/-- An event keeps the records in agreement exactly when it is harmless. -/
theorem Records.Agree.step_iff (agree : records.Agree) {event : RecvEvent} {after : Records}
    (stepped : records.step event = some after) : after.Agree ↔ event.Harmless := by
  cases event with
  | handle answers pdu caller =>
      refine ⟨fun _ => trivial, fun _ => ?_⟩
      simp only [Records.step] at stepped
      split at stepped
      · cases stepped
        exact agree
      · rename_i outcome dispatched
        have keeps := agree.dispatch dispatched
        split at stepped
        · rename_i goes_on
          cases stepped
          exact keeps.run goes_on
        · rename_i waits
          cases stepped
          exact keeps.accept waits caller
        · cases stepped
  | recvError i =>
      cases i with
      | udp =>
          cases stepped
          exact ⟨fun _ => rfl, fun _ => agree⟩
      | successor =>
          refine ⟨fun agree' => ?_, fun harmless => by cases harmless⟩
          -- the socket is forgotten, the descriptor is not
          obtain ⟨conn, held, rfl⟩ := opened_eq_some stepped
          have same := agree'.successor.isOpen.1
          rw [held] at same
          cases same
      | predecessor =>
          refine ⟨fun agree' => ?_, fun harmless => by cases harmless⟩
          obtain ⟨conn, held, rfl⟩ := opened_eq_some stepped
          have same := agree'.predecessor.isOpen.1
          rw [held] at same
          cases same
  | peerClosed i =>
      refine ⟨fun agree' => ?_, fun harmless => by cases harmless⟩
      cases i with
      | udp =>
          cases stepped
          exact absurd agree'.udp (by simp)
      | successor =>
          -- the descriptor is forgotten, the socket is not
          obtain ⟨conn, held, rfl⟩ := opened_eq_some stepped
          have same := agree'.successor.isOpen.1
          rw [agree.successor.isOpen.1, held] at same
          cases same
      | predecessor =>
          obtain ⟨conn, held, rfl⟩ := opened_eq_some stepped
          have same := agree'.predecessor.isOpen.1
          rw [agree.predecessor.isOpen.1, held] at same
          cases same

theorem Records.Agree.exec_iff {events : List RecvEvent} :
    ∀ {start last : Records}, start.Agree → exec Records.step start events = some last →
      ((∀ pre records, pre <+: events → exec Records.step start pre = some records →
          records.Agree ∧ records.Safe) ↔
        ∀ event ∈ events, event.Harmless) := by
  induction events with
  | nil =>
      intro start last agree _
      refine ⟨fun _ => by simp, fun _ pre records before executed => ?_⟩
      rw [List.prefix_nil.mp before] at executed
      cases executed
      exact ⟨agree, agree.safe⟩
  | cons event rest ih =>
      intro start last agree executed
      obtain ⟨mid, stepped, later⟩ := Option.bind_eq_some_iff.mp executed
      have first := agree.step_iff stepped
      constructor
      · intro all
        have one : exec Records.step start [event] = some mid := by simp [exec, stepped]
        have agree_mid := (all [event] mid (by simp) one).1
        have here := first.mp agree_mid
        have others := (ih agree_mid later).mp fun pre records before run => by
          refine all (event :: pre) records (List.cons_prefix_cons.mpr ⟨rfl, before⟩) ?_
          simpa [exec, stepped] using run
        exact List.forall_mem_cons.mpr ⟨here, others⟩
      · intro harmless pre records before run
        obtain ⟨here, others⟩ := List.forall_mem_cons.mp harmless
        cases pre with
        | nil =>
            cases run
            exact ⟨agree, agree.safe⟩
        | cons other pre =>
            obtain ⟨rfl, within⟩ := List.cons_prefix_cons.mp before
            refine (ih (first.mpr here) later).mpr others pre records within ?_
            simpa [exec, stepped] using run

end

theorem Records.Enters.agree {start : Records} (enters : start.Enters) : start.Agree := by
  obtain ⟨listening, rfl | ⟨caller, answers, next, rangeStart, rangeEnd, joined⟩⟩ := enters
  · exact ⟨Or.inr ⟨rfl, rfl⟩, Or.inr ⟨rfl, rfl⟩, rfl⟩
  · cases answered : (Env.mk 0 answers).answers next with
    | true =>
        rw [Records.joined, q8_answered rangeStart rangeEnd answered] at joined
        cases joined
        refine (Records.connected rfl _ rfl rfl ?_ (fun _ mem => absurd mem List.not_mem_nil)).2
        exact Or.inl ⟨caller, rfl, rfl, rfl⟩
    | false =>
        rw [Records.joined, q8_refused rangeStart rangeEnd answered] at joined
        cases joined

/-- In `q6` the two records of each neighbour agree in every state reached, and every
message goes to an open descriptor, exactly when no `recv` fails on a neighbour's
descriptor and none answers 0. -/
theorem records_agree_iff {start last : Records} (enters : start.Enters)
    {events : List RecvEvent} (executed : exec Records.step start events = some last) :
    (∀ pre records, pre <+: events → exec Records.step start pre = some records →
        records.Agree ∧ records.Safe) ↔
      ∀ event ∈ events, event.Harmless :=
  enters.agree.exec_iff executed

def firstJoin : RecvEvent := .handle (fun _ => true) (joinPdu nodeB) connBA

/-- A third node joins between the two, is the predecessor as well, and leaves again.  Once the
read of a datagram fails. -/
def comesAndGoes : List RecvEvent := [firstJoin, .recvError .udp,
  .handle (fun _ => true) (.netJoin nodeC 127 nodeA) connBA,
  .handle (fun _ => true) .netCloseConnection ⟨nodeC, nodeA, 5⟩,
  .handle (fun _ => true) (.netNewRange 64 127) connBA,
  .handle (fun _ => true) (.netLeaving nodeB) connBA]

theorem records_agree_comesAndGoes : ∃ last,
    exec Records.step (Records.founder nodeA) comesAndGoes = some last ∧
      last.selfData.successor.destAddr = nodeB ∧ last.Agree ∧ last.Safe := by
  have ran : ((exec Records.step (Records.founder nodeA) comesAndGoes).any fun last =>
    last.selfData.successor.destAddr = nodeB) = true := by decide
  obtain ⟨last, executed, successor⟩ := (Option.any_eq_true ..).mp ran
  have harmless : ∀ event ∈ comesAndGoes, event.Harmless := by
    simp only [comesAndGoes, firstJoin, List.forall_mem_cons]
    exact ⟨trivial, rfl, trivial, trivial, trivial, trivial, List.forall_mem_nil _⟩
  exact ⟨last, executed, of_decide_eq_true successor,
    (records_agree_iff ⟨nodeA, Or.inl rfl⟩ executed).mpr harmless _ _ (List.prefix_refl _)
      executed⟩

/-- The second node is gone: the first one keeps `successor.socket`, which is closed,
and would send its range there. -/
theorem closed_socket_kept : ∃ events last,
    exec Records.step (Records.founder nodeA) events = some last ∧ ¬ last.Agree ∧
      ¬ last.Safe := by
  have executed : (exec Records.step (Records.founder nodeA)
      [firstJoin, .peerClosed .successor]).map (fun records =>
        (records.selfData.successor.socket, records.selfData.fdsSuccessor,
          records.closed (.up connAB), records.selfData.rangeStart)) =
      some (some connAB, none, true, 0) := by decide
  obtain ⟨last, reached, eq⟩ := Option.map_eq_some_iff.mp executed
  simp only [Prod.mk.injEq] at eq
  obtain ⟨socket, fds, closed, rangeStart⟩ := eq
  refine ⟨_, last, reached, fun agree => ?_, fun safe => ?_⟩
  · have same := agree.successor.isOpen.1
    rw [socket, fds] at same
    cases same
  · have offers := safe.offers
    rw [offerRange, if_pos rangeStart, sendSuccessor, socket] at offers
    have is_open : last.closed (.up connAB) = false := offers.1
    rw [closed] at is_open
    cases is_open

end DhtRing

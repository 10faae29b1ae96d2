import DhtRing.Node

/-!
# The PDU handlers and the phases of a node

The handlers of `c_node.c`, `connect_to_tcp` and `accept_predecessor_connection`
of `sockets.c`, and the pieces of `q4`, `q7`, `q8` and `shutdown_proceedure`
between two points where the node waits for another.
-/

set_option autoImplicit false

namespace DhtRing

/-- What a handler learns from outside: the number of the next connection, and
whether a listening socket answers at an address. -/
structure Env where
  serial : Nat
  answers : Addr → Bool

/-! ## Connections -/

/-- `connect_to_tcp` when the connection to a node that listens has completed, in its
backlog, before `poll` looks at it; the node does not wait for the other side to
accept.  `connectToTcpPolled` takes any answer of `poll`, and
`Connecting.undisturbed_iff` says when it ends the node. -/
def connectToTcp (env : Env) (selfData : SelfData) : Outcome :=
  let dest := selfData.successor.destAddr
  let conn : Conn := ⟨selfData.listening, dest, env.serial⟩
  if env.answers dest then
    ⟨{ selfData with
        successor := ⟨some conn, dest⟩
        fdsSuccessor := some conn }, [.connect conn], .run⟩
  else ⟨{ selfData with successor := ⟨none, dest⟩ }, [], .exit "Connection failed"⟩

def SelfData.acceptPredecessor (selfData : SelfData) (conn : Conn) : SelfData :=
  { selfData with predecessor := some conn, fdsPredecessor := some conn }

def sendSuccessor (selfData : SelfData) (pdu : Pdu) : List Effect :=
  match selfData.successor.socket with
  | some conn => [.tcp (.up conn) pdu]
  | none => []

def sendPredecessor (selfData : SelfData) (pdu : Pdu) : List Effect :=
  match selfData.predecessor with
  | some conn => [.tcp (.down conn) pdu]
  | none => []

def closeSuccessor (selfData : SelfData) : List Effect :=
  match selfData.successor.socket with
  | some conn => [.close (.up conn)]
  | none => []

def closePredecessor (selfData : SelfData) : List Effect :=
  match selfData.predecessor with
  | some conn => [.close (.down conn)]
  | none => []

/-! ## Handlers -/

def SelfData.selfRange (selfData : SelfData) : Int :=
  (selfData.rangeEnd.toNat : Int) - selfData.rangeStart.toNat

def handleNetJoin (env : Env) (selfData : SelfData) (src : Addr) (maxSpan : UInt8) (max : Addr) :
    Outcome :=
  if selfData.predecessor = none ∧ selfData.successor.socket = none then
    (connectToTcp env { selfData with successor := ⟨none, src⟩ }).andThen fun selfData =>
      (sendNewRangeAndEntries selfData selfData.listening).andThen fun selfData =>
        ⟨selfData, [], .accept⟩
  else if selfData.predecessor = none ∨ selfData.successor.socket = none then
    ⟨selfData, [], .exit "One of predecessor and successor is 0 but not both"⟩
  else if max = selfData.listening then
    let previousSuccessor := selfData.successor.destAddr
    let closed := sendSuccessor selfData .netCloseConnection
    (Outcome.mk selfData closed .run).andThen fun selfData =>
      (connectToTcp env { selfData with
          successor := ⟨selfData.successor.socket, src⟩ }).andThen fun selfData =>
        sendNewRangeAndEntries selfData previousSuccessor
  else if (maxSpan.toNat : Int) < selfData.selfRange then
    ⟨selfData, sendSuccessor selfData
      (.netJoin src (UInt8.ofInt selfData.selfRange) selfData.listening), .run⟩
  else ⟨selfData, sendSuccessor selfData (.netJoin src maxSpan max), .run⟩

def handleNetNewRange (selfData : SelfData) (rangeStart rangeEnd : UInt8) : Outcome :=
  updateRange selfData rangeStart rangeEnd

def handleNetLeavingPdu (env : Env) (selfData : SelfData) (new : Addr) : Outcome :=
  (Outcome.mk selfData (closeSuccessor selfData) .run).andThen fun selfData =>
    if new = selfData.listening then
      ⟨{ selfData with
          successor := ⟨none, selfData.successor.destAddr⟩
          fdsSuccessor := none }, [], .run⟩
    else
      connectToTcp env { selfData with successor := ⟨selfData.successor.socket, new⟩ }

def handleNetCloseConnection (selfData : SelfData) : Outcome :=
  let after := { selfData with predecessor := none, fdsPredecessor := none }
  if selfData.rangeStart = 0 ∧ selfData.rangeEnd = 255 then
    ⟨after, closePredecessor selfData, .run⟩
  else ⟨after, closePredecessor selfData, .accept⟩

/-- The `switch` of `poll_for_incoming_data`; no answer for a type that it does
not know. -/
def dispatch (env : Env) (selfData : SelfData) : Pdu → Option Outcome
  | .valInsert ssn pair => some (handleHtInsert selfData ssn pair)
  | .valLookup ssn sender => some (handleHtLookup selfData ssn sender)
  | .valRemove ssn => some (handleHtRemove selfData ssn)
  | .netJoin src maxSpan max => some (handleNetJoin env selfData src maxSpan max)
  | .netNewRange rangeStart rangeEnd => some (handleNetNewRange selfData rangeStart rangeEnd)
  | .netLeaving new => some (handleNetLeavingPdu env selfData new)
  | .netCloseConnection => some (handleNetCloseConnection selfData)
  | .netJoinResponse _ _ _ => none
  | .netNewRangeResponse => none
  | .valLookupResponse _ _ => none

/-- The inner loop of `poll_for_incoming_data` over the PDUs of one chunk, up to
the first after which the node waits or ends. -/
def handleBuffer (env : Env) (selfData : SelfData) : List Pdu → Outcome
  | [] => ⟨selfData, [], .run⟩
  | pdu :: rest =>
      match dispatch env selfData pdu with
      | none => ⟨selfData, [], .run⟩
      | some outcome => outcome.andThen fun selfData => handleBuffer env selfData rest

/-! ## Start and shutdown -/

/-- `self_data` after `setup_data` and `q2`, from zeroed memory.  The descriptors in
`fds` that are still 0 are read as none: nothing comes in on `stdin`. -/
def SelfData.setup (listening : Addr) : SelfData :=
  { hashTable := none
    rangeStart := 0
    rangeEnd := 0
    fdsSuccessor := none
    fdsPredecessor := none
    myIpAddr := listening.address
    listeningPort := listening.port
    successor := ⟨none, ⟨0, 0⟩⟩
    predecessor := none
    ssns := fun _ => none }

def q4 (selfData : SelfData) : SelfData :=
  { selfData with hashTable := some htCreate, rangeStart := 0, rangeEnd := 255 }

def joinPdu (listening : Addr) : Pdu := .netJoin listening 0 ⟨0, 0⟩

/-- The end of `q7` and `q8`: the contents of the `NET_JOIN_RESPONSE` are stored,
the node connects to its successor and creates its table. -/
def q8 (env : Env) (selfData : SelfData) (next : Addr) (rangeStart rangeEnd : UInt8) : Outcome :=
  (connectToTcp env { selfData with
      successor := ⟨selfData.successor.socket, next⟩
      rangeStart := rangeStart
      rangeEnd := rangeEnd }).andThen fun selfData =>
    ⟨{ selfData with hashTable := some htCreate }, [], .run⟩

/-- The side that `shutdown_proceedure` hands the range to. -/
def SelfData.heir (selfData : SelfData) : FdsIndex :=
  if selfData.rangeStart = 0 then .successor else .predecessor

/-- `shutdown_proceedure` up to `receive_tcp_data`. -/
def offerRange (selfData : SelfData) : List Effect :=
  let newRange := Pdu.netNewRange selfData.rangeStart selfData.rangeEnd
  if selfData.rangeStart = 0 then sendSuccessor selfData newRange
  else sendPredecessor selfData newRange

/-- `shutdown_proceedure` from the reply to the last poll; `granted` says that
the type byte in the reply buffer is `NET_NEW_RANGE_RESPONSE`. -/
def handOver (selfData : SelfData) (granted : Bool) : Outcome :=
  (sendAllEntries selfData selfData.heir).andThen fun selfData =>
    if granted then ⟨{ selfData with rangeStart := 255, rangeEnd := 255 }, [], .run⟩
    else ⟨selfData, [], .exit "Unexpected response type"⟩

/-- The end of `shutdown_proceedure`.  The `NET_LEAVING` was filled in before the
last poll. -/
def sayGoodbye (selfData : SelfData) (new : Addr) : List Effect :=
  sendSuccessor selfData .netCloseConnection ++ sendPredecessor selfData (.netLeaving new)

end DhtRing

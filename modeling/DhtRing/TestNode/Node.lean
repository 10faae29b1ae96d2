import DhtRing.TestNode.Wrapper

/-!
# The Rust node

`node.rs`: the state functions `q1` to `q18`, `handle_pdu` and the utility functions.  A
function that waits for a PDU or for a connection is cut where it waits.  What a node does
to its sockets is kept as a list of effects; errors of the sockets are left out.

Arithmetic is checked, as in a debug build.  A release build wraps; it does the same as
long as nothing overflows.  Only `split_range` and the span of `q14` can overflow, and only
when the ends of the range are out of order or both 255.
-/

set_option autoImplicit false

namespace DhtRing.TestNode

/-! ## State -/

inductive State where
  | q1 | q2 | q3 | q4 | q5 | q6 | q7 | q8 | q9 | q10 | q11 | q12 | q13 | q14 | q15 | q16 | q17 | q18
deriving DecidableEq

inductive Source where
  | udp (sender : Addr)
  | predecessor (sender : Addr)
  | successor (sender : Addr)
deriving DecidableEq

inductive Token where
  | udp
  | successor
  | predecessor
deriving DecidableEq

structure Entry where
  ssn : RString
  name : RString
  email : RString
deriving DecidableEq

/-- `Entry::hash_ssn`. -/
def hashSsn (ssn : RString) : UInt8 :=
  (ssn.foldl (fun (hash : UInt32) c => (hash <<< 5) + hash + c.val) 5381 % 256).toUInt8

def Entry.hash (entry : Entry) : UInt8 := hashSsn entry.ssn

structure UdpSocket where
  localAddr : Addr
  datagrams : List Datagram
deriving DecidableEq

/-- What a node does to its sockets. -/
inductive Effect where
  | udp (pdu : PDU) (receiver : Addr)
  | tcp (fd : ℕ) (pdu : PDU)
  | connect (fd : ℕ) (addr : Addr)
  | accept (fd : ℕ)
  | shutdown (fd : ℕ)
  | close (fd : ℕ)
deriving DecidableEq

structure Node where
  state : State
  ownAddress : Option UInt32
  values : List Entry
  hashRange : UInt8 × UInt8
  lastAlive : ℕ
  lastPdu : Option PDU
  successorListen : Option Addr
  shouldClose : Bool
  running : Bool
  trackerAddr : Addr
  udpWrapper : UdpWrapper
  udpSocket : UdpSocket
  successorWrapper : TcpWrapper
  successor : Option TcpStream
  predecessorWrapper : TcpWrapper
  predecessor : Option TcpStream
  /-- The local address of `listen_socket`. -/
  listenAddr : Addr
  /-- The number of connections made or accepted so far. -/
  opened : ℕ
  effects : List Effect
deriving DecidableEq

/-- The clock in seconds, and what `connect` and `accept` give for the next connection. -/
structure Env where
  now : ℕ
  connect : ℕ → Addr → Option TcpStream
  accept : ℕ → Option TcpStream

/-- `Node::new`, bound to two free ports of all addresses. -/
def Node.new (trackerAddr : Addr) (udpPort listenPort : UInt16) : Node where
  state := .q1
  ownAddress := none
  values := []
  hashRange := (0, 0)
  lastAlive := 0
  lastPdu := none
  successorListen := none
  shouldClose := false
  running := true
  trackerAddr := trackerAddr
  udpWrapper := .new
  udpSocket := ⟨⟨0, udpPort⟩, []⟩
  successorWrapper := .new
  successor := none
  predecessorWrapper := .new
  predecessor := none
  listenAddr := ⟨0, listenPort⟩
  opened := 0
  effects := []

/-! ## Utilities -/

def unwrap {α : Type} : Option α → Except String α
  | some x => .ok x
  | none => .error "called `Option::unwrap()` on a `None` value"

def checkedSub (a b : UInt8) : Except String UInt8 :=
  if b ≤ a then .ok (a - b) else .error "attempt to subtract with overflow"

def checkedAdd (a b : UInt8) : Except String UInt8 :=
  if a.toNat + b.toNat < 256 then .ok (a + b) else .error "attempt to add with overflow"

namespace Node

variable (env : Env) (node : Node)

def emit (effects : List Effect) : Node := { node with effects := node.effects ++ effects }

def dropped (stream : Option TcpStream) : List Effect :=
  (stream.map fun socket => Effect.close socket.fd).toList

def setSuccessor (stream : Option TcpStream) : Node :=
  { node with successor := stream, effects := node.effects ++ dropped node.successor }

def setPredecessor (stream : Option TcpStream) : Node :=
  { node with predecessor := stream, effects := node.effects ++ dropped node.predecessor }

/-- `split_range`: the range of the other node. -/
def splitRange : Except String ((UInt8 × UInt8) × Node) := do
  let (min, max) := node.hashRange
  let span ← checkedSub max min
  let maxp ← checkedAdd (span / 2) min
  let mins ← checkedAdd maxp 1
  return ((mins, max), { node with hashRange := (min, maxp) })

/-- `transfer`: the entries of a range go to the successor or the predecessor. -/
def transfer (toSuccessor : Bool) (rangeStart rangeEnd : UInt8) : Except String Node := do
  let socket ← unwrap (if toSuccessor then node.successor else node.predecessor)
  let moved := node.values.filter fun x => x.hash ≥ rangeStart && x.hash ≤ rangeEnd
  let inserts := moved.map fun e =>
    Effect.tcp socket.fd (.valInsert (ValInsertPdu.new e.ssn e.name e.email))
  return { node.emit inserts with
    values := node.values.filter fun x => x.hash < rangeStart || x.hash > rangeEnd }

def sendAlive : Node :=
  if env.now - node.lastAlive > 10 then
    { node.emit [.udp (.netAlive NetAlivePdu.new) node.trackerAddr] with lastAlive := env.now }
  else node

def acceptPredecessor : Except String Node :=
  match env.accept node.opened with
  | none => .error "Failed to accept connection"
  | some socket =>
      .ok { (node.emit [.accept socket.fd]).setPredecessor (some socket) with
        opened := node.opened + 1 }

def connectToSuccessor (addr : Addr) : Except String (TcpStream × Node) :=
  match env.connect node.opened addr with
  | none => .error "Failed to connect to successor"
  | some socket =>
      .ok (socket, { node.emit [.connect socket.fd addr] with
        opened := node.opened + 1
        successorListen := some addr })

def inMyRange (ssn : RString) : Bool :=
  node.hashRange.1 ≤ hashSsn ssn && hashSsn ssn ≤ node.hashRange.2

def forward (pdu : PDU) : Except String Node :=
  match node.successor with
  | some socket => .ok (node.emit [.tcp socket.fd pdu])
  | none => .error "Successor is not set, impossible!"

def handleValInsert (pdu : ValInsertPdu) : Except String Node :=
  if node.inMyRange pdu.ssn then
    .ok { node with values := node.values ++ [⟨pdu.ssn, pdu.name, pdu.email⟩] }
  else node.forward (.valInsert pdu)

def lookupResponse (ssn : RString) : ValLookupResponsePdu :=
  match node.values.find? fun entry => entry.ssn = ssn with
  | some entry => ValLookupResponsePdu.new entry.ssn entry.name entry.email
  | none => ValLookupResponsePdu.new (List.replicate 12 '0') [] []

def handleValLookup (pdu : ValLookupPdu) : Except String Node :=
  if node.inMyRange pdu.ssn then
    .ok (node.emit [.udp (.valLookupResponse (node.lookupResponse pdu.ssn))
      ⟨pdu.senderAddress, pdu.senderPort⟩])
  else node.forward (.valLookup pdu)

def handleValRemove (pdu : ValRemovePdu) : Except String Node :=
  if node.inMyRange pdu.ssn then
    .ok { node with values := node.values.filter fun x => x.ssn ≠ pdu.ssn }
  else node.forward (.valRemove pdu)

/-! ## Awaiting a PDU -/

structure Arrival where
  bursts : List Burst
  closed : Bool

def arrive (stream : TcpStream) (arrival : Arrival) : TcpStream :=
  { stream with
    bursts := stream.bursts ++ arrival.bursts
    closed := stream.closed || arrival.closed }

/-- A round of `await_pdu` after its poll. -/
def pollPdu (successor : Bool) : Except String (Option Message × Node) := do
  if successor then
    let socket ← unwrap node.successor
    let (_, wrapper, socket) ← node.successorWrapper.tryRead socket
    let node := { node with successor := some socket }
    match wrapper.incomingQueue with
    | [] => return (none, { node with successorWrapper := wrapper })
    | x :: queue =>
        return (some x, { node with successorWrapper := { wrapper with incomingQueue := queue } })
  else
    let socket ← unwrap node.predecessor
    let (_, wrapper, socket) ← node.predecessorWrapper.tryRead socket
    let node := { node with predecessor := some socket }
    match wrapper.incomingQueue with
    | [] => return (none, { node with predecessorWrapper := wrapper })
    | x :: queue =>
        return (some x, { node with predecessorWrapper := { wrapper with incomingQueue := queue } })

/-- `await_pdu` over some polls, and no answer while no PDU has come. -/
def awaitPdu (successor : Bool) : List Arrival → Node → Except String (Option (Message × Node))
  | [], _ => return none
  | arrival :: arrivals, node => do
      let node :=
        if successor then { node with successor := node.successor.map (arrive · arrival) }
        else { node with predecessor := node.predecessor.map (arrive · arrival) }
      match ← node.pollPdu successor with
      | (some x, node) => return some (x, node)
      | (none, node) => awaitPdu successor arrivals node

def pollPduUdp : Except String (Option Message × Node) := do
  let wrapper ← node.udpWrapper.tryRead node.udpSocket.datagrams
  let node := { node with udpSocket := { node.udpSocket with datagrams := [] } }
  match wrapper.incomingQueue with
  | [] => return (none, { node with udpWrapper := wrapper })
  | x :: queue =>
      return (some x, { node with udpWrapper := { wrapper with incomingQueue := queue } })

/-! ## States -/

def q1 : Node :=
  { node.emit [.udp (.stunLookup StunLookupPdu.new) node.trackerAddr] with state := .q2 }

def q2Received : PDU → Except String Node
  | .stunResponse pdu => .ok { node with ownAddress := some pdu.address, state := .q3 }
  | _ => .error "Expected stun response, got something else :("

def q3Ask : Node := node.emit [.udp (.netGetNode NetGetNodePdu.new) node.trackerAddr]

def q3Received : PDU → Except String Node
  | .netGetNodeResponse pdu =>
      if pdu.address = 0 ∧ pdu.port = 0 then .ok { node with state := .q4 }
      else .ok { node with lastPdu := some (.netGetNodeResponse pdu), state := .q7 }
  | _ => .error "Expected NET_GET_NODE_RESPONSE , got something else :("

def q4 : Node := { node with hashRange := (0, 255), state := .q6 }

def takeNetJoin (message : String) : Except String NetJoinPdu :=
  match node.lastPdu with
  | some (.netJoin pdu) => .ok pdu
  | _ => .error message

/-- `q5` up to `accept_predecessor`. -/
def q5Connect : Except String Node := do
  let nextNode ← node.takeNetJoin "Invalid state change, last_pdu is not NetGetNodeResponse"
  let node := { node with lastPdu := none }
  let (socket, node) ← node.connectToSuccessor env ⟨nextNode.srcAddress, nextNode.srcPort⟩
  let ((mins, maxs), node) ← node.splitRange
  let ownAddress ← unwrap node.ownAddress
  let node := node.emit [.tcp socket.fd (.netJoinResponse
    (NetJoinResponsePdu.new ownAddress node.listenAddr.port mins maxs))]
  let node := node.setSuccessor (some socket)
  node.transfer true mins maxs

def q5 : Except String Node := do
  let node ← node.q5Connect env
  let node ← node.acceptPredecessor env
  return { node with state := .q6 }

def q7Join : Except String Node :=
  match node.lastPdu with
  | some (.netGetNodeResponse nextNode) => do
      let node := { node with lastPdu := none }
      let ownAddress ← unwrap node.ownAddress
      return node.emit [.udp (.netJoin (NetJoinPdu.new ownAddress node.listenAddr.port 0 0 0))
        ⟨nextNode.address, nextNode.port⟩]
  | _ => .error "Invalid state change, last_pdu is not NetGetNodeResponse"

def q7 : Except String Node := do
  let node ← node.q7Join
  let node ← node.acceptPredecessor env
  return { node with state := .q8 }

def q8Received : PDU → Except String Node
  | .netJoinResponse pdu => do
      let node := { node with hashRange := (pdu.rangeStart, pdu.rangeEnd) }
      let addr := ⟨pdu.nextAddress, pdu.nextPort⟩
      let (successor, node) ← node.connectToSuccessor env addr
      let node := { node with successorListen := some addr }
      return { node.setSuccessor (some successor) with state := .q6 }
  | _ => .error "Expected NET_JOIN_RESPONSE, got something else :("

def q9 : Except String Node := do
  let pdu ← unwrap node.lastPdu
  let node := { node with lastPdu := none }
  let node ← match pdu with
    | .valInsert pdu => node.handleValInsert pdu
    | .valRemove pdu => node.handleValRemove pdu
    | .valLookup pdu => node.handleValLookup pdu
    | _ => .error "Invalid PDU for state Q9"
  return { node with state := .q6 }

def handlePdu (pdu : PDU) (sender : Source) : Except String Node :=
  match pdu with
  | .netJoin pdu => .ok { node with lastPdu := some (.netJoin pdu), state := .q12 }
  | .netCloseConnection _ =>
      match sender with
      | .predecessor _ => .ok { node with state := .q17 }
      | _ => .error "Got NET_CLOSE from someone other than my predecessor!"
  | .netNewRange pdu => .ok { node with lastPdu := some (.netNewRange pdu), state := .q15 }
  | .netLeaving pdu => .ok { node with lastPdu := some (.netLeaving pdu), state := .q16 }
  | .valInsert pdu => q9 { node with lastPdu := some (.valInsert pdu) }
  | .valRemove pdu => q9 { node with lastPdu := some (.valRemove pdu) }
  | .valLookup pdu => q9 { node with lastPdu := some (.valLookup pdu) }
  | _ => .ok node

def handleAll (source : Addr → Source) (queue : List Message) : Except String Node :=
  queue.foldlM (fun node message => node.handlePdu message.1 (source message.2)) node

def handleEvent : Token → Except String Node
  | .udp => do
      let wrapper ← node.udpWrapper.tryRead node.udpSocket.datagrams
      let node := { node with
        udpSocket := { node.udpSocket with datagrams := [] }
        udpWrapper := { wrapper with incomingQueue := [] } }
      node.handleAll .udp wrapper.incomingQueue
  | .successor =>
      match node.successor with
      | none => return node
      | some suc => do
          let (closed, wrapper, suc) ← node.successorWrapper.tryRead suc
          let node := { node with
            successor := some suc
            successorWrapper := { wrapper with incomingQueue := [] } }
          let node := if closed then node.setSuccessor none else node
          node.handleAll .successor wrapper.incomingQueue
  | .predecessor =>
      match node.predecessor with
      | none => return node
      | some pred => do
          let (_, wrapper, pred) ← node.predecessorWrapper.tryRead pred
          let node := { node with
            predecessor := some pred
            predecessorWrapper := { wrapper with incomingQueue := [] } }
          node.handleAll .predecessor wrapper.incomingQueue

/-- The end of `q6`. -/
def checkClose : Node := if node.shouldClose then { node with state := .q10 } else node

/-- `q6` with the events of its poll.  `interrupt` says that a close is requested meanwhile. -/
def q6 (events : List Token) (interrupt : Bool) : Except String Node := do
  let node ← events.foldlM handleEvent (node.sendAlive env)
  return checkClose { node with shouldClose := node.shouldClose || interrupt }

def q10 : Node :=
  if node.successor.isNone then { node with running := false } else { node with state := .q11 }

/-- `q11` up to `await_pdu`, and on which side it waits. -/
def q11Ask : Except String (Bool × Node) :=
  match node.successor, node.predecessor with
  | some successor, some predecessor =>
      let newRange := PDU.netNewRange (NetNewRangePdu.new node.hashRange.1 node.hashRange.2)
      let toSuccessor : Bool := node.hashRange.1 = 0
      if toSuccessor then .ok (toSuccessor, node.emit [.tcp successor.fd newRange])
      else .ok (toSuccessor, node.emit [.tcp predecessor.fd newRange])
  | none, _ => .error "Missing successor socket >("
  | _, none => .error "Missing predecessor socket >("

def q11Received : PDU → Except String Node
  | .netNewRangeResponse _ => .ok { node with state := .q18 }
  | _ => .error "Expected NET_NEW_RANGE_RESPONSE"

def q11 (arrivals : List Arrival) : Except String (Option Node) := do
  let (toSuccessor, node) ← node.q11Ask
  match ← awaitPdu toSuccessor arrivals node with
  | none => return none
  | some ((pdu, _), node) => return some (← node.q11Received pdu)

def q12 : Except String Node :=
  if node.successor.isNone then .ok { node with state := .q5 }
  else do
    let pdu ← node.takeNetJoin "Invalid state change, last_pdu is not NetJoin"
    if node.listenAddr = ⟨pdu.maxAddress, pdu.maxPort⟩ then
      return { node with lastPdu := some (.netJoin pdu), state := .q13 }
    return { node with lastPdu := some (.netJoin pdu), state := .q14 }

def q13 : Except String Node := do
  let old ← unwrap node.successor
  let pdu ← node.takeNetJoin "Invalid state change, last_pdu is not NetJoin"
  let node := node.emit
    [.tcp old.fd (.netCloseConnection NetCloseConnectionPdu.new), .shutdown old.fd]
  let node := node.setSuccessor none
  let addr := ⟨pdu.srcAddress, pdu.srcPort⟩
  let (stream, node) ← node.connectToSuccessor env addr
  let node := { node with successorListen := some addr }
  let node := { node.setSuccessor (some stream) with lastPdu := none }
  let ((mins, maxs), node) ← node.splitRange
  let node := node.emit [.tcp stream.fd (.netJoinResponse
    (NetJoinResponsePdu.new old.peerAddr.address old.peerAddr.port mins maxs))]
  let node ← node.transfer true mins maxs
  return { node with state := .q6 }

def q14 : Except String Node := do
  let pdu ← node.takeNetJoin "Invalid state change, last_pdu is not NetJoin"
  let node := { node with lastPdu := none }
  let span ← checkedSub node.hashRange.2 node.hashRange.1
  let pdu := if span > pdu.maxSpan then
      { pdu with
        maxSpan := span
        maxAddress := node.listenAddr.address
        maxPort := node.listenAddr.port }
    else pdu
  let node ← node.forward (.netJoin pdu)
  return { node with state := .q6 }

def q15 : Except String Node :=
  match node.lastPdu with
  | some (.netNewRange newRange) => do
      let node := { node with lastPdu := none }
      let (min, max) := node.hashRange
      let response := PDU.netNewRangeResponse NetNewRangeResponsePdu.new
      if max ≠ 255 ∧ newRange.rangeStart = max + 1 then
        let successor ← unwrap node.successor
        return { node.emit [.tcp successor.fd response] with
          hashRange := (min, newRange.rangeEnd)
          state := .q6 }
      else
        let predecessor ← unwrap node.predecessor
        return { node.emit [.tcp predecessor.fd response] with
          hashRange := (newRange.rangeStart, max)
          state := .q6 }
  | _ => .error "Invalid state change, last_pdu is not NetNewRange"

def q16 : Except String Node :=
  match node.lastPdu with
  | some (.netLeaving netLeaving) => do
      let node := { node with lastPdu := none }
      let ownAddress ← unwrap node.ownAddress
      if netLeaving.newAddress = ownAddress ∧ netLeaving.newPort = node.listenAddr.port then
        return { (node.setSuccessor none).setPredecessor none with state := .q6 }
      else
        let node := node.setSuccessor none
        let (successor, node) ←
          node.connectToSuccessor env ⟨netLeaving.newAddress, netLeaving.newPort⟩
        return { node.setSuccessor (some successor) with state := .q6 }
  | _ => .error "Invalid state change, last_pdu is not NetLeaving"

def q17Disconnect : Node :=
  match node.predecessor with
  | some s => { node.emit [.shutdown s.fd, .close s.fd] with predecessor := none }
  | none => node

def isLast : Bool := node.hashRange.1 = 0 ∧ node.hashRange.2 = 255

def q17 : Except String Node := do
  let node := node.q17Disconnect
  let node ← if node.isLast then pure node else node.acceptPredecessor env
  return { node with state := .q6 }

def q18 : Except String Node := do
  let (min, max) := node.hashRange
  let node ← node.transfer (min = 0) min max
  let successor ← match node.successor with
    | some s => pure s
    | none => throw "Missing successor socket >("
  let node := node.emit
    [.tcp successor.fd (.netCloseConnection NetCloseConnectionPdu.new), .shutdown successor.fd]
  let toConnect ← match node.successorListen with
    | some addr => pure addr
    | none => throw "Successor listen address is not set"
  let predecessor ← match node.predecessor with
    | some s => pure s
    | none => throw "Missing predecessor socket >("
  let node := node.emit [.tcp predecessor.fd
    (.netLeaving (NetLeavingPdu.new toConnect.address toConnect.port)), .shutdown predecessor.fd]
  return { node with running := false }

end Node

end DhtRing.TestNode

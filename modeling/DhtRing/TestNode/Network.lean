import DhtRing.TestNode.Node

/-!
# A network of Rust nodes

Nodes that run side by side, the packets between them, clients and the tracker.  A
connection has two ends: the even descriptor belongs to the node that has made it, the next
odd one to the node that accepts it.  Packets of one connection arrive in order, in pieces
of any size.
-/

set_option autoImplicit false

namespace DhtRing.TestNode

/-! ## State -/

def otherEnd (fd : ℕ) : ℕ := if fd % 2 = 0 then fd + 1 else fd - 1

inductive Packet where
  | bytes (fd : ℕ) (burst : Burst)
  | fin (fd : ℕ)
  | datagram (receiver : Addr) (datagram : Datagram)
deriving DecidableEq

def Packet.fd : Packet → Option ℕ
  | .bytes fd _ => some fd
  | .fin fd => some fd
  | .datagram .. => none

/-- A node at its address.  `waits` says that it is inside the state function, where it waits
for a PDU or for a connection; `backlog` holds the connections to accept. -/
structure Member where
  address : UInt32
  node : Node
  waits : Bool
  backlog : List TcpStream
deriving DecidableEq

structure Net where
  trackerAddr : Addr
  members : List Member
  transit : List Packet
  connections : ℕ
deriving DecidableEq

def Net.empty (trackerAddr : Addr) : Net := ⟨trackerAddr, [], [], 0⟩

/-! ## Nodes -/

namespace Member

variable (member : Member)

def udpAddr : Addr := ⟨member.address, member.node.udpSocket.localAddr.port⟩

def listens (addr : Addr) : Bool :=
  addr = ⟨member.address, member.node.listenAddr.port⟩

def inRing : Bool :=
  !decide (member.node.state ∈ [State.q1, .q2, .q3, .q4, .q7, .q8])

/-- The node goes on with the next state function, as far as it waits. -/
def advance (env : Env) : Except String (Option Member) :=
  let node := member.node
  let running (next : Except String Node) : Except String (Option Member) := do
    return some { member with node := ← next }
  let waiting (next : Except String Node) : Except String (Option Member) := do
    return some { member with node := ← next, waits := true }
  if member.waits || !node.running then return none
  else
    match node.state with
    | .q1 => running (.ok node.q1)
    | .q2 => waiting (.ok node)
    | .q3 => waiting (.ok node.q3Ask)
    | .q4 => running (.ok node.q4)
    | .q5 => waiting (node.q5Connect env)
    | .q6 => return none
    | .q7 => waiting node.q7Join
    | .q8 => waiting (.ok node)
    | .q9 => running node.q9
    | .q10 => running (.ok node.q10)
    | .q11 => waiting (do return (← node.q11Ask).2)
    | .q12 => running node.q12
    | .q13 => running (node.q13 env)
    | .q14 => running node.q14
    | .q15 => running node.q15
    | .q16 => running (node.q16 env)
    | .q17 =>
        if node.isLast then running (.ok { node.q17Disconnect with state := .q6 })
        else waiting (.ok node.q17Disconnect)
    | .q18 => running node.q18

def accept (env : Env) (state : State) : Except String (Option Member) :=
  match member.backlog with
  | [] => return none
  | _ :: backlog => do
      let node ← member.node.acceptPredecessor env
      return some { member with
        node := { node with state := state }, waits := false, backlog := backlog }

def await (poll : Except String (Option Message × Node))
    (received : Node → PDU → Except String Node) : Except String (Option Member) := do
  match ← poll with
  | (none, node) => return some { member with node := node }
  | (some (pdu, _), node) => return some { member with node := ← received node pdu, waits := false }

/-- The node looks whether what it waits for is there. -/
def resume (env : Env) : Except String (Option Member) :=
  let node := member.node
  if !member.waits then return none
  else
    match node.state with
    | .q2 => member.await node.pollPduUdp Node.q2Received
    | .q3 => member.await node.pollPduUdp Node.q3Received
    | .q5 => member.accept env .q6
    | .q7 => member.accept env .q8
    | .q8 => member.await (node.pollPdu false) (Node.q8Received env)
    | .q11 => member.await (node.pollPdu (node.hashRange.1 = 0)) Node.q11Received
    | .q17 => member.accept env .q6
    | _ => return none

def round (env : Env) (events : List Token) : Except String (Option Member) :=
  if member.waits || !member.node.running || member.node.state ≠ .q6 then return none
  else do return some { member with node := ← member.node.q6 env events false }

/-- Bytes or a close arrive at an end that is still open. -/
def receive (fd : ℕ) (arrival : Node.Arrival) : Member :=
  let arrive (socket : TcpStream) : TcpStream :=
    if socket.fd = fd then Node.arrive socket arrival else socket
  { member with
    node := { member.node with
      successor := member.node.successor.map arrive
      predecessor := member.node.predecessor.map arrive }
    backlog := member.backlog.map arrive }

def receiveDatagram (datagram : Datagram) : Member :=
  { member with node := { member.node with udpSocket := { member.node.udpSocket with
    datagrams := member.node.udpSocket.datagrams ++ [datagram] } } }

end Member

theorem PDU.toBytes_ne_nil (pdu : PDU) : pdu.toBytes ≠ [] := by
  cases pdu <;> exact List.cons_ne_nil _ _

/-! ## The network -/

namespace Net

variable (net : Net)

def env (member : Member) (now : ℕ) : Env where
  now := now
  connect _ addr :=
    if net.members.any (·.listens addr) then some ⟨2 * net.connections, addr, [], false⟩ else none
  accept _ := member.backlog.head?

/-- What a node does to a socket reaches the network. -/
def carry (sender : Member) (net : Net) : Effect → Net
  | .udp pdu receiver =>
      { net with transit := net.transit ++ [.datagram receiver ⟨sender.udpAddr, pdu.toBytes⟩] }
  | .tcp fd pdu =>
      { net with transit := net.transit ++ [.bytes (otherEnd fd) ⟨pdu.toBytes, pdu.toBytes_ne_nil⟩] }
  | .connect fd addr =>
      { net with
        members := net.members.map fun member =>
          if member.listens addr then
            { member with backlog := member.backlog ++
              [⟨otherEnd fd, ⟨sender.address, UInt16.ofNat (49152 + net.connections)⟩, [], false⟩] }
          else member
        connections := net.connections + 1 }
  | .accept _ => net
  | .shutdown fd => { net with transit := net.transit ++ [.fin (otherEnd fd)] }
  | .close fd => { net with transit := net.transit ++ [.fin (otherEnd fd)] }

def update (i : ℕ) (member next : Member) : Net :=
  (next.node.effects.drop member.node.effects.length).foldl (carry next)
    { net with members := net.members.set i next }

def deliver : Packet → Net
  | .bytes fd burst =>
      { net with members := net.members.map (·.receive fd ⟨[burst], false⟩) }
  | .fin fd => { net with members := net.members.map (·.receive fd ⟨[], true⟩) }
  | .datagram receiver datagram =>
      { net with members := net.members.map fun member =>
        if receiver = member.udpAddr then member.receiveDatagram datagram else member }

end Net

/-! ## Runs -/

inductive Query where
  | insert (ssn name email : RString)
  | remove (ssn : RString)
  | lookup (ssn : RString)

def Query.pdu (client : Addr) : Query → PDU
  | .insert ssn name email => .valInsert (ValInsertPdu.new ssn name email)
  | .remove ssn => .valRemove (ValRemovePdu.new ssn)
  | .lookup ssn => .valLookup (ValLookupPdu.new ssn client.address client.port)

inductive Action where
  /-- A node is started, on two ports that are free. -/
  | start (address : UInt32) (udpPort listenPort : UInt16)
  | advance (i : ℕ)
  | resume (i : ℕ)
  /-- A round of `q6`, with the clock and the events of its poll. -/
  | round (i now : ℕ) (events : List Token)
  /-- A close is requested. -/
  | interrupt (i : ℕ)
  /-- The tracker answers `STUN_LOOKUP`. -/
  | answerStun (i : ℕ)
  /-- The tracker answers `NET_GET_NODE` with some node of the ring, if there is one. -/
  | answerNode (i : ℕ) (named : Option ℕ)
  | query (client receiver : Addr) (query : Query)
  | deliver (k : ℕ)
  /-- A packet is cut in two. -/
  | split (k n : ℕ)
  | lose (k : ℕ)

namespace Net

variable (net : Net)

def stepMember (i : ℕ) (step : Member → Except String (Option Member)) :
    Except String (Option Net) :=
  match net.members[i]? with
  | none => return none
  | some member => do
      match ← step member with
      | none => return none
      | some next => return some (net.update i member next)

def answer (i : ℕ) (state : State) (pdu : Member → PDU) : Option Net :=
  match net.members[i]? with
  | none => none
  | some member =>
      if member.waits && member.node.state = state then
        some { net with transit := net.transit ++
          [.datagram member.udpAddr ⟨net.trackerAddr, (pdu member).toBytes⟩] }
      else none

def inUse (address : UInt32) (port : UInt16) : Bool :=
  net.members.any fun member => member.udpAddr = ⟨address, port⟩ || member.listens ⟨address, port⟩

/-- A packet that no earlier packet of its connection holds up. -/
def ready (k : ℕ) : Option Packet :=
  match net.transit[k]? with
  | none => none
  | some packet =>
      if packet.fd.isSome && (net.transit.take k).any (·.fd = packet.fd) then none else some packet

def act : Action → Except String (Option Net)
  | .start address udpPort listenPort =>
      return if net.inUse address udpPort || net.inUse address listenPort then none
        else some { net with members :=
          net.members ++ [⟨address, Node.new net.trackerAddr udpPort listenPort, false, []⟩] }
  | .advance i => net.stepMember i fun member => member.advance (net.env member 0)
  | .resume i => net.stepMember i fun member => member.resume (net.env member 0)
  | .round i now events => net.stepMember i fun member => member.round (net.env member now) events
  | .interrupt i => net.stepMember i fun member =>
      return some { member with node := { member.node with shouldClose := true } }
  | .answerStun i =>
      return net.answer i .q2 fun member => .stunResponse (StunResponsePdu.new member.address)
  | .answerNode i none =>
      return if net.members.any Member.inRing then none
        else net.answer i .q3 fun _ => .netGetNodeResponse (NetGetNodeResponsePdu.new 0 0)
  | .answerNode i (some j) =>
      return match net.members[j]? with
        | none => none
        | some named =>
            if named.inRing then
              net.answer i .q3 fun _ => .netGetNodeResponse
                (NetGetNodeResponsePdu.new named.udpAddr.address named.udpAddr.port)
            else none
  | .query client receiver query =>
      return some { net with
        transit := net.transit ++ [.datagram receiver ⟨client, (query.pdu client).toBytes⟩] }
  | .deliver k =>
      return (net.ready k).map fun packet =>
        ({ net with transit := net.transit.eraseIdx k }).deliver packet
  | .split k n =>
      return match net.transit[k]? with
        | some (.bytes fd burst) =>
            if cut : burst.val.take n ≠ [] ∧ burst.val.drop n ≠ [] then
              some { net with transit := net.transit.take k ++
                [.bytes fd ⟨burst.val.take n, cut.1⟩, .bytes fd ⟨burst.val.drop n, cut.2⟩] ++
                  net.transit.drop (k + 1) }
            else none
        | _ => none
  | .lose k =>
      return match net.transit[k]? with
        | some (.datagram ..) => some { net with transit := net.transit.eraseIdx k }
        | _ => none

/-- Runs in which every action satisfies `Allowed`. -/
inductive Reaches (Allowed : Net → Action → Prop) (start : Net) : Net → Prop where
  | start : Reaches Allowed start start
  | act {net next : Net} {action : Action} (earlier : Reaches Allowed start net)
      (allowed : Allowed net action) (acted : net.act action = .ok (some next)) :
      Reaches Allowed start next

end Net

end DhtRing.TestNode

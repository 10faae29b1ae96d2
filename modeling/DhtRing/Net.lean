import DhtRing.Handlers

/-!
# The network of nodes

Nodes, the PDUs that wait on their sockets, and one step of one node.  A node
handles one whole PDU at a time; the links are reliable and first-in-first-out.
`Msg.req`, `Net.issued`, `Net.applied` and `Net.replies` are bookkeeping that no
handler reads: which client request a PDU carries, how many there were, which
PDUs found their key in range and where, and the datagrams sent to clients.
-/

set_option autoImplicit false

namespace DhtRing

inductive Pc where
  | absent
  /-- `q7`: `NET_JOIN` is sent, the node waits for its predecessor to connect. -/
  | q7Accept
  /-- `q7`: the node waits for the `NET_JOIN_RESPONSE`. -/
  | q7Receive
  | q6
  /-- In `accept_predecessor_connection`, called from a handler in `q6`. -/
  | q6Accept
  /-- `shutdown_proceedure`: the node waits for the `NET_NEW_RANGE_RESPONSE`. -/
  | awaitResponse
  /-- `shutdown_proceedure`: the last poll has reached descriptor `i`; `new` is
  the address in the prepared `NET_LEAVING`. -/
  | lastPoll (i : FdsIndex) (new : Addr)
  | lastPollAccept (i : FdsIndex) (new : Addr)
  | exited (graceful : Bool)
  | faulted
deriving DecidableEq

structure Proc where
  pc : Pc
  selfData : SelfData

/-- A PDU on its way and the client request that it carries, if any. -/
structure Msg where
  pdu : Pdu
  req : Option Nat
deriving DecidableEq

structure Net where
  node : Addr → Proc
  queue : Loc → List Msg
  /-- The descriptor that writes to the place was closed by its running owner. -/
  shut : Loc → Bool
  /-- Completed connections that wait to be accepted. -/
  backlog : Addr → List Conn
  serial : Nat
  issued : Nat
  applied : List (Addr × Msg)
  replies : List (Addr × Msg)

/-! ## Updates -/

def Net.setNode (net : Net) (n : Addr) (proc : Proc) : Net :=
  { net with node := Function.update net.node n proc }

def Net.setQueue (net : Net) (loc : Loc) (msgs : List Msg) : Net :=
  { net with queue := Function.update net.queue loc msgs }

def Net.push (net : Net) (loc : Loc) (msg : Msg) : Net :=
  net.setQueue loc (net.queue loc ++ [msg])

/-- One call of a handler; `req` is the client request that the handled PDU
carried.  A send on a descriptor that its owner has closed fails. -/
def Net.perform (req : Option Nat) (net : Net) : Effect → Net
  | .tcp fd pdu => if net.shut fd then net else net.push fd ⟨pdu, req⟩
  | .udp dest pdu => { net with replies := net.replies ++ [(dest, ⟨pdu, req⟩)] }
  | .connect conn =>
      { net with
        backlog := Function.update net.backlog conn.target (net.backlog conn.target ++ [conn])
        serial := net.serial + 1 }
  | .close fd => { net with shut := Function.update net.shut fd true }

def Net.performAll (net : Net) (req : Option Nat) (effects : List Effect) : Net :=
  effects.foldl (Net.perform req) net

def Pc.blocked : Pc → Pc
  | .q6 => .q6Accept
  | .lastPoll i new => .lastPollAccept i new
  | pc => pc

def Pc.after (back : Pc) : Ctl → Pc
  | .run => back
  | .accept => back.blocked
  | .exit _ => .exited false
  | .fault => .faulted

/-- The node ran a handler and goes on at `back`, blocks or ends. -/
def Net.commit (net : Net) (n : Addr) (back : Pc) (req : Option Nat) (outcome : Outcome) : Net :=
  (net.performAll req outcome.effects).setNode n ⟨back.after outcome.ctl, outcome.selfData⟩

/-! ## Steps -/

def Pc.serving : Pc → Bool
  | .q6 | .q6Accept | .awaitResponse | .lastPoll _ _ | .lastPollAccept _ _ => true
  | _ => false

def Pc.listens : Pc → Bool
  | .q7Accept | .q7Receive => true
  | pc => pc.serving

def Pc.ended : Pc → Bool
  | .exited _ | .faulted => true
  | _ => false

def Loc.writer : Loc → Option Addr
  | .udp _ => none
  | .up conn => some conn.source
  | .down conn => some conn.target

/-- The end of a connection that writes to the place is closed, by its owner or by
the end of the owner's process. -/
def Net.closed (net : Net) (loc : Loc) : Bool :=
  net.shut loc || loc.writer.any fun n => (net.node n).pc.ended

def Net.env (net : Net) : Env := ⟨net.serial, fun addr => (net.node addr).pc.listens⟩

def FdsIndex.rank : FdsIndex → Nat
  | .udp => 0
  | .successor => 1
  | .predecessor => 2

/-- Where a poll that reads descriptor `i` goes on.  The last poll is one call, so
it reads the descriptors in their order. -/
def Pc.polls : Pc → FdsIndex → Option Pc
  | .q6, _ => some .q6
  | .lastPoll j new, i => if j.rank ≤ i.rank then some (.lastPoll i new) else none
  | _, _ => none

def Proc.reads (n : Addr) (proc : Proc) : FdsIndex → Option Loc
  | .udp => some (.udp n)
  | .successor => proc.selfData.fdsSuccessor.map .down
  | .predecessor => proc.selfData.fdsPredecessor.map .up

def Proc.receives (proc : Proc) : Option Loc :=
  match proc.pc with
  | .q7Receive => proc.selfData.predecessor.map .up
  | .awaitResponse =>
      match proc.selfData.heir with
      | .successor => proc.selfData.successor.socket.map .down
      | _ => proc.selfData.predecessor.map .up
  | _ => none

def Net.note (net : Net) (n : Addr) (msg : Msg) : Net :=
  match msg.pdu.requestKey with
  | some ssn =>
      if checkRange (net.node n).selfData ssn then
        { net with applied := net.applied ++ [(n, msg)] }
      else net
  | none => net

def Msg.tag (msg : Msg) : Option Nat :=
  match msg.pdu.requestKey with
  | some _ => msg.req
  | none => none

def Net.deliver (net : Net) (n : Addr) (i : FdsIndex) : Option Net :=
  match (net.node n).pc.polls i, (net.node n).reads n i with
  | some back, some loc =>
      match net.queue loc with
      | [] => none
      | msg :: rest =>
          (dispatch net.env (net.node n).selfData msg.pdu).map fun outcome =>
            ((net.note n msg).setQueue loc rest).commit n back msg.tag outcome
  | _, _ => none

/-- An unknown type makes the loop drop the rest of what was received with it,
`k` PDUs.  A datagram is received alone. -/
def Net.discard (net : Net) (n : Addr) (i : FdsIndex) (k : Nat) : Option Net :=
  match (net.node n).pc.polls i, (net.node n).reads n i with
  | some back, some loc =>
      match net.queue loc with
      | [] => none
      | msg :: rest =>
          if dispatch net.env (net.node n).selfData msg.pdu |>.isSome then none
          else if i = .udp ∧ k ≠ 0 then none
          else some ((net.setQueue loc (rest.drop k)).setNode n ⟨back, (net.node n).selfData⟩)
  | _, _ => none

/-- `recv` answers 0: `fds[i].fd` is closed and set to -1. -/
def Net.eof (net : Net) (n : Addr) (i : FdsIndex) : Option Net :=
  let proc := net.node n
  match proc.pc.polls i, i with
  | some back, .successor =>
      match proc.selfData.fdsSuccessor with
      | some conn =>
          if net.queue (.down conn) = [] ∧ net.closed (.down conn) then
            some (({ net with shut := Function.update net.shut (.up conn) true }).setNode n
              ⟨back, { proc.selfData with fdsSuccessor := none }⟩)
          else none
      | none => none
  | some back, .predecessor =>
      match proc.selfData.fdsPredecessor with
      | some conn =>
          if net.queue (.up conn) = [] ∧ net.closed (.up conn) then
            some (({ net with shut := Function.update net.shut (.down conn) true }).setNode n
              ⟨back, { proc.selfData with fdsPredecessor := none }⟩)
          else none
      | none => none
  | _, _ => none

def Pc.accepted : Pc → Option Pc
  | .q7Accept => some .q7Receive
  | .q6Accept => some .q6
  | .lastPollAccept i new => some (.lastPoll i new)
  | _ => none

def Net.accept (net : Net) (n : Addr) : Option Net :=
  match (net.node n).pc.accepted, net.backlog n with
  | some back, conn :: rest =>
      some (({ net with backlog := Function.update net.backlog n rest }).setNode n
        ⟨back, (net.node n).selfData.acceptPredecessor conn⟩)
  | _, _ => none

def Net.response (net : Net) (n : Addr) : Option Net :=
  let proc := net.node n
  if proc.pc = .q7Receive then
    match proc.receives with
    | none => none
    | some loc =>
        match net.queue loc with
        | ⟨.netJoinResponse next rangeStart rangeEnd, _⟩ :: rest =>
            some ((net.setQueue loc rest).commit n .q6 none
              (q8 net.env proc.selfData next rangeStart rangeEnd))
        | _ :: rest =>
            some ((net.setQueue loc rest).commit n .q6 none
              ⟨proc.selfData, [], .exit "Unexpected response type"⟩)
        | [] =>
            if net.closed loc then
              some (net.commit n .q6 none
                ⟨proc.selfData, [], .exit "Unexpected response type"⟩)
            else none
  else none

/-- `shutdown_proceedure` starts.  A node without neighbours just ends. -/
def Net.leave (net : Net) (n : Addr) : Option Net :=
  let proc := net.node n
  if proc.pc = .q6 then
    if proc.selfData.predecessor = none ∧ proc.selfData.successor.socket = none then
      some (net.setNode n ⟨.exited true, proc.selfData⟩)
    else
      some ((net.performAll none (offerRange proc.selfData)).setNode n
        ⟨.awaitResponse, proc.selfData⟩)
  else none

/-- `receive_tcp_data` returns in `shutdown_proceedure`: one byte was read, or
the neighbour has closed and the buffer keeps the expected type. -/
def Net.reply (net : Net) (n : Addr) : Option Net :=
  let proc := net.node n
  let back := Pc.lastPoll .udp proc.selfData.successor.destAddr
  if proc.pc = .awaitResponse then
    match proc.receives with
    | none => none
    | some loc =>
        match net.queue loc with
        | msg :: rest =>
            some ((net.setQueue loc rest).commit n back none
              (handOver proc.selfData (msg.pdu.type == Pdu.netNewRangeResponse.type)))
        | [] =>
            if net.closed loc then some (net.commit n back none (handOver proc.selfData true))
            else none
  else none

def Net.timeout (net : Net) (n : Addr) : Option Net :=
  let proc := net.node n
  if proc.pc = .q7Receive ∨ proc.pc = .awaitResponse then
    match proc.receives with
    | some loc =>
        if net.queue loc = [] ∧ net.closed loc = false then
          some (net.commit n proc.pc none ⟨proc.selfData, [], .exit "Failed to received data"⟩)
        else none
    | none =>
        some (net.commit n proc.pc none ⟨proc.selfData, [], .exit "Failed to received data"⟩)
  else none

def Net.finish (net : Net) (n : Addr) : Option Net :=
  let proc := net.node n
  match proc.pc with
  | .lastPoll _ new =>
      some ((net.performAll none (sayGoodbye proc.selfData new)).setNode n
        ⟨.exited true, proc.selfData⟩)
  | _ => none

/-- A process starts at a fresh address, is told of the serving node `entry` and
sends it a `NET_JOIN`.  `bind` to port 0 never yields port 0. -/
def Net.join (net : Net) (j entry : Addr) : Option Net :=
  if (net.node j).pc = .absent ∧ j.port ≠ 0 ∧ (net.node entry).pc.serving then
    some ((net.push (.udp entry) ⟨joinPdu j, none⟩).setNode j ⟨.q7Accept, SelfData.setup j⟩)
  else none

def Net.client (net : Net) (n : Addr) (pdu : Pdu) : Option Net :=
  if (net.node n).pc.serving ∧ pdu.requestKey.isSome then
    some { net.push (.udp n) ⟨pdu, some net.issued⟩ with issued := net.issued + 1 }
  else none

inductive Act where
  | client (n : Addr) (pdu : Pdu)
  | join (j entry : Addr)
  | leave (n : Addr)
  | timeout (n : Addr)
  | deliver (n : Addr) (i : FdsIndex)
  | discard (n : Addr) (i : FdsIndex) (k : Nat)
  | eof (n : Addr) (i : FdsIndex)
  | accept (n : Addr)
  | response (n : Addr)
  | reply (n : Addr)
  | finish (n : Addr)
deriving DecidableEq

def Net.step (net : Net) : Act → Option Net
  | .client n pdu => net.client n pdu
  | .join j entry => net.join j entry
  | .leave n => net.leave n
  | .timeout n => net.timeout n
  | .deliver n i => net.deliver n i
  | .discard n i k => net.discard n i k
  | .eof n i => net.eof n i
  | .accept n => net.accept n
  | .response n => net.response n
  | .reply n => net.reply n
  | .finish n => net.finish n

/-- The steps that the nodes and links take by themselves, when no wait runs out. -/
def Act.internal : Act → Bool
  | .client _ _ | .join _ _ | .leave _ | .timeout _ => false
  | _ => true

/-- The network after the first node has gone through `q4`. -/
def Net.founded (n : Addr) : Net :=
  { node := fun a =>
      if a = n then ⟨.q6, q4 (SelfData.setup n)⟩ else ⟨.absent, SelfData.setup a⟩
    queue := fun _ => []
    shut := fun _ => false
    backlog := fun _ => []
    serial := 0
    issued := 0
    applied := []
    replies := [] }

end DhtRing

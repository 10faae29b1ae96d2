import DhtRing.Lib.Transition
import DhtRing.TestNode.Leaving
import DhtRing.TestNode.Network

/-!
# What q6 finds in the queues

A node that waits for one PDU reads all that has come and takes the first.  The others stay
in the queue, and `q6` looks there only when more has come on the same socket.  So it may
start to wait with PDUs at hand, and it does exactly when a read of `q3` or `q8` completes a
second one.
-/

set_option autoImplicit false

namespace DhtRing.TestNode

/-! ## Runs of one node -/

inductive Member.Event where
  | advance (env : Env)
  | resume (env : Env)
  | round (env : Env) (events : List Token)
  | receive (fd : ℕ) (arrival : Node.Arrival)
  | receiveDatagram (datagram : Datagram)
  /-- A connection to accept. -/
  | connected (socket : TcpStream)
  | interrupt

namespace Member

variable (member : Member)

def act : Event → Except String (Option Member)
  | .advance env => member.advance env
  | .resume env => member.resume env
  | .round env events => member.round env events
  | .receive fd arrival => .ok (some (member.receive fd arrival))
  | .receiveDatagram datagram => .ok (some (member.receiveDatagram datagram))
  | .connected socket => .ok (some { member with backlog := member.backlog ++ [socket] })
  | .interrupt => .ok (some { member with node := { member.node with shouldClose := true } })

def step (event : Event) : Option Member :=
  match member.act event with
  | .ok next => next
  | .error _ => none

def started (address : UInt32) (trackerAddr : Addr) (udpPort listenPort : UInt16) : Member :=
  ⟨address, Node.new trackerAddr udpPort listenPort, false, []⟩

abbrev Runs (start : Member) (events : List Event) (last : Member) : Prop :=
  Transition.Run step (fun _ _ => True) start events last

end Member

/-! ## Queues -/

namespace Node

structure TcpDrained (node : Node) : Prop where
  successor : node.successorWrapper.incomingQueue = []
  predecessor : node.predecessorWrapper.incomingQueue = []

structure Drained (node : Node) : Prop extends TcpDrained node where
  udp : node.udpWrapper.incomingQueue = []

end Node

/-- Whenever `q6` starts to wait in a run, the queues are empty. -/
def NothingLeft (start : Member) (events : List Member.Event) : Prop :=
  ∀ before after member, events = before ++ after → Member.Runs start before member →
    member.node.state = .q6 → member.node.Drained

/-- The PDUs that become complete when these chunks are read, each as far as there is room
in the buffer. -/
inductive Completes : List UInt8 → List (List UInt8) → List PDU → Prop
  | nil (buffer : List UInt8) : Completes buffer [] []
  | cons {buffer chunk rest : List UInt8} {chunks : List (List UInt8)} {pdus more : List PDU}
      (valid : ∀ pdu ∈ pdus, pdu.Parsed)
      (split : buffer ++ chunk.take (bufferSize - buffer.length) = pdus.flatMap PDU.wire ++ rest)
      (waits : parsePdu rest = .ok none) (later : Completes rest chunks more) :
      Completes buffer (chunk :: chunks) (pdus ++ more)

def OneMessage (queue : List Message) (buffer : List UInt8) (chunks : List (List UInt8)) : Prop :=
  ∀ pdus, Completes buffer chunks pdus → queue.length + pdus.length ≤ 1

/-- The datagrams that `q3` reads, or the bytes that `q8` reads, complete no second PDU. -/
def Member.Single (member : Member) : Event → Prop
  | .resume _ =>
      (member.node.state = .q3 →
        OneMessage member.node.udpWrapper.incomingQueue member.node.udpWrapper.buffer
          (member.node.udpSocket.datagrams.map Datagram.bytes)) ∧
      (member.node.state = .q8 → ∀ socket, member.node.predecessor = some socket →
        OneMessage member.node.predecessorWrapper.incomingQueue
          member.node.predecessorWrapper.buffer [socket.pending])
  | _ => True

/-! ## Reads -/

section

variable {buffer : List UInt8} {chunks : List (List UInt8)} {pdus pdus' : List PDU}

theorem stuck_of_waits {rest : List UInt8} (waits : parsePdu rest = .ok none) :
    Framing.Stuck parsePdu rest := by
  intro pdu used found
  rw [waits] at found
  cases found

theorem Completes.unique (first : Completes buffer chunks pdus)
    (second : Completes buffer chunks pdus') : pdus = pdus' := by
  induction first generalizing pdus' with
  | nil =>
      cases second
      rfl
  | cons valid split waits later ih =>
      cases second with
      | cons valid' split' waits' later' =>
          obtain ⟨rfl, rfl⟩ := parsePdu_frames.unique valid valid' (stuck_of_waits waits)
            (stuck_of_waits waits') (split.symm.trans split')
          rw [ih later']

theorem UdpWrapper.tryRead_completes :
    ∀ {datagrams : List Datagram} {wrapper wrapper' : UdpWrapper},
    wrapper.tryRead datagrams = .ok wrapper' →
      ∃ pdus, Completes wrapper.buffer (datagrams.map Datagram.bytes) pdus ∧
        wrapper'.incomingQueue.length = wrapper.incomingQueue.length + pdus.length := by
  intro datagrams
  induction datagrams with
  | nil =>
      intro wrapper wrapper' read
      cases read
      exact ⟨[], .nil _, rfl⟩
  | cons datagram datagrams ih =>
      intro wrapper wrapper' read
      rw [UdpWrapper.tryRead, List.foldlM_cons] at read
      cases received : wrapper.receive datagram with
      | error e =>
          rw [received] at read
          cases read
      | ok next =>
          rw [received] at read
          obtain ⟨found, valid, split, waits, queue⟩ := UdpWrapper.receive_ok received
          obtain ⟨more, later, length⟩ := ih read
          refine ⟨found ++ more, .cons valid split waits later, ?_⟩
          rw [length, queue, List.length_append, List.length_map, List.length_append, Nat.add_assoc]

theorem TcpWrapper.tryRead_completes {wrapper wrapper' : TcpWrapper} {socket socket' : TcpStream}
    {closed : Bool} (read : wrapper.tryRead socket = .ok (closed, wrapper', socket')) :
    ∃ pdus, Completes wrapper.buffer [socket.pending] pdus ∧
      wrapper'.incomingQueue.length = wrapper.incomingQueue.length + pdus.length := by
  obtain ⟨last, eq, -⟩ := wrapper.tryRead_eq socket
  rw [eq] at read
  cases fed : Framing.feed parsePdu ([], []) (wrapper.filled socket) with
  | error e =>
      rw [fed] at read
      cases read
  | ok found =>
      rw [fed] at read
      cases read
      obtain ⟨found, rest⟩ := found
      obtain ⟨pdus, rfl, valid, split, waits⟩ := parsePdu_frames.of_feed fed
      refine ⟨found ++ [], .cons valid split waits (.nil _), ?_⟩
      rw [List.append_nil, List.length_append, List.length_map]

end

theorem OneMessage.empty {queue left : List Message} {buffer : List UInt8}
    {chunks : List (List UInt8)} {pdus : List PDU} (single : OneMessage queue buffer chunks)
    (completes : Completes buffer chunks pdus)
    (count : queue.length + pdus.length = 1 + left.length) : left = [] := by
  have bound := single pdus completes
  exact List.eq_nil_of_length_eq_zero (by omega)

theorem oneMessage_of_length {queue queue' : List Message} {buffer : List UInt8}
    {chunks : List (List UInt8)} {pdus : List PDU} (completes : Completes buffer chunks pdus)
    (length : queue'.length = queue.length + pdus.length) (few : queue'.length ≤ 1) :
    OneMessage queue buffer chunks := by
  intro pdus' completes'
  rw [completes'.unique completes, ← length]
  exact few

theorem two_of_several {queue : List Message} {buffer : List UInt8} {chunks : List (List UInt8)}
    {pdus : List PDU} (several : ¬ OneMessage queue buffer chunks)
    (completes : Completes buffer chunks pdus) : 2 ≤ queue.length + pdus.length := by
  by_contra few
  refine several fun pdus' completes' => ?_
  rw [completes'.unique completes]
  omega

theorem rest_of_several {queue left : List Message} {buffer : List UInt8}
    {chunks : List (List UInt8)} {pdus : List PDU} (several : ¬ OneMessage queue buffer chunks)
    (completes : Completes buffer chunks pdus)
    (count : queue.length + pdus.length = 1 + left.length) : left ≠ [] := by
  rintro rfl
  have two := two_of_several several completes
  rw [count] at two
  exact absurd two (by decide)

namespace Node

variable {env : Env} {node next : Node} {found : Option Message}

theorem pollPduUdp_spec (polled : node.pollPduUdp = .ok (found, next)) :
    next.state = node.state ∧ next.successorWrapper = node.successorWrapper ∧
      next.predecessorWrapper = node.predecessorWrapper ∧
      (found = none → next.udpWrapper.incomingQueue = []) ∧
      ∃ pdus, Completes node.udpWrapper.buffer (node.udpSocket.datagrams.map Datagram.bytes) pdus ∧
        node.udpWrapper.incomingQueue.length + pdus.length =
          found.toList.length + next.udpWrapper.incomingQueue.length := by
  cases read : node.udpWrapper.tryRead node.udpSocket.datagrams with
  | error e =>
      rw [pollPduUdp, read] at polled
      cases polled
  | ok wrapper =>
      obtain ⟨pdus, completes, length⟩ := UdpWrapper.tryRead_completes read
      rw [pollPduUdp, read, ok_bind] at polled
      obtain ⟨queue, buffer⟩ := wrapper
      cases queue with
      | nil =>
          cases polled
          exact ⟨rfl, rfl, rfl, fun _ => rfl, pdus, completes, length.symm⟩
      | cons message left =>
          cases polled
          refine ⟨rfl, rfl, rfl, fun none => (by cases none), pdus, completes, ?_⟩
          exact length.symm.trans (Nat.add_comm ..)

theorem pollPdu_spec {side : Bool} (polled : node.pollPdu side = .ok (found, next)) :
    ∃ socket wrapper socket' pdus, node.sideSocket side = some socket ∧
      next = node.withSide side wrapper socket' ∧
      (found = none → wrapper.incomingQueue = []) ∧
      Completes (node.sideWrapper side).buffer [socket.pending] pdus ∧
      (node.sideWrapper side).incomingQueue.length + pdus.length =
        found.toList.length + wrapper.incomingQueue.length := by
  rcases Option.eq_none_or_eq_some (node.sideSocket side) with unset | ⟨socket, set⟩
  · cases side with
    | false =>
        have unset : node.predecessor = none := unset
        rw [pollPdu, if_neg Bool.false_ne_true, unset] at polled
        cases polled
    | true =>
        have unset : node.successor = none := unset
        rw [pollPdu, if_pos rfl, unset] at polled
        cases polled
  · rw [pollPdu_eq set] at polled
    cases read : (node.sideWrapper side).tryRead socket with
    | error e =>
        rw [read] at polled
        cases polled
    | ok answer =>
        obtain ⟨closed, ⟨queue, buffer⟩, socket'⟩ := answer
        obtain ⟨pdus, completes, length⟩ := TcpWrapper.tryRead_completes read
        rw [read] at polled
        cases queue with
        | nil =>
            cases polled
            exact ⟨socket, _, socket', pdus, set, rfl, fun _ => rfl, completes, length.symm⟩
        | cons message left =>
            cases polled
            refine ⟨socket, _, socket', pdus, set, rfl, fun none => (by cases none), completes, ?_⟩
            exact length.symm.trans (Nat.add_comm ..)

/-! ## Steps that read nothing -/

/-- Nothing is read, and nothing is taken from a queue. -/
def Unread (node next : Node) : Prop :=
  next.udpWrapper = node.udpWrapper ∧ next.successorWrapper = node.successorWrapper ∧
    next.predecessorWrapper = node.predecessorWrapper

abbrev ReadsNothing (node : Node) (r : Except String Node) : Prop :=
  Ends (fun _ => True) (Unread node) r

theorem Unread.trans {last : Node} (first : Unread node next) (second : Unread next last) :
    Unread node last :=
  ⟨second.1.trans first.1, second.2.1.trans first.2.1, second.2.2.trans first.2.2⟩

theorem Unread.drained (unread : Unread node next) (drained : node.Drained) : next.Drained where
  udp := by rw [unread.1, drained.udp]
  successor := by rw [unread.2.1, drained.successor]
  predecessor := by rw [unread.2.2, drained.predecessor]

theorem transfer_unread (node : Node) (toSuccessor : Bool) (rangeStart rangeEnd : UInt8) :
    node.ReadsNothing (node.transfer toSuccessor rangeStart rangeEnd) :=
  (Ends.any _).bind fun _ _ => .ok ⟨rfl, rfl, rfl⟩

theorem splitRange_unread (node : Node) :
    Ends (fun _ => True) (fun x => Unread node x.2) node.splitRange :=
  (Ends.any _).bind fun _ _ => (Ends.any _).bind fun _ _ => (Ends.any _).bind fun _ _ =>
    .ok ⟨rfl, rfl, rfl⟩

theorem connectToSuccessor_unread (env : Env) (node : Node) (addr : Addr) :
    Ends (fun _ => True) (fun x => Unread node x.2) (node.connectToSuccessor env addr) := by
  unfold connectToSuccessor
  cases env.connect node.opened addr with
  | none => exact .error trivial
  | some socket => exact .ok ⟨rfl, rfl, rfl⟩

theorem acceptPredecessor_unread (env : Env) (node : Node) :
    node.ReadsNothing (node.acceptPredecessor env) := by
  unfold acceptPredecessor
  cases env.accept node.opened with
  | none => exact .error trivial
  | some socket => exact .ok ⟨rfl, rfl, rfl⟩

theorem forward_unread (node : Node) (pdu : PDU) : node.ReadsNothing (node.forward pdu) := by
  unfold forward
  split
  · exact .ok ⟨rfl, rfl, rfl⟩
  · exact .error trivial

theorem q5Connect_unread (env : Env) (node : Node) : node.ReadsNothing (node.q5Connect env) := by
  refine (Ends.any _).bind fun pdu _ => (connectToSuccessor_unread ..).bind ?_
  rintro ⟨socket, connected⟩ first
  refine (splitRange_unread _).bind ?_
  rintro ⟨other, split⟩ second
  refine (Ends.any _).bind fun own _ => (transfer_unread ..).mono (fun _ _ => trivial) ?_
  exact fun next third => (Unread.trans first second).trans third

theorem q7Join_unread (node : Node) : node.ReadsNothing node.q7Join := by
  unfold q7Join
  split
  · exact (Ends.any _).bind fun own _ => .ok ⟨rfl, rfl, rfl⟩
  · exact .error trivial

theorem handleValInsert_unread (node : Node) (pdu : ValInsertPdu) :
    node.ReadsNothing (node.handleValInsert pdu) := by
  unfold handleValInsert
  split
  · exact .ok ⟨rfl, rfl, rfl⟩
  · exact forward_unread ..

theorem handleValRemove_unread (node : Node) (pdu : ValRemovePdu) :
    node.ReadsNothing (node.handleValRemove pdu) := by
  unfold handleValRemove
  split
  · exact .ok ⟨rfl, rfl, rfl⟩
  · exact forward_unread ..

theorem handleValLookup_unread (node : Node) (pdu : ValLookupPdu) :
    node.ReadsNothing (node.handleValLookup pdu) := by
  unfold handleValLookup
  split
  · exact .ok ⟨rfl, rfl, rfl⟩
  · exact forward_unread ..

theorem q9_unread (node : Node) : node.ReadsNothing node.q9 := by
  refine (Ends.any _).bind fun pdu _ => ?_
  dsimp only
  split
  · exact (handleValInsert_unread { node with lastPdu := none } _).bind fun _ unread => .ok unread
  · exact (handleValRemove_unread { node with lastPdu := none } _).bind fun _ unread => .ok unread
  · exact (handleValLookup_unread { node with lastPdu := none } _).bind fun _ unread => .ok unread
  · exact .error trivial

theorem q11Ask_unread (node : Node) :
    Ends (fun _ => True) (fun x => Unread node x.2) node.q11Ask := by
  unfold q11Ask
  split
  · dsimp only
    split
    · exact .ok ⟨rfl, rfl, rfl⟩
    · exact .ok ⟨rfl, rfl, rfl⟩
  · exact .error trivial
  · exact .error trivial

theorem q12_unread (node : Node) : node.ReadsNothing node.q12 := by
  unfold q12
  split
  · exact .ok ⟨rfl, rfl, rfl⟩
  · refine (Ends.any _).bind fun pdu _ => ?_
    split
    · exact .ok ⟨rfl, rfl, rfl⟩
    · exact .ok ⟨rfl, rfl, rfl⟩

theorem q13_unread (env : Env) (node : Node) : node.ReadsNothing (node.q13 env) := by
  refine (Ends.any _).bind fun old _ => (Ends.any _).bind fun pdu _ => ?_
  refine (connectToSuccessor_unread ..).bind ?_
  rintro ⟨socket, connected⟩ first
  refine (splitRange_unread _).bind ?_
  rintro ⟨other, split⟩ second
  exact (transfer_unread ..).bind fun next third =>
    .ok ((Unread.trans first second).trans third)

theorem q14_unread (node : Node) : node.ReadsNothing node.q14 :=
  (Ends.any _).bind fun _ _ => (Ends.any _).bind fun _ _ =>
    (forward_unread ..).bind fun _ unread => .ok unread

theorem q15_unread (node : Node) : node.ReadsNothing node.q15 := by
  unfold q15
  split
  · dsimp only
    split
    · exact (Ends.any _).bind fun socket _ => .ok ⟨rfl, rfl, rfl⟩
    · exact (Ends.any _).bind fun socket _ => .ok ⟨rfl, rfl, rfl⟩
  · exact .error trivial

theorem q16_unread (env : Env) (node : Node) : node.ReadsNothing (node.q16 env) := by
  unfold q16
  split
  · refine (Ends.any _).bind fun own _ => ?_
    split
    · exact .ok ⟨rfl, rfl, rfl⟩
    · refine (connectToSuccessor_unread ..).bind ?_
      rintro ⟨socket, connected⟩ unread
      exact .ok unread
  · exact .error trivial

theorem q17Disconnect_unread (node : Node) : Unread node node.q17Disconnect := by
  unfold q17Disconnect
  split
  · exact ⟨rfl, rfl, rfl⟩
  · exact ⟨rfl, rfl, rfl⟩

theorem q18_unread (node : Node) : node.ReadsNothing node.q18 := by
  refine (transfer_unread ..).bind fun sent unread => ?_
  split
  · refine (Ends.any _).bind fun successor _ => ?_
    dsimp only
    split
    · refine (Ends.any _).bind fun toConnect _ => ?_
      split
      · exact .ok unread
      · exact .error trivial
    · exact .error trivial
  · exact .error trivial

theorem q10_unread (node : Node) : Unread node node.q10 := by
  unfold q10
  split
  · exact ⟨rfl, rfl, rfl⟩
  · exact ⟨rfl, rfl, rfl⟩

theorem q2Received_unread (node : Node) (pdu : PDU) :
    node.ReadsNothing (node.q2Received pdu) := by
  unfold q2Received
  split
  · exact .ok ⟨rfl, rfl, rfl⟩
  · exact .error trivial

theorem q3Received_unread (node : Node) (pdu : PDU) :
    node.ReadsNothing (node.q3Received pdu) := by
  unfold q3Received
  split
  · split
    · exact .ok ⟨rfl, rfl, rfl⟩
    · exact .ok ⟨rfl, rfl, rfl⟩
  · exact .error trivial

theorem q8Received_unread (env : Env) (node : Node) (pdu : PDU) :
    node.ReadsNothing (node.q8Received env pdu) := by
  unfold q8Received
  split
  · refine (connectToSuccessor_unread ..).bind ?_
    rintro ⟨socket, connected⟩ unread
    exact .ok unread
  · exact .error trivial

end Node

/-! ## Steps -/

def NextState : State → State → Prop
  | .q3, next => next = .q3
  | .q4, next => next = .q6
  | .q7, next => next = .q7
  | .q8, next => next = .q8
  | .q11, next => next = .q11
  | .q18, next => next = .q18
  | _, _ => True

namespace Member

variable {member next : Member} {env : Env}

def GoesOn (member next : Member) : Prop :=
  member.node.Unread next.node ∧ NextState member.node.state next.node.state

theorem goesOn_ends {r : Except String Node} (waits : Bool)
    (good : Ends (fun _ => True)
      (fun next => member.node.Unread next ∧ NextState member.node.state next.state) r) :
    Ends (fun _ => True) (fun found => ∀ next ∈ found, member.GoesOn next)
      (do return some { member with node := ← r, waits := waits }) := by
  refine good.bind fun node holds => .ok fun next same => ?_
  cases same
  exact holds

theorem goesOn_unread {r : Except String Node} (waits : Bool) (unread : member.node.ReadsNothing r)
    (free : ∀ next, NextState member.node.state next) :
    Ends (fun _ => True) (fun found => ∀ next ∈ found, member.GoesOn next)
      (do return some { member with node := ← r, waits := waits }) :=
  goesOn_ends waits (unread.mono (fun _ _ => trivial) fun next kept => ⟨kept, free next.state⟩)

theorem advance_goesOn (env : Env) (member : Member) :
    Ends (fun _ => True) (fun found => ∀ next ∈ found, member.GoesOn next)
      (member.advance env) := by
  obtain ⟨address, node, waits, backlog⟩ := member
  unfold advance
  dsimp only
  split
  · exact .ok fun next none => by cases none
  · cases state : node.state with
    | q1 => exact goesOn_unread _ (.ok ⟨rfl, rfl, rfl⟩) fun next => by rw [state]; trivial
    | q2 => exact goesOn_unread _ (.ok ⟨rfl, rfl, rfl⟩) fun next => by rw [state]; trivial
    | q3 => exact goesOn_ends _ (.ok ⟨⟨rfl, rfl, rfl⟩, by rw [state]; exact state⟩)
    | q4 => exact goesOn_ends _ (.ok ⟨⟨rfl, rfl, rfl⟩, by rw [state]; rfl⟩)
    | q5 => exact goesOn_unread _ (node.q5Connect_unread env) fun next => by rw [state]; trivial
    | q6 => exact .ok fun next none => by cases none
    | q7 =>
        have kept := (node.q7Join_unread).and
          ((node.q7Join_ends).mono (fun _ _ => trivial) fun _ same => same)
        refine goesOn_ends _ (kept.mono (fun _ _ => trivial) fun next holds => ⟨holds.1, ?_⟩)
        rw [state]
        exact holds.2.trans state
    | q8 => exact goesOn_ends _ (.ok ⟨⟨rfl, rfl, rfl⟩, by rw [state]; rfl⟩)
    | q9 => exact goesOn_unread _ node.q9_unread fun next => by rw [state]; trivial
    | q10 => exact goesOn_unread _ (.ok node.q10_unread) fun next => by rw [state]; trivial
    | q11 =>
        have kept := (node.q11Ask_unread).and
          ((node.q11Ask_ends).mono (fun _ _ => trivial) fun _ same => same)
        refine goesOn_ends _ (kept.bind fun asked holds => .ok ⟨holds.1, ?_⟩)
        rw [state]
        exact holds.2.trans state
    | q12 => exact goesOn_unread _ node.q12_unread fun next => by rw [state]; trivial
    | q13 => exact goesOn_unread _ (node.q13_unread env) fun next => by rw [state]; trivial
    | q14 => exact goesOn_unread _ node.q14_unread fun next => by rw [state]; trivial
    | q15 => exact goesOn_unread _ node.q15_unread fun next => by rw [state]; trivial
    | q16 => exact goesOn_unread _ (node.q16_unread env) fun next => by rw [state]; trivial
    | q17 =>
        have free : ∀ next, NextState node.state next := fun next => by rw [state]; trivial
        dsimp only
        split
        · exact goesOn_unread _ (.ok node.q17Disconnect_unread) free
        · exact goesOn_unread _ (.ok node.q17Disconnect_unread) free
    | q18 =>
        have kept := (node.q18_unread).and
          ((node.q18_ends).mono (fun _ _ => trivial) fun _ same => same)
        refine goesOn_ends _ (kept.mono (fun _ _ => trivial) fun next holds => ⟨holds.1, ?_⟩)
        rw [state]
        exact holds.2.trans state

theorem accept_ok {state : State} (accepted : member.accept env state = .ok (some next)) :
    member.node.Unread next.node ∧ next.node.state = state := by
  unfold accept at accepted
  split at accepted
  · cases accepted
  · have unread := member.node.acceptPredecessor_unread env
    cases answer : member.node.acceptPredecessor env with
    | error e =>
        rw [answer] at accepted
        cases accepted
    | ok node =>
        rw [answer] at accepted unread
        cases accepted
        exact ⟨unread.value, rfl⟩

theorem await_ok {poll : Except String (Option Message × Node)}
    {received : Node → PDU → Except String Node}
    (awaited : member.await poll received = .ok (some next)) :
    poll = .ok (none, next.node) ∨ ∃ message polled,
      poll = .ok (some message, polled) ∧ received polled message.1 = .ok next.node := by
  unfold await at awaited
  cases poll with
  | error e => cases awaited
  | ok answer =>
      obtain ⟨found, node⟩ := answer
      cases found with
      | none =>
          cases awaited
          exact Or.inl rfl
      | some message =>
          right
          refine ⟨message, node, rfl, ?_⟩
          rw [ok_bind] at awaited
          cases handled : received node message.1 with
          | error e =>
              simp only [handled] at awaited
              cases awaited
          | ok last =>
              simp only [handled] at awaited
              cases awaited
              rfl

/-- `q2` and `q3` leave all messages but one in the queue. -/
theorem await_udp {received : Node → PDU → Except String Node}
    (unread : ∀ (node : Node) (pdu : PDU), node.ReadsNothing (received node pdu))
    (awaited : member.await member.node.pollPduUdp received = .ok (some next)) :
    (next.node.successorWrapper = member.node.successorWrapper ∧
      next.node.predecessorWrapper = member.node.predecessorWrapper) ∧
    ∃ pdus, Completes member.node.udpWrapper.buffer
        (member.node.udpSocket.datagrams.map Datagram.bytes) pdus ∧
      ((next.node.state = member.node.state ∧ next.node.udpWrapper.incomingQueue = [] ∧
          member.node.udpWrapper.incomingQueue.length + pdus.length = 0) ∨
        ((∃ polled pdu, received polled pdu = .ok next.node) ∧
          member.node.udpWrapper.incomingQueue.length + pdus.length =
            1 + next.node.udpWrapper.incomingQueue.length)) := by
  rcases await_ok awaited with polled | ⟨message, node, polled, handled⟩
  · obtain ⟨state, successor, predecessor, left, pdus, completes, count⟩ :=
      Node.pollPduUdp_spec polled
    rw [left rfl] at count
    exact ⟨⟨successor, predecessor⟩, pdus, completes, Or.inl ⟨state, left rfl, count⟩⟩
  · obtain ⟨state, successor, predecessor, left, pdus, completes, count⟩ :=
      Node.pollPduUdp_spec polled
    have kept := unread node message.1
    rw [handled] at kept
    obtain ⟨udp, successor', predecessor'⟩ := kept.value
    rw [← udp] at count
    exact ⟨⟨successor'.trans successor, predecessor'.trans predecessor⟩, pdus, completes,
      Or.inr ⟨⟨node, message.1, handled⟩, count⟩⟩

/-- `q8` leaves all messages of the predecessor but one in the queue. -/
theorem await_q8 (awaited : member.await (member.node.pollPdu false) (Node.q8Received env) =
      .ok (some next)) :
    (next.node.udpWrapper = member.node.udpWrapper ∧
      next.node.successorWrapper = member.node.successorWrapper) ∧
    ∃ socket pdus, member.node.predecessor = some socket ∧
      Completes member.node.predecessorWrapper.buffer [socket.pending] pdus ∧
      ((next.node.state = member.node.state ∧ next.node.predecessorWrapper.incomingQueue = [] ∧
          member.node.predecessorWrapper.incomingQueue.length + pdus.length = 0) ∨
        (next.node.state = .q6 ∧
          member.node.predecessorWrapper.incomingQueue.length + pdus.length =
            1 + next.node.predecessorWrapper.incomingQueue.length)) := by
  rcases await_ok awaited with polled | ⟨message, node, polled, handled⟩
  · obtain ⟨socket, wrapper, socket', pdus, set, same, left, completes, count⟩ :=
      Node.pollPdu_spec polled
    rw [same]
    rw [left rfl] at count
    exact ⟨⟨rfl, rfl⟩, socket, pdus, set, completes, Or.inl ⟨rfl, left rfl, count⟩⟩
  · obtain ⟨socket, wrapper, socket', pdus, set, rfl, left, completes, count⟩ :=
      Node.pollPdu_spec polled
    have kept := Node.q8Received_unread env (member.node.withSide false wrapper socket') message.1
    have joined := Node.q8Received_ends env (member.node.withSide false wrapper socket') message.1
    rw [handled] at kept joined
    obtain ⟨udp, successor, predecessor⟩ := kept.value
    refine ⟨⟨udp, successor⟩, socket, pdus, set, completes, Or.inr ⟨joined.value.1, ?_⟩⟩
    rw [predecessor]
    exact count

theorem await_q11 {successor : Bool} (state : member.node.state = .q11)
    (awaited : member.await (member.node.pollPdu successor) Node.q11Received = .ok (some next)) :
    next.node.state = .q11 ∨ next.node.state = .q18 := by
  rcases await_ok awaited with polled | ⟨message, node, polled, handled⟩
  · obtain ⟨socket, wrapper, socket', pdus, set, same, -⟩ := Node.pollPdu_spec polled
    left
    rw [same, Node.withSide]
    split <;> exact state
  · have left := Node.q11Received_ends node message.1
    rw [handled] at left
    exact Or.inr left.value

end Member

namespace Node

variable {node next : Node}

theorem handleAll_unread (node : Node) (source : Addr → Source) (queue : List Message) :
    node.ReadsNothing (node.handleAll source queue) := by
  rw [handleAll_eq]
  cases handled : node.handlePdus (queue.map fun x => (x.1, source x.2)) with
  | error e => exact .error trivial
  | ok next =>
      have same := handlePdus_sockets handled
      refine .ok ⟨?_, ?_, ?_⟩ <;> rw [← same] <;> rfl

theorem handleEvent_drained (drained : node.Drained) (event : Token) :
    Ends (fun _ => True) Drained (node.handleEvent event) := by
  cases event with
  | udp =>
      refine (Ends.any _).bind fun wrapper _ => (handleAll_unread ..).mono (fun _ _ => trivial) ?_
      exact fun next unread => unread.drained ⟨⟨drained.successor, drained.predecessor⟩, rfl⟩
  | successor =>
      rw [handleEvent]
      split
      · exact .ok drained
      · refine (Ends.any _).bind ?_
        rintro ⟨closed, wrapper, socket⟩ -
        refine (handleAll_unread ..).mono (fun _ _ => trivial) fun next unread => unread.drained ?_
        cases closed
        · exact ⟨⟨rfl, drained.predecessor⟩, drained.udp⟩
        · exact ⟨⟨rfl, drained.predecessor⟩, drained.udp⟩
  | predecessor =>
      rw [handleEvent]
      split
      · exact .ok drained
      · refine (Ends.any _).bind ?_
        rintro ⟨closed, wrapper, socket⟩ -
        refine (handleAll_unread ..).mono (fun _ _ => trivial) fun next unread => unread.drained ?_
        exact ⟨⟨drained.successor, rfl⟩, drained.udp⟩

theorem q6_drained (drained : node.Drained) (env : Env) (events : List Token) (interrupt : Bool) :
    Ends (fun _ => True) Drained (node.q6 env events interrupt) := by
  have alive : Unread node (node.sendAlive env) := by
    unfold sendAlive
    split
    · exact ⟨rfl, rfl, rfl⟩
    · exact ⟨rfl, rfl, rfl⟩
  have handled := Ends.foldlM (E := fun _ => True)
    (fun (node : Node) event drained => handleEvent_drained drained event) events _
    (alive.drained drained)
  refine handled.bind fun last drained => .ok ?_
  unfold checkClose
  split
  · exact ⟨⟨drained.successor, drained.predecessor⟩, drained.udp⟩
  · exact ⟨⟨drained.successor, drained.predecessor⟩, drained.udp⟩

/-! ## Runs -/

def Leaves (node : Node) : Prop := node.state = .q11 ∨ node.state = .q18

/-- Only what `q2` has left for `q3` is in a queue, as long as the node stays. -/
structure Settled (node : Node) : Prop where
  tcp : ¬ node.Leaves → node.TcpDrained
  udp : ¬ node.Leaves → node.state ≠ .q3 → node.udpWrapper.incomingQueue = []

theorem Drained.settled (drained : node.Drained) : node.Settled :=
  ⟨fun _ => drained.toTcpDrained, fun _ _ => drained.udp⟩

theorem Settled.drained {s : State} (settled : node.Settled) (state : node.state = s)
    (elsewhere : s ∉ [State.q3, .q11, .q18]) : node.Drained := by
  have stays : ¬ node.Leaves := by
    rintro (leaves | leaves)
    · exact elsewhere (by simp [← state, leaves])
    · exact elsewhere (by simp [← state, leaves])
  have answered : node.state ≠ .q3 := fun asks => elsewhere (by simp [← state, asks])
  exact ⟨settled.tcp stays, settled.udp stays answered⟩

theorem Settled.keep (settled : node.Settled) (unread : node.Unread next)
    (leaves : node.Leaves → next.Leaves) (asks : node.state = .q3 → next.state = .q3) :
    next.Settled := by
  obtain ⟨udp, successor, predecessor⟩ := unread
  refine ⟨fun stays => ?_, fun stays state => ?_⟩
  · have tcp := settled.tcp fun left => stays (leaves left)
    exact ⟨successor ▸ tcp.successor, predecessor ▸ tcp.predecessor⟩
  · rw [udp]
    exact settled.udp (fun left => stays (leaves left)) fun before => state (asks before)

/-- The node goes on to `q6` with a datagram's PDU in the queue. -/
structure Spoiled (node : Node) : Prop where
  queue : node.udpWrapper.incomingQueue ≠ []
  state : node.state = .q4 ∨ node.state = .q7 ∨ node.state = .q8

def WaitsInVain (node : Node) : Prop := node.state = .q6 ∧ ¬ node.Drained

end Node

namespace Member

variable {member next : Member} {event : Event}

theorem act_of_step (stepped : member.step event = some next) :
    member.act event = .ok (some next) := by
  rw [step] at stepped
  split at stepped
  · rename_i found acted
    rw [acted, stepped]
  · cases stepped

theorem GoesOn.settled (goes : member.GoesOn next) (settled : member.node.Settled) :
    next.node.Settled := by
  obtain ⟨unread, later⟩ := goes
  refine settled.keep unread ?_ fun state => ?_
  · rintro (state | state)
    · rw [state] at later
      exact Or.inl later
    · rw [state] at later
      exact Or.inr later
  · rw [state] at later
    exact later

inductive Resumes (env : Env) (member next : Member) : Prop
  | q2 (state : member.node.state = .q2)
      (awaited : member.await member.node.pollPduUdp Node.q2Received = .ok (some next))
  | q3 (state : member.node.state = .q3)
      (awaited : member.await member.node.pollPduUdp Node.q3Received = .ok (some next))
  | q7 (state : member.node.state = .q7) (unread : member.node.Unread next.node)
      (joined : next.node.state = .q8)
  | q8 (state : member.node.state = .q8)
      (awaited : member.await (member.node.pollPdu false) (Node.q8Received env) =
        .ok (some next))
  | accepted (state : member.node.state = .q5 ∨ member.node.state = .q17)
      (unread : member.node.Unread next.node) (waits : next.node.state = .q6)
  | q11 (state : member.node.state = .q11) (left : next.node.Leaves)

theorem resumes {env : Env} (resumed : member.resume env = .ok (some next)) :
    Resumes env member next := by
  unfold resume at resumed
  dsimp only at resumed
  split at resumed
  · cases resumed
  · cases state : member.node.state with
    | q2 =>
        rw [state] at resumed
        exact .q2 state resumed
    | q3 =>
        rw [state] at resumed
        exact .q3 state resumed
    | q5 =>
        rw [state] at resumed
        obtain ⟨unread, waits⟩ := accept_ok resumed
        exact .accepted (Or.inl state) unread waits
    | q7 =>
        rw [state] at resumed
        obtain ⟨unread, joined⟩ := accept_ok resumed
        exact .q7 state unread joined
    | q8 =>
        rw [state] at resumed
        exact .q8 state resumed
    | q11 =>
        rw [state] at resumed
        exact .q11 state (await_q11 state resumed)
    | q17 =>
        rw [state] at resumed
        obtain ⟨unread, waits⟩ := accept_ok resumed
        exact .accepted (Or.inr state) unread waits
    | _ =>
        rw [state] at resumed
        cases resumed

inductive Stepped (member next : Member) : Event → Prop
  | advance (env : Env) (goes : member.GoesOn next) : Stepped member next (.advance env)
  | resume (env : Env) (goes : Resumes env member next) : Stepped member next (.resume env)
  | round (env : Env) (events : List Token) (waits : member.node.state = .q6)
      (handled : member.node.q6 env events false = .ok next.node) :
      Stepped member next (.round env events)
  | network (event : Event) (outside : ∀ env, event ≠ .resume env)
      (unread : member.node.Unread next.node) (state : next.node.state = member.node.state) :
      Stepped member next event

theorem stepped (step : member.step event = some next) : Stepped member next event := by
  have acted := act_of_step step
  cases event with
  | advance env =>
      have goes := advance_goesOn env member
      rw [show member.advance env = _ from acted] at goes
      exact .advance env (goes.value next rfl)
  | resume env => exact .resume env (resumes acted)
  | round env events =>
      rw [act, Member.round] at acted
      split at acted
      · cases acted
      · rename_i here
        cases handled : member.node.q6 env events false with
        | error e =>
            rw [handled] at acted
            cases acted
        | ok node =>
            rw [handled] at acted
            cases acted
            refine .round env events ?_ handled
            by_contra elsewhere
            simp [elsewhere] at here
  | receive fd arrival =>
      cases acted
      exact .network _ (fun env same => by cases same) ⟨rfl, rfl, rfl⟩ rfl
  | receiveDatagram datagram =>
      cases acted
      exact .network _ (fun env same => by cases same) ⟨rfl, rfl, rfl⟩ rfl
  | connected socket =>
      cases acted
      exact .network _ (fun env same => by cases same) ⟨rfl, rfl, rfl⟩ rfl
  | interrupt =>
      cases acted
      exact .network _ (fun env same => by cases same) ⟨rfl, rfl, rfl⟩ rfl

theorem settled_step (settled : member.node.Settled) (single : member.Single event)
    (step : member.step event = some next) : next.node.Settled := by
  cases stepped step with
  | advance env goes => exact goes.settled settled
  | round env events waits handled =>
      have drained := settled.drained waits (by decide)
      have last := Node.q6_drained drained env events false
      rw [handled] at last
      exact last.value.settled
  | network event _ unread state =>
      refine settled.keep unread ?_ fun before => by rw [state, before]
      rw [Node.Leaves, Node.Leaves, state]
      exact id
  | resume env goes =>
      cases goes with
      | q2 state awaited =>
          have drained := settled.drained state (by decide)
          obtain ⟨⟨successor, predecessor⟩, pdus, completes, answer⟩ :=
            await_udp Node.q2Received_unread awaited
          have tcp : next.node.TcpDrained :=
            ⟨successor ▸ drained.successor, predecessor ▸ drained.predecessor⟩
          refine ⟨fun _ => tcp, fun _ other => ?_⟩
          rcases answer with ⟨-, empty, -⟩ | ⟨⟨polled, pdu, received⟩, -⟩
          · exact empty
          · have asks := Node.q2Received_ends polled pdu
            rw [received] at asks
            exact absurd asks.value.1 other
      | q3 state awaited =>
          have tcp := settled.tcp (by simp [Node.Leaves, state])
          obtain ⟨⟨successor, predecessor⟩, pdus, completes, answer⟩ :=
            await_udp Node.q3Received_unread awaited
          refine Node.Drained.settled ⟨⟨successor ▸ tcp.successor, predecessor ▸ tcp.predecessor⟩, ?_⟩
          rcases answer with ⟨-, empty, -⟩ | ⟨-, count⟩
          · exact empty
          · exact (single.1 state).empty completes count
      | q7 state unread joined =>
          exact (unread.drained (settled.drained state (by decide))).settled
      | q8 state awaited =>
          have drained := settled.drained state (by decide)
          obtain ⟨⟨udp, successor⟩, socket, pdus, set, completes, answer⟩ := await_q8 awaited
          have empty : next.node.predecessorWrapper.incomingQueue = [] := by
            rcases answer with ⟨-, empty, -⟩ | ⟨-, count⟩
            · exact empty
            · exact (single.2 state socket set).empty completes count
          exact Node.Drained.settled ⟨⟨successor ▸ drained.successor, empty⟩, udp ▸ drained.udp⟩
      | accepted state unread waits =>
          rcases state with state | state
          · exact (unread.drained (settled.drained state (by decide))).settled
          · exact (unread.drained (settled.drained state (by decide))).settled
      | q11 state left => exact ⟨fun stays => absurd left stays, fun stays => absurd left stays⟩

theorem single_of_outside (outside : ∀ env, event ≠ .resume env) : member.Single event := by
  cases event with
  | resume env => exact absurd rfl (outside env)
  | _ => trivial

/-- A step that leaves a second message: it is there when `q6` waits, or on the way to it. -/
theorem several_step (several : ¬ member.Single event) (step : member.step event = some next) :
    next.node.Spoiled ∨ next.node.WaitsInVain := by
  cases stepped step with
  | advance env goes => exact absurd trivial several
  | round env events waits handled => exact absurd trivial several
  | network event outside unread state => exact absurd (single_of_outside outside) several
  | resume env goes =>
      have elsewhere : member.node.state = .q3 ∨ member.node.state = .q8 := by
        by_contra others
        rw [not_or] at others
        exact several ⟨fun state => absurd state others.1, fun state => absurd state others.2⟩
      cases goes with
      | q3 state awaited =>
          have more : ¬ OneMessage member.node.udpWrapper.incomingQueue
              member.node.udpWrapper.buffer (member.node.udpSocket.datagrams.map Datagram.bytes) :=
            fun single => several ⟨fun _ => single, fun other => by simp [state] at other⟩
          obtain ⟨-, pdus, completes, answer⟩ := await_udp Node.q3Received_unread awaited
          rcases answer with ⟨-, -, none⟩ | ⟨⟨polled, pdu, received⟩, count⟩
          · have two := two_of_several more completes
            omega
          · have asked := Node.q3Received_ends polled pdu
            rw [received] at asked
            exact Or.inl ⟨rest_of_several more completes count,
              asked.value.1.imp_right Or.inl⟩
      | q8 state awaited =>
          obtain ⟨-, socket, pdus, set, completes, answer⟩ := await_q8 awaited
          have more : ¬ OneMessage member.node.predecessorWrapper.incomingQueue
              member.node.predecessorWrapper.buffer [socket.pending] := by
            intro single
            refine several ⟨fun other => by simp [state] at other, fun _ other set' => ?_⟩
            obtain rfl := Option.some.inj (set.symm.trans set')
            exact single
          rcases answer with ⟨-, -, none⟩ | ⟨waits, count⟩
          · have two := two_of_several more completes
            omega
          · exact Or.inr ⟨waits, fun drained =>
              rest_of_several more completes count drained.predecessor⟩
      | q2 state awaited => simp [state] at elsewhere
      | q7 state unread joined => simp [state] at elsewhere
      | accepted state unread waits =>
          rcases state with state | state <;> simp [state] at elsewhere
      | q11 state left => simp [state] at elsewhere

/-- What `q3` has left in the queue is there when `q6` waits. -/
theorem spoiled_step (spoiled : member.node.Spoiled) (step : member.step event = some next) :
    next.node.Spoiled ∨ next.node.WaitsInVain := by
  obtain ⟨queue, on_way⟩ := spoiled
  have vain (waits : next.node.state = .q6)
      (same : next.node.udpWrapper = member.node.udpWrapper) : next.node.WaitsInVain :=
    ⟨waits, fun drained => queue (same ▸ drained.udp)⟩
  cases stepped step with
  | advance env goes =>
      obtain ⟨unread, later⟩ := goes
      rcases on_way with state | state | state
      · rw [state] at later
        exact Or.inr (vain later unread.1)
      · rw [state] at later
        exact Or.inl ⟨unread.1 ▸ queue, Or.inr (Or.inl later)⟩
      · rw [state] at later
        exact Or.inl ⟨unread.1 ▸ queue, Or.inr (Or.inr later)⟩
  | round env events waits handled => simp [waits] at on_way
  | network event outside unread state =>
      rw [← state] at on_way
      exact Or.inl ⟨unread.1 ▸ queue, on_way⟩
  | resume env goes =>
      cases goes with
      | q7 state unread joined => exact Or.inl ⟨unread.1 ▸ queue, Or.inr (Or.inr joined)⟩
      | q8 state awaited =>
          obtain ⟨⟨udp, -⟩, socket, pdus, set, completes, answer⟩ := await_q8 awaited
          rcases answer with ⟨still, -⟩ | ⟨waits, -⟩
          · exact Or.inl ⟨udp ▸ queue, Or.inr (Or.inr (still.trans state))⟩
          · exact Or.inr (vain waits udp)
      | q2 state awaited => simp [state] at on_way
      | q3 state awaited => simp [state] at on_way
      | accepted state unread waits => rcases state with state | state <;> simp [state] at on_way
      | q11 state left => simp [state] at on_way

end Member

/-! ## Whole runs -/

section

variable {start last : Member} {events : List Member.Event}

theorem started_settled (address : UInt32) (trackerAddr : Addr) (udpPort listenPort : UInt16) :
    (Member.started address trackerAddr udpPort listenPort).node.Settled :=
  Node.Drained.settled ⟨⟨rfl, rfl⟩, rfl⟩

/-- A run without a second message in a queue. -/
abbrev Member.SingleRuns (start : Member) (events : List Member.Event) (last : Member) : Prop :=
  Transition.Run Member.step Member.Single start events last

theorem settled_of_run (settled : start.node.Settled) (run : start.SingleRuns events last) :
    last.node.Settled :=
  run.invariant settled fun _ _ _ settled single step => Member.settled_step settled single step

theorem run_cases (run : start.Runs events last) :
    start.SingleRuns events last ∨ last.node.Spoiled ∨
      ∃ before after member, events = before ++ after ∧ start.Runs before member ∧
        member.node.WaitsInVain := by
  refine run.induct (P := fun as member => start.SingleRuns as member ∨ member.node.Spoiled ∨
    ∃ before after waiting, as = before ++ after ∧ start.Runs before waiting ∧
      waiting.node.WaitsInVain) (Or.inl .nil) ?_
  intro as member event next before sofar _ step
  have after : start.Runs (as ++ [event]) next := before.snoc trivial step
  have reached (found : next.node.Spoiled ∨ next.node.WaitsInVain) :
      next.node.Spoiled ∨ ∃ before after member, as ++ [event] = before ++ after ∧
        start.Runs before member ∧ member.node.WaitsInVain :=
    found.imp_right fun vain => ⟨as ++ [event], [], next, (List.append_nil _).symm, after, vain⟩
  rcases sofar with single | spoiled | ⟨first, rest, waiting, rfl, ran, vain⟩
  · by_cases one : member.Single event
    · exact Or.inl (single.snoc one step)
    · exact Or.inr (reached (Member.several_step one step))
  · exact Or.inr (reached (Member.spoiled_step spoiled step))
  · exact Or.inr (Or.inr ⟨first, rest ++ [event], waiting, List.append_assoc .., ran, vain⟩)

/-- Whenever `q6` starts to wait in a run the queues are empty, if and only if no read of
`q3` or `q8` has left a second message. -/
theorem nothingLeft_iff (address : UInt32) (trackerAddr : Addr) (udpPort listenPort : UInt16)
    (run : (Member.started address trackerAddr udpPort listenPort).Runs events last)
    (waits : last.node.state = .q6) :
    NothingLeft (Member.started address trackerAddr udpPort listenPort) events ↔
      (Member.started address trackerAddr udpPort listenPort).SingleRuns events last := by
  constructor
  · intro nothing
    rcases run_cases run with single | spoiled | ⟨before, after, member, split, ran, vain⟩
    · exact single
    · have on_way := spoiled.state
      simp [waits] at on_way
    · exact absurd (nothing before after member split ran vain.1) vain.2
  · rintro single before after member rfl ran here
    obtain ⟨member', first, -⟩ := single.split
    obtain rfl := first.unique ran
    have settled := settled_of_run (started_settled ..) first
    exact settled.drained here (by decide)

end

def welcoming : Env where
  now := 0
  connect _ addr := some ⟨2, addr, [], false⟩
  accept _ := some ⟨1, ⟨2, 49152⟩, [], false⟩

def asksTracker (named : Addr) : List Member.Event :=
  [.advance welcoming, .advance welcoming,
    .receiveDatagram ⟨⟨9, 9⟩, (PDU.stunResponse (StunResponsePdu.new 1)).toBytes⟩,
    .resume welcoming, .advance welcoming,
    .receiveDatagram ⟨⟨9, 9⟩,
      (PDU.netGetNodeResponse (NetGetNodeResponsePdu.new named.address named.port)).toBytes⟩,
    .resume welcoming, .advance welcoming]

/-- `Single`, tried out by reading. -/
def Member.single (member : Member) : Event → Bool
  | .resume _ =>
      (member.node.state ≠ .q3 ||
        (member.node.udpWrapper.tryRead member.node.udpSocket.datagrams).toOption.any
          fun wrapper => wrapper.incomingQueue.length ≤ 1) &&
      (member.node.state ≠ .q8 || member.node.predecessor.all fun socket =>
        (member.node.predecessorWrapper.tryRead socket).toOption.any
          fun answer => answer.2.1.incomingQueue.length ≤ 1)
  | _ => true

theorem Member.single_sound (member : Member) (event : Event)
    (passed : member.single event = true) : member.Single event := by
  cases event with
  | resume env =>
      rw [Member.single, Bool.and_eq_true, Bool.or_eq_true, Bool.or_eq_true, decide_eq_true_iff,
        decide_eq_true_iff] at passed
      obtain ⟨datagrams, stream⟩ := passed
      constructor
      · intro state
        have few := datagrams.resolve_left fun elsewhere => elsewhere state
        cases read : member.node.udpWrapper.tryRead member.node.udpSocket.datagrams with
        | error e =>
            rw [read] at few
            cases few
        | ok wrapper =>
            rw [read] at few
            obtain ⟨pdus, completes, length⟩ := UdpWrapper.tryRead_completes read
            exact oneMessage_of_length completes length (of_decide_eq_true few)
      · intro state socket set
        have few := stream.resolve_left fun elsewhere => elsewhere state
        rw [set, Option.all_some] at few
        cases read : member.node.predecessorWrapper.tryRead socket with
        | error e =>
            rw [read] at few
            cases few
        | ok answer =>
            rw [read] at few
            obtain ⟨pdus, completes, length⟩ := TcpWrapper.tryRead_completes read
            exact oneMessage_of_length completes length (of_decide_eq_true few)
  | _ => trivial

def joinsThrough : List Member.Event := asksTracker ⟨2, 101⟩ ++
  [.connected ⟨1, ⟨2, 49152⟩, [], false⟩, .resume welcoming, .advance welcoming]

/-- The answer comes alone, then an entry, and then another one in two pieces. -/
def joinsInOrder : List Member.Event := joinsThrough ++
  [.receive 1 ⟨[⟨(PDU.netJoinResponse (NetJoinResponsePdu.new 2 201 128 255)).toBytes,
      List.cons_ne_nil _ _⟩], false⟩,
    .resume welcoming,
    .receive 1 ⟨[⟨(PDU.valInsert (ValInsertPdu.new (List.replicate 12 '0') ['n'] ['e'])).toBytes ++
      [100, 51, 51], List.cons_ne_nil _ _⟩], false⟩,
    .round welcoming [.predecessor],
    .receive 1 ⟨[⟨List.replicate 10 51 ++ [1, 110, 1, 101], List.cons_ne_nil _ _⟩], false⟩,
    .round welcoming [.predecessor]]

theorem nothingLeft_iff_joins : ∃ last,
    (Member.started 1 ⟨9, 9⟩ 101 201).Runs joinsInOrder last ∧ last.node.values.length = 2 ∧
      NothingLeft (Member.started 1 ⟨9, 9⟩ 101 201) joinsInOrder := by
  have runs : ((Transition.execChecked Member.step Member.single
      (Member.started 1 ⟨9, 9⟩ 101 201) joinsInOrder).any fun last =>
        last.node.state = .q6 && last.node.values.length = 2) = true := by decide +kernel
  obtain ⟨last, ran, here⟩ := (Option.any_eq_true ..).mp runs
  obtain ⟨waits, entries⟩ := Bool.and_eq_true_iff.mp here
  have single := Transition.run_of_execChecked Member.single_sound ran
  have run := single.mono fun _ _ _ => trivial
  exact ⟨last, run, of_decide_eq_true entries,
    (nothingLeft_iff 1 ⟨9, 9⟩ 101 201 run (of_decide_eq_true waits)).mpr single⟩

/-- The node joins, and the first entry comes together with `NET_JOIN_RESPONSE`. -/
def joins : List Member.Event := joinsThrough ++
  [.receive 1 ⟨[⟨(PDU.netJoinResponse (NetJoinResponsePdu.new 2 201 128 255)).toBytes ++
      (PDU.valInsert (ValInsertPdu.new (List.replicate 12 '0') ['n'] ['e'])).toBytes,
      List.cons_ne_nil _ _⟩], false⟩,
    .resume welcoming]

/-- The entry stays in the queue of the predecessor. -/
theorem entry_left_in_queue : ¬ ∀ (address : UInt32) (trackerAddr : Addr)
    (udpPort listenPort : UInt16) (events : List Member.Event),
    NothingLeft (Member.started address trackerAddr udpPort listenPort) events := by
  intro claim
  have runs : ((Transition.exec Member.step (Member.started 1 ⟨9, 9⟩ 101 201) joins).any
      fun last => last.node.state = .q6 && !last.node.predecessorWrapper.incomingQueue.isEmpty) =
        true := by decide +kernel
  obtain ⟨last, ran, here⟩ := (Option.any_eq_true ..).mp runs
  obtain ⟨waits, left⟩ := Bool.and_eq_true_iff.mp here
  have drained := claim 1 ⟨9, 9⟩ 101 201 joins joins [] last (List.append_nil _).symm
    (Transition.run_of_exec_true ran) (of_decide_eq_true waits)
  rw [drained.predecessor] at left
  cases left

end DhtRing.TestNode

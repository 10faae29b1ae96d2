import DhtRing.Lib.Leases
import DhtRing.TestNode.Receiving

/-!
# The tracker

The main loop of `tracker.rs`: it keeps for each node the time of its last `NET_ALIVE`,
answers who asks for a node or for its own address, and drops the nodes that it has not heard
of for `timeout` seconds.  What it knows and answers follows from what has come in so far.
-/

set_option autoImplicit false

namespace DhtRing.TestNode

open Leases

def asSecs (duration : ℕ) : ℕ := duration / 1000000000

structure Tracker where
  timeout : ℕ
  /-- `nodes` with `last_alive`. -/
  nodes : Table Addr
  udpWrapper : UdpWrapper
  /-- What the tracker has sent, and to whom. -/
  sent : List (PDU × Addr)

namespace Tracker

def new (timeout : ℕ) : Tracker := ⟨timeout, .empty, .new, []⟩

structure Round where
  /-- What can be read when the poll returns. -/
  datagrams : List Datagram
  /-- The clock when a PDU behind `k` others is handled. -/
  handled : ℕ → ℕ
  /-- The clock when `retain` comes to a node. -/
  checked : Addr → ℕ
  /-- The key that the iterator over the map with these keys yields first. -/
  first : List Addr → Addr

variable (tracker : Tracker)

def getNode (first : List Addr → Addr) : NetGetNodeResponsePdu :=
  if tracker.nodes.keys = [] then NetGetNodeResponsePdu.new 0 0
  else
    let k := first tracker.nodes.keys
    NetGetNodeResponsePdu.new k.address k.port

def send (pdu : PDU) (receiver : Addr) : Tracker :=
  { tracker with sent := tracker.sent ++ [(pdu, receiver)] }

def handle (first : List Addr → Addr) (now : ℕ) : Message → Tracker
  | (.stunLookup _, sender) =>
      tracker.send (.stunResponse (StunResponsePdu.new sender.address)) sender
  | (.netAlive _, sender) => { tracker with nodes := tracker.nodes.touch sender now }
  | (.netGetNode _, sender) =>
      tracker.send (.netGetNodeResponse (tracker.getNode first)) sender
  -- "What did I just receive??"
  | _ => tracker

/-- The loop over `next_pdu`, behind `k` PDUs of the round. -/
def handleAll (round : Round) : ℕ → List Message → Tracker → Tracker
  | _, [], tracker => tracker
  | k, message :: rest, tracker =>
      handleAll round (k + 1) rest (tracker.handle round.first (round.handled k) message)

/-- `retain`: whether a node is dropped due to inactivity. -/
def retain (checked : Addr → ℕ) : Tracker :=
  { tracker with
    nodes := tracker.nodes.sweep fun node lastAlive =>
      if asSecs (checked node - lastAlive) ≥ tracker.timeout then false else true }

/-- A round of the main loop.  When the poll times out there is nothing to read. -/
def round (round : Round) : Except String Tracker := do
  let wrapper ← tracker.udpWrapper.tryRead round.datagrams
  let read := { tracker with udpWrapper := { wrapper with incomingQueue := [] } }
  return (handleAll round 0 wrapper.incomingQueue read).retain round.checked

end Tracker

/-! ## What it should know and answer -/

inductive Call where
  | alive (node : Addr) (now : ℕ)
  | getNode (sender : Addr)
  | stun (sender : Addr)
  /-- `retain`. -/
  | check (checked : Addr → ℕ)

def Call.ofMessage (now : ℕ) : Message → Option Call
  | (.stunLookup _, sender) => some (.stun sender)
  | (.netAlive _, sender) => some (.alive sender now)
  | (.netGetNode _, sender) => some (.getNode sender)
  | _ => none

def Call.lease (timeout : ℕ) : Call → Option (Event Addr)
  | .alive node now => some (.touch node now)
  | .check checked =>
      some (.sweep fun node lastAlive => decide (asSecs (checked node - lastAlive) < timeout))
  | _ => none

/-- The last `NET_ALIVE` of the node was at `lastAlive`, and no check since then has found it
too old. -/
def Listed (timeout : ℕ) (calls : List Call) (node : Addr) (lastAlive : ℕ) : Prop :=
  Lives (calls.filterMap (Call.lease timeout)) node lastAlive

def Call.Answered (timeout : ℕ) (before : List Call) : Call → List (PDU × Addr) → Prop
  | .stun sender, replies =>
      replies = [(.stunResponse (StunResponsePdu.new sender.address), sender)]
  | .getNode sender, replies => ∃ pdu, replies = [(.netGetNodeResponse pdu, sender)] ∧
      ((∀ node lastAlive, ¬ Listed timeout before node lastAlive) ∧
          pdu = NetGetNodeResponsePdu.new 0 0 ∨
        ∃ node lastAlive, Listed timeout before node lastAlive ∧
          pdu = NetGetNodeResponsePdu.new node.address node.port)
  | _, replies => replies = []

inductive Answers (timeout : ℕ) : List Call → List (PDU × Addr) → Prop where
  | nil : Answers timeout [] []
  | snoc {calls : List Call} {sent replies : List (PDU × Addr)} {call : Call} :
      Answers timeout calls sent → call.Answered timeout calls replies →
      Answers timeout (calls ++ [call]) (sent ++ replies)

inductive Brings : List Datagram → List Message → Prop where
  | nil : Brings [] []
  | cons {datagram : Datagram} {pdus : List PDU} {rest : List Datagram} {messages : List Message} :
      datagram.Carries pdus → Brings rest messages →
      Brings (datagram :: rest) ((pdus.map fun pdu => (pdu, datagram.sender)) ++ messages)

def Tracker.Round.heard (round : Tracker.Round) : ℕ → List Message → List Call
  | _, [] => []
  | k, message :: rest =>
      (Call.ofMessage (round.handled k) message).toList ++ round.heard (k + 1) rest

def Tracker.Round.calls (round : Tracker.Round) (messages : List Message) : List Call :=
  round.heard 0 messages ++ [.check round.checked]

/-! ## One call -/

/-- The tracker has nothing left to read, knows who is listed and has answered each call. -/
structure Tracker.Knows (tracker : Tracker) (timeout : ℕ) (calls : List Call) : Prop where
  limit : tracker.timeout = timeout
  udpWrapper : tracker.udpWrapper = .new
  nodes : tracker.nodes = after (calls.filterMap (Call.lease timeout))
  answers : Answers timeout calls tracker.sent

section

variable {tracker : Tracker} {timeout now : ℕ} {calls : List Call} {first : List Addr → Addr}
  {message : Message} {messages : List Message}

theorem Tracker.new_knows (timeout : ℕ) : (Tracker.new timeout).Knows timeout [] :=
  ⟨rfl, rfl, rfl, .nil⟩

theorem Tracker.Knows.listed_iff (knows : tracker.Knows timeout calls) {node : Addr}
    {lastAlive : ℕ} :
    tracker.nodes.Touched node lastAlive ↔ Listed timeout calls node lastAlive := by
  rw [knows.nodes]
  exact touched_after_iff

theorem Tracker.Knows.send (knows : tracker.Knows timeout calls) (call : Call)
    (no_lease : call.lease timeout = none) {pdu : PDU} {receiver : Addr}
    (answered : call.Answered timeout calls [(pdu, receiver)]) :
    (tracker.send pdu receiver).Knows timeout (calls ++ [call]) := by
  refine ⟨knows.limit, knows.udpWrapper, ?_, knows.answers.snoc answered⟩
  rw [List.filterMap_append, List.filterMap_cons_none no_lease, List.filterMap_nil,
    List.append_nil]
  exact knows.nodes

theorem Tracker.Knows.apply (knows : tracker.Knows timeout calls) (call : Call)
    {event : Event Addr} (lease : call.lease timeout = some event) :
    { tracker with nodes := tracker.nodes.apply event }.Knows timeout (calls ++ [call]) := by
  refine ⟨knows.limit, knows.udpWrapper, ?_, ?_⟩
  · rw [List.filterMap_append, List.filterMap_cons_some lease, List.filterMap_nil, after_snoc,
      ← knows.nodes]
  · have silent : call.Answered timeout calls [] := by
      cases call with
      | alive node now => rfl
      | getNode sender => cases lease
      | stun sender => cases lease
      | check checked => rfl
    have answers := knows.answers.snoc silent
    rwa [List.append_nil] at answers

theorem Tracker.Knows.getNode (knows : tracker.Knows timeout calls) (sender : Addr)
    (yields : ∀ keys ≠ [], first keys ∈ keys) :
    (Call.getNode sender).Answered timeout calls
      [(.netGetNodeResponse (tracker.getNode first), sender)] := by
  refine ⟨_, rfl, ?_⟩
  rw [Tracker.getNode]
  split
  · rename_i none
    refine Or.inl ⟨fun node lastAlive listed => ?_, rfl⟩
    exact Table.keys_eq_nil_iff.mp none node lastAlive (knows.listed_iff.mpr listed)
  · rename_i some_listed
    obtain ⟨lastAlive, touched⟩ := Table.mem_keys_iff.mp (yields _ some_listed)
    exact Or.inr ⟨_, lastAlive, knows.listed_iff.mp touched, rfl⟩

theorem Tracker.Knows.handle (knows : tracker.Knows timeout calls)
    (yields : ∀ keys ≠ [], first keys ∈ keys) :
    (tracker.handle first now message).Knows timeout
      (calls ++ (Call.ofMessage now message).toList) := by
  obtain ⟨pdu, sender⟩ := message
  cases pdu with
  | netAlive pdu => exact knows.apply (.alive sender now) rfl
  | netGetNode pdu => exact knows.send (.getNode sender) rfl (knows.getNode sender yields)
  | stunLookup pdu => exact knows.send (.stun sender) rfl rfl
  | _ =>
      change tracker.Knows timeout (calls ++ [])
      rw [List.append_nil]
      exact knows

/-! ## The main loop -/

theorem Brings.tryRead {datagrams : List Datagram} (brings : Brings datagrams messages) :
    ∀ queue : List Message, UdpWrapper.tryRead ⟨queue, []⟩ datagrams = .ok ⟨queue ++ messages, []⟩ := by
  induction brings with
  | nil =>
      intro queue
      rw [List.append_nil]
      rfl
  | cons carries _ ih =>
      intro queue
      rw [UdpWrapper.tryRead, List.foldlM_cons, UdpWrapper.receive_of_carries rfl carries, ok_bind,
        ← List.append_assoc]
      exact ih _

theorem Tracker.Knows.handleAll {round : Tracker.Round}
    (yields : ∀ keys ≠ [], round.first keys ∈ keys)
    (messages : List Message) : ∀ {k : ℕ} {tracker : Tracker} {calls : List Call},
      tracker.Knows timeout calls →
        (Tracker.handleAll round k messages tracker).Knows timeout
          (calls ++ round.heard k messages) := by
  induction messages with
  | nil =>
      intro k tracker calls knows
      rw [Tracker.Round.heard, List.append_nil]
      exact knows
  | cons message rest ih =>
      intro k tracker calls knows
      rw [Tracker.Round.heard, ← List.append_assoc]
      exact ih (knows.handle yields)

theorem Tracker.Knows.retain (knows : tracker.Knows timeout calls) (checked : Addr → ℕ) :
    (tracker.retain checked).Knows timeout (calls ++ [.check checked]) := by
  have same : (fun node lastAlive =>
      if asSecs (checked node - lastAlive) ≥ tracker.timeout then false else true) =
      fun node lastAlive => decide (asSecs (checked node - lastAlive) < timeout) := by
    funext node lastAlive
    rw [knows.limit]
    split
    · rename_i old
      exact (decide_eq_false (Nat.not_lt.mpr old)).symm
    · rename_i young
      exact (decide_eq_true (Nat.not_le.mp young)).symm
  rw [Tracker.retain, same]
  exact knows.apply (.check checked) rfl

/-- A round reads and answers all that has come, and then drops who is too old. -/
theorem Tracker.Knows.round {round : Tracker.Round} (knows : tracker.Knows timeout calls)
    (brings : Brings round.datagrams messages) (yields : ∀ keys ≠ [], round.first keys ∈ keys) :
    ∃ next, tracker.round round = .ok next ∧
      next.Knows timeout (calls ++ round.calls messages) := by
  have read : tracker.udpWrapper.tryRead round.datagrams = .ok ⟨messages, []⟩ := by
    rw [knows.udpWrapper]
    exact brings.tryRead []
  have waits : { tracker with udpWrapper := .new }.Knows timeout calls :=
    ⟨knows.limit, rfl, knows.nodes, knows.answers⟩
  rw [Tracker.round, read]
  refine ⟨_, rfl, ?_⟩
  rw [Tracker.Round.calls, ← List.append_assoc]
  exact (waits.handleAll yields messages).retain round.checked

/-- Whatever comes in and whatever the clock says, the tracker lists a node as long as its last
`NET_ALIVE` is not too old at any check, and answers everybody who asks once, in order and
from this list. -/
theorem tracker_follows_calls {rounds : List (Tracker.Round × List Message)}
    (brings : ∀ r ∈ rounds, Brings r.1.datagrams r.2)
    (yields : ∀ r ∈ rounds, ∀ keys ≠ [], r.1.first keys ∈ keys) :
    ∃ tracker, (rounds.map Prod.fst).foldlM Tracker.round (Tracker.new timeout) = .ok tracker ∧
      (∀ node lastAlive, tracker.nodes.Touched node lastAlive ↔
        Listed timeout (rounds.flatMap fun r => r.1.calls r.2) node lastAlive) ∧
      Answers timeout (rounds.flatMap fun r => r.1.calls r.2) tracker.sent := by
  have runs : ∃ tracker, (rounds.map Prod.fst).foldlM Tracker.round (Tracker.new timeout) =
      .ok tracker ∧ tracker.Knows timeout (rounds.flatMap fun r => r.1.calls r.2) := by
    induction rounds using List.reverseRecOn with
    | nil => exact ⟨_, rfl, Tracker.new_knows timeout⟩
    | append_singleton rounds last ih =>
        obtain ⟨tracker, ran, knows⟩ := ih
          (fun r mem => brings r (List.mem_append_left _ mem))
          (fun r mem => yields r (List.mem_append_left _ mem))
        have mem : last ∈ rounds ++ [last] := List.mem_append_right _ List.mem_cons_self
        obtain ⟨next, round, knows'⟩ := knows.round (brings last mem) (yields last mem)
        refine ⟨next, ?_, ?_⟩
        · rw [List.map_append, List.foldlM_append, ran, ok_bind]
          change tracker.round last.1 >>= pure = _
          rw [round]
          rfl
        · rw [List.flatMap_append, List.flatMap_singleton]
          exact knows'
  obtain ⟨tracker, ran, knows⟩ := runs
  exact ⟨tracker, ran, fun node lastAlive => knows.listed_iff, knows.answers⟩

end

/-- A node reports and somebody asks for one, and asks again when the node has been silent for
31 seconds and a check. -/
def silentNode : List (Tracker.Round × List Message) :=
  [(⟨[⟨⟨1, 5000⟩, [0]⟩, ⟨⟨2, 6000⟩, [1]⟩], fun _ => 0, fun _ => 0, fun keys => keys.headD ⟨0, 0⟩⟩,
      [(.netAlive NetAlivePdu.new, ⟨1, 5000⟩), (.netGetNode NetGetNodePdu.new, ⟨2, 6000⟩)]),
    (⟨[], fun _ => 0, fun _ => 31000000000, fun keys => keys.headD ⟨0, 0⟩⟩, []),
    (⟨[⟨⟨2, 6000⟩, [1]⟩], fun _ => 31000000000, fun _ => 31000000000,
      fun keys => keys.headD ⟨0, 0⟩⟩, [(.netGetNode NetGetNodePdu.new, ⟨2, 6000⟩)])]

theorem tracker_follows_calls_silentNode : ∃ tracker,
    (silentNode.map Prod.fst).foldlM Tracker.round (Tracker.new 30) = .ok tracker ∧
      (∀ node lastAlive, tracker.nodes.Touched node lastAlive ↔
        Listed 30 (silentNode.flatMap fun r => r.1.calls r.2) node lastAlive) ∧
      Answers 30 (silentNode.flatMap fun r => r.1.calls r.2) tracker.sent := by
  have head : ∀ keys ≠ [], (fun keys : List Addr => keys.headD ⟨0, 0⟩) keys ∈ keys := by
    intro keys some_key
    obtain ⟨key, rest, rfl⟩ := List.exists_cons_of_ne_nil some_key
    exact List.mem_cons_self
  have alive : (⟨⟨1, 5000⟩, [0]⟩ : Datagram).Carries [.netAlive NetAlivePdu.new] :=
    ⟨List.forall_mem_singleton.mpr ⟨rfl, trivial⟩, rfl, by decide⟩
  have getNode : (⟨⟨2, 6000⟩, [1]⟩ : Datagram).Carries [.netGetNode NetGetNodePdu.new] :=
    ⟨List.forall_mem_singleton.mpr ⟨rfl, trivial⟩, rfl, by decide⟩
  apply tracker_follows_calls
  · simp only [silentNode, List.forall_mem_cons]
    exact ⟨.cons alive (.cons getNode .nil), .nil, .cons getNode .nil, List.forall_mem_nil _⟩
  · simp only [silentNode, List.forall_mem_cons]
    exact ⟨head, head, head, List.forall_mem_nil _⟩

example : ((silentNode.map Prod.fst).foldlM Tracker.round (Tracker.new 30)).map Tracker.sent =
    .ok [(.netGetNodeResponse (NetGetNodeResponsePdu.new 1 5000), ⟨2, 6000⟩),
      (.netGetNodeResponse (NetGetNodeResponsePdu.new 0 0), ⟨2, 6000⟩)] := rfl

end DhtRing.TestNode

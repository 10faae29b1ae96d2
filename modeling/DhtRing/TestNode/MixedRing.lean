import DhtRing.Lib.Relay
import DhtRing.TestNode.MixedNode
import Mathlib.Data.Fintype.Basic

/-!
# A ring of both kinds of node as one store

Nodes in C and Rust nodes stand in one ring that nobody joins or leaves, and clients send
requests to any of them at any time.  On a connection go bytes, and a read takes any number
of them: a node in C has to find whole requests, a Rust node keeps what is not complete.
What the ring does follows from how requests are handed on from station to station.
-/

set_option autoImplicit false

namespace DhtRing.TestNode

open Transition Relay

/-! ## The ring -/

namespace RingNode

def isRust : RingNode → Bool
  | .c _ _ => false
  | .rust _ => true

def links : RingNode → Bool × Bool
  | .c _ selfData => (selfData.fdsSuccessor.isSome, selfData.fdsPredecessor.isSome)
  | .rust node => (node.successor.isSome, node.predecessor.isSome)

def leftOver : RingNode → List UInt8
  | .c _ _ => []
  | .rust node => node.predecessorWrapper.buffer

def Starts : RingNode → Prop
  | .c _ selfData => selfData.hashTable = some htCreate
  | .rust node => node.values = [] ∧ node.Ready ∧ node.predecessorWrapper.buffer = []

def Serves (range : UInt8 × UInt8) (log : List ClientRequest) : RingNode → Prop
  | .c _ selfData => HoldsLast range.1 range.2 (updates log) selfData
  | .rust node => HoldsAll range.1 range.2 (updates log) node ∧ node.Ready

end RingNode

structure RingNet (n : ℕ) where
  node : Fin n → RingNode
  datagrams : Fin n → List Datagram
  /-- The bytes that a node can read from its predecessor. -/
  stream : Fin n → List UInt8
  /-- What a node has sent to clients. -/
  replies : Fin n → List Reply

inductive RingAct (n : ℕ) where
  | client (i : Fin n) (sender : Addr) (request : ClientRequest)
  /-- `recv` of a node in C. -/
  | recvUdp (i : Fin n) (recv : Recv)
  | recvTcp (i : Fin n) (recv : Recv)
  /-- An event at a Rust node, with `k` datagrams or bytes. -/
  | eventUdp (i : Fin n) (k : ℕ)
  | eventTcp (i : Fin n) (k : ℕ)

def RingAct.Reads {n : ℕ} : RingAct n → Prop
  | .client _ _ _ => False
  | _ => True

/-- A request, and the node to which its client has sent it. -/
structure Entered (n : ℕ) where
  origin : Fin n
  request : ClientRequest
deriving DecidableEq

section

variable {n : ℕ} [NeZero n] (net : RingNet n)

namespace RingNet

def goOn (i : Fin n) (node : RingNode) (outputs : List Output) : RingNet n where
  node := Function.update net.node i node
  datagrams := net.datagrams
  stream := Function.update net.stream (i + 1) (net.stream (i + 1) ++ relayed outputs)
  replies := Function.update net.replies i (net.replies i ++ replied outputs)

def setDatagrams (i : Fin n) (datagrams : List Datagram) : RingNet n :=
  { net with datagrams := Function.update net.datagrams i datagrams }

def setStream (i : Fin n) (stream : List UInt8) : RingNet n :=
  { net with stream := Function.update net.stream i stream }

def step : RingAct n → Option (RingNet n)
  | .client i sender request =>
      some (net.setDatagrams i (net.datagrams i ++ [⟨sender, request.bytes⟩]))
  | .recvUdp i recv =>
      match net.node i, net.datagrams i with
      | .c sign selfData, datagram :: rest =>
          if recv.chunk = datagram.bytes.take DhtRing.bufferSize then
            (recvC selfData recv).map fun found =>
              (net.setDatagrams i rest).goOn i (.c sign found.1) found.2
          else none
      | _, _ => none
  | .recvTcp i recv =>
      match net.node i with
      | .c sign selfData =>
          if selfData.fdsPredecessor.isSome ∧ recv.chunk ≠ [] ∧
              recv.chunk.length ≤ DhtRing.bufferSize ∧ recv.chunk <+: net.stream i then
            (recvC selfData recv).map fun found =>
              (net.setStream i ((net.stream i).drop recv.chunk.length)).goOn i
                (.c sign found.1) found.2
          else none
      | .rust _ => none
  | .eventUdp i k =>
      match net.node i with
      | .c _ _ => none
      | .rust node =>
          if 0 < k ∧ k ≤ (net.datagrams i).length then
            (eventRust { node with udpSocket := { node.udpSocket with
                datagrams := node.udpSocket.datagrams ++ (net.datagrams i).take k } } .udp).map
              fun found => (net.setDatagrams i ((net.datagrams i).drop k)).goOn i
                (.rust found.1) found.2
          else none
  | .eventTcp i k =>
      match net.node i with
      | .c _ _ => none
      | .rust node =>
          match node.predecessor with
          | none => none
          | some stream =>
              if nothing : (net.stream i).take k = [] then none
              else
                (eventRust { node with predecessor := some (Node.arrive stream
                    ⟨[⟨(net.stream i).take k, nothing⟩], false⟩) } .predecessor).map
                  fun found => (net.setStream i ((net.stream i).drop k)).goOn i
                    (.rust found.1) found.2

/-- A `recv` of a node in C ends between two requests, and what a Rust node has to read fits
into its buffer. -/
def Allowed : RingAct n → Prop
  | .client _ _ request => request.Admissible
  | .recvTcp _ recv => ∃ requests : List ClientRequest, recv.chunk = requests.flatMap ClientRequest.bytes
  | .eventTcp i k => (net.node i).leftOver.length + ((net.stream i).take k).length < bufferSize
  | _ => True

/-- The nodes have the keys among them and store nothing, and nothing is on its way. -/
structure Fresh (owner : UInt8 → Fin n) : Prop where
  owns : ∀ i x, ((net.node i).range.1 ≤ x ∧ x ≤ (net.node i).range.2) ↔ owner x = i
  starts : ∀ i, (net.node i).Starts
  linked : ∀ i j, i ≠ j → (net.node i).links = (true, true)
  datagrams : ∀ i, net.datagrams i = []
  stream : ∀ i, net.stream i = []
  replies : ∀ i, net.replies i = []

def unread : ℕ := ∑ i, (net.stream i).length

def Quiet : Prop := ∀ i, net.datagrams i = [] ∧ net.stream i = [] ∧ (net.node i).leftOver = []

end RingNet

def enteredBy (acts : List (RingAct n)) : List (Entered n) :=
  acts.filterMap fun act => match act with
    | .client i _ request => some ⟨i, request⟩
    | _ => none

/-- A request goes from the node that gets it from its client round the ring to the owner of
its key. -/
def ringRouting (owner : UInt8 → Fin n) : Routing (Fin n) (Entered n) where
  next i := i + 1
  origin := Entered.origin
  owner entered := owner (DhtRing.hashSsn entered.request.key)

def stepsTo (i o : Fin n) : ℕ := (o - i).val

/-- The queues of requests behind the bytes of a ring. -/
structure Tracks (start net : RingNet n) (q : Queues (Fin n) (Entered n)) : Prop where
  node : ∀ i, (net.node i).Serves (start.node i).range ((q.kept i).map Entered.request)
  kind : ∀ i, (net.node i).isRust = (start.node i).isRust
  linked : ∀ i j, i ≠ j → (net.node i).links = (true, true)
  datagrams : ∀ i, (net.datagrams i).map Datagram.bytes =
    (q.inbox i).map fun entered => entered.request.bytes
  stream : ∀ i, (net.node i).leftOver ++ net.stream i =
    (q.link i).flatMap fun entered => entered.request.bytes
  replies : ∀ i, net.replies i =
    answers (start.node i).isRust [] ((q.kept i).map Entered.request)

/-- What the nodes have applied in a run, each in the order in which it has. -/
structure Histories (start net : RingNet n) (owner : UInt8 → Fin n) (acts : List (RingAct n))
    (log : Fin n → List (Entered n)) : Prop where
  mine : ∀ i, ∀ e ∈ log i, owner (DhtRing.hashSsn e.request.key) = i
  serves : ∀ i, (net.node i).Serves (start.node i).range ((log i).map Entered.request)
  replies : ∀ i, net.replies i = answers (start.node i).isRust [] ((log i).map Entered.request)
  /-- Those from one node to another are the first of those that have come in. -/
  inOrder : ∀ s o, (log o).filter ((ringRouting owner).between s o) <+:
    (enteredBy acts).filter ((ringRouting owner).between s o)
  complete : net.Quiet → ∀ s o, (log o).filter ((ringRouting owner).between s o) =
    (enteredBy acts).filter ((ringRouting owner).between s o)

end

/-! ## What a step is -/

section

variable {n : ℕ} [NeZero n] {net net' : RingNet n} {i : Fin n}

theorem RingNet.step_recvUdp {recv : Recv} (stepped : net.step (.recvUdp i recv) = some net') :
    ∃ sign selfData datagram rest next outputs, net.node i = .c sign selfData ∧
      net.datagrams i = datagram :: rest ∧
      recv.chunk = datagram.bytes.take DhtRing.bufferSize ∧
      recvC selfData recv = some (next, outputs) ∧
      net' = (net.setDatagrams i rest).goOn i (.c sign next) outputs := by
  rw [RingNet.step] at stepped
  cases here : net.node i with
  | rust node =>
      rw [here] at stepped
      cases stepped
  | c sign selfData =>
      cases arrived : net.datagrams i with
      | nil =>
          rw [here, arrived] at stepped
          cases stepped
      | cons datagram rest =>
          rw [here, arrived] at stepped
          dsimp only at stepped
          split at stepped
          · rename_i chunk
            obtain ⟨⟨next, outputs⟩, received, rfl⟩ := Option.map_eq_some_iff.mp stepped
            exact ⟨sign, selfData, datagram, rest, next, outputs, rfl, rfl, chunk, received, rfl⟩
          · cases stepped

theorem RingNet.step_recvTcp {recv : Recv} (stepped : net.step (.recvTcp i recv) = some net') :
    ∃ sign selfData rest next outputs, net.node i = .c sign selfData ∧
      recv.chunk ≠ [] ∧ net.stream i = recv.chunk ++ rest ∧
      recvC selfData recv = some (next, outputs) ∧
      net' = (net.setStream i rest).goOn i (.c sign next) outputs := by
  rw [RingNet.step] at stepped
  cases here : net.node i with
  | rust node =>
      rw [here] at stepped
      cases stepped
  | c sign selfData =>
      rw [here] at stepped
      dsimp only at stepped
      split at stepped
      · rename_i chunk
        obtain ⟨-, nonempty, -, rest, split⟩ := chunk
        obtain ⟨⟨next, outputs⟩, received, rfl⟩ := Option.map_eq_some_iff.mp stepped
        rw [← split, List.drop_left]
        exact ⟨sign, selfData, rest, next, outputs, rfl, nonempty, rfl, received, rfl⟩
      · cases stepped

theorem RingNet.step_eventUdp {k : ℕ} (stepped : net.step (.eventUdp i k) = some net') :
    ∃ node next outputs, net.node i = .rust node ∧ 0 < k ∧ k ≤ (net.datagrams i).length ∧
      eventRust { node with udpSocket := { node.udpSocket with
        datagrams := node.udpSocket.datagrams ++ (net.datagrams i).take k } } .udp =
          some (next, outputs) ∧
      net' = (net.setDatagrams i ((net.datagrams i).drop k)).goOn i (.rust next) outputs := by
  rw [RingNet.step] at stepped
  cases here : net.node i with
  | c sign selfData =>
      rw [here] at stepped
      cases stepped
  | rust node =>
      rw [here] at stepped
      dsimp only at stepped
      split at stepped
      · rename_i some_come
        obtain ⟨⟨next, outputs⟩, ran, rfl⟩ := Option.map_eq_some_iff.mp stepped
        exact ⟨node, next, outputs, rfl, some_come.1, some_come.2, ran, rfl⟩
      · cases stepped

theorem RingNet.step_eventTcp {k : ℕ} (stepped : net.step (.eventTcp i k) = some net') :
    ∃ node stream chunk next outputs, net.node i = .rust node ∧
      node.predecessor = some stream ∧ chunk.val = (net.stream i).take k ∧
      eventRust { node with predecessor := some (Node.arrive stream ⟨[chunk], false⟩) }
        .predecessor = some (next, outputs) ∧
      net' = (net.setStream i ((net.stream i).drop k)).goOn i (.rust next) outputs := by
  rw [RingNet.step] at stepped
  cases here : net.node i with
  | c sign selfData =>
      rw [here] at stepped
      cases stepped
  | rust node =>
      rw [here] at stepped
      dsimp only at stepped
      cases connected : node.predecessor with
      | none =>
          rw [connected] at stepped
          cases stepped
      | some stream =>
          rw [connected] at stepped
          dsimp only at stepped
          split at stepped
          · cases stepped
          · rename_i nonempty
            obtain ⟨⟨next, outputs⟩, ran, rfl⟩ := Option.map_eq_some_iff.mp stepped
            exact ⟨node, stream, ⟨_, nonempty⟩, next, outputs, rfl, connected, rfl, ran, rfl⟩

end

/-! ## One step -/

theorem RingNode.Starts.serves {node : RingNode} (starts : node.Starts) :
    node.Serves node.range [] ∧ node.leftOver = [] := by
  cases node with
  | c sign selfData =>
      refine ⟨⟨⟨htCreate, starts, holds_htCreate _⟩, ⟨rfl, rfl⟩, fun key => ?_⟩, rfl⟩
      rw [SelfData.value, show selfData.hashTable = some htCreate from starts]
      rfl
  | rust node =>
      obtain ⟨empty, ready, nothing⟩ := starts
      refine ⟨⟨⟨rfl, fun key => ?_⟩, ready⟩, nothing⟩
      rw [Node.entriesOf, empty]
      rfl

section

variable {n : ℕ} {start net net' : RingNet n} {owner : UInt8 → Fin n} {i : Fin n}
  {q q' : Queues (Fin n) (Entered n)}

theorem RingNet.Fresh.owner_iff (fresh : start.Fresh owner) (i : Fin n) (request : ClientRequest) :
    owner (DhtRing.hashSsn request.key) = i ↔ request.within (start.node i).range = true := by
  rw [← fresh.owns, ClientRequest.within, Bool.and_eq_true, decide_eq_true_eq, decide_eq_true_eq]

theorem RingNet.Fresh.tracks (fresh : start.Fresh owner) : Tracks start start .empty where
  node i := (fresh.starts i).serves.1
  kind i := rfl
  linked := fresh.linked
  datagrams i := by rw [fresh.datagrams]; rfl
  stream i := by rw [fresh.stream, (fresh.starts i).serves.2]; rfl
  replies i := by rw [fresh.replies]; rfl

theorem Tracks.linked_of_other (tracks : Tracks start net q) (fresh : start.Fresh owner)
    {request : ClientRequest} (other : request.within (start.node i).range = false) :
    (net.node i).links = (true, true) := by
  apply tracks.linked i (owner (DhtRing.hashSsn request.key))
  intro same
  rw [(fresh.owner_iff i request).mp same.symm] at other
  cases other

/-- Bytes that come to a node and do not complete a request. -/
theorem RingNet.unread_lt [NeZero n] {node : RingNode} {k : ℕ}
    (some_come : (net.stream i).take k ≠ []) :
    ((net.setStream i ((net.stream i).drop k)).goOn i node []).unread < net.unread := by
  have streams : ((net.setStream i ((net.stream i).drop k)).goOn i node []).stream =
      Function.update net.stream i ((net.stream i).drop k) := by
    rw [RingNet.goOn]
    dsimp only
    rw [show relayed [] = [] from rfl, List.append_nil]
    exact Function.update_eq_self _ _
  have lengths : (fun j => (Function.update net.stream i ((net.stream i).drop k) j).length) =
      Function.update (fun j => (net.stream j).length) i ((net.stream i).drop k).length := by
    funext j
    by_cases here : j = i
    · rw [here, Function.update_self, Function.update_self]
    · rw [Function.update_of_ne here, Function.update_of_ne here]
  have taken := List.length_pos_of_ne_nil some_come
  have rest := Finset.sum_erase_add Finset.univ (fun j => (net.stream j).length) (Finset.mem_univ i)
  rw [List.length_take] at taken
  rw [RingNet.unread, streams, lengths, Finset.sum_update_of_mem (Finset.mem_univ i),
    ← Finset.erase_eq, RingNet.unread, ← rest, List.length_drop]
  omega

/-- The node at `i`, its log, and what it needs to hand on requests of others. -/
theorem Tracks.known (tracks : Tracks start net q) (fresh : start.Fresh owner) {node : RingNode}
    (here : net.node i = node) :
    node.Serves (start.node i).range ((q.kept i).map Entered.request) ∧
      node.isRust = (start.node i).isRust ∧
      ∀ request : ClientRequest, request.within (start.node i).range = false →
        node.links = (true, true) := by
  subst here
  exact ⟨tracks.node i, tracks.kind i, fun _ other => tracks.linked_of_other fresh other⟩

theorem Tracks.stream_requests (tracks : Tracks start net q) (i : Fin n) :
    (net.node i).leftOver ++ net.stream i =
      ((q.link i).map Entered.request).flatMap ClientRequest.bytes := by
  rw [tracks.stream, List.flatMap_map]

def Admitted (q : Queues (Fin n) (Entered n)) : Prop :=
  ∀ i e, e ∈ q.inbox i ∨ e ∈ q.link i ∨ e ∈ q.kept i → e.request.Admissible

theorem Tracks.client (tracks : Tracks start net q) (sender : Addr) (request : ClientRequest) :
    Tracks start (net.setDatagrams i (net.datagrams i ++ [⟨sender, request.bytes⟩]))
      { q with inbox := Function.update q.inbox i (q.inbox i ++ [⟨i, request⟩]) } where
  node := tracks.node
  kind := tracks.kind
  linked := tracks.linked
  datagrams j := by
    change (Function.update net.datagrams i _ j).map _ = (Function.update q.inbox i _ j).map _
    by_cases here : j = i
    · rw [here, Function.update_self, Function.update_self, List.map_append, List.map_append,
        tracks.datagrams]
      rfl
    · rw [Function.update_of_ne here, Function.update_of_ne here, tracks.datagrams]
  stream := tracks.stream
  replies := tracks.replies

variable [NeZero n]

theorem RingNet.Fresh.filter_owner (fresh : start.Fresh owner) (i : Fin n)
    (items : List (Entered n)) :
    (items.filter fun e => (ringRouting owner).owner e = i).map Entered.request =
        (items.map Entered.request).filter (ClientRequest.within (start.node i).range) ∧
      (items.filter fun e => (ringRouting owner).owner e ≠ i).map Entered.request =
        (items.map Entered.request).filter fun request => !request.within (start.node i).range := by
  have mine : ∀ e : Entered n, decide ((ringRouting owner).owner e = i) =
      e.request.within (start.node i).range := by
    intro e
    rw [Bool.eq_iff_iff, decide_eq_true_iff]
    exact fresh.owner_iff i e.request
  refine ⟨?_, ?_⟩
  · rw [List.filter_map]
    exact congrArg _ (List.filter_congr fun e _ => mine e)
  · rw [List.filter_map]
    refine congrArg _ (List.filter_congr fun e _ => ?_)
    rw [decide_not, mine]
    rfl

theorem Tracks.goOn (tracks : Tracks start net q) (fresh : start.Fresh owner) {net₁ : RingNet n}
    {node : RingNode} {items : List (Entered n)} {outputs : List Output}
    {base : Fin n → List (Entered n)}
    (same_nodes : net₁.node = net.node) (same_replies : net₁.replies = net.replies)
    (sent : outputs = outputsOf (start.node i).isRust (start.node i).range
      (updates ((q.kept i).map Entered.request)) (items.map Entered.request))
    (serves : node.Serves (start.node i).range ((q.kept i).map Entered.request ++
      (items.map Entered.request).filter (ClientRequest.within (start.node i).range)))
    (kind : node.isRust = (net.node i).isRust)
    (linked : node.links = (net.node i).links)
    (datagrams : ∀ j, (net₁.datagrams j).map Datagram.bytes =
      (q'.inbox j).map fun entered => entered.request.bytes)
    (stream : ∀ j, (if j = i then node.leftOver else (net.node j).leftOver) ++ net₁.stream j =
      (base j).flatMap fun entered => entered.request.bytes)
    (link : ∀ j, q'.link j = base j ++ if j = (ringRouting owner).next i then
      items.filter fun e => (ringRouting owner).owner e ≠ i else [])
    (kept : ∀ j, q'.kept j = q.kept j ++ if j = i then
      items.filter fun e => (ringRouting owner).owner e = i else []) :
    Tracks start (net₁.goOn i node outputs) q' := by
  subst sent
  obtain ⟨mine, others⟩ := fresh.filter_owner i items
  have node_eq : ∀ j, (net₁.goOn i node (outputsOf (start.node i).isRust (start.node i).range
      (updates ((q.kept i).map Entered.request)) (items.map Entered.request))).node j =
        if j = i then node else net.node j := by
    intro j
    rw [← same_nodes]
    exact Function.update_apply ..
  constructor
  · intro j
    rw [node_eq, kept, List.map_append]
    split
    · rename_i here
      rw [here, mine]
      exact serves
    · rw [List.map_nil, List.append_nil]
      exact tracks.node j
  · intro j
    rw [node_eq]
    split
    · rename_i here
      rw [kind, here, tracks.kind]
    · exact tracks.kind j
  · intro j k apart
    rw [node_eq]
    split
    · rename_i here
      rw [linked, ← here]
      exact tracks.linked j k apart
    · exact tracks.linked j k apart
  · exact datagrams
  · intro j
    have next : (ringRouting owner).next i = i + 1 := rfl
    rw [node_eq, apply_ite RingNode.leftOver, link, next, List.flatMap_append, ← stream j]
    change _ ++ Function.update net₁.stream (i + 1) _ j = _
    rw [relayed_outputsOf, ← others, Function.update_apply, List.flatMap_map]
    by_cases here : j = i + 1
    · rw [if_pos here, if_pos here, ← List.append_assoc, here]
    · rw [if_neg here, if_neg here, List.flatMap_nil, List.append_nil]
  · intro j
    change Function.update net₁.replies i _ j = _
    rw [kept, List.map_append, Function.update_apply, same_replies, replied_outputsOf]
    split
    · rename_i here
      rw [here, tracks.replies, mine, answers_append, List.nil_append]
    · rw [tracks.replies, List.map_nil, List.append_nil]

theorem Tracks.fromInbox (tracks : Tracks start net q) (fresh : start.Fresh owner)
    {node : RingNode} {items rest : List (Entered n)} {outputs : List Output}
    {datagrams : List Datagram} (inbox : q.inbox i = items ++ rest)
    (sent : outputs = outputsOf (start.node i).isRust (start.node i).range
      (updates ((q.kept i).map Entered.request)) (items.map Entered.request))
    (left : datagrams.map Datagram.bytes = rest.map fun entered => entered.request.bytes)
    (serves : node.Serves (start.node i).range ((q.kept i).map Entered.request ++
      (items.map Entered.request).filter (ClientRequest.within (start.node i).range)))
    (kind : node.isRust = (net.node i).isRust)
    (linked : node.links = (net.node i).links)
    (leftOver : node.leftOver = (net.node i).leftOver) :
    ∃ q', Run (Queues.step (ringRouting owner)) (fun _ _ => True) q
        (List.replicate items.length (.fromInbox i)) q' ∧
      Tracks start ((net.setDatagrams i datagrams).goOn i node outputs) q' := by
  obtain ⟨q', run, inbox', link, kept⟩ := run_fromInbox (r := ringRouting owner) i rest items inbox
  refine ⟨q', run, tracks.goOn fresh rfl rfl sent serves kind linked (fun j => ?_) (fun j => ?_)
    link kept⟩
  · rw [inbox']
    change (Function.update net.datagrams i datagrams j).map _ = _
    by_cases here : j = i
    · rw [here, Function.update_self, if_pos rfl, left]
    · rw [Function.update_of_ne here, if_neg here, tracks.datagrams]
  · rw [← tracks.stream]
    split
    · rename_i here
      rw [leftOver, here]
      rfl
    · rfl

theorem Tracks.fromLink (tracks : Tracks start net q) (fresh : start.Fresh owner)
    {node : RingNode} {items rest : List (Entered n)} {outputs : List Output}
    {stream : List UInt8} (link : q.link i = items ++ rest)
    (sent : outputs = outputsOf (start.node i).isRust (start.node i).range
      (updates ((q.kept i).map Entered.request)) (items.map Entered.request))
    (left : node.leftOver ++ stream = rest.flatMap fun entered => entered.request.bytes)
    (serves : node.Serves (start.node i).range ((q.kept i).map Entered.request ++
      (items.map Entered.request).filter (ClientRequest.within (start.node i).range)))
    (kind : node.isRust = (net.node i).isRust)
    (linked : node.links = (net.node i).links) :
    ∃ q', Run (Queues.step (ringRouting owner)) (fun _ _ => True) q
        (List.replicate items.length (.fromLink i)) q' ∧
      Tracks start ((net.setStream i stream).goOn i node outputs) q' := by
  obtain ⟨q', run, inbox, link', kept⟩ := run_fromLink (r := ringRouting owner) i items link
  refine ⟨q', run, tracks.goOn fresh rfl rfl sent serves kind linked (fun j => ?_) (fun j => ?_)
    link' kept⟩
  · rw [inbox]
    exact tracks.datagrams j
  · change _ ++ Function.update net.stream i stream j = _
    by_cases here : j = i
    · rw [here, if_pos rfl, if_pos rfl, Function.update_self, left]
    · rw [if_neg here, if_neg here, Function.update_of_ne here, tracks.stream]

theorem Tracks.recvUdp {recv : Recv} (tracks : Tracks start net q) (fresh : start.Fresh owner)
    (admitted : Admitted q) (stepped : net.step (.recvUdp i recv) = some net') :
    ∃ q', Run (Queues.step (ringRouting owner)) (fun _ _ => True) q
        (List.replicate 1 (.fromInbox i)) q' ∧ Tracks start net' q' := by
  obtain ⟨sign, selfData, datagram, rest, next, outputs, here, arrived, chunk, received, rfl⟩ :=
    RingNet.step_recvUdp stepped
  obtain ⟨holds, kind, linked⟩ := tracks.known fresh here
  have waiting := tracks.datagrams i
  rw [arrived] at waiting
  obtain ⟨e, es, inbox, bytes, left⟩ := List.map_eq_cons_iff.mp waiting.symm
  have inbox : q.inbox i = [e] ++ es := inbox
  have whole : recv.chunk = [e.request].flatMap ClientRequest.bytes := by
    rw [chunk, ← bytes, List.flatMap_singleton, List.take_of_length_le]
    exact e.request.length_bytes.trans (by decide)
  have admissible : ∀ request ∈ [e.request], request.Admissible := by
    intro request mem
    rw [List.mem_singleton.mp mem]
    exact admitted i e (Or.inl (by rw [inbox]; exact List.mem_cons_self))
  obtain ⟨next_holds, sockets, sent⟩ := HoldsLast.recvC holds whole admissible
    (fun request _ other => congrArg Prod.fst (linked request other)) received
  apply tracks.fromInbox fresh inbox
  · rw [← kind]
    exact sent
  · exact left.symm
  · exact next_holds
  · rw [here]
    rfl
  · rw [here, RingNode.links, RingNode.links, sockets.1, sockets.2]
  · rw [here]
    rfl

/-- A node in C receives bytes from its predecessor that end between two requests. -/
theorem Tracks.recvTcp {recv : Recv} (tracks : Tracks start net q) (fresh : start.Fresh owner)
    (admitted : Admitted q) (allowed : net.Allowed (.recvTcp i recv))
    (stepped : net.step (.recvTcp i recv) = some net') :
    ∃ k q', 0 < k ∧ Run (Queues.step (ringRouting owner)) (fun _ _ => True) q
        (List.replicate k (.fromLink i)) q' ∧ Tracks start net' q' := by
  obtain ⟨sign, selfData, rest, next, outputs, here, nonempty, arrived, received, rfl⟩ :=
    RingNet.step_recvTcp stepped
  obtain ⟨requests, whole⟩ := allowed
  obtain ⟨holds, kind, linked⟩ := tracks.known fresh here
  have waiting := tracks.stream_requests i
  rw [here, arrived, whole] at waiting
  obtain ⟨later, front, left⟩ := requests_of_prefix waiting
  obtain ⟨items, es, link, rfl, rfl⟩ := List.map_eq_append_iff.mp front
  have admissible : ∀ request ∈ items.map Entered.request, request.Admissible := by
    intro request mem
    obtain ⟨e, of_items, rfl⟩ := List.mem_map.mp mem
    exact admitted i e (Or.inr (Or.inl (by rw [link]; exact List.mem_append_left _ of_items)))
  obtain ⟨next_holds, sockets, sent⟩ := HoldsLast.recvC holds whole admissible
    (fun request _ other => congrArg Prod.fst (linked request other)) received
  have some_come : 0 < items.length := by
    apply List.length_pos_of_ne_nil
    rintro rfl
    exact nonempty whole
  have serves : (RingNode.c sign next).Serves (start.node i).range ((q.kept i).map Entered.request ++
      (items.map Entered.request).filter (ClientRequest.within (start.node i).range)) := next_holds
  rw [show false = (start.node i).isRust from kind] at sent
  rw [List.flatMap_map] at left
  have left : (RingNode.c sign next).leftOver ++ rest =
    es.flatMap fun entered => entered.request.bytes := left
  obtain ⟨q', run, tracks'⟩ := tracks.fromLink fresh link sent left serves (by rw [here]; rfl)
    (by rw [here, RingNode.links, RingNode.links, sockets.1, sockets.2])
  exact ⟨items.length, q', some_come, run, tracks'⟩

theorem Tracks.eventUdp {k : ℕ} (tracks : Tracks start net q) (fresh : start.Fresh owner)
    (admitted : Admitted q) (stepped : net.step (.eventUdp i k) = some net') :
    ∃ q', 0 < k ∧ Run (Queues.step (ringRouting owner)) (fun _ _ => True) q
        (List.replicate k (.fromInbox i)) q' ∧ Tracks start net' q' := by
  obtain ⟨node, next, outputs, here, pos, le, ran, rfl⟩ := RingNet.step_eventUdp stepped
  obtain ⟨⟨holds, ready⟩, kind, linked⟩ := tracks.known fresh here
  have waiting := tracks.datagrams i
  rw [← List.take_append_drop k (net.datagrams i), List.map_append] at waiting
  obtain ⟨items, es, inbox, taken, left⟩ := List.map_eq_append_iff.mp waiting.symm
  rw [ready.datagrams, List.nil_append] at ran
  have carry : ((net.datagrams i).take k).map Datagram.bytes =
      (items.map Entered.request).map ClientRequest.bytes := by
    rw [← taken, List.map_map]
    rfl
  have admissible : ∀ request ∈ (q.kept i).map Entered.request ++ items.map Entered.request,
      request.Admissible := by
    intro request mem
    rw [← List.map_append] at mem
    obtain ⟨e, of_items, rfl⟩ := List.mem_map.mp mem
    rcases List.mem_append.mp of_items with old | new
    · exact admitted i e (Or.inr (Or.inr old))
    · exact admitted i e (Or.inl (by rw [inbox]; exact List.mem_append_left _ new))
  obtain ⟨last, ran', last_holds, last_ready, successor, predecessor, wrapper⟩ :=
    holds.eventUdp ready carry admissible fun request _ other =>
      congrArg Prod.fst (linked request other)
  rw [show true = (start.node i).isRust from kind] at ran'
  cases ran.symm.trans ran'
  have serves : (RingNode.rust next).Serves (start.node i).range ((q.kept i).map Entered.request ++
      (items.map Entered.request).filter (ClientRequest.within (start.node i).range)) :=
    ⟨last_holds, last_ready⟩
  have count : items.length = k := by
    have lengths := congrArg List.length taken
    rw [List.length_map, List.length_map, List.length_take] at lengths
    omega
  obtain ⟨q', run, tracks'⟩ := tracks.fromInbox fresh inbox rfl left.symm serves
    (by rw [here]; rfl) (by rw [here, RingNode.links, RingNode.links, successor, predecessor])
    (by rw [here]; exact congrArg TcpWrapper.buffer wrapper)
  rw [count] at run
  exact ⟨q', pos, run, tracks'⟩

theorem Tracks.eventTcp {k : ℕ} (tracks : Tracks start net q) (fresh : start.Fresh owner)
    (admitted : Admitted q) (allowed : net.Allowed (.eventTcp i k))
    (stepped : net.step (.eventTcp i k) = some net') :
    ∃ turns q', (0 < turns ∨ net'.unread < net.unread) ∧
      Run (Queues.step (ringRouting owner)) (fun _ _ => True) q
        (List.replicate turns (.fromLink i)) q' ∧ Tracks start net' q' := by
  obtain ⟨node, stream, chunk, next, outputs, here, connected, bytes, ran, rfl⟩ :=
    RingNet.step_eventTcp stepped
  obtain ⟨⟨holds, ready⟩, kind, linked⟩ := tracks.known fresh here
  have waiting := tracks.stream_requests i
  rw [here, ← List.take_append_drop k (net.stream i), ← bytes] at waiting
  have room : node.predecessorWrapper.buffer.length + chunk.val.length < bufferSize := by
    have fits : (net.node i).leftOver.length + ((net.stream i).take k).length < bufferSize := allowed
    rw [here, ← bytes] at fits
    exact fits
  have admissible : ∀ request ∈ (q.kept i).map Entered.request ++ (q.link i).map Entered.request,
      request.Admissible := by
    intro request mem
    rw [← List.map_append] at mem
    obtain ⟨e, waits, rfl⟩ := List.mem_map.mp mem
    rcases List.mem_append.mp waits with old | new
    · exact admitted i e (Or.inr (Or.inr old))
    · exact admitted i e (Or.inr (Or.inl new))
  obtain ⟨requests, later, front, sent, last_holds, last_ready, successor, predecessor, left⟩ :=
    holds.eventTcp ready connected room waiting admissible
      (fun request _ other => congrArg Prod.fst (linked request other)) ran
  obtain ⟨items, es, link, rfl, rfl⟩ := List.map_eq_append_iff.mp front
  have serves : (RingNode.rust next).Serves (start.node i).range ((q.kept i).map Entered.request ++
      (items.map Entered.request).filter (ClientRequest.within (start.node i).range)) :=
    ⟨last_holds, last_ready⟩
  have progress : 0 < items.length ∨
      ((net.setStream i ((net.stream i).drop k)).goOn i (.rust next) outputs).unread <
        net.unread := by
    cases items with
    | nil =>
        right
        subst sent
        apply RingNet.unread_lt
        rw [← bytes]
        exact chunk.property
    | cons e items => exact Or.inl (Nat.succ_pos _)
  rw [show true = (start.node i).isRust from kind] at sent
  rw [List.flatMap_map] at left
  obtain ⟨q', run, tracks'⟩ := tracks.fromLink fresh link sent left serves (by rw [here]; rfl)
    (by rw [here, RingNode.links, RingNode.links, successor, predecessor, connected]; rfl)
  exact ⟨items.length, q', progress, run, tracks'⟩

/-- What a ring reads in one step, its queues pass on in some turns. -/
theorem Tracks.reads {act : RingAct n} (tracks : Tracks start net q) (fresh : start.Fresh owner)
    (admitted : Admitted q) (reads : act.Reads) (allowed : net.Allowed act)
    (stepped : net.step act = some net') :
    ∃ acts q', (0 < turns acts ∨ net'.unread < net.unread) ∧ entered acts = [] ∧
      Run (Queues.step (ringRouting owner)) (fun _ _ => True) q acts q' ∧
      Tracks start net' q' := by
  cases act with
  | client i sender request => cases reads
  | recvUdp i recv =>
      obtain ⟨q', run, tracks'⟩ := tracks.recvUdp fresh admitted stepped
      exact ⟨_, q', Or.inl (by rw [turns_replicate rfl]; exact Nat.one_pos),
        entered_replicate rfl _, run, tracks'⟩
  | recvTcp i recv =>
      obtain ⟨k, q', pos, run, tracks'⟩ := tracks.recvTcp fresh admitted allowed stepped
      exact ⟨_, q', Or.inl (by rw [turns_replicate rfl]; exact pos), entered_replicate rfl _, run,
        tracks'⟩
  | eventUdp i k =>
      obtain ⟨q', pos, run, tracks'⟩ := tracks.eventUdp fresh admitted stepped
      exact ⟨_, q', Or.inl (by rw [turns_replicate rfl]; exact pos), entered_replicate rfl _, run,
        tracks'⟩
  | eventTcp i k =>
      obtain ⟨count, q', progress, run, tracks'⟩ :=
        tracks.eventTcp fresh admitted allowed stepped
      exact ⟨_, q', by rw [turns_replicate rfl]; exact progress, entered_replicate rfl _, run,
        tracks'⟩

theorem Tracks.step {act : RingAct n} (tracks : Tracks start net q) (fresh : start.Fresh owner)
    (admitted : Admitted q) (allowed : net.Allowed act) (stepped : net.step act = some net') :
    ∃ acts q', Run (Queues.step (ringRouting owner)) (fun _ _ => True) q acts q' ∧
      entered acts = enteredBy [act] ∧ Tracks start net' q' := by
  have reads : act.Reads → enteredBy [act] = [] → ∃ acts q',
      Run (Queues.step (ringRouting owner)) (fun _ _ => True) q acts q' ∧
        entered acts = enteredBy [act] ∧ Tracks start net' q' := by
    intro reads none_enters
    obtain ⟨acts, q', -, none, run, tracks'⟩ := tracks.reads fresh admitted reads allowed stepped
    exact ⟨acts, q', run, none.trans none_enters.symm, tracks'⟩
  cases act with
  | client i sender request =>
      cases stepped
      refine ⟨[.enter ⟨i, request⟩], _, Run.snoc .nil trivial rfl, rfl, ?_⟩
      exact tracks.client sender request
  | recvUdp i recv => exact reads trivial rfl
  | recvTcp i recv => exact reads trivial rfl
  | eventUdp i k => exact reads trivial rfl
  | eventTcp i k => exact reads trivial rfl

/-! ## Runs -/

omit [NeZero n] in
theorem enteredBy_append (first later : List (RingAct n)) :
    enteredBy (first ++ later) = enteredBy first ++ enteredBy later :=
  List.filterMap_append

omit [NeZero n] in
theorem admissible_of_enteredBy {act : RingAct n} (allowed : net.Allowed act) :
    ∀ e ∈ enteredBy [act], e.request.Admissible := by
  intro e mem
  cases act with
  | client i sender request =>
      rw [List.mem_singleton.mp mem]
      exact allowed
  | recvUdp i recv => exact absurd mem List.not_mem_nil
  | recvTcp i recv => exact absurd mem List.not_mem_nil
  | eventUdp i k => exact absurd mem List.not_mem_nil
  | eventTcp i k => exact absurd mem List.not_mem_nil

theorem RingNet.Fresh.run {acts : List (RingAct n)} (fresh : start.Fresh owner)
    (run : Run RingNet.step RingNet.Allowed start acts net) :
    (∀ e ∈ enteredBy acts, e.request.Admissible) ∧
      ∃ turns q, Run (Queues.step (ringRouting owner)) (fun _ _ => True) .empty turns q ∧
        entered turns = enteredBy acts ∧ Tracks start net q := by
  refine run.induct (P := fun acts net => (∀ e ∈ enteredBy acts, e.request.Admissible) ∧
      ∃ turns q, Run (Queues.step (ringRouting owner)) (fun _ _ => True) .empty turns q ∧
        entered turns = enteredBy acts ∧ Tracks start net q) ?_ ?_
  · exact ⟨fun e mem => absurd mem List.not_mem_nil, [], .empty, .nil, rfl, fresh.tracks⟩
  · intro acts net act net' _ ih allowed stepped
    obtain ⟨admissible, turns, q, ran, same, tracks⟩ := ih
    have admitted : Admitted q := by
      intro i e waits
      apply admissible
      rw [← same]
      exact run_mem ran i e waits
    obtain ⟨more, q', ran', same', tracks'⟩ := tracks.step fresh admitted allowed stepped
    refine ⟨fun e mem => ?_, turns ++ more, q', ran.append ran', ?_, tracks'⟩
    · rw [enteredBy_append, List.mem_append] at mem
      rcases mem with old | new
      · exact admissible e old
      · exact admissible_of_enteredBy allowed e new
    · rw [entered_append, enteredBy_append, same, same']

theorem ringRouting_reaches (owner : UInt8 → Fin n) : (ringRouting owner).Reaches stepsTo := by
  have ahead : ∀ (k : ℕ) (i : Fin n), ((ringRouting owner).next^[k] i).val = (i.val + k) % n := by
    intro k i
    induction k with
    | zero => exact (Nat.mod_eq_of_lt i.isLt).symm
    | succ k ih =>
        rw [Function.iterate_succ_apply']
        change ((ringRouting owner).next^[k] i + 1).val = _
        rw [Fin.val_add, ih, Fin.val_one', ← Nat.add_mod, Nat.add_assoc]
  intro i o
  have steps : stepsTo i o = (n - i.val + o.val) % n := Fin.val_sub o i
  have small := i.isLt
  have pos : 0 < n := by omega
  refine ⟨?_, fun k less same => ?_⟩
  · apply Fin.ext
    rw [ahead, steps, Nat.add_mod_mod, show i.val + (n - i.val + o.val) = o.val + n by omega,
      Nat.add_mod_right, Nat.mod_eq_of_lt o.isLt]
  · -- the steps so far are the distance
    have here : (i.val + k) % n = o.val := (ahead k i).symm.trans (congrArg Fin.val same)
    have bound : stepsTo i o < n := (o - i).isLt
    have distance : stepsTo i o = k := by
      rw [steps, ← here, Nat.add_mod_mod, show n - i.val + (i.val + k) = k + n by omega,
        Nat.add_mod_right, Nat.mod_eq_of_lt (by omega)]
    omega

omit [NeZero n] in
theorem Tracks.quiet (tracks : Tracks start net q) (quiet : net.Quiet) : q.Quiet := by
  intro i
  obtain ⟨no_datagrams, no_bytes, nothing⟩ := quiet i
  have waiting := tracks.datagrams i
  have stream := tracks.stream i
  rw [no_datagrams] at waiting
  rw [no_bytes, nothing] at stream
  refine ⟨List.map_eq_nil_iff.mp waiting.symm, ?_⟩
  rw [List.eq_nil_iff_forall_not_mem]
  intro e mem
  exact e.request.bytes_ne_nil (List.flatMap_eq_nil_iff.mp stream.symm e mem)

/-- In every run of a ring of both kinds of node, each node has applied requests for its own
keys, each of them once, those from one node in the order in which they came in there, and
its answers are those of its kind.  When nothing waits, all have been applied. -/
theorem ring_applies_in_order {acts : List (RingAct n)} (fresh : start.Fresh owner)
    (run : Run RingNet.step RingNet.Allowed start acts net) :
    ∃ log, Histories start net owner acts log := by
  obtain ⟨-, turns, q, ran, same, tracks⟩ := fresh.run run
  refine ⟨q.kept, (run_onWay ran).kept, tracks.node, tracks.replies, fun s o => ?_,
    fun quiet s o => ?_⟩
  · rw [← same, ← run_line ran (ringRouting_reaches owner s o), Queues.line]
    exact List.prefix_append _ _
  · rw [← same]
    exact run_kept ran (ringRouting_reaches owner s o) (tracks.quiet quiet)

end

def pairConn : Conn := ⟨⟨1, 4000⟩, ⟨2, 5000⟩, 0⟩

def pairStream : TcpStream := ⟨0, ⟨1, 4000⟩, [], false⟩

def inC : Fin 2 := ⟨0, Nat.zero_lt_two⟩

def inRust : Fin 2 := ⟨1, Nat.one_lt_two⟩

def mixedPair : RingNet 2 where
  node i :=
    if i = inC then .c .unsigned { loneNode with
      rangeEnd := 127
      fdsSuccessor := some pairConn
      fdsPredecessor := some pairConn }
    else .rust { loneRustNode with
      hashRange := (128, 255)
      successor := some pairStream
      predecessor := some pairStream }
  datagrams _ := []
  stream _ := []
  replies _ := []

def pairOwner (x : UInt8) : Fin 2 := if x ≤ 127 then inC else inRust

def rustKey : Ssn := Vector.replicate 12 51

def storedPair : ValuePair := ⟨⟨[65], by simp⟩, noText⟩

/-- An insert comes in at the node in C and goes on to the Rust node, which then gets a
lookup of the key. -/
def pairRun : List (RingAct 2) :=
  [.client inC ⟨9, 9⟩ (.insert rustKey storedPair),
    .recvUdp inC (.over 0 (ClientRequest.insert rustKey storedPair).bytes),
    .eventTcp inRust 100,
    .client inRust ⟨9, 9⟩ (.lookup rustKey ⟨9, 9⟩),
    .eventUdp inRust 1]

theorem mixedPair_fresh : mixedPair.Fresh pairOwner where
  owns := by
    rw [Fin.forall_fin_two]
    refine ⟨fun x => ?_, fun x => ?_⟩
    · change (0 ≤ x ∧ x ≤ 127) ↔ pairOwner x = inC
      have bound := x.toNat_lt
      simp [pairOwner, inC, inRust]
    · change (128 ≤ x ∧ x ≤ 255) ↔ pairOwner x = inRust
      have bound := x.toNat_lt
      simp [pairOwner, inC, inRust, UInt8.le_iff_toNat_le]
      omega
  starts := by
    rw [Fin.forall_fin_two]
    refine ⟨rfl, rfl, ⟨rfl, rfl, rfl, rfl, ?_⟩, rfl⟩
    intro stream connected
    cases connected
    rfl
  linked := by
    rw [Fin.forall_fin_two]
    exact ⟨fun _ _ => rfl, fun _ _ => rfl⟩
  datagrams _ := rfl
  stream _ := rfl
  replies _ := rfl

def pairCheck (net : RingNet 2) : RingAct 2 → Bool
  | .client _ _ (.insert ssn pair) =>
      decide (Nonzero ssn) && pair.name.val.all (· < 128) && pair.email.val.all (· < 128)
  | .client _ _ (.remove ssn) => decide (Nonzero ssn)
  | .client _ _ (.lookup _ _) => true
  | .recvTcp _ _ => false
  | .eventTcp i k =>
      decide ((net.node i).leftOver.length + ((net.stream i).take k).length < bufferSize)
  | _ => true

theorem pairRun_runs : (execChecked RingNet.step pairCheck mixedPair pairRun).isSome = true := by
  decide +kernel

theorem pairCheck_sound (net : RingNet 2) (act : RingAct 2) (passed : pairCheck net act = true) :
    net.Allowed act := by
  cases act with
  | client i sender request =>
      cases request with
      | insert ssn pair =>
          simp only [pairCheck, Bool.and_eq_true, decide_eq_true_eq, List.all_eq_true] at passed
          exact ⟨passed.1.1, passed.1.2, passed.2⟩
      | remove ssn =>
          rw [pairCheck, decide_eq_true_eq] at passed
          exact passed
      | lookup ssn sender => trivial
  | recvUdp i recv => trivial
  | recvTcp i recv => cases passed
  | eventUdp i k => trivial
  | eventTcp i k =>
      rw [pairCheck, decide_eq_true_eq] at passed
      exact passed

theorem ring_applies_in_order_mixedPair :
    ∃ net log, Histories mixedPair net pairOwner pairRun log := by
  obtain ⟨net, executed⟩ := Option.isSome_iff_exists.mp pairRun_runs
  exact ⟨net, ring_applies_in_order mixedPair_fresh (run_of_execChecked pairCheck_sound executed)⟩

example : (execChecked RingNet.step pairCheck mixedPair pairRun).map (fun net => net.replies inRust) =
    some [(sockaddr ⟨9, 9⟩, (Pdu.valLookupResponse rustKey storedPair).bytes)] := by
  decide +kernel

end DhtRing.TestNode

import DhtRing.Lib.Ends
import DhtRing.TestNode.Node

/-!
# What the state functions change

For each state function that `run` calls between two rounds: which fields it keeps, in which
state it leaves the node, and when it leaves the node without a successor.  None of them
misses the successor, except `q14` on a node that has none.
-/

set_option autoImplicit false

namespace DhtRing.TestNode

/-- The panic of a node that has to forward without a successor. -/
def missingSuccessor : String := "Successor is not set, impossible!"

def Other (e : String) : Prop := e ≠ missingSuccessor

instance (e : String) : Decidable (Other e) := inferInstanceAs (Decidable (¬ _))

theorem unwrap_ends {α : Type} (x : Option α) : Ends Other (fun y => x = some y) (unwrap x) := by
  cases x with
  | none => exact .error (by decide)
  | some y => exact .ok rfl

theorem checkedSub_ends (a b : UInt8) : Ends Other (fun _ => True) (checkedSub a b) := by
  unfold checkedSub
  split
  · exact .ok trivial
  · exact .error (by decide)

theorem checkedAdd_ends (a b : UInt8) : Ends Other (fun _ => True) (checkedAdd a b) := by
  unfold checkedAdd
  split
  · exact .ok trivial
  · exact .error (by decide)

namespace Node

variable {env : Env} {node next : Node}

/-! ## Utilities -/

/-- The fields that only `q6` and the signal handler change. -/
def Timeless (node next : Node) : Prop :=
  next.lastAlive = node.lastAlive ∧ next.shouldClose = node.shouldClose

structure Kept (node next : Node) : Prop where
  timeless : Timeless node next
  successor : next.successor = node.successor
  predecessor : next.predecessor = node.predecessor

theorem Timeless.trans {last : Node} (first : Timeless node next) (second : Timeless next last) :
    Timeless node last :=
  ⟨second.1.trans first.1, second.2.trans first.2⟩

structure Still (node next : Node) : Prop extends Kept node next where
  state : next.state = node.state

theorem splitRange_ends (node : Node) :
    Ends Other (fun x => Still node x.2) node.splitRange :=
  (checkedSub_ends ..).bind fun _ _ => (checkedAdd_ends ..).bind fun _ _ =>
    (checkedAdd_ends ..).bind fun _ _ => .ok ⟨⟨⟨rfl, rfl⟩, rfl, rfl⟩, rfl⟩

theorem transfer_ends (node : Node) (toSuccessor : Bool) (rangeStart rangeEnd : UInt8) :
    Ends Other (Still node) (node.transfer toSuccessor rangeStart rangeEnd) :=
  (unwrap_ends _).bind fun _ _ => .ok ⟨⟨⟨rfl, rfl⟩, rfl, rfl⟩, rfl⟩

theorem connectToSuccessor_ends (env : Env) (node : Node) (addr : Addr) :
    Ends Other (fun x => Still node x.2) (node.connectToSuccessor env addr) := by
  unfold connectToSuccessor
  cases env.connect node.opened addr with
  | none => exact .error (by decide)
  | some socket => exact .ok ⟨⟨⟨rfl, rfl⟩, rfl, rfl⟩, rfl⟩

theorem acceptPredecessor_ends (env : Env) (node : Node) :
    Ends Other (fun next => Timeless node next ∧ next.hashRange = node.hashRange ∧
      next.successor = node.successor ∧ next.predecessor.isSome)
      (node.acceptPredecessor env) := by
  unfold acceptPredecessor
  cases env.accept node.opened with
  | none => exact .error (by decide)
  | some socket => exact .ok ⟨⟨rfl, rfl⟩, rfl, rfl, rfl⟩

theorem forward_of_some {socket : TcpStream} (set : node.successor = some socket) (pdu : PDU) :
    node.forward pdu = .ok (node.emit [.tcp socket.fd pdu]) := by
  rw [forward, set]

theorem forward_of_none (unset : node.successor = none) (pdu : PDU) :
    node.forward pdu = .error missingSuccessor := by
  rw [forward, unset, missingSuccessor]

theorem forward_ends (node : Node) (set : node.successor.isSome) (pdu : PDU) :
    Ends Other (fun next => Kept node next ∧ next.hashRange = node.hashRange)
      (node.forward pdu) := by
  obtain ⟨socket, set⟩ := Option.isSome_iff_exists.mp set
  rw [forward_of_some set]
  exact .ok ⟨⟨⟨rfl, rfl⟩, rfl, rfl⟩, rfl⟩

theorem takeNetJoin_ends (node : Node) {message : String} (other : Other message) :
    Ends Other (fun _ => True) (node.takeNetJoin message) := by
  unfold takeNetJoin
  split
  · exact .ok trivial
  · exact .error other

/-! ## State functions -/

theorem q2Received_ends (node : Node) (pdu : PDU) : Ends Other
    (fun next => next.state = .q3 ∧ next.successor = node.successor ∧
      next.predecessor = node.predecessor) (node.q2Received pdu) := by
  unfold q2Received
  split
  · exact .ok ⟨rfl, rfl, rfl⟩
  · exact .error (by decide)

theorem q3Received_ends (node : Node) (pdu : PDU) : Ends Other
    (fun next => (next.state = .q4 ∨ next.state = .q7) ∧ next.successor = node.successor ∧
      next.predecessor = node.predecessor) (node.q3Received pdu) := by
  unfold q3Received
  split
  · split
    · exact .ok ⟨Or.inl rfl, rfl, rfl⟩
    · exact .ok ⟨Or.inr rfl, rfl, rfl⟩
  · exact .error (by decide)

theorem q5Connect_ends (env : Env) (node : Node) : Ends Other
    (fun next => Timeless node next ∧ next.state = node.state ∧ next.successor.isSome)
    (node.q5Connect env) := by
  refine (takeNetJoin_ends _ (by decide)).bind fun pdu _ => ?_
  refine (connectToSuccessor_ends ..).bind ?_
  rintro ⟨socket, connected⟩ kept
  refine (splitRange_ends _).bind ?_
  rintro ⟨other, split⟩ kept_split
  refine (unwrap_ends _).bind fun own _ => ?_
  refine (transfer_ends ..).mono (fun _ other => other) fun next kept_next => ?_
  refine ⟨?_, ?_, ?_⟩
  · exact (kept.timeless.trans kept_split.timeless).trans kept_next.timeless
  · exact kept_next.state.trans (kept_split.state.trans kept.state)
  · rw [kept_next.successor]
    rfl

theorem q5_ends (env : Env) (node : Node) : Ends Other
    (fun next => Timeless node next ∧ next.state = .q6 ∧ next.successor.isSome)
    (node.q5 env) := by
  refine (q5Connect_ends env node).bind ?_
  rintro next ⟨timeless, -, set⟩
  refine (acceptPredecessor_ends env next).bind fun accepted later => .ok ?_
  refine ⟨timeless.trans later.1, rfl, ?_⟩
  rw [later.2.2.1, set]

theorem q7Join_ends (node : Node) :
    Ends Other (fun next => next.state = node.state) node.q7Join := by
  unfold q7Join
  split
  · exact (unwrap_ends _).bind fun own _ => .ok rfl
  · exact .error (by decide)

theorem q8Received_ends (env : Env) (node : Node) (pdu : PDU) : Ends Other
    (fun next => next.state = .q6 ∧ next.successor.isSome) (node.q8Received env pdu) := by
  unfold q8Received
  split
  · exact (connectToSuccessor_ends ..).bind fun connected _ => .ok ⟨rfl, rfl⟩
  · exact .error (by decide)

theorem q11Ask_ends (node : Node) :
    Ends Other (fun x => x.2.state = node.state) node.q11Ask := by
  unfold q11Ask
  split
  · dsimp only
    split
    · exact .ok rfl
    · exact .ok rfl
  · exact .error (by decide)
  · exact .error (by decide)

theorem q11Received_ends (node : Node) (pdu : PDU) :
    Ends Other (fun next => next.state = .q18) (node.q11Received pdu) := by
  unfold q11Received
  split
  · exact .ok rfl
  · exact .error (by decide)

theorem q12_ends (node : Node) : Ends Other
    (fun next => Kept node next ∧ next.hashRange = node.hashRange ∧
      (next.state = .q5 ∨ (next.state = .q13 ∨ next.state = .q14) ∧ node.successor.isSome))
    node.q12 := by
  unfold q12
  split
  · exact .ok ⟨⟨⟨rfl, rfl⟩, rfl, rfl⟩, rfl, Or.inl rfl⟩
  · rename_i set
    have set : node.successor.isSome := Option.isSome_iff_ne_none.mpr (by simpa using set)
    refine (takeNetJoin_ends _ (by decide)).bind fun pdu _ => ?_
    split
    · exact .ok ⟨⟨⟨rfl, rfl⟩, rfl, rfl⟩, rfl, Or.inr ⟨Or.inl rfl, set⟩⟩
    · exact .ok ⟨⟨⟨rfl, rfl⟩, rfl, rfl⟩, rfl, Or.inr ⟨Or.inr rfl, set⟩⟩

theorem q13_ends (env : Env) (node : Node) : Ends Other
    (fun next => Timeless node next ∧ next.state = .q6 ∧ next.successor.isSome)
    (node.q13 env) := by
  refine (unwrap_ends _).bind fun old _ => ?_
  refine (takeNetJoin_ends _ (by decide)).bind fun pdu _ => ?_
  refine (connectToSuccessor_ends ..).bind ?_
  rintro ⟨socket, connected⟩ kept
  refine (splitRange_ends _).bind ?_
  rintro ⟨other, split⟩ kept_split
  refine (transfer_ends ..).bind fun next kept_next => .ok ?_
  refine ⟨?_, rfl, ?_⟩
  · exact (kept.timeless.trans kept_split.timeless).trans kept_next.timeless
  · change next.successor.isSome = true
    rw [kept_next.successor]
    change split.successor.isSome = true
    rw [kept_split.successor]
    rfl

/-- `q14` is the one state function that can miss the successor. -/
theorem q14_ends (node : Node) (set : node.successor.isSome) : Ends Other
    (fun next => Kept node next ∧ next.hashRange = node.hashRange ∧ next.state = .q6)
    node.q14 := by
  refine (takeNetJoin_ends _ (by decide)).bind fun pdu _ => ?_
  refine (checkedSub_ends ..).bind fun span _ => ?_
  have ready : { node with lastPdu := none }.successor.isSome := set
  dsimp only
  refine (forward_ends { node with lastPdu := none } ready _).bind ?_
  rintro next ⟨kept, range⟩
  exact .ok ⟨⟨kept.timeless, kept.successor, kept.predecessor⟩, range, rfl⟩

theorem q15_ends (node : Node) : Ends Other
    (fun next => Kept node next ∧ next.state = .q6 ∧
      (node.successor.isSome ∨ node.predecessor.isSome))
    node.q15 := by
  unfold q15
  split
  · dsimp only
    split
    · refine (unwrap_ends _).bind fun socket set => .ok ?_
      refine ⟨⟨⟨rfl, rfl⟩, rfl, rfl⟩, rfl, Or.inl ?_⟩
      exact Option.isSome_iff_exists.mpr ⟨socket, set⟩
    · refine (unwrap_ends _).bind fun socket set => .ok ?_
      refine ⟨⟨⟨rfl, rfl⟩, rfl, rfl⟩, rfl, Or.inr ?_⟩
      exact Option.isSome_iff_exists.mpr ⟨socket, set⟩
  · exact .error (by decide)

def leftAlone (node : Node) (pdu : NetLeavingPdu) : Prop :=
  node.ownAddress = some pdu.newAddress ∧ node.listenAddr.port = pdu.newPort

instance (node : Node) (pdu : NetLeavingPdu) : Decidable (node.leftAlone pdu) :=
  inferInstanceAs (Decidable (_ ∧ _))

theorem q16_ends (env : Env) (node : Node) : Ends Other
    (fun next => Timeless node next ∧ next.state = .q6 ∧
      (next.successor.isSome ∨ next.hashRange = node.hashRange ∧ next.predecessor = none ∧
        ∃ pdu, node.lastPdu = some (.netLeaving pdu) ∧ node.leftAlone pdu))
    (node.q16 env) := by
  unfold q16
  split
  · rename_i pdu parked
    refine (unwrap_ends _).bind fun own eq => ?_
    split
    · rename_i mine
      refine .ok ⟨⟨rfl, rfl⟩, rfl, Or.inr ⟨rfl, rfl, pdu, parked, ?_, mine.2.symm⟩⟩
      rw [mine.1]
      exact eq
    · refine (connectToSuccessor_ends ..).bind ?_
      rintro ⟨socket, connected⟩ kept
      exact .ok ⟨kept.timeless, rfl, Or.inl rfl⟩
  · exact .error (by decide)

theorem q17Disconnect_keeps (node : Node) :
    Timeless node node.q17Disconnect ∧ node.q17Disconnect.state = node.state ∧
      node.q17Disconnect.successor = node.successor ∧
      node.q17Disconnect.hashRange = node.hashRange ∧ node.q17Disconnect.predecessor = none := by
  unfold q17Disconnect
  split
  · exact ⟨⟨rfl, rfl⟩, rfl, rfl, rfl, rfl⟩
  · rename_i unset
    exact ⟨⟨rfl, rfl⟩, rfl, rfl, rfl, unset⟩

theorem q17_ends (env : Env) (node : Node) : Ends Other
    (fun next => Timeless node next ∧ next.state = .q6) (node.q17 env) := by
  obtain ⟨timeless, -⟩ := q17Disconnect_keeps node
  unfold q17
  dsimp only
  split
  · exact .ok ⟨timeless, rfl⟩
  · refine (acceptPredecessor_ends env _).bind fun next accepted => .ok ?_
    exact ⟨timeless.trans accepted.1, rfl⟩

theorem q18_ends (node : Node) :
    Ends Other (fun next => next.state = node.state) node.q18 := by
  refine (transfer_ends ..).bind fun sent kept => ?_
  split
  · refine Ends.bind (.ok trivial : Ends Other (fun _ => True) _) fun successor _ => ?_
    dsimp only
    split
    · refine Ends.bind (.ok trivial : Ends Other (fun _ => True) _) fun toConnect _ => ?_
      split
      · exact .ok kept.state
      · exact .error (by decide)
    · exact .error (by decide)
  · exact .error (by decide)

end Node

end DhtRing.TestNode

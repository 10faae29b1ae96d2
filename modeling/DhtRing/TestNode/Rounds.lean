import DhtRing.TestNode.Receiving
import DhtRing.TestNode.StateFunctions

/-!
# Rounds of Q6

A round of `q6` at the level of the PDUs that its events deliver, and what `run` does until
it is in `Q6` again.  `handle_pdu` parks a PDU in `last_pdu` and schedules a state, so that
a PDU that comes behind it in the same round takes its place.
-/

set_option autoImplicit false

namespace DhtRing.TestNode

@[simp] theorem error_bind {α β : Type} (e : String) (f : α → Except String β) :
    (Except.error e >>= f) = .error e := rfl

/-! ## The PDUs that Q6 acts on -/

/-- `handle_pdu` has a branch of its own for this PDU. -/
def PDU.accepted : PDU → Bool
  | .netJoin _ | .netCloseConnection _ | .netNewRange _ | .netLeaving _
  | .valInsert _ | .valRemove _ | .valLookup _ => true
  | _ => false

def PDU.key : PDU → Option RString
  | .valInsert pdu => some pdu.ssn
  | .valRemove pdu => some pdu.ssn
  | .valLookup pdu => some pdu.ssn
  | _ => none

/-- The PDU waits for the state that `handle_pdu` schedules. -/
def parks : PDU × Source → Bool
  | (.netJoin _, _) | (.netNewRange _, _) | (.netLeaving _, _) => true
  | (.netCloseConnection _, .predecessor _) => true
  | _ => false

namespace Node

def parked (node : Node) : Bool :=
  node.state = .q12 || node.state = .q15 || node.state = .q16 || node.state = .q17

def fatal (node : Node) : PDU × Source → Bool
  | (.netCloseConnection _, .predecessor _) => false
  | (.netCloseConnection _, _) => true
  | (pdu, _) => pdu.key.any (fun ssn => !node.inMyRange ssn) && node.successor.isNone

/-- What becomes of a request for a key of this node. -/
def served (node : Node) : PDU → Node
  | .valInsert pdu => { node with values := node.values ++ [⟨pdu.ssn, pdu.name, pdu.email⟩] }
  | .valRemove pdu => { node with values := node.values.filter fun x => x.ssn ≠ pdu.ssn }
  | .valLookup pdu => node.emit [.udp (.valLookupResponse (node.lookupResponse pdu.ssn))
      ⟨pdu.senderAddress, pdu.senderPort⟩]
  | _ => node

def settled (node : Node) : Node := { node with lastPdu := none, state := .q6 }

/-! ## A round -/

variable (env : Env) (node : Node)

def handlePdus (pdus : List (PDU × Source)) : Except String Node :=
  pdus.foldlM (fun node x => node.handlePdu x.1 x.2) node

/-- `q6` when its events deliver some PDUs. -/
def round (pdus : List (PDU × Source)) (interrupt : Bool) : Except String Node := do
  let node ← (node.sendAlive env).handlePdus pdus
  return checkClose { node with shouldClose := node.shouldClose || interrupt }

def step : Except String Node :=
  match node.state with
  | .q5 => node.q5 env
  | .q12 => node.q12
  | .q13 => node.q13 env
  | .q14 => node.q14
  | .q15 => node.q15
  | .q16 => node.q16 env
  | .q17 => node.q17 env
  | _ => .ok node

/-- `run` after a round, until it is in `Q6` again or has left through `Q10`. -/
def settle : Except String Node := do
  let node ← node.step env
  node.step env

/-! ## What the events of a poll deliver -/

def collect : Token → Except String (List (PDU × Source) × Node)
  | .udp => do
      let wrapper ← node.udpWrapper.tryRead node.udpSocket.datagrams
      return (wrapper.incomingQueue.map fun x => (x.1, .udp x.2), { node with
        udpSocket := { node.udpSocket with datagrams := [] }
        udpWrapper := { wrapper with incomingQueue := [] } })
  | .successor =>
      match node.successor with
      | none => return ([], node)
      | some suc => do
          let (closed, wrapper, suc) ← node.successorWrapper.tryRead suc
          return (wrapper.incomingQueue.map fun x => (x.1, .successor x.2), { node with
            successor := if closed then none else some suc
            successorWrapper := { wrapper with incomingQueue := [] } })
  | .predecessor =>
      match node.predecessor with
      | none => return ([], node)
      | some pred => do
          let (_, wrapper, pred) ← node.predecessorWrapper.tryRead pred
          return (wrapper.incomingQueue.map fun x => (x.1, .predecessor x.2), { node with
            predecessor := some pred
            predecessorWrapper := { wrapper with incomingQueue := [] } })

def collectAll : List Token → Node → Except String (List (PDU × Source) × Node)
  | [], node => return ([], node)
  | event :: events, node => do
      let (pdus, node) ← node.collect event
      let (more, node) ← collectAll events node
      return (pdus ++ more, node)

def withSockets (sockets : Node) : Node := { node with
  udpWrapper := sockets.udpWrapper
  udpSocket := sockets.udpSocket
  successorWrapper := sockets.successorWrapper
  successor := sockets.successor
  predecessorWrapper := sockets.predecessorWrapper
  predecessor := sockets.predecessor }

variable {env : Env} {node next read sockets : Node} {pdus : List (PDU × Source)}
variable {event : Token} {events : List Token}

@[simp] theorem withSockets_self (node : Node) : node.withSockets node = node := rfl

theorem forward_withSockets
    (same : sockets.successor.map TcpStream.fd = node.successor.map TcpStream.fd) (pdu : PDU) :
    (node.withSockets sockets).forward pdu = (·.withSockets sockets) <$> node.forward pdu := by
  cases mine : node.successor with
  | none =>
      rw [mine] at same
      have theirs : (node.withSockets sockets).successor = none := Option.map_eq_none_iff.mp same
      rw [forward_of_none mine, forward_of_none theirs]
      rfl
  | some socket =>
      rw [mine] at same
      obtain ⟨other, eq, fd⟩ := Option.map_eq_some_iff.mp same
      have theirs : (node.withSockets sockets).successor = some other := eq
      rw [forward_of_some mine, forward_of_some theirs, fd]
      rfl

theorem handlePdu_of_key {pdu : PDU} {ssn : RString} (key : pdu.key = some ssn)
    (node : Node) (source : Source) :
    node.handlePdu pdu source =
      if node.inMyRange ssn then .ok (node.served pdu).settled
      else settled <$> node.forward pdu := by
  have outside (pdu : PDU) :
      (do let node ← forward { node with lastPdu := none } pdu; return { node with state := .q6 }) =
        settled <$> node.forward pdu := by
    rcases Option.eq_none_or_eq_some node.successor with unset | ⟨socket, set⟩
    · rw [forward_of_none unset, forward_of_none (by exact unset)]
      rfl
    · rw [forward_of_some set, forward_of_some (by exact set)]
      rfl
  cases pdu with
  | valInsert pdu =>
      cases key
      simp only [handlePdu, q9, unwrap, ok_bind, handleValInsert]
      split
      · rename_i mine
        rw [if_pos (by exact mine)]
        rfl
      · rename_i others
        rw [if_neg (by exact others)]
        exact outside (.valInsert pdu)
  | valRemove pdu =>
      cases key
      simp only [handlePdu, q9, unwrap, ok_bind, handleValRemove]
      split
      · rename_i mine
        rw [if_pos (by exact mine)]
        rfl
      · rename_i others
        rw [if_neg (by exact others)]
        exact outside (.valRemove pdu)
  | valLookup pdu =>
      cases key
      simp only [handlePdu, q9, unwrap, ok_bind, handleValLookup]
      split
      · rename_i mine
        rw [if_pos (by exact mine)]
        rfl
      · rename_i others
        rw [if_neg (by exact others)]
        exact outside (.valLookup pdu)
  | _ => cases key

/-- What `handle_pdu` does depends on the sockets only through the successor's. -/
theorem handlePdu_withSockets
    (same : sockets.successor.map TcpStream.fd = node.successor.map TcpStream.fd)
    (pdu : PDU) (source : Source) :
    (node.withSockets sockets).handlePdu pdu source =
      (·.withSockets sockets) <$> node.handlePdu pdu source := by
  cases key : pdu.key with
  | some ssn =>
      rw [handlePdu_of_key key, handlePdu_of_key key, forward_withSockets same]
      have there : (node.withSockets sockets).inMyRange ssn = node.inMyRange ssn := rfl
      rw [there]
      split
      · cases pdu <;> rfl
      · cases node.forward pdu <;> rfl
  | none =>
      cases pdu with
      | netCloseConnection pdu => cases source <;> rfl
      | valInsert pdu => cases key
      | valRemove pdu => cases key
      | valLookup pdu => cases key
      | _ => rfl

theorem handlePdu_sockets {pdu : PDU} {source : Source}
    (handled : node.handlePdu pdu source = .ok next) : next.withSockets node = next := by
  have same : (node.withSockets node).handlePdu pdu source = _ :=
    handlePdu_withSockets rfl pdu source
  rw [withSockets_self, handled] at same
  exact (Except.ok.inj same).symm

theorem handlePdus_withSockets (pdus : List (PDU × Source)) : ∀ node : Node,
    sockets.successor.map TcpStream.fd = node.successor.map TcpStream.fd →
      (node.withSockets sockets).handlePdus pdus =
        (·.withSockets sockets) <$> node.handlePdus pdus := by
  induction pdus with
  | nil =>
      intro node _
      rfl
  | cons x pdus ih =>
      intro node same
      rw [handlePdus, List.foldlM_cons, handlePdu_withSockets same, handlePdus, List.foldlM_cons]
      cases handled : node.handlePdu x.1 x.2 with
      | error e => rfl
      | ok next =>
          have kept : next.successor = node.successor := by
            rw [← handlePdu_sockets handled]
            rfl
          exact ih next (by rw [kept, same])

theorem handlePdus_sockets (handled : node.handlePdus pdus = .ok next) :
    next.withSockets node = next := by
  have same : (node.withSockets node).handlePdus pdus = _ := handlePdus_withSockets pdus node rfl
  rw [withSockets_self, handled] at same
  exact (Except.ok.inj same).symm

theorem handlePdus_append (before after : List (PDU × Source)) :
    node.handlePdus (before ++ after) = (node.handlePdus before >>= (·.handlePdus after)) :=
  List.foldlM_append

/-! ## A round and its events -/

theorem collect_withSockets (event : Token) :
    (node.withSockets sockets).collect event =
      (fun x => (x.1, node.withSockets x.2)) <$> sockets.collect event := by
  cases event with
  | udp =>
      simp only [collect, withSockets]
      cases sockets.udpWrapper.tryRead sockets.udpSocket.datagrams <;> rfl
  | successor =>
      have theirs : (node.withSockets sockets).successor = sockets.successor := rfl
      rw [collect, collect, theirs]
      rcases Option.eq_none_or_eq_some sockets.successor with unset | ⟨socket, set⟩
      · rw [unset]
        rfl
      · rw [set]
        change (sockets.successorWrapper.tryRead socket >>= _) =
          _ <$> (sockets.successorWrapper.tryRead socket >>= _)
        cases sockets.successorWrapper.tryRead socket <;> rfl
  | predecessor =>
      have theirs : (node.withSockets sockets).predecessor = sockets.predecessor := rfl
      rw [collect, collect, theirs]
      rcases Option.eq_none_or_eq_some sockets.predecessor with unset | ⟨socket, set⟩
      · rw [unset]
        rfl
      · rw [set]
        change (sockets.predecessorWrapper.tryRead socket >>= _) =
          _ <$> (sockets.predecessorWrapper.tryRead socket >>= _)
        cases sockets.predecessorWrapper.tryRead socket <;> rfl

theorem collectAll_withSockets (events : List Token) : ∀ sockets : Node,
    collectAll events (node.withSockets sockets) =
      (fun x => (x.1, node.withSockets x.2)) <$> collectAll events sockets := by
  induction events with
  | nil =>
      intro sockets
      rfl
  | cons event events ih =>
      intro sockets
      rw [collectAll, collectAll, collect_withSockets]
      cases sockets.collect event with
      | error e => rfl
      | ok found =>
          change (collectAll events (node.withSockets found.2) >>= _) =
            _ <$> (collectAll events found.2 >>= _)
          rw [ih]
          cases collectAll events found.2 <;> rfl

theorem collect_fd (collected : node.collect event = .ok (pdus, read)) :
    read.successor = none ∨
      read.successor.map TcpStream.fd = node.successor.map TcpStream.fd := by
  cases event with
  | udp =>
      rw [collect] at collected
      cases found : node.udpWrapper.tryRead node.udpSocket.datagrams with
      | error e =>
          rw [found] at collected
          cases collected
      | ok wrapper =>
          rw [found] at collected
          cases collected
          exact Or.inr rfl
  | successor =>
      rw [collect] at collected
      rcases Option.eq_none_or_eq_some node.successor with unset | ⟨socket, set⟩
      · rw [unset] at collected
        cases collected
        exact Or.inr rfl
      · rw [set] at collected ⊢
        cases found : node.successorWrapper.tryRead socket with
        | error e =>
            simp only [found] at collected
            cases collected
        | ok answer =>
            simp only [found] at collected
            cases collected
            have fd : answer.2.2.fd = socket.fd := by
              rw [node.successorWrapper.tryRead_socket found]
            by_cases closed : answer.1 = true
            · exact Or.inl (if_pos closed)
            · right
              change (if answer.1 = true then none else some answer.2.2).map TcpStream.fd =
                some socket.fd
              rw [if_neg closed, Option.map_some, fd]
  | predecessor =>
      rw [collect] at collected
      rcases Option.eq_none_or_eq_some node.predecessor with unset | ⟨socket, set⟩
      · rw [unset] at collected
        cases collected
        exact Or.inr rfl
      · rw [set] at collected
        cases found : node.predecessorWrapper.tryRead socket with
        | error e =>
            simp only [found] at collected
            cases collected
        | ok answer =>
            simp only [found] at collected
            cases collected
            exact Or.inr rfl

theorem collectAll_sockets (collected : collectAll events node = .ok (pdus, read)) :
    node.withSockets read = read := by
  have same : collectAll events (node.withSockets node) = _ := collectAll_withSockets events node
  rw [withSockets_self, collected] at same
  exact (Prod.ext_iff.mp (Except.ok.inj same)).2.symm

theorem collectAll_cons (collected : collectAll (event :: events) node = .ok (pdus, read)) :
    ∃ first between rest, node.collect event = .ok (first, between) ∧
      collectAll events between = .ok (rest, read) ∧ pdus = first ++ rest := by
  rw [collectAll] at collected
  cases now : node.collect event with
  | error e =>
      rw [now] at collected
      cases collected
  | ok found =>
      obtain ⟨first, between⟩ := found
      rw [now] at collected
      simp only [ok_bind] at collected
      cases later : collectAll events between with
      | error e =>
          rw [later] at collected
          cases collected
      | ok found =>
          rw [later] at collected
          cases collected
          exact ⟨first, between, found.1, rfl, later, rfl⟩

theorem collectAll_fd : ∀ {events : List Token} {node : Node} {pdus : List (PDU × Source)},
    collectAll events node = .ok (pdus, read) →
      read.successor = none ∨
        read.successor.map TcpStream.fd = node.successor.map TcpStream.fd := by
  intro events
  induction events with
  | nil =>
      intro node pdus collected
      cases collected
      exact Or.inr rfl
  | cons event events ih =>
      intro node pdus collected
      obtain ⟨first, between, rest, now, later, -⟩ := collectAll_cons collected
      rcases ih later with gone | same
      · exact Or.inl gone
      · rcases collect_fd now with gone | before
        · rw [gone] at same
          exact Or.inl (Option.map_eq_none_iff.mp same)
        · exact Or.inr (same.trans before)

theorem handleAll_eq (source : Addr → Source) (queue : List Message) :
    node.handleAll source queue = node.handlePdus (queue.map fun x => (x.1, source x.2)) := by
  rw [handleAll, handlePdus, List.foldlM_map]

@[simp] theorem emit_nil (node : Node) : node.emit [] = node := by
  rw [emit, List.append_nil]

def givenUp (node read : Node) : List Effect :=
  if read.successor.isNone then dropped node.successor else []

theorem givenUp_of_kept
    (kept : read.successor.map TcpStream.fd = node.successor.map TcpStream.fd) :
    node.givenUp read = [] := by
  unfold givenUp
  split
  · rename_i gone
    rw [Option.isNone_iff_eq_none.mp gone] at kept
    rw [Option.map_eq_none_iff.mp kept.symm]
    rfl
  · rfl

theorem handleEvent_eq_collect (node : Node) (event : Token) :
    node.handleEvent event = (node.collect event >>= fun found =>
      (found.2.emit (node.givenUp found.2)).handlePdus found.1) := by
  cases event with
  | udp =>
      rw [handleEvent, collect]
      cases node.udpWrapper.tryRead node.udpSocket.datagrams with
      | error e => rfl
      | ok wrapper =>
          simp only [ok_bind, pure_bind]
          rw [givenUp_of_kept (by rfl), emit_nil]
          exact handleAll_eq ..
  | successor =>
      rw [handleEvent, collect]
      rcases Option.eq_none_or_eq_some node.successor with unset | ⟨socket, set⟩
      · rw [unset]
        simp only [pure_bind]
        rw [givenUp_of_kept (by rfl), emit_nil]
        rfl
      · rw [set]
        cases found : node.successorWrapper.tryRead socket with
        | error e => simp only [found, error_bind]
        | ok answer =>
            have fd : answer.2.2.fd = socket.fd := by
              rw [node.successorWrapper.tryRead_socket found]
            simp only [found, ok_bind, pure_bind]
            by_cases closed : answer.1 = true
            · have ends : dropped (some answer.2.2) = dropped node.successor := by
                rw [set, dropped, dropped, Option.map_some, Option.map_some, fd]
              simp only [if_pos closed, givenUp, Option.isNone_none, if_true, ← ends]
              exact handleAll_eq ..
            · simp only [if_neg closed, givenUp, Option.isNone_some]
              rw [if_neg Bool.false_ne_true, emit_nil]
              exact handleAll_eq ..
  | predecessor =>
      rw [handleEvent, collect]
      rcases Option.eq_none_or_eq_some node.predecessor with unset | ⟨socket, set⟩
      · rw [unset]
        simp only [pure_bind]
        rw [givenUp_of_kept (by rfl), emit_nil]
        rfl
      · rw [set]
        cases found : node.predecessorWrapper.tryRead socket with
        | error e => simp only [found, error_bind]
        | ok answer =>
            simp only [found, ok_bind, pure_bind]
            rw [givenUp_of_kept (by rfl), emit_nil]
            exact handleAll_eq ..

theorem handleEvent_error {e : String} (failed : node.collect event = .error e) :
    node.handleEvent event = .error e := by
  rw [handleEvent_eq_collect, failed, error_bind]

theorem handleEvent_read (collected : node.collect event = .ok (pdus, read)) :
    node.handleEvent event = (read.emit (node.givenUp read)).handlePdus pdus := by
  rw [handleEvent_eq_collect, collected, ok_bind]

theorem handleEvent_eq (collected : node.collect event = .ok (pdus, read))
    (kept : read.successor.map TcpStream.fd = node.successor.map TcpStream.fd) :
    node.handleEvent event = read.handlePdus pdus := by
  rw [handleEvent_read collected, givenUp_of_kept kept, emit_nil]

theorem handleEvents_eq : ∀ {events : List Token} {node read : Node}
    {pdus : List (PDU × Source)}, collectAll events node = .ok (pdus, read) →
    read.successor.map TcpStream.fd = node.successor.map TcpStream.fd →
      events.foldlM handleEvent node = read.handlePdus pdus := by
  intro events
  induction events with
  | nil =>
      intro node read pdus collected _
      cases collected
      rfl
  | cons event events ih =>
      intro node read pdus collected kept
      obtain ⟨first, between, rest, now, later, rfl⟩ := collectAll_cons collected
      -- The successor is still there after the first event.
      have kept_between : between.successor.map TcpStream.fd = node.successor.map TcpStream.fd := by
        rcases collect_fd now with gone | same
        · rcases collectAll_fd later with gone_later | same_later
          · rw [← kept, gone, gone_later]
          · rw [← kept, same_later]
        · exact same
      have kept_read := kept.trans kept_between.symm
      rw [List.foldlM_cons, handleEvent_eq now kept_between, handlePdus_append]
      have moved : read.handlePdus first = (·.withSockets read) <$> between.handlePdus first := by
        rw [← handlePdus_withSockets first between kept_read, collectAll_sockets later]
      rw [moved]
      cases handled : between.handlePdus first with
      | error e => rfl
      | ok next =>
          have sockets := handlePdus_sockets handled
          have later_next : collectAll events next = .ok (rest, next.withSockets read) := by
            rw [← sockets, collectAll_withSockets, later]
            rfl
          have kept_next : (next.withSockets read).successor.map TcpStream.fd =
              next.successor.map TcpStream.fd := by
            rw [← sockets]
            exact kept_read
          exact ih later_next kept_next

/-- A round of `q6` handles the PDUs that its events deliver, one after the other. -/
theorem q6_eq_round {interrupt : Bool} (collected : collectAll events node = .ok (pdus, read))
    (kept : read.successor.map TcpStream.fd = node.successor.map TcpStream.fd) :
    node.q6 env events interrupt = read.round env pdus interrupt := by
  have alive (node sockets : Node) :
      (node.withSockets sockets).sendAlive env = (node.sendAlive env).withSockets sockets := by
    unfold sendAlive
    have same : (node.withSockets sockets).lastAlive = node.lastAlive := rfl
    rw [same]
    split <;> rfl
  have late : collectAll events (node.sendAlive env) = .ok (pdus, read.sendAlive env) := by
    rw [← withSockets_self node, alive, collectAll_withSockets, collected,
      ← collectAll_sockets collected, alive]
    rfl
  have kept_late : (read.sendAlive env).successor.map TcpStream.fd =
      (node.sendAlive env).successor.map TcpStream.fd := by
    rw [← withSockets_self read, alive, ← withSockets_self node, alive]
    exact kept
  rw [q6, round, handleEvents_eq late kept_late]

end Node

end DhtRing.TestNode

import DhtRing.Leave
import DhtRing.Naming
import DhtRing.Rewiring

/-!
# Membership changes step by step

Every step of the network while one node joins or leaves is a step of the phases.
Requests may be on their way, as the entries of a transfer are; they change neither
the topology nor the other PDUs.
-/

set_option autoImplicit false

namespace DhtRing

/-! ## Calls on the topology -/

def Topology.perform (T : Topology) : Effect → Topology
  | .connect conn =>
      { T with
        backlog := Function.update T.backlog conn.target (T.backlog conn.target ++ [conn])
        serial := T.serial + 1 }
  | .close fd => { T with shut := Function.update T.shut fd true }
  | _ => T

def Topology.put (T : Topology) (n : Addr) (pc : Pc) (w : Wiring) : Topology :=
  { T with
    pc := Function.update T.pc n pc
    wiring := Function.update T.wiring n w }

def Effect.control : Effect → Option (Loc × Pdu)
  | .tcp fd pdu => if pdu.requestKey.isNone then some (fd, pdu) else none
  | _ => none

section

variable {net : Net} {req : Option Nat} {loc : Loc}

theorem performAll_topology (effects : List Effect) :
    (net.performAll req effects).topology = effects.foldl Topology.perform net.topology := by
  induction effects generalizing net with
  | nil => rfl
  | cons effect effects ih =>
      rw [performAll_cons, ih, List.foldl_cons]
      congr 1
      cases effect with
      | tcp fd pdu =>
          simp only [Net.perform, Topology.perform]
          split <;> rfl
      | _ => rfl

theorem foldl_perform_sends {effects : List Effect} (T : Topology)
    (sends : ∀ effect ∈ effects, ∃ fd pdu, effect = .tcp fd pdu) :
    effects.foldl Topology.perform T = T := by
  induction effects with
  | nil => rfl
  | cons effect effects ih =>
      obtain ⟨fd, pdu, rfl⟩ := sends effect List.mem_cons_self
      exact ih fun effect mem => sends effect (List.mem_cons_of_mem _ mem)

@[simp] theorem setNode_topology (n : Addr) (proc : Proc) :
    (net.setNode n proc).topology = net.topology.put n proc.pc proc.selfData.wiring := by
  unfold Net.topology Topology.put
  simp only [setNode_node, setNode_shut, setNode_backlog, setNode_serial, Topology.mk.injEq, and_true]
  constructor
  · funext m
    by_cases here : m = n
    · simp [here]
    · simp [here]
  · funext m
    by_cases here : m = n
    · simp [here]
    · simp [here]

theorem commit_topology (n : Addr) (back : Pc) (outcome : Outcome) :
    (net.commit n back req outcome).topology =
      (outcome.effects.foldl Topology.perform net.topology).put n (back.after outcome.ctl)
        outcome.selfData.wiring := by
  rw [Net.commit, setNode_topology, performAll_topology]

@[simp] theorem setQueue_topology (msgs : List Msg) :
    (net.setQueue loc msgs).topology = net.topology := rfl

@[simp] theorem note_topology (n : Addr) (msg : Msg) :
    (net.note n msg).topology = net.topology := by
  unfold Net.note
  split
  · split <;> rfl
  · rfl

@[simp] theorem note_control (n : Addr) (msg : Msg) : (net.note n msg).control = net.control := by
  funext loc
  unfold Net.control
  rw [note_queue]

@[simp] theorem setNode_control (n : Addr) (proc : Proc) :
    (net.setNode n proc).control = net.control := rfl

/-! ## PDUs that are not requests -/

theorem push_control (fd : Loc) (pdu : Pdu) :
    (net.push fd ⟨pdu, req⟩).control =
      fun loc => net.control loc ++ post (Effect.control (.tcp fd pdu)).toList loc := by
  funext loc
  unfold Net.control
  rw [Net.push, setQueue_queue]
  by_cases here : loc = fd
  · subst here
    rw [Function.update_self, List.filterMap_append]
    cases request : pdu.requestKey <;> simp [Effect.control, request, post_cons]
  · rw [Function.update_of_ne here]
    cases request : pdu.requestKey <;> simp [Effect.control, request, post_cons, Ne.symm here]

theorem post_append {ι α : Type*} [DecidableEq ι] (first second : List (ι × α)) (loc : ι) :
    post (first ++ second) loc = post first loc ++ post second loc := by
  unfold post
  rw [List.filterMap_append]

theorem performAll_control {effects : List Effect}
    (opens : ∀ fd pdu, .tcp fd pdu ∈ effects → net.shut fd = false ∧ .close fd ∉ effects) :
    (net.performAll req effects).control =
      fun loc => net.control loc ++ post (effects.filterMap Effect.control) loc := by
  induction effects generalizing net with
  | nil => simp
  | cons effect effects ih =>
      have opens_rest : ∀ fd pdu, .tcp fd pdu ∈ effects →
          net.shut fd = false ∧ .close fd ∉ effect :: effects :=
        fun fd pdu mem => opens fd pdu (List.mem_cons_of_mem _ mem)
      rw [performAll_cons, ih]
      · cases effect with
        | tcp fd pdu =>
            obtain ⟨is_open, -⟩ := opens fd pdu List.mem_cons_self
            have pushed : Net.perform req net (.tcp fd pdu) = net.push fd ⟨pdu, req⟩ := by
              simp [Net.perform, is_open]
            funext loc
            rw [pushed, push_control, List.append_assoc, ← post_append]
            congr 2
            cases sent : Effect.control (.tcp fd pdu) with
            | none => rw [List.filterMap_cons_none sent]; rfl
            | some entry => rw [List.filterMap_cons_some sent]; rfl
        | _ => rfl
      · intro fd pdu mem
        obtain ⟨is_open, kept⟩ := opens_rest fd pdu mem
        refine ⟨?_, fun closes => kept (List.mem_cons_of_mem _ closes)⟩
        cases effect with
        | tcp other sent =>
            simp only [Net.perform]
            split <;> exact is_open
        | close other =>
            have apart : fd ≠ other := fun eq => kept (by rw [eq]; exact List.mem_cons_self)
            simpa [Net.perform, Function.update_of_ne apart] using is_open
        | _ => exact is_open

theorem performAll_requests {effects : List Effect}
    (quiet : ∀ effect ∈ effects, (∃ dest reply, effect = .udp dest reply) ∨
      ∃ fd pdu, effect = .tcp fd pdu ∧ pdu.requestKey.isSome) :
    (net.performAll req effects).topology = net.topology ∧
      (net.performAll req effects).control = net.control := by
  refine performAll_induct
    (P := fun other => other.topology = net.topology ∧ other.control = net.control)
    ⟨rfl, rfl⟩ effects ?_
  intro other effect mem same
  rcases quiet effect mem with ⟨dest, reply, rfl⟩ | ⟨fd, pdu, rfl, request⟩
  · exact same
  · simp only [Net.perform]
    split
    · exact same
    · refine ⟨same.1, ?_⟩
      obtain ⟨ssn, key⟩ := Option.isSome_iff_exists.mp request
      rw [push_control, same.2]
      simp [Effect.control, key]

theorem control_of_request {msg : Msg} {rest : List Msg} (queue : net.queue loc = msg :: rest)
    (request : msg.pdu.requestKey.isSome) : (net.setQueue loc rest).control = net.control := by
  funext other
  unfold Net.control
  rw [setQueue_queue]
  by_cases here : other = loc
  · rw [here, Function.update_self, queue, List.filterMap_cons]
    cases key : msg.pdu.requestKey with
    | none => simp [key] at request
    | some ssn => simp
  · rw [Function.update_of_ne here]

/-- The next PDU at a place is the first one that is not a request, if it is none. -/
theorem mem_control {msg : Msg} {rest : List Msg} (queue : net.queue loc = msg :: rest)
    (plain : msg.pdu.requestKey = none) {posts : List (Loc × Pdu)}
    (posted : net.control = post posts) :
    (loc, msg.pdu) ∈ posts := by
  rw [← mem_post, ← posted, Net.control, queue]
  simp [plain]

theorem control_of_head {msg : Msg} {rest : List Msg} (queue : net.queue loc = msg :: rest)
    (plain : msg.pdu.requestKey = none) {pdu : Pdu} {posts : List (Loc × Pdu)}
    (posted : net.control = post ((loc, pdu) :: posts)) :
    (net.setQueue loc rest).control = post posts := by
  funext other
  unfold Net.control
  rw [setQueue_queue]
  have there := congrFun posted other
  rw [post_cons] at there
  unfold Net.control at there
  by_cases here : other = loc
  · subst here
    rw [queue, if_pos rfl] at there
    simp only [List.filterMap_cons, plain, Option.isNone_none, if_true, List.cons.injEq] at there
    rw [Function.update_self]
    exact there.2
  · rw [if_neg (Ne.symm here)] at there
    rw [Function.update_of_ne here]
    exact there

theorem post_swap {ι α : Type*} [DecidableEq ι] {first second : ι × α} (other : first.1 ≠ second.1)
    (posts : List (ι × α)) : post (first :: second :: posts) = post (second :: first :: posts) := by
  funext loc
  obtain ⟨a, x⟩ := first
  obtain ⟨b, y⟩ := second
  simp only [post_cons]
  by_cases at_a : a = loc
  · have not_b : b ≠ loc := fun eq => other (at_a.trans eq.symm)
    simp [at_a, not_b]
  · simp [at_a]

end

/-! ## Reading -/

theorem reads_cases {net : Net} {n : Addr} {i : FdsIndex} {loc : Loc}
    (held : net.topology.Held n) (reads : (net.node n).reads n i = some loc) :
    loc.reader = n ∧
      ((i = .udp ∧ loc = .udp n) ∨
        (i = .successor ∧ ∃ c, (net.topology.wiring n).fdsSuccessor = some c ∧ loc = .down c) ∨
        (i = .predecessor ∧ ∃ c, (net.topology.wiring n).fdsPredecessor = some c ∧ loc = .up c)) := by
  cases i with
  | udp =>
      cases reads
      exact ⟨rfl, Or.inl ⟨rfl, rfl⟩⟩
  | successor =>
      obtain ⟨c, fds, rfl⟩ := Option.map_eq_some_iff.mp reads
      exact ⟨held.successor c fds, Or.inr (Or.inl ⟨rfl, c, fds, rfl⟩)⟩
  | predecessor =>
      obtain ⟨c, fds, rfl⟩ := Option.map_eq_some_iff.mp reads
      exact ⟨held.predecessor c fds, Or.inr (Or.inr ⟨rfl, c, fds, rfl⟩)⟩

/-- The step harms no node: no handler does something undefined, requests find their
way, and a node that waits for an answer reads no request. -/
structure Unharmed (net : Net) (act : Act) : Prop where
  handles : ∀ n i loc msg rest outcome, act = .deliver n i → (net.node n).reads n i = some loc →
    net.queue loc = msg :: rest → dispatch net.env (net.node n).selfData msg.pdu = some outcome →
    outcome.ctl ≠ .fault ∧ (msg.pdu.requestKey.isSome → outcome.ctl = .run)
  handsOver : ∀ n granted, act = .reply n → (handOver (net.node n).selfData granted).ctl ≠ .fault
  waits : ∀ n loc msg rest, act = .reply n ∨ act = .response n →
    (net.node n).receives = some loc → net.queue loc = msg :: rest → msg.pdu.requestKey = none

section

variable {net : Net} {n : Addr} {loc : Loc} {msg : Msg} {rest : List Msg} {back : Pc}
  {outcome : Outcome}

/-- What is left of `net` once `n` has run a piece of code with `posts` still on their
way. -/
structure After (net net' : Net) (n : Addr) (pc : Pc) (data : SelfData) (effects : List Effect)
    (posts : List (Loc × Pdu)) : Prop where
  topology : net'.topology = (effects.foldl Topology.perform net.topology).put n pc data.wiring
  control : (∀ fd pdu, .tcp fd pdu ∈ effects → net.shut fd = false ∧ .close fd ∉ effects) →
    net'.control = post (posts ++ effects.filterMap Effect.control)

theorem after_performAll {base : Net} (topology : base.topology = net.topology)
    {posts : List (Loc × Pdu)} (posted : base.control = post posts) (req : Option ℕ) (pc : Pc)
    (data : SelfData) (effects : List Effect) :
    After net ((base.performAll req effects).setNode n ⟨pc, data⟩) n pc data effects posts where
  topology := by rw [setNode_topology, performAll_topology, topology]
  control opens := by
    have same : base.shut = net.shut := congrArg Topology.shut topology
    rw [setNode_control, performAll_control (by rw [same]; exact opens), posted]
    funext other
    rw [post_append]

/-- The network after a handler that has read the only PDU at a place. -/
theorem after_handler (queue : net.queue loc = msg :: rest) (plain : msg.pdu.requestKey = none)
    {pdu : Pdu} {posts : List (Loc × Pdu)} (posted : net.control = post ((loc, pdu) :: posts)) :
    After net (((net.note n msg).setQueue loc rest).commit n back msg.tag outcome) n
      (back.after outcome.ctl) outcome.selfData outcome.effects posts := by
  apply after_performAll
  · rw [setQueue_topology, note_topology]
  · exact control_of_head (by rw [note_queue]; exact queue) plain
      (show (net.note n msg).control = post ((loc, pdu) :: posts) from
        (note_control n msg).trans posted)

variable (back) in
theorem handled_request {i : FdsIndex} (unharmed : Unharmed net (.deliver n i))
    (reads : (net.node n).reads n i = some loc) (queue : net.queue loc = msg :: rest)
    (request : msg.pdu.requestKey.isSome)
    (dispatched : dispatch net.env (net.node n).selfData msg.pdu = some outcome) :
    (((net.note n msg).setQueue loc rest).commit n back msg.tag outcome).topology =
        net.topology.goesOn n back ∧
      (((net.note n msg).setQueue loc rest).commit n back msg.tag outcome).control = net.control := by
  obtain ⟨-, runs⟩ := unharmed.handles n i loc msg rest outcome rfl reads queue dispatched
  obtain ⟨ssn, key⟩ := Option.isSome_iff_exists.mp request
  obtain ⟨wiring, -, sends⟩ := dispatch_request key dispatched
  have quiet : ∀ effect ∈ outcome.effects, (∃ dest reply, effect = .udp dest reply) ∨
      ∃ fd pdu, effect = .tcp fd pdu ∧ pdu.requestKey.isSome := by
    intro effect mem
    rcases sends effect mem with reply | ⟨conn, -, eq⟩
    · exact Or.inl reply
    · exact Or.inr ⟨_, _, eq, request⟩
  obtain ⟨topology, control⟩ : (((net.note n msg).setQueue loc rest).performAll msg.tag
      outcome.effects).topology = ((net.note n msg).setQueue loc rest).topology ∧ _ :=
    performAll_requests quiet
  constructor
  · rw [Net.commit, setNode_topology, topology, setQueue_topology, note_topology, runs request, wiring]
    unfold Topology.put Topology.goesOn
    congr 1
    exact Function.update_eq_self n net.topology.wiring
  · rw [Net.commit, setNode_control, control, control_of_request (by rw [note_queue]; exact queue)
      request, note_control]

end

end DhtRing

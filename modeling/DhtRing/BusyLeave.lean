import DhtRing.BusyJoin

/-!
# A leave under traffic

One node leaves while clients' requests are on their way.  Its predecessor goes on
sending requests to it until it reads the `NET_LEAVING`.
-/

set_option autoImplicit false

namespace DhtRing

open OnePlace Transition

variable {net net' : Net} {plan plan' : Plan} {stage stage' : Change}

/-! ## The end of a process -/

theorem Pc.after_ne_exited {back : Pc} (runs : back ≠ .exited true) (ctl : Ctl) :
    back.after ctl ≠ .exited true := by
  cases ctl with
  | run => exact runs
  | accept => cases back <;> simp_all [Pc.after, Pc.blocked]
  | _ => simp [Pc.after]

theorem Pc.polls_ne_exited {pc back : Pc} {i : FdsIndex} (polls : pc.polls i = some back) :
    back ≠ .exited true := by
  rintro rfl
  cases pc with
  | lastPoll j new =>
      rw [Pc.polls] at polls
      split at polls <;> cases polls
  | _ => cases polls

theorem Pc.accepted_ne_exited {pc back : Pc} (accepted : pc.accepted = some back) :
    back ≠ .exited true := by
  rintro rfl
  cases pc <;> cases accepted

/-- A node ends in good order only when it leaves or says goodbye. -/
theorem step_exits {act : Act} (stepped : net.step act = some net') {n : Addr}
    (exited : (net'.node n).pc = .exited true) :
    (net.node n).pc = .exited true ∨ act = .leave n ∨ act = .finish n := by
  by_cases here : n = act.node
  swap
  · rw [step_node_other stepped here] at exited
    exact Or.inl exited
  subst here
  cases act with
  | client m pdu =>
      obtain ⟨-, -, rfl⟩ := client_eq_some stepped
      exact Or.inl exited
  | join j e =>
      obtain ⟨-, -, -, rfl⟩ := join_eq_some stepped
      rw [Act.node, setNode_node, Function.update_self] at exited
      cases exited
  | leave m => exact Or.inr (Or.inl rfl)
  | timeout m =>
      obtain ⟨-, rfl⟩ := timeout_eq_some stepped
      rw [Act.node, setNode_node, Function.update_self] at exited
      cases exited
  | deliver m i =>
      obtain ⟨back, loc, msg, rest, outcome, polls, -, -, -, rfl⟩ := deliver_eq_some stepped
      rw [Act.node, commit_node, Function.update_self] at exited
      exact absurd exited (Pc.after_ne_exited (Pc.polls_ne_exited polls) _)
  | discard m i k =>
      obtain ⟨back, loc, msg, rest, polls, -, -, -, rfl⟩ := discard_eq_some stepped
      rw [Act.node, setNode_node, Function.update_self] at exited
      exact absurd exited (Pc.polls_ne_exited polls)
  | eof m i =>
      obtain ⟨back, conn, loc, fd, data, polls, -, -, -, -, rfl⟩ := eof_eq_some stepped
      rw [Act.node, setNode_node, Function.update_self] at exited
      exact absurd exited (Pc.polls_ne_exited polls)
  | accept m =>
      obtain ⟨back, conn, rest, accepted, -, rfl⟩ := accept_eq_some stepped
      rw [Act.node, setNode_node, Function.update_self] at exited
      exact absurd exited (Pc.accepted_ne_exited accepted)
  | response m =>
      obtain ⟨-, loc, -, ⟨next, rangeStart, rangeEnd, req, rest, -, rfl⟩ | ⟨-, rfl⟩⟩ :=
        response_eq_some stepped
      · rw [Act.node, commit_node, Function.update_self] at exited
        exact absurd exited (Pc.after_ne_exited (by simp) _)
      · rw [Act.node, setNode_node, Function.update_self] at exited
        cases exited
  | reply m =>
      obtain ⟨-, loc, granted, -, -, rfl⟩ := reply_eq_some stepped
      rw [Act.node, commit_node, Function.update_self] at exited
      exact absurd exited (Pc.after_ne_exited (by simp) _)
  | finish m => exact Or.inr (Or.inr rfl)

theorem step_stays_exited {act : Act} (stepped : net.step act = some net') {n : Addr}
    (exited : (net.node n).pc = .exited true) : (net'.node n).pc = .exited true := by
  by_cases here : n = act.node
  swap
  · rw [step_node_other stepped here]
    exact exited
  subst here
  cases act with
  | client m pdu =>
      obtain ⟨-, -, rfl⟩ := client_eq_some stepped
      exact exited
  | join j e =>
      obtain ⟨absent, -⟩ := join_eq_some stepped
      rw [Act.node, absent] at exited
      cases exited
  | leave m =>
      obtain ⟨q6, -⟩ := leave_eq_some stepped
      rw [Act.node, q6] at exited
      cases exited
  | timeout m =>
      obtain ⟨waits, -⟩ := timeout_eq_some stepped
      rw [Act.node] at exited
      simp [exited] at waits
  | deliver m i =>
      obtain ⟨back, loc, msg, rest, outcome, polls, -⟩ := deliver_eq_some stepped
      rw [Act.node] at exited
      rw [exited] at polls
      cases polls
  | discard m i k =>
      obtain ⟨back, loc, msg, rest, polls, -⟩ := discard_eq_some stepped
      rw [Act.node] at exited
      rw [exited] at polls
      cases polls
  | eof m i =>
      obtain ⟨back, conn, loc, fd, data, polls, -⟩ := eof_eq_some stepped
      rw [Act.node] at exited
      rw [exited] at polls
      cases polls
  | accept m =>
      obtain ⟨back, conn, rest, accepted, -⟩ := accept_eq_some stepped
      rw [Act.node] at exited
      rw [exited] at accepted
      cases accepted
  | response m =>
      obtain ⟨waits, -⟩ := response_eq_some stepped
      rw [Act.node, waits] at exited
      cases exited
  | reply m =>
      obtain ⟨waits, -⟩ := reply_eq_some stepped
      rw [Act.node, waits] at exited
      cases exited
  | finish m =>
      obtain ⟨i, new, pc, -⟩ := finish_eq_some stepped
      rw [Act.node, pc] at exited
      cases exited

/-! ## Careful steps -/

/-- The steps while a node leaves: no node passes a request on to one that has ended, and
the leaving node neither takes a request for the answer it waits for, nor serves one in
its last poll, nor ends while one waits on the link from its predecessor. -/
structure Considerate (net : Net) (act : Act) : Prop where
  bustling : Bustling net act
  relays : ∀ n i msg loc rest ssn c, act = .deliver n i → (net.node n).reads n i = some loc →
    net.queue loc = msg :: rest → msg.pdu.requestKey = some ssn →
    checkRange (net.node n).selfData ssn = false → (net.node n).selfData.fdsSuccessor = some c →
      (net.node c.target).pc ≠ .exited true
  awaits : ∀ n loc msg rest, act = .reply n → (net.node n).receives = some loc →
    net.queue loc = msg :: rest → msg.pdu.requestKey = none
  serves : ∀ n i msg ssn, act = .deliver n i → net.Serves n i msg ssn →
    ∀ j new, (net.node n).pc ≠ .lastPoll j new
  finishes : ∀ n c, act = .finish n → (net.node n).selfData.fdsPredecessor = some c →
    net.requests (.up c) = []

theorem Orderly.careful_of_considerate (orderly : Orderly net plan stage) (formed : net.Formed)
    {act : Act} (considerate : Considerate net act) (stepped : net.step act = some net') :
    Careful net act where
  serves := by
    rintro n i loc msg rest ssn call rfl reads queue key asks in_range
    obtain ⟨back, -, -, -, -, polls, -⟩ := deliver_eq_some stepped
    have q6 : (net.node n).pc = .q6 := by
      rcases orderly.inStage.polling_cases polls with ⟨-, q6⟩ | ⟨p, s, c, c', j, rfl⟩
      · exact q6
      · have polling : Polling net.topology net.control plan n p s c c' j := orderly.inStage
        exact absurd polling.pc (considerate.serves n i msg ssn rfl ⟨⟨loc, rest, reads, queue⟩, key,
          in_range⟩ j s)
    exact ⟨q6, orderly.hasSlot considerate.bustling.2 n i loc msg rest call rfl q6 reads queue asks,
      formed.scans (mem_requests_head queue key) asks _⟩
  relays n i loc msg rest ssn c eq reads queue key :=
    considerate.relays n i msg loc rest ssn c eq reads queue key
  awaits := considerate.awaits
  finishes := by
    rintro n c rfl fds
    obtain ⟨i, new, pc, -⟩ := finish_eq_some stepped
    have polls : (net.node n).pc.polls i = some (.lastPoll i new) := by
      rw [pc, Pc.polls, if_pos le_rfl]
    rcases orderly.inStage.polling_cases polls with ⟨-, q6⟩ | ⟨p, s, c₁, c₂, j, rfl⟩
    · rw [pc] at q6
      cases q6
    · have posts : net.control = post [] := Polling.posts orderly.inStage
      cases queue : net.queue (.up c) with
      | nil => rfl
      | cons msg rest =>
          cases key : msg.pdu.requestKey with
          | none => cases mem_control queue key posts
          | some ssn =>
              have waits := mem_requests_head queue key
              rw [considerate.finishes n c rfl fds] at waits
              cases waits

/-! ## The invariant -/

def Change.departing (stage : Change) (l : Addr) (pc : Pc) : Prop :=
  match stage with
  | .offered l' _ _ _ _ | .taken l' _ _ _ _ | .polling l' _ _ _ _ _ => l' = l
  | .joining _ _ _ _ _ => False
  | _ => pc = .exited true

structure Departing (l : Addr) (net : Net) (plan : Plan) (stage : Change) : Prop where
  busy : Busy (· = l) True net plan stage
  departing : stage.departing l (net.node l).pc

section

variable {l : Addr}

theorem Net.Goes.departing {act : Act} (goes : net.Goes plan stage act net' plan' stage')
    (stepped : net.step act = some net') (departing : stage.departing l (net.node l).pc) :
    stage'.departing l (net'.node l).pc := by
  rcases goes with ⟨leads, -⟩ | ⟨-, turns, -⟩
  · cases leads with
    | forward | split => exact departing.elim
    | take | reply => exact departing
    | finish l' p s c c' i =>
        obtain rfl : l' = l := departing
        obtain ⟨i, new, -, rfl⟩ := finish_eq_some stepped
        change (Net.node _ l').pc = .exited true
        rw [setNode_node, Function.update_self]
    | _ => exact step_stays_exited stepped departing
  · rcases turns with rfl | ⟨l', p, s, c, c', i, i', rfl, rfl⟩
    · cases stage' with
      | idle | repair => exact step_stays_exited stepped departing
      | _ => exact departing
    · exact departing

theorem Departing.step (departing : Departing l net plan stage) {act : Act}
    (internal : act.internal = true) (considerate : Considerate net act)
    (stepped : net.step act = some net') :
    ∃ plan' stage', Departing l net' plan' stage' ∧ net.Goes plan stage act net' plan' stage' := by
  have orderly := departing.busy.orderly
  have careful := orderly.careful_of_considerate departing.busy.formed considerate stepped
  obtain ⟨plan', stage', orderly', goes⟩ := orderly.step internal careful stepped
  refine ⟨plan', stage', ⟨?_, goes.departing stepped departing.departing⟩, goes⟩
  refine departing.busy.goes internal stepped orderly' goes ?_
  rintro l' p s c c' rfl
  exact departing.departing

theorem Departing.client (departing : Departing l net plan stage) {n : Addr} {pdu : Pdu}
    (stepped : net.step (.client n pdu) = some net')
    (nonzero : ∀ ssn, pdu.requestKey = some ssn → Nonzero ssn) : Departing l net' plan stage := by
  obtain ⟨-, -, -, -, node, -⟩ := client_spec stepped
  refine ⟨departing.busy.client stepped nonzero ?_, ?_⟩
  · rintro l' p s c c' (rfl | ⟨i, rfl⟩)
    · exact departing.departing
    · exact departing.departing
  · rw [node]
    exact departing.departing

theorem Departing.run (departing : Departing l net plan stage) {acts : List Act}
    (run : Run Net.step Considerate net acts net') :
    ∃ plan' stage', Departing l net' plan' stage' := by
  refine traffic_keeps (fun _ _ considerate => considerate.bustling.1) ?_ ?_ departing run
  · intro net plan stage act net' here internal considerate stepped
    obtain ⟨plan', stage', there, -⟩ := here.step internal considerate stepped
    exact ⟨plan', stage', there⟩
  · intro net plan stage n pdu net' here stepped nonzero
    exact here.client stepped nonzero

theorem Welcoming.leave (welcoming : Welcoming True net plan .idle)
    (untransferred : net.Untransferred) {m : Addr} (other : m ≠ l)
    (serving : (net.node m).pc.serving = true) (stepped : net.step (.leave l) = some net') :
    ∃ stage, Departing l net' plan stage := by
  have orderly := welcoming.busy.orderly
  have inStage := orderly.inStage
  have mem : plan.Member l := by
    obtain ⟨q6, -⟩ := leave_eq_some stepped
    rw [← inStage.serving_iff, q6]
    rfl
  have several := Plan.several inStage.ring.tiled mem ((inStage.serving_iff m).mp serving) other
  obtain ⟨⟨p, s, c, c', orderly'⟩, flow, issued, requests⟩ :=
    orderly.leave untransferred mem several stepped
  refine ⟨_, ⟨orderly', welcoming.busy.formed.flow flow, welcoming.busy.accounted.flow flow issued,
    ?_, fun _ => ?_⟩, rfl⟩
  · intro n msg
    rw [requests]
    exact fun waits => Or.inl ((welcoming.busy.sockets n msg waits).resolve_right id)
  · obtain ⟨⟨m, weight⟩, -, weighs⟩ := welcoming.busy.bounded trivial
    obtain ⟨weight', weighs'⟩ := flow.weighs weighs
    exact ⟨(9, weight'), rfl, weighs'⟩

/-! ## What becomes of the requests -/

/-- The node `l` has left or is about to, in good order; every request waits at one place
or was applied once, at the owner of its key; and what waits for `l` is sent on. -/
structure Net.PartsWith (ok : Net → Act → Prop) (net : Net) (l : Addr) : Prop where
  alive : ∀ n, (net.node n).pc ≠ .exited false ∧ (net.node n).pc ≠ .faulted
  leaving : (net.node l).pc = .awaitResponse ∨ (∃ i new, (net.node l).pc = .lastPoll i new) ∨
    (net.node l).pc = .exited true
  goodbyes : ∀ act after, ok net act → net.step act = some after →
    (net.node l).pc ≠ .exited true → (after.node l).pc = .exited true →
    ∃ c c' s, (net.node l).selfData.predecessor = some c ∧
      (net.node l).selfData.successor = ⟨some c', s⟩ ∧
      after.queue (.up c') = net.queue (.up c') ++ [⟨.netCloseConnection, none⟩] ∧
      after.queue (.down c) = net.queue (.down c) ++ [⟨.netLeaving s, none⟩]
  accounted : net.Accounted
  owner : ∀ act after n msg ssn, ok net act → net.step act = some after →
    after.applied = net.applied ++ [(n, msg)] → msg.pdu.requestKey = some ssn →
    n ≠ l ∧ ∀ m, m ≠ l → (((net.node m).pc.serving = true ∧
      checkRange (net.node m).selfData ssn = true) ↔ m = n)
  onward : ∀ act after, ok net act → net.step act = some after → ∀ c, c.target = l →
    ∀ msg ∈ net.requests (.up c), msg ∈ after.requests (.up c) ∨
      ∃ c', (net.node l).selfData.fdsSuccessor = some c' ∧ msg ∈ after.requests (.up c')
  emptied : (net.node l).pc = .exited true → ∀ c, c.target = l → net.requests (.up c) = []
  atRest : net.AtRest → (net.node l).pc = .exited true ∧ ∀ k < net.issued,
    net.AppliedOnce k ∨ ∃ msg ∈ net.requests (.udp l), msg.req = some k

theorem Departing.leaving (departing : Departing l net plan stage) :
    (net.node l).pc = .awaitResponse ∨ (∃ i new, (net.node l).pc = .lastPoll i new) ∨
      (net.node l).pc = .exited true := by
  obtain ⟨busy, departing⟩ := departing
  have inStage := busy.orderly.inStage
  cases stage with
  | idle | repair => exact Or.inr (Or.inr departing)
  | joining => exact departing.elim
  | offered l' p s c c' =>
      obtain rfl : l' = l := departing
      exact Or.inl (Offered.pc inStage)
  | taken l' p s c c' =>
      obtain rfl : l' = l := departing
      exact Or.inl (Taken.pc inStage)
  | polling l' p s c c' i =>
      obtain rfl : l' = l := departing
      exact Or.inr (Or.inl ⟨i, s, Polling.pc inStage⟩)

theorem Departing.not_q6 (departing : Departing l net plan stage) : (net.node l).pc ≠ .q6 := by
  intro q6
  rcases departing.leaving with pc | ⟨i, new, pc⟩ | pc
  · rw [q6] at pc
    cases pc
  · rw [q6] at pc
    cases pc
  · rw [q6] at pc
    cases pc

theorem Departing.owner (departing : Departing l net plan stage) {act : Act}
    (considerate : Considerate net act) (stepped : net.step act = some net') {n : Addr} {msg : Msg}
    {ssn : Ssn} (grown : net'.applied = net.applied ++ [(n, msg)])
    (key : msg.pdu.requestKey = some ssn) :
    n ≠ l ∧ ∀ m, m ≠ l → (((net.node m).pc.serving = true ∧
      checkRange (net.node m).selfData ssn = true) ↔ m = n) := by
  have inStage := departing.busy.orderly.inStage
  obtain ⟨i, rfl, polls, serves⟩ := step_applied_grown stepped grown key
  obtain ⟨back, polls⟩ := Option.isSome_iff_exists.mp polls
  rcases inStage.polling_cases polls with ⟨mem, q6⟩ | ⟨p, s, c, c', j, rfl⟩
  · have here : plan.own (hashSsn ssn).toNat = n :=
      (inStage.ring.checkRange_iff mem (by rw [q6]; rfl) ssn).mp serves.2.2
    refine ⟨fun eq => departing.not_q6 (by rw [← eq, q6]), fun m other => ⟨?_, ?_⟩⟩
    · rintro ⟨serving, in_range⟩
      rcases inStage.owner_of_serving serving in_range with owner | ⟨p, s, c, c', rfl⟩ |
        ⟨p, s, c, c', j, rfl⟩
      · exact owner.symm.trans here
      · exact absurd departing.departing other
      · exact absurd departing.departing other
    · rintro rfl
      exact ⟨by rw [q6]; rfl, serves.2.2⟩
  · exact absurd (Polling.pc inStage) (considerate.serves n i msg ssn rfl serves j s)

theorem Departing.goodbyes (departing : Departing l net plan stage) {act : Act}
    (traffic : act.traffic) (stepped : net.step act = some net')
    (before : (net.node l).pc ≠ .exited true) (after : (net'.node l).pc = .exited true) :
    ∃ c c' s, (net.node l).selfData.predecessor = some c ∧
      (net.node l).selfData.successor = ⟨some c', s⟩ ∧
      net'.queue (.up c') = net.queue (.up c') ++ [⟨.netCloseConnection, none⟩] ∧
      net'.queue (.down c) = net.queue (.down c) ++ [⟨.netLeaving s, none⟩] := by
  obtain rfl : act = .finish l := by
    rcases step_exits stepped after with exited | rfl | eq
    · exact absurd exited before
    · cases traffic
    · exact eq
  obtain ⟨i, new, pc, -⟩ := finish_eq_some stepped
  have polls : (net.node l).pc.polls i = some (.lastPoll i new) := by
    rw [pc, Pc.polls, if_pos le_rfl]
  rcases departing.busy.orderly.inStage.polling_cases polls with ⟨-, q6⟩ | ⟨p, s, c, c', j, rfl⟩
  · exact absurd q6 departing.not_q6
  · have polling : Polling net.topology net.control plan l p s c c' j :=
      departing.busy.orderly.inStage
    obtain ⟨successor, predecessor, -⟩ := polling.between.sockets
    exact ⟨c, c', s, predecessor, successor, polling.goodbyes stepped⟩

theorem Departing.onward (departing : Departing l net plan stage) {act : Act}
    (considerate : Considerate net act) (stepped : net.step act = some net') {c : Conn}
    (target : c.target = l) {msg : Msg} (waits : msg ∈ net.requests (.up c)) :
    msg ∈ net'.requests (.up c) ∨
      ∃ c', (net.node l).selfData.fdsSuccessor = some c' ∧ msg ∈ net'.requests (.up c') := by
  rcases considerate.bustling.1.cases with internal | ⟨n, pdu, rfl, -⟩
  · obtain ⟨plan', stage', -, goes⟩ := departing.step internal considerate stepped
    cases goes.flow with
    | still requests =>
        rw [requests]
        exact Or.inl waits
    | serve n loc head rest ssn outcome q6 queue reader key in_range dispatched requests =>
        have apart : Loc.up c ≠ loc := by
          rintro rfl
          rw [← reader, show (Loc.up c).reader = l from target] at q6
          exact departing.not_q6 q6
        rw [requests, Function.update_of_ne apart]
        exact Or.inl waits
    | pass n loc head rest c' queue reader fds apart requests =>
        have sent : head ∈ net'.requests (.up c') := by
          rw [requests, Function.update_self]
          exact List.mem_append_right _ (List.mem_singleton_self head)
        by_cases here : loc = .up c
        · subst here
          obtain rfl : l = n := target.symm.trans reader
          rw [queue] at waits
          rcases List.mem_cons.mp waits with rfl | later
          · exact Or.inr ⟨c', fds, sent⟩
          · rw [requests, Function.update_of_ne (Ne.symm apart), Function.update_self]
            exact Or.inl later
        · left
          rw [requests]
          by_cases next : Loc.up c = .up c'
          · rw [next, Function.update_self, ← next]
            exact List.mem_append_left _ waits
          · rw [Function.update_of_ne next, Function.update_of_ne (Ne.symm here)]
            exact waits
    | spread n fd entries requests =>
        left
        rw [requests]
        by_cases here : Loc.up c = fd
        · rw [← here, Function.update_self]
          exact List.mem_append_left _ waits
        · rw [Function.update_of_ne here]
          exact waits
  · obtain ⟨-, -, -, -, -, -, -, -, -, requests⟩ := client_spec stepped
    rw [requests, Function.update_of_ne (by simp)]
    exact Or.inl waits

theorem Departing.partsWith (departing : Departing l net plan stage) :
    net.PartsWith Considerate l where
  alive := departing.busy.orderly.inStage.sound
  leaving := departing.leaving
  goodbyes act after considerate stepped :=
    departing.goodbyes considerate.bustling.1 stepped
  accounted := departing.busy.accounted
  owner act after n msg ssn considerate stepped := departing.owner considerate stepped
  onward act after considerate stepped c target msg := departing.onward considerate stepped target
  emptied exited c target := by
    rw [List.eq_nil_iff_forall_not_mem]
    intro msg waits
    obtain ⟨listens, -⟩ := departing.busy.orderly.served _ msg waits
    rw [target, show net.topology.pc l = .exited true from exited] at listens
    cases listens
  atRest rest := by
    refine ⟨?_, fun k issued => ?_⟩
    · have idle := departing.busy.orderly.idle_of_rest rest
      rcases idle.inStage.idle_pc l with ⟨-, q6⟩ | ⟨-, pc | exited⟩
      · exact absurd q6 departing.not_q6
      · rcases departing.leaving with pc' | ⟨i, new, pc'⟩ | pc'
        · rw [pc] at pc'
          cases pc'
        · rw [pc] at pc'
          cases pc'
        · rw [pc] at pc'
          cases pc'
      · exact exited
    · rcases departing.busy.accounted.applied_or_waits issued with once | ⟨loc, msg, waits, tagged⟩
      · exact Or.inl once
      · obtain ⟨n, rfl, rfl, -⟩ := departing.busy.requests_of_rest rest waits
        exact Or.inr ⟨msg, waits, tagged⟩

theorem Departing.terminates (departing : Departing l net plan stage) :
    Terminates Net.step (fun net act => act.internal = true ∧ Considerate net act) net := by
  obtain ⟨bound, bounded⟩ := departing.busy.bounded trivial
  have upholds : Upholds (fun net act => act.internal = true ∧ Considerate net act) (Departing l) :=
    ⟨fun _ _ _ here => here.busy.orderly,
      fun _ _ _ _ _ here allowed stepped => here.step allowed.1 allowed.2 stepped⟩
  exact upholds.terminates departing bounded

end

/-- A node may leave while clients send requests: under the condition it says goodbye to
both neighbours, and no request that was sent to it is lost. -/
theorem leave_partsWith {first : Addr} (port : first.port ≠ 0) {ops : List Op} {start begun : Net}
    (history : History Undisturbed Net.Admits first ops start) {acts acts' : List Act}
    (before : Run Net.step Bustling start acts net) {l m : Addr} (other : m ≠ l)
    (serving : (net.node m).pc.serving = true) (leaves : net.step (.leave l) = some begun)
    (run : Run Net.step Considerate begun acts' net') :
    net'.PartsWith Considerate l ∧
      Terminates Net.step (fun net act => act.internal = true ∧ Considerate net act) net' := by
  obtain ⟨plan, admitting, untransferred⟩ := history.admitting port
  obtain ⟨plan', there, untransferred'⟩ := admitting.run_idle untransferred before
  obtain ⟨stage, departing⟩ := there.toWelcoming.leave untransferred' other serving leaves
  obtain ⟨plan'', stage', done⟩ := departing.run run
  exact ⟨done.partsWith, done.terminates⟩

/-! ## Two nodes -/

def joinPair : Script :=
  [(.join nodeB nodeA, [.deliver nodeA .udp, .accept nodeB, .response nodeB, .accept nodeA])]

def Net.considers (net : Net) : Act → Bool
  | .deliver n i => ((net.node n).reads n i).all fun loc => (net.queue loc).head?.all fun msg =>
      msg.pdu.requestKey.all fun ssn =>
        if checkRange (net.node n).selfData ssn then decide ((net.node n).pc = .q6)
        else (net.node n).selfData.fdsSuccessor.all fun c =>
          decide ((net.node c.target).pc ≠ .exited true)
  | .reply n => (net.node n).receives.all fun loc => (net.queue loc).head?.all fun msg =>
      msg.pdu.requestKey.isNone
  | .finish n => (net.node n).selfData.fdsPredecessor.all fun c => decide (net.requests (.up c) = [])
  | _ => true

theorem Net.considers_spec {act : Act} (bustling : Bustling net act)
    (considers : net.considers act = true) : Considerate net act where
  bustling := bustling
  relays := by
    rintro n i msg loc rest ssn c rfl reads queue key out fds
    simpa [Net.considers, reads, queue, key, out, fds] using considers
  awaits := by
    rintro n loc msg rest rfl receives queue
    simpa [Net.considers, receives, queue] using considers
  serves := by
    rintro n i msg ssn rfl ⟨⟨loc, rest, reads, queue⟩, key, in_range⟩ j new last
    simp [Net.considers, reads, queue, key, in_range, last] at considers
  finishes := by
    rintro n c rfl fds
    simpa [Net.considers, fds] using considers

def partFirst : List Act :=
  [.client nodeB (.valInsert firstKey newerPair), .deliver nodeB .udp, .deliver nodeB .predecessor,
    .reply nodeA, .deliver nodeA .predecessor, .finish nodeA, .deliver nodeB .predecessor,
    .deliver nodeB .predecessor, .deliver nodeB .successor]

theorem leave_partsWith_partFirst : ∃ start begun net,
    History Undisturbed Net.Admits nodeA (joinPair.map Prod.fst) start ∧
      start.step (.leave nodeA) = some begun ∧ Run Net.step Considerate begun partFirst net ∧
      (net.node nodeB).selfData.get firstKey = some newerPair ∧
      net.PartsWith Considerate nodeA := by
  have executed : ((((perform (Net.founded nodeA) joinPair).filter fun start =>
      (start.node nodeB).pc.serving).bind fun start => (pairAct (.leave nodeA) start).bind fun begun =>
        (execChecked Net.step (fun net act => (decide act.traffic && net.considers act) &&
          pairStep net act) begun partFirst).filter fun net =>
            decide ((net.node nodeB).selfData.get firstKey = some newerPair))).isSome := by
    decide +kernel
  obtain ⟨net, executed⟩ := Option.isSome_iff_exists.mp executed
  obtain ⟨start, performed, executed⟩ := Option.bind_eq_some_iff.mp executed
  obtain ⟨performed, serving⟩ := Option.filter_eq_some_iff.mp performed
  obtain ⟨begun, left, executed⟩ := Option.bind_eq_some_iff.mp executed
  obtain ⟨executed, stored⟩ := Option.filter_eq_some_iff.mp executed
  obtain ⟨history, pair⟩ := history_of_perform joinPair .founded pair_founded performed
  obtain ⟨stepped, pair'⟩ := pairAct_spec pair left
  obtain ⟨checked, -⟩ := pair'.bustling executed
  have run := checked.mono fun _ _ allowed => Net.considers_spec allowed.1 allowed.2
  obtain ⟨parts, -⟩ := leave_partsWith (by decide) history .nil (by decide) serving stepped run
  exact ⟨start, begun, net, history, stepped, run, of_decide_eq_true stored, parts⟩

/-- The second node leaves, and the first one sends a request on to it before it answers
the offer. -/
def interrupt : List Act :=
  [.client nodeA (.valLookup lastKey nodeC), .deliver nodeA .udp, .deliver nodeA .successor,
    .reply nodeB]

/-- The leaving node takes the request for the answer and ends with an error. -/
theorem leave_interrupted : ¬ ∀ first ops start net begun net' acts acts' l m, first.port ≠ 0 →
    History Undisturbed Net.Admits first ops start → Run Net.step Bustling start acts net → m ≠ l →
    (net.node m).pc.serving = true → net.step (.leave l) = some begun →
    Run Net.step Bustling begun acts' net' → net'.PartsWith Bustling l := by
  intro claim
  have executed : ((((perform (Net.founded nodeA) joinPair).filter fun start =>
      (start.node nodeA).pc.serving).bind fun start => (pairAct (.leave nodeB) start).bind fun begun =>
        (execChecked Net.step (fun net act => (decide act.traffic && true) && pairStep net act) begun
          interrupt).filter fun net => decide ((net.node nodeB).pc = .exited false))).isSome := by
    decide +kernel
  obtain ⟨net, executed⟩ := Option.isSome_iff_exists.mp executed
  obtain ⟨start, performed, executed⟩ := Option.bind_eq_some_iff.mp executed
  obtain ⟨performed, serving⟩ := Option.filter_eq_some_iff.mp performed
  obtain ⟨begun, left, executed⟩ := Option.bind_eq_some_iff.mp executed
  obtain ⟨executed, ended⟩ := Option.filter_eq_some_iff.mp executed
  obtain ⟨history, pair⟩ := history_of_perform joinPair .founded pair_founded performed
  obtain ⟨stepped, begins⟩ := pairAct_spec pair left
  obtain ⟨checked, -⟩ := begins.bustling executed
  have run := checked.mono fun _ _ allowed => allowed.1
  have parts := claim nodeA _ start start begun net [] interrupt nodeB nodeA (by decide) history
    .nil (by decide) serving stepped run
  exact (parts.alive nodeB).1 (of_decide_eq_true ended)

end DhtRing

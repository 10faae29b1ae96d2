import DhtRing.Upkeep

/-!
# Every step is orderly

The remaining steps of a change: a node takes a connection, reads its range, hands its
entries over or says goodbye.
-/

set_option autoImplicit false

namespace DhtRing

variable {net net' : Net} {plan plan' : Plan} {stage stage' : Change}

/-! ## Taking a connection -/

section

variable {T : Topology} {n : Addr} {conn : Conn} {pc : Pc} {loc : Loc}

theorem Topology.Served.accept (served : T.Served loc) (waits : T.backlog n = [conn])
    (noIn : (T.wiring n).fdsPredecessor = none) (listens : pc.listens = true)
    (serves : (T.pc n).serving = true → pc.serving = true) (alive : T.pc n ≠ .exited true) :
    (T.accept n conn pc).Served loc := by
  have pc_here : (T.accept n conn pc).pc n = pc := Function.update_self ..
  have pc_there : ∀ m, m ≠ n → (T.accept n conn pc).pc m = T.pc m :=
    fun m other => Function.update_of_ne other ..
  have wiring_here : (T.accept n conn pc).wiring n =
      { T.wiring n with predecessor := some conn, fdsPredecessor := some conn } :=
    Function.update_self ..
  have wiring_there : ∀ m, m ≠ n → (T.accept n conn pc).wiring m = T.wiring m :=
    fun m other => Function.update_of_ne other ..
  cases loc with
  | udp m =>
      by_cases here : m = n
      · subst here
        left
        rw [pc_here]
        exact serves (served.resolve_right alive)
      · change _ ∨ _
        rw [pc_there m here]
        exact served
  | up c =>
      obtain ⟨there, reads⟩ := served
      by_cases here : c.target = n
      · refine ⟨by rw [here, pc_here]; exact listens, Or.inl ?_⟩
        rw [here] at reads
        rw [here, wiring_here]
        rcases reads with fds | waiting
        · rw [noIn] at fds
          cases fds
        · rw [waits, List.mem_singleton] at waiting
          rw [waiting]
      · refine ⟨by rw [pc_there _ here]; exact there, ?_⟩
        rw [wiring_there _ here]
        rcases reads with fds | waiting
        · exact Or.inl fds
        · right
          change c ∈ Function.update T.backlog n [] c.target
          rw [Function.update_of_ne here]
          exact waiting
  | down c =>
      obtain ⟨there, fds⟩ := served
      by_cases here : c.source = n
      · rw [here] at there fds
        refine ⟨by rw [here, pc_here]; exact serves there, ?_⟩
        rw [here, wiring_here]
        exact fds
      · refine ⟨by rw [pc_there _ here]; exact there, ?_⟩
        rw [wiring_there _ here]
        exact fds

end

section

variable {n : Addr}

theorem Orderly.accept_step (orderly : Orderly net plan stage)
    (stepped : net.step (.accept n) = some net') :
    (∃ plan' stage', Orderly net' plan' stage' ∧ net.Leads plan stage (.accept n) plan' stage') ∧
      net.Flow net' := by
  have inStage := orderly.inStage
  obtain ⟨plan', stage', there, leads⟩ := inStage.accept stepped
  obtain ⟨back, conn, rest, accepted, waits, rfl⟩ := accept_eq_some stepped
  -- what both cases share
  have after : ∀ stage', net.backlog n = [conn] → net.topology.NoIn n →
      (({ net with backlog := Function.update net.backlog n rest }).setNode n
        ⟨back, (net.node n).selfData.acceptPredecessor conn⟩).InStage plan stage' →
      stage'.Ordered net.queue → back.inRing = (net.node n).pc.inRing → back.listens = true →
      ((net.node n).pc.serving = true → back.serving = true) → (net.node n).pc ≠ .exited true →
      stage'.early = false →
      Orderly (({ net with backlog := Function.update net.backlog n rest }).setNode n
        ⟨back, (net.node n).selfData.acceptPredecessor conn⟩) plan stage' ∧
      net.Flow (({ net with backlog := Function.update net.backlog n rest }).setNode n
        ⟨back, (net.node n).selfData.acceptPredecessor conn⟩) := by
    intro stage' single noIn there ordered inRing listens serves alive late
    obtain rfl : rest = [] := (List.cons.inj (waits.symm.trans single)).2
    refine ⟨orderly.still there rfl (tidy_update rfl orderly.tidy ?_) ordered ?_ ?_ (Or.inl rfl) ?_,
      .still rfl rfl rfl (stored_update rfl ?_)⟩
    · intro here
      exact orderly.tidy n (inRing ▸ here)
    · intro loc msg mem served
      rw [accept_topology]
      exact served.accept single noIn.fds listens serves alive
    · intro early
      rw [late] at early
      cases early
    · cases stage' with
      | taken l p s c c' => cases late
      | _ => trivial
    · intro key
      rw [inRing]
      rfl
  cases leads with
  | accept x y w c start stop lower =>
      have repair : Repair net.topology net.control plan n y (.accepting w c start stop) lower := inStage
      obtain ⟨apart, -, -, -, noIn, -, backlog, -⟩ := repair.upper_ok
      have pc : (net.node n).pc = .q7Accept := repair.pc_x apart
      have single : net.backlog n = [c] := backlog
      obtain ⟨rfl, -⟩ := List.cons.inj (waits.symm.trans single)
      rw [pc] at accepted
      cases accepted
      obtain ⟨orderly', flow⟩ := after (.repair n y (.receiving conn start stop) lower) single noIn
        there orderly.ordered (by rw [pc]; rfl) rfl (by rw [pc]; exact fun serves => by cases serves)
        (by rw [pc]; simp) rfl
      exact ⟨⟨plan, _, orderly', .accept n y w conn start stop lower⟩, flow⟩
  | settle x y c =>
      have repair : Repair net.topology net.control plan x n (.connected c) .waiting := inStage
      have pc : (net.node n).pc = .q6Accept := repair.pc_y
      have single : net.backlog n = [c] := repair.backlog
      obtain ⟨rfl, -⟩ := List.cons.inj (waits.symm.trans single)
      rw [pc] at accepted
      cases accepted
      obtain ⟨orderly', flow⟩ := after .idle single repair.lower_ok.2 there trivial (by rw [pc]; rfl)
        rfl (fun _ => rfl) (by rw [pc]; simp) rfl
      exact ⟨⟨plan, _, orderly', .settle x n conn⟩, flow⟩

theorem Orderly.response_step (orderly : Orderly net plan stage)
    (careful : Careful net (.response n)) (stepped : net.step (.response n) = some net') :
    (∃ plan' stage', Orderly net' plan' stage' ∧ net.Leads plan stage (.response n) plan' stage') ∧
      net.Flow net' := by
  have inStage := orderly.inStage
  have unharmed := orderly.unharmed careful stepped
  obtain ⟨plan', stage', there, leads⟩ := inStage.response unharmed stepped
  obtain ⟨waits, loc, receives, reads⟩ := response_eq_some stepped
  cases leads with
  | response x y c start stop lower =>
      have repair : Repair net.topology net.control plan n y (.receiving c start stop) lower := inStage
      obtain ⟨apart, inn, -⟩ := repair.upper_ok
      obtain ⟨⟨first, later, head, plain⟩, last⟩ := orderly.ordered
      have predecessor : (net.node n).selfData.predecessor = some c := inn.predecessor
      rw [Proc.receives, waits, predecessor] at receives
      obtain rfl : Loc.up c = loc := Option.some.inj receives
      have answers := repair.answers_y
      have given : first.pdu = .netJoinResponse y start stop := by
        rcases List.mem_append.mp (mem_control head plain repair.posts) with at_x | at_y
        · exact (Prod.mk.inj (List.mem_singleton.mp at_x)).2
        · cases lower with
          | closing c' =>
              obtain ⟨eq, -⟩ := Prod.mk.inj (List.mem_singleton.mp at_y)
              cases eq
              exact absurd (inn.target.symm.trans repair.lower_ok.1.target) apart
          | _ => cases at_y
      rcases reads with ⟨next, rangeStart, rangeEnd, req, rest, queue, rfl⟩ | ⟨other, -⟩
      · obtain ⟨rfl, rfl⟩ := List.cons.inj (head.symm.trans queue)
        cases given
        rw [q8_answered start stop answers] at there ⊢
        have requests : (net.setQueue (.up c) later).requests = net.requests :=
          requests_of_plain queue rfl
        let data : SelfData := { (net.node n).selfData with
          hashTable := some htCreate
          rangeStart := start
          rangeEnd := stop
          successor := ⟨some (net.env.conn (net.node n).selfData y), y⟩
          fdsSuccessor := some (net.env.conn (net.node n).selfData y) }
        have node : ((net.setQueue (.up c) later).commit n .q6 none
            ⟨data, [.connect (net.env.conn (net.node n).selfData y)], .run⟩).node =
            Function.update net.node n ⟨.q6, data⟩ := by
          rw [commit_node, setQueue_node]
          rfl
        refine ⟨⟨plan, .repair n y (.connected ⟨n, y, net.topology.serial⟩) lower,
          orderly.still there ?_ (tidy_update node orderly.tidy fun _ => Tidy.of_create rfl)
            ⟨trivial, ?_⟩ ?_ (fun early => by cases early) (Or.inl rfl) trivial,
          .response n y c start stop lower⟩, .still requests rfl rfl (stored_update node ?_)⟩
        · exact requests
        · cases lower with
          | closing c' =>
              obtain ⟨before, goodbye, there, plain'⟩ := last
              refine ⟨before, goodbye, ?_, plain'⟩
              refine (Function.update_of_ne ?_ ..).trans there
              intro eq
              cases eq
              exact apart (inn.target.symm.trans repair.lower_ok.1.target)
          | _ => trivial
        · intro loc msg mem served
          rw [commit_topology, setQueue_topology]
          refine served.put _ rfl ?_ fun c _ _ fds => fds
          intro c _ _ serving
          have pc : net.topology.pc n = .q7Receive := waits
          rw [pc] at serving
          cases serving
        · intro key
          rw [Net.stored, waits]
          rfl
      · obtain ⟨pdu, req⟩ := first
        obtain rfl : pdu = _ := given
        exact absurd head (other y start stop req later)

theorem setQueue_tail_requests {loc : Loc}
    (plain : ∀ msg rest, net.queue loc = msg :: rest → msg.pdu.requestKey = none) :
    (net.setQueue loc (net.queue loc).tail).requests = net.requests := by
  cases queue : net.queue loc with
  | nil =>
      rw [List.tail_nil, setQueue_requests, List.filter_nil]
      have none_yet : net.requests loc = [] := by
        rw [Net.requests, queue]
        rfl
      rw [← none_yet]
      exact Function.update_eq_self loc net.requests
  | cons msg rest => exact requests_of_plain queue (plain msg rest queue)

/-- All entries are sent, and then the answer is looked at. -/
theorem handOver_mirrored {selfData : SelfData} {fd : Loc} {keys : List Ssn}
    (connected : selfData.fd selfData.heir = some fd) (mirrored : Mirrored selfData keys) :
    ∃ ssns, handOver selfData true =
        ⟨{ selfData with hashTable := none, ssns := ssns, rangeStart := 255, rangeEnd := 255 },
          insertAll fd (selfData.listed keys), .run⟩ ∧
      (handOver selfData false).ctl = .exit "Unexpected response type" := by
  obtain ⟨ssns, run⟩ := sendAllEntries_mirrored connected mirrored
  refine ⟨ssns, ?_, ?_⟩
  · rw [handOver, run, andThen_run]
    simp
  · rw [handOver, run, andThen_run]
    rfl

theorem Polling.reads {p s : Addr} {c c' : Conn} {i : FdsIndex}
    (polling : Polling net.topology net.control plan n p s c c' i) (rangeStart : UInt8) :
    let fd := if rangeStart = 0 then Loc.up c' else .down c
    net.topology.Served fd ∧ fd.reader = if rangeStart = 0 then s else p := by
  have between := polling.between
  have member_s : plan.Member s :=
    polling.next_p ▸ Plan.member_next polling.ring.tiled between.prev
  split
  · refine ⟨between.in_s.served ?_, between.out_l.target⟩
    rw [polling.idle s member_s]
    rfl
  · have source : c.source = p := between.out_p.source
    refine ⟨⟨?_, ?_⟩, source⟩
    · rw [source, polling.idle p between.prev]
      rfl
    · rw [source]
      exact between.out_p.fds

theorem Orderly.heir_owner {p s : Addr} {c c' : Conn} {keys : List Ssn}
    (orderly : Orderly net plan (.taken n p s c c'))
    (inside : ∀ key ∈ keys, checkRange (net.node n).selfData key = true) :
    ∀ entry ∈ (net.node n).selfData.listed keys, plan.own (hashSsn entry.1).toNat =
      if (net.node n).selfData.rangeStart = 0 then s else p := by
  intro entry listed
  have in_range := inside entry.1 (mem_listed_get listed).1
  rw [checkRange_eq_true] at in_range
  exact orderly.bequest _ in_range.1 in_range.2

theorem Orderly.reply_step (orderly : Orderly net plan stage)
    (careful : Careful net (.reply n)) (stepped : net.step (.reply n) = some net') :
    (∃ plan' stage', Orderly net' plan' stage' ∧ net.Leads plan stage (.reply n) plan' stage') ∧
      net.Flow net' := by
  have inStage := orderly.inStage
  have unharmed := orderly.unharmed careful stepped
  obtain ⟨plan', stage', there, leads⟩ := inStage.reply unharmed stepped
  obtain ⟨waits, loc, granted, receives, reads, rfl⟩ := reply_eq_some stepped
  cases leads with
  | reply l p s c c' =>
      have taken : Taken net.topology net.control plan n p s c c' := inStage
      have polling : Polling _ _ plan n p s c c' .udp := there
      obtain ⟨keys, mirrored, room, inside⟩ := orderly.tidy n (by rw [waits]; rfl)
      obtain ⟨ssns, given, refused⟩ := handOver_mirrored taken.between.heir_fd mirrored
      -- anything but the expected answer would have ended the node
      have granted_eq : granted = true := by
        cases granted with
        | true => rfl
        | false =>
            have pc := polling.pc
            rw [commit_topology] at pc
            have pc : Pc.after (.lastPoll .udp _) (handOver (net.node n).selfData false).ctl =
              .lastPoll .udp s := (Function.update_self ..).symm.trans pc
            rw [refused] at pc
            cases pc
      subst granted_eq
      let fd := if (net.node n).selfData.rangeStart = 0 then Loc.up c' else .down c
      have is_open : net.shut fd = false := by
        obtain ⟨-, -, up, down⟩ := taken.between.sockets
        unfold fd
        split
        · exact up
        · exact down
      have plain : ∀ msg rest, net.queue loc = msg :: rest → msg.pdu.requestKey = none :=
        fun msg rest => careful.awaits n loc msg rest rfl receives
      generalize net_eq : (net.setQueue loc (net.queue loc).tail).commit n
        (.lastPoll .udp (net.node n).selfData.successor.destAddr) none
        (handOver (net.node n).selfData true) = net' at *
      rw [given] at net_eq
      have requests : net'.requests = Function.update net.requests fd
          (net.requests fd ++ ((net.node n).selfData.listed keys).map transfer) := by
        rw [← net_eq, Net.commit, setNode_requests, performAll_insertAll,
          setQueue_tail_requests plain]
        exact is_open
      have node : net'.node = Function.update net.node n
          ⟨.lastPoll .udp (net.node n).selfData.successor.destAddr,
            { (net.node n).selfData with
              hashTable := none
              ssns := ssns
              rangeStart := 255
              rangeEnd := 255 }⟩ := by
        rw [← net_eq, commit_node, setQueue_node]
        rfl
      have topology : net'.topology =
          ((insertAll fd ((net.node n).selfData.listed keys)).foldl Topology.perform
            net.topology).put n (.lastPoll .udp (net.node n).selfData.successor.destAddr)
              { (net.node n).selfData.wiring with rangeStart := 255, rangeEnd := 255 } := by
        rw [← net_eq, commit_topology]
        rfl
      obtain ⟨served, reader⟩ := polling.reads (net.node n).selfData.rangeStart
      refine ⟨⟨plan, _, orderly.transferred there requests (tidy_update node orderly.tidy ?_) trivial
        ?_ served rfl (Or.inl rfl) ?_ trivial, .reply n p s c c'⟩,
        .transferred mirrored (List.Sublist.refl keys) ?_ node requests ?_ ?_ ?_⟩
      · intro inRing
        cases inRing
      · intro other found old served
        rw [topology]
        exact served.put _ rfl (fun c _ _ _ fds => fds) fun c _ _ fds => fds
      · rw [reader]
        exact Orderly.heir_owner orderly inside
      · rw [waits]
        rfl
      · rw [← net_eq, Net.commit, setNode_applied, performAll_applied, setQueue_applied]
      · rw [← net_eq, Net.commit, setNode_replies, performAll_replies, insertAll_replies,
          setQueue_replies, List.append_nil]
      · intro key
        by_cases mem : key ∈ keys
        · rw [if_pos mem]
          rfl
        · rw [if_neg mem]
          exact (mirrored.get_eq_none mem).symm

theorem Polling.calls {p s new : Addr} {c c' : Conn} {i j : FdsIndex}
    (polling : Polling net.topology net.control plan n p s c c' i)
    (pc : (net.node n).pc = .lastPoll j new) :
    new = s ∧ sayGoodbye (net.node n).selfData s =
      [.tcp (.up c') .netCloseConnection, .tcp (.down c) (.netLeaving s)] := by
  obtain ⟨successor, predecessor, -, -⟩ := polling.between.sockets
  have here : (net.node n).pc = .lastPoll i s := polling.pc
  rw [pc] at here
  cases here
  refine ⟨rfl, ?_⟩
  rw [sayGoodbye, sendSuccessor, sendPredecessor, successor, predecessor]
  rfl

theorem Polling.goodbyes {p s : Addr} {c c' : Conn} {i : FdsIndex}
    (polling : Polling net.topology net.control plan n p s c c' i)
    (stepped : net.step (.finish n) = some net') :
    net'.queue (.up c') = net.queue (.up c') ++ [⟨.netCloseConnection, none⟩] ∧
      net'.queue (.down c) = net.queue (.down c) ++ [⟨.netLeaving s, none⟩] := by
  obtain ⟨i, new, pc, rfl⟩ := finish_eq_some stepped
  obtain ⟨-, -, up, down⟩ := polling.between.sockets
  obtain ⟨rfl, calls⟩ := polling.calls pc
  have queue : ∀ fd, net.shut fd = false →
      (net.performAll none (sayGoodbye (net.node n).selfData new)).queue fd = net.queue fd ++
        ((sayGoodbye (net.node n).selfData new).filterMap (Effect.sentTo fd)).map
          fun pdu => ⟨pdu, none⟩ := by
    intro fd opened
    apply performAll_queue opened
    rw [calls]
    simp
  constructor
  · rw [setNode_queue, queue _ up, calls]
    simp [Effect.sentTo]
  · rw [setNode_queue, queue _ down, calls]
    simp [Effect.sentTo]

theorem Orderly.finish_step (orderly : Orderly net plan stage)
    (careful : Careful net (.finish n)) (stepped : net.step (.finish n) = some net') :
    (∃ plan' stage', Orderly net' plan' stage' ∧ net.Leads plan stage (.finish n) plan' stage') ∧
      net.Flow net' := by
  have inStage := orderly.inStage
  obtain ⟨plan', stage', there, leads⟩ := inStage.finish stepped
  obtain ⟨i, new, pc, rfl⟩ := finish_eq_some stepped
  cases leads with
  | finish l p s c c' i =>
      have polling : Polling net.topology net.control plan n p s c c' i := inStage
      have between := polling.between
      have goodbyes := polling.goodbyes stepped
      obtain ⟨rfl, calls⟩ := polling.calls pc
      have sends : ∀ fd pdu, .tcp fd pdu ∈ sayGoodbye (net.node n).selfData new →
          pdu.requestKey = none := by
        intro fd pdu mem
        rw [calls] at mem
        rcases List.mem_cons.mp mem with eq | mem
        · cases eq
          rfl
        · cases List.mem_singleton.mp mem
          rfl
      have requests : ((net.performAll none (sayGoodbye (net.node n).selfData new)).setNode n
          ⟨.exited true, (net.node n).selfData⟩).requests = net.requests := by
        rw [setNode_requests, performAll_requests_plain sends]
      have node : ((net.performAll none (sayGoodbye (net.node n).selfData new)).setNode n
          ⟨.exited true, (net.node n).selfData⟩).node =
          Function.update net.node n ⟨.exited true, (net.node n).selfData⟩ := by
        rw [setNode_node, performAll_node]
      have silent : (sayGoodbye (net.node n).selfData new).filterMap (Effect.reply none) = [] := by
        rw [calls]
        rfl
      have topology : ((net.performAll none (sayGoodbye (net.node n).selfData new)).setNode n
          ⟨.exited true, (net.node n).selfData⟩).topology = net.topology.goesOn n (.exited true) := by
        rw [setNode_topology, performAll_topology, calls]
        unfold Topology.put Topology.goesOn
        congr 1
        exact Function.update_eq_self n net.topology.wiring
      refine ⟨⟨plan, _, orderly.still there requests (tidy_update node orderly.tidy ?_) ⟨?_, ?_⟩ ?_
        (fun early => by cases early) (Or.inl rfl) trivial, .finish n p new c c' i⟩,
        .still requests ?_ ?_ (stored_update node ?_)⟩
      · intro inRing
        cases inRing
      · exact ⟨net.queue (.down c), ⟨.netLeaving new, none⟩, goodbyes.2, rfl⟩
      · exact ⟨net.queue (.up c'), ⟨.netCloseConnection, none⟩, goodbyes.1, rfl⟩
      · -- no request waits for the node but at its UDP socket
        intro loc msg mem served
        rw [topology]
        have pc_here : (net.topology.goesOn n (.exited true)).pc n = .exited true :=
          Function.update_self ..
        have pc_there : ∀ m, m ≠ n → (net.topology.goesOn n (.exited true)).pc m = net.topology.pc m :=
          fun m other => Function.update_of_ne other ..
        cases loc with
        | udp m =>
            by_cases here : m = n
            · subst here
              exact Or.inr pc_here
            · change _ ∨ _
              rw [pc_there m here]
              exact served
        | up c₀ =>
            obtain ⟨listens, reads⟩ := served
            have elsewhere : c₀.target ≠ n := by
              intro target
              rw [target] at reads
              have fds : (net.topology.wiring n).fdsPredecessor = some c := between.in_l.fds
              rcases reads with held | waiting
              · have empty := careful.finishes n c rfl fds
                obtain rfl : c = c₀ := Option.some.inj (fds.symm.trans held)
                rw [mem_requests, empty] at mem
                cases mem.1
              · rw [between.backlog_l] at waiting
                cases waiting
            refine ⟨?_, reads⟩
            rw [pc_there _ elsewhere]
            exact listens
        | down c₀ =>
            obtain ⟨serves, fds⟩ := served
            have elsewhere : c₀.source ≠ n := by
              intro source
              obtain ⟨ssn, key⟩ := Option.isSome_iff_exists.mp (mem_requests.mp mem).2
              have owner := orderly.owned _ msg ssn mem (orderly.downs c₀ msg mem) key
              exact polling.gone ⟨_, (hashSsn ssn).toNat_lt, owner.trans source⟩
            refine ⟨?_, fds⟩
            rw [pc_there _ elsewhere]
            exact serves
      · rw [setNode_applied, performAll_applied]
      · rw [setNode_replies, performAll_replies, silent, List.append_nil]
      · intro key
        rw [Net.stored, pc]
        rfl

end

/-! ## Every step -/

def Net.Goes (net : Net) (plan : Plan) (stage : Change) (act : Act) (net' : Net) (plan' : Plan)
    (stage' : Change) : Prop :=
  (net.Leads plan stage act plan' stage' ∧ net.Flow net') ∨
    (plan' = plan ∧ stage.Turns stage' ∧ net.Handled net')

theorem Net.Goes.flow {act : Act} (goes : net.Goes plan stage act net' plan' stage') :
    net.Flow net' := by
  rcases goes with ⟨-, flow⟩ | ⟨-, -, handled⟩
  · exact flow
  · exact handled.flow

/-- Every step of an orderly network leaves it orderly and loses nothing. -/
theorem Orderly.step (orderly : Orderly net plan stage) {act : Act} (internal : act.internal = true)
    (careful : Careful net act) (stepped : net.step act = some net') :
    ∃ plan' stage', Orderly net' plan' stage' ∧ net.Goes plan stage act net' plan' stage' := by
  have leads : (∃ plan' stage', Orderly net' plan' stage' ∧ net.Leads plan stage act plan' stage') ∧
      net.Flow net' →
      ∃ plan' stage', Orderly net' plan' stage' ∧ net.Goes plan stage act net' plan' stage' := by
    rintro ⟨⟨plan', stage', orderly', leads⟩, flow⟩
    exact ⟨plan', stage', orderly', Or.inl ⟨leads, flow⟩⟩
  cases act with
  | deliver n i =>
      obtain ⟨back, loc, msg, rest, outcome, polls, reads, queue, -, -⟩ := deliver_eq_some stepped
      have head : ∀ {loc' msg' rest'}, (net.node n).reads n i = some loc' →
          net.queue loc' = msg' :: rest' → msg' = msg := by
        intro loc' msg' rest' reads' queue'
        cases reads.symm.trans reads'
        exact (List.cons.inj (queue'.symm.trans queue)).1
      cases request : msg.pdu.requestKey with
      | none =>
          apply leads
          apply orderly.control_step careful stepped
          intro loc' msg' rest' reads' queue'
          rw [head reads' queue']
          exact request
      | some ssn =>
          obtain ⟨⟨stage', orderly', turns⟩, handled⟩ := orderly.request_step careful stepped (by
            intro loc' msg' rest' reads' queue'
            rw [head reads' queue', request]
            rfl)
          exact ⟨plan, stage', orderly', Or.inr ⟨rfl, turns, handled⟩⟩
  | discard n i k =>
      rw [orderly.inStage.no_discard n i k] at stepped
      cases stepped
  | eof n i =>
      rw [orderly.inStage.no_eof n i] at stepped
      cases stepped
  | accept n => exact leads (orderly.accept_step stepped)
  | response n => exact leads (orderly.response_step careful stepped)
  | reply n => exact leads (orderly.reply_step careful stepped)
  | finish n => exact leads (orderly.finish_step careful stepped)
  | _ => cases internal

end DhtRing

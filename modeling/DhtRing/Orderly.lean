import DhtRing.Requests

/-!
# Requests during a membership change

While one node joins or leaves, every request on its way waits where some node reads
it, and the goodbye of a neighbour is the last that it sends.  This is so as long as
a leaving node is careful with the requests that reach it.
-/

set_option autoImplicit false

namespace DhtRing

variable {net net' : Net} {plan plan' : Plan} {stage stage' : Change}

/-! ## Where requests wait -/

/-- A node reads from the place, or it is the UDP socket of a node that has left. -/
def Topology.Served (T : Topology) : Loc → Prop
  | .udp n => (T.pc n).serving = true ∨ T.pc n = .exited true
  | .up c => (T.pc c.target).listens = true ∧
      ((T.wiring c.target).fdsPredecessor = some c ∨ c ∈ T.backlog c.target)
  | .down c => (T.pc c.source).serving = true ∧ (T.wiring c.source).fdsSuccessor = some c

def Upper.Ordered (queue : Loc → List Msg) : Upper → Prop
  | .accepting _ c _ _ => ∃ msg rest, queue (.up c) = msg :: rest ∧ msg.pdu.requestKey = none
  | .receiving c _ _ => ∃ msg rest, queue (.up c) = msg :: rest ∧ msg.pdu.requestKey = none
  | .orphan c => ∃ before msg, queue (.down c) = before ++ [msg] ∧ msg.pdu.requestKey = none
  | _ => True

def Lower.Ordered (queue : Loc → List Msg) : Lower → Prop
  | .closing c => ∃ before msg, queue (.up c) = before ++ [msg] ∧ msg.pdu.requestKey = none
  | _ => True

def Change.Ordered (queue : Loc → List Msg) : Change → Prop
  | .repair _ _ upper lower => upper.Ordered queue ∧ lower.Ordered queue
  | _ => True

def Change.early : Change → Bool
  | .joining _ _ _ _ _ | .offered _ _ _ _ _ | .taken _ _ _ _ _ => true
  | _ => false

/-- The heir owns the range that a leaving node has still to hand over. -/
def Change.Bequest (T : Topology) (plan : Plan) : Change → Prop
  | .taken l p s _ _ => ∀ x, (T.wiring l).rangeStart.toNat ≤ x → x ≤ (T.wiring l).rangeEnd.toNat →
      plan.own x = if (T.wiring l).rangeStart = 0 then s else p
  | _ => True

/-- The requests wait for nodes that read them, transferred entries for their owners. -/
structure Orderly (net : Net) (plan : Plan) (stage : Change) : Prop where
  inStage : net.InStage plan stage
  tidy : ∀ n, (net.node n).pc.inRing = true → Tidy (net.node n).selfData
  ordered : stage.Ordered net.queue
  served : ∀ loc msg, msg ∈ net.requests loc → net.topology.Served loc
  late : stage.early = true → ∀ loc msg, msg ∈ net.requests loc → msg.req ≠ none
  owned : ∀ loc msg ssn, msg ∈ net.requests loc → msg.req = none →
    msg.pdu.requestKey = some ssn → plan.own (hashSsn ssn).toNat = loc.reader
  downs : ∀ c msg, msg ∈ net.requests (.down c) → msg.req = none
  bequest : stage.Bequest net.topology plan

/-- The step treats requests with care.  A request in range is served by a node in `q6`
that has a slot for it and finds the slot of its key; none is passed on to a node that
has ended; no leaving node takes one for the answer it waits for, or ends while its
predecessor's wait. -/
structure Careful (net : Net) (act : Act) : Prop where
  serves : ∀ n i loc msg rest ssn call, act = .deliver n i → (net.node n).reads n i = some loc →
    net.queue loc = msg :: rest → msg.pdu.requestKey = some ssn → msg.pdu.call = some call →
    checkRange (net.node n).selfData ssn = true →
      (net.node n).pc = .q6 ∧ HasRoom (net.node n).selfData call ∧
        ScansBucket (net.node n).selfData call
  relays : ∀ n i loc msg rest ssn c, act = .deliver n i → (net.node n).reads n i = some loc →
    net.queue loc = msg :: rest → msg.pdu.requestKey = some ssn →
    checkRange (net.node n).selfData ssn = false → (net.node n).selfData.fdsSuccessor = some c →
      (net.node c.target).pc ≠ .exited true
  awaits : ∀ n loc msg rest, act = .reply n → (net.node n).receives = some loc →
    net.queue loc = msg :: rest → msg.pdu.requestKey = none
  finishes : ∀ n c, act = .finish n → (net.node n).selfData.fdsPredecessor = some c →
    net.queue (.up c) = []

/-! ## Connections that are read -/

theorem Topology.In.served {T : Topology} {m : Addr} {c : Conn} (inn : T.In m c)
    (listens : (T.pc m).listens = true) : T.Served (.up c) := by
  have target := inn.target
  subst target
  exact ⟨listens, Or.inl inn.fds⟩

theorem Topology.served_waiting {T : Topology} {m : Addr} {c : Conn} (target : c.target = m)
    (waits : T.backlog m = [c]) (listens : (T.pc m).listens = true) : T.Served (.up c) := by
  subst target
  exact ⟨listens, Or.inr (by rw [waits]; exact List.mem_singleton.mpr rfl)⟩

theorem Ring.whole {bare guest : Addr → Prop} (ring : Ring net.topology plan bare guest) {n : Addr}
    (mem : plan.Member n) (born : (net.node n).pc.born = true) (self : plan.next n = n)
    (ssn : Ssn) :
    checkRange (net.node n).selfData ssn = true := by
  obtain ⟨start, stop⟩ := ring.node_range mem born
  obtain ⟨lo, hi⟩ := (Plan.next_eq_self ring.tiled mem).mp self
  rw [checkRange_eq_true, start, stop, lo, hi]
  have := (hashSsn ssn).toNat_lt
  omega

/-- A polling node passes requests on to a node that reads them, or to one that has
ended. -/
theorem Net.InStage.relays (inStage : net.InStage plan stage) {n : Addr} {i : FdsIndex} {back : Pc}
    (polls : (net.node n).pc.polls i = some back) {ssn : Ssn}
    (out : checkRange (net.node n).selfData ssn = false) :
    ∃ c, (net.node n).selfData.fdsSuccessor = some c ∧ net.shut (.up c) = false ∧ c.target ≠ n ∧
      ((net.node c.target).pc = .exited true ∨ net.topology.Served (.up c)) := by
  have ring := inStage.ring
  have reach : ∀ {c m}, net.topology.Out n c m → n ≠ m → net.topology.Served (.up c) →
      ∃ c, (net.node n).selfData.fdsSuccessor = some c ∧ net.shut (.up c) = false ∧ c.target ≠ n ∧
        ((net.node c.target).pc = .exited true ∨ net.topology.Served (.up c)) :=
    fun out other served => ⟨_, out.fds, out.is_open, out.target ▸ Ne.symm other, Or.inr served⟩
  rcases inStage.polling_cases polls with ⟨mem, q6⟩ | ⟨p, s, c, c', j, rfl⟩
  · have born : (net.node n).pc.born = true := by
      rw [q6]
      rfl
    have apart : plan.next n ≠ n := by
      intro self
      rw [ring.whole mem born self ssn] at out
      cases out
    by_cases bare : stage.Bare n
    · cases stage with
      | taken l p s c c' =>
          have between := Taken.between inStage
          obtain rfl : n = p := bare
          exact reach between.out_p between.other
            (between.in_l.served (inStage.listens (Or.inr rfl)))
      | polling l p s c c' i' =>
          have between := Polling.between inStage
          obtain rfl : n = p := bare
          exact reach between.out_p between.other
            (between.in_l.served (inStage.listens (Or.inr rfl)))
      | repair x y upper lower =>
          have repair : Repair net.topology net.control plan x y upper lower := inStage
          have ok := repair.upper_ok
          have listens_x := inStage.listens (Or.inl repair.member)
          cases upper with
          | accepting w c start stop =>
              rcases bare with rfl | feeds
              · have pc : (net.node n).pc = .q7Accept := repair.pc_x ok.1
                rw [q6] at pc
                cases pc
              · obtain rfl : n = w := feeds
                obtain ⟨-, -, next, out, -, -, waits, -⟩ := ok
                exact reach out (fun eq => apart (next.trans eq.symm))
                  (Topology.served_waiting out.target waits listens_x)
          | receiving c start stop =>
              obtain rfl : n = x := bare.resolve_right fun feeds => feeds
              have pc : (net.node n).pc = .q7Receive := repair.pc_x ok.1
              rw [q6] at pc
              cases pc
          | orphan c =>
              obtain rfl : n = x := bare.resolve_right fun feeds => feeds
              refine ⟨c, ok.1.fds, ok.1.is_open, fun eq => ?_, Or.inl ok.2⟩
              have gone : (net.node c.target).pc = .exited true := ok.2
              rw [eq, q6] at gone
              cases gone
          | connected c =>
              obtain rfl : n = x := bare.resolve_right fun feeds => feeds
              have mem_y : plan.Member y := repair.next ▸ Plan.member_next ring.tiled mem
              exact reach ok.2.1 ok.1 (Topology.served_waiting ok.2.1.target repair.backlog
                (inStage.listens (Or.inl mem_y)))
          | alone =>
              obtain rfl : n = x := bare.resolve_right fun feeds => feeds
              exact absurd (repair.next.trans ok.1.symm) apart
      | _ => exact bare.elim
    · rcases ring.linked n mem bare with ⟨other, c, link, inn, -⟩ | ⟨self, -⟩
      · exact reach link other (inn.served (inStage.listens (Or.inl (Plan.member_next ring.tiled mem))))
      · exact absurd self.symm apart
  · have polling : Polling net.topology net.control plan n p s c c' j := inStage
    have between := polling.between
    have mem_s := polling.next_p ▸ Plan.member_next ring.tiled between.prev
    exact reach between.out_l between.other' (between.in_s.served (inStage.listens (Or.inl mem_s)))

/-! ## No harm -/

/-- A node that waits for an answer still has both neighbours. -/
theorem Net.InStage.awaiting (inStage : net.InStage plan stage) {n : Addr}
    (waits : (net.node n).pc = .awaitResponse) :
    (∃ p s c c', stage = .offered n p s c c') ∨ ∃ p s c c', stage = .taken n p s c c' := by
  rcases inStage.pc_cases n with ⟨-, q6⟩ | actor | absent | exited
  · rw [q6] at waits
    cases waits
  · rw [waits] at actor
    cases stage with
    | idle => exact actor.elim
    | offered l p s c c' =>
        obtain ⟨rfl, -⟩ := actor
        exact Or.inl ⟨p, s, c, c', rfl⟩
    | taken l p s c c' =>
        obtain ⟨rfl, -⟩ := actor
        exact Or.inr ⟨p, s, c, c', rfl⟩
    | repair x y upper lower =>
        rcases actor with ⟨-, -, pc⟩ | ⟨-, pc⟩
        · cases upper <;> cases pc
        · cases lower <;> cases pc
    | _ =>
        obtain ⟨-, pc⟩ := actor
        cases pc
  · rw [absent] at waits
    cases waits
  · rw [exited] at waits
    cases waits

theorem Between.heir_fd {l p s : Addr} {c c' : Conn}
    (between : Between net.topology plan l p s c c') :
    (net.node l).selfData.fd (net.node l).selfData.heir =
      some (if (net.node l).selfData.rangeStart = 0 then .up c' else .down c) := by
  have fds : (net.node l).selfData.fdsSuccessor = some c' := between.out_l.fds
  have fds' : (net.node l).selfData.fdsPredecessor = some c := between.in_l.fds
  by_cases first : (net.node l).selfData.rangeStart = 0
  · simp [SelfData.heir, SelfData.fd, first, fds]
  · simp [SelfData.heir, SelfData.fd, first, fds']

theorem Net.InStage.heir_fd (inStage : net.InStage plan stage) {n : Addr}
    (waits : (net.node n).pc = .awaitResponse) :
    ∃ fd, (net.node n).selfData.fd (net.node n).selfData.heir = some fd := by
  rcases inStage.awaiting waits with ⟨p, s, c, c', rfl⟩ | ⟨p, s, c, c', rfl⟩
  · exact ⟨_, (Offered.between inStage).heir_fd⟩
  · exact ⟨_, (Taken.between inStage).heir_fd⟩

inductive Joining.Outcome (net : Net) (plan : Plan) (j a max : Addr) (outcome : Outcome) :
    Prop where
  | forward (c : Conn) (pdu : Pdu) : plan.next a ≠ a → max ≠ a →
      net.topology.Out a c (plan.next a) → pdu.requestKey = none →
      outcome = ⟨(net.node a).selfData, [.tcp (.up c) pdu], .run⟩ → Joining.Outcome net plan j a max outcome
  | alone (keys : List Ssn) : plan.next a = a → Mirrored (net.node a).selfData keys →
      keys.length ≤ maxSize → outcome.ctl = .accept →
      Splits net.env (net.node a).selfData keys j a [] outcome → Joining.Outcome net plan j a max outcome
  | named (c : Conn) (keys : List Ssn) : plan.next a ≠ a → max = a →
      net.topology.Out a c (plan.next a) → Mirrored (net.node a).selfData keys →
      keys.length ≤ maxSize → outcome.ctl = .run →
      Splits net.env (net.node a).selfData keys j (plan.next a)
        [.tcp (.up c) .netCloseConnection] outcome → Joining.Outcome net plan j a max outcome

theorem Joining.outcome {j a : Addr} {loc : Loc} {maxSpan : UInt8} {max : Addr}
    (joining : Joining net.topology net.control plan j a loc maxSpan max)
    (tidy : Tidy (net.node a).selfData) :
    Joining.Outcome net plan j a max (handleNetJoin net.env (net.node a).selfData j maxSpan max) := by
  have ring := joining.ring
  have listening : (net.node a).selfData.listening = a := ring.listening a
  have answers : net.env.answers j = true := by
    have pc : (net.node j).pc = .q7Accept := joining.pc
    simp [Net.env, pc, Pc.listens]
  obtain ⟨keys, mirrored, room, -⟩ := tidy
  rcases ring.linked a joining.reader fun bare => bare with
    ⟨several, c, out, inn, -⟩ | ⟨alone, noOut, noIn, -⟩
  · obtain ⟨p, c', c'', -, between⟩ := ring.between joining.reader (Ne.symm several)
    have predecessor : (net.node a).selfData.predecessor = some c' := between.in_l.predecessor
    have successor : (net.node a).selfData.successor = ⟨some c, plan.next a⟩ := out.successor
    have linked : (net.node a).selfData.predecessor ≠ none := by simp [predecessor]
    have linked' : (net.node a).selfData.successor.socket ≠ none := by simp [successor]
    by_cases named : max = a
    · obtain ⟨run, splits⟩ := handleNetJoin_named maxSpan linked linked'
        (named.trans listening.symm) answers mirrored
      rw [sendSuccessor, successor] at splits
      exact .named c keys (Ne.symm several) named out mirrored room run splits
    · have run := handleNetJoin_forward net.env j maxSpan linked linked'
        (show max ≠ (net.node a).selfData.listening by rwa [listening])
      rw [sendSuccessor, successor] at run
      refine .forward c _ (Ne.symm several) named out ?_ run
      split <;> rfl
  · obtain ⟨run, splits⟩ := handleNetJoin_first maxSpan max noIn.predecessor
      noOut.socket answers mirrored
    rw [listening] at splits
    exact .alone keys alone.symm mirrored room run splits

/-- A handled PDU of the change does nothing undefined. -/
theorem Orderly.control_sound (orderly : Orderly net plan stage) {n : Addr} {loc : Loc} {pdu : Pdu}
    {posts : List (Loc × Pdu)} (handles : stage.Handles net.topology plan n loc pdu posts)
    (q6 : (net.node n).pc = .q6) {outcome : Outcome}
    (dispatched : dispatch net.env (net.node n).selfData pdu = some outcome) :
    outcome.ctl ≠ .fault := by
  have inStage := orderly.inStage
  cases handles with
  | join j a loc maxSpan max =>
      have joining : Joining net.topology net.control plan j n loc maxSpan max := inStage
      cases dispatched
      rcases joining.outcome (orderly.tidy n (by rw [q6]; rfl)) with
        ⟨c, pdu, -, -, -, -, run⟩ | ⟨keys, -, -, -, run, -⟩ | ⟨c, keys, -, -, -, -, -, run, -⟩
      · simp [run]
      · simp [run]
      · simp [run]
  | newRange l p s c c' =>
      cases dispatched
      unfold handleNetNewRange updateRange sendOrExit
      dsimp only
      split
      · split <;> simp
      · split <;> split <;> simp
  | leaving x y c lower =>
      cases dispatched
      rw [handleNetLeavingPdu_eq]
      split
      · simp
      · split <;> simp
  | close x y upper c =>
      cases dispatched
      unfold handleNetCloseConnection
      dsimp only
      split <;> simp

theorem Pdu.call_isSome {pdu : Pdu} {ssn : Ssn} (key : pdu.requestKey = some ssn) :
    ∃ call, pdu.call = some call := by
  cases pdu with
  | valInsert ssn pair => exact ⟨_, rfl⟩
  | valRemove ssn => exact ⟨_, rfl⟩
  | valLookup ssn sender => exact ⟨_, rfl⟩
  | _ => cases key

theorem Orderly.request (orderly : Orderly net plan stage) {n : Addr} {i : FdsIndex}
    (careful : Careful net (.deliver n i)) {back : Pc} {loc : Loc} {msg : Msg} {rest : List Msg}
    (polls : (net.node n).pc.polls i = some back) (reads : (net.node n).reads n i = some loc)
    (queue : net.queue loc = msg :: rest) {ssn : Ssn} (key : msg.pdu.requestKey = some ssn)
    {outcome : Outcome}
    (dispatched : dispatch net.env (net.node n).selfData msg.pdu = some outcome) :
    (checkRange (net.node n).selfData ssn = true ∧ (net.node n).pc = .q6 ∧ outcome.ctl = .run ∧
      Tidy outcome.selfData ∧ ∀ effect ∈ outcome.effects, ∃ dest reply, effect = .udp dest reply) ∨
    (checkRange (net.node n).selfData ssn = false ∧ ∃ c,
      (net.node n).selfData.fdsSuccessor = some c ∧ net.shut (.up c) = false ∧ c.target ≠ n ∧
      net.topology.Served (.up c) ∧
      outcome = ⟨(net.node n).selfData, [.tcp (.up c) msg.pdu], .run⟩) := by
  cases range : checkRange (net.node n).selfData ssn with
  | true =>
      left
      obtain ⟨call, asks⟩ := Pdu.call_isSome key
      obtain ⟨q6, room, bucket⟩ :=
        careful.serves n i loc msg rest ssn call rfl reads queue key asks range
      obtain ⟨run, tidy, replies⟩ := (orderly.tidy n (by rw [q6]; rfl)).serve asks key range room
        bucket dispatched
      exact ⟨rfl, q6, run, tidy, replies⟩
  | false =>
      right
      obtain ⟨c, fds, is_open, other, served⟩ := orderly.inStage.relays polls range
      have alive := careful.relays n i loc msg rest ssn c rfl reads queue key range fds
      refine ⟨rfl, c, fds, is_open, other, served.resolve_left alive, ?_⟩
      rw [dispatch_forward net.env key range fds] at dispatched
      exact (Option.some.inj dispatched).symm

theorem Orderly.unharmed (orderly : Orderly net plan stage) {act : Act} (careful : Careful net act)
    (stepped : net.step act = some net') : Unharmed net act where
  handles n i loc msg rest outcome eq reads queue dispatched := by
    subst eq
    obtain ⟨back, loc', msg', rest', outcome', polls, reads', queue', -, -⟩ := deliver_eq_some stepped
    cases reads.symm.trans reads'
    cases queue.symm.trans queue'
    cases key : msg.pdu.requestKey with
    | some ssn =>
        rcases orderly.request careful polls reads queue key dispatched with
          ⟨-, -, run, -⟩ | ⟨-, c, -, -, -, -, rfl⟩
        · rw [run]
          exact ⟨by simp, fun _ => rfl⟩
        · exact ⟨by simp, fun _ => rfl⟩
    | none =>
        obtain ⟨rfl, posts, handles, -⟩ := orderly.inStage.handles polls reads queue key
        have q6 : (net.node n).pc = .q6 := by
          rcases polls_cases polls with ⟨q6, -⟩ | ⟨j, new, -, eq⟩
          · exact q6
          · cases eq
        exact ⟨orderly.control_sound handles q6 dispatched, by simp⟩
  handsOver n granted eq := by
    subst eq
    obtain ⟨waits, -⟩ := reply_eq_some stepped
    obtain ⟨fd, connected⟩ := orderly.inStage.heir_fd waits
    obtain ⟨keys, mirrored, -⟩ := orderly.tidy n (by rw [waits]; rfl)
    obtain ⟨ssns, run⟩ := sendAllEntries_mirrored connected mirrored
    rw [handOver, run, andThen_run]
    cases granted <;> simp
  waits n loc msg rest eq receives queue := by
    rcases eq with rfl | rfl
    · exact careful.awaits n loc msg rest rfl receives queue
    · obtain ⟨waits, -⟩ := response_eq_some stepped
      have ordered := orderly.ordered
      rcases orderly.inStage.pc_cases n with ⟨-, q6⟩ | actor | absent | exited
      · rw [q6] at waits
        cases waits
      · rw [waits] at actor
        cases stage with
        | idle => exact actor.elim
        | repair x y upper lower =>
            have repair : Repair net.topology net.control plan x y upper lower := orderly.inStage
            rcases actor with ⟨rfl, -, pc⟩ | ⟨-, pc⟩
            · cases upper with
              | receiving c start stop =>
                  have predecessor : (net.node n).selfData.predecessor = some c :=
                    repair.upper_ok.2.1.predecessor
                  rw [Proc.receives, waits, predecessor] at receives
                  obtain rfl : Loc.up c = loc := Option.some.inj receives
                  obtain ⟨⟨first, later, queue', plain⟩, -⟩ := ordered
                  cases queue.symm.trans queue'
                  exact plain
              | _ => cases pc
            · cases lower <;> cases pc
        | _ =>
            obtain ⟨-, pc⟩ := actor
            cases pc
      · rw [absent] at waits
        cases waits
      · rw [exited] at waits
        cases waits

end DhtRing

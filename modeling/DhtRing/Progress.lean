import DhtRing.Stages

/-!
# A change goes on and ends

In every stage of a membership change the steps of the network that are possible lead
to a later stage, and some step is possible until the ring is idle again.
-/

set_option autoImplicit false

namespace DhtRing

variable {net net' : Net} {plan : Plan} {stage : Change}

/-! ## Who acts -/

def Change.Actor : Change → Addr → Pc → Prop
  | .idle => fun _ _ => False
  | .joining j _ _ _ _ => fun n pc => n = j ∧ pc = .q7Accept
  | .offered l _ _ _ _ => fun n pc => n = l ∧ pc = .awaitResponse
  | .taken l _ _ _ _ => fun n pc => n = l ∧ pc = .awaitResponse
  | .polling l _ s _ _ i => fun n pc => n = l ∧ pc = .lastPoll i s
  | .repair x y upper lower => fun n pc =>
      (n = x ∧ x ≠ y ∧ pc = upper.pc) ∨ (n = y ∧ pc = lower.pc)

def Change.Bare : Change → Addr → Prop
  | .taken _ p _ _ _ => (· = p)
  | .polling _ p _ _ _ _ => (· = p)
  | .repair x _ upper _ => fun n => n = x ∨ upper.feeds n
  | _ => fun _ => False

def Change.Guest : Change → Addr → Prop
  | .joining j _ _ _ _ => (· = j)
  | .taken l _ _ _ _ => (· = l)
  | .polling l _ _ _ _ _ => (· = l)
  | _ => fun _ => False

theorem Net.InStage.ring (inStage : net.InStage plan stage) :
    Ring net.topology plan stage.Bare stage.Guest := by
  cases stage with
  | idle => exact Idle.ring inStage
  | joining j a loc maxSpan max => exact Joining.ring inStage
  | offered l p s c c' => exact Offered.ring inStage
  | taken l p s c c' => exact Taken.ring inStage
  | polling l p s c c' i => exact Polling.ring inStage
  | repair x y upper lower => exact Repair.ring inStage

theorem Net.InStage.member_pc (inStage : net.InStage plan stage) {n : Addr} (mem : plan.Member n) :
    (net.node n).pc = .q6 ∨ stage.Actor n (net.node n).pc := by
  cases stage with
  | idle => exact Or.inl (Idle.idle inStage n mem)
  | joining j a loc maxSpan max => exact Or.inl (Joining.idle inStage n mem)
  | offered l p s c c' =>
      by_cases here : n = l
      · exact Or.inr ⟨here, here ▸ Offered.pc inStage⟩
      · exact Or.inl (Offered.idle inStage n mem here)
  | taken l p s c c' => exact Or.inl (Taken.idle inStage n mem)
  | polling l p s c c' i => exact Or.inl (Polling.idle inStage n mem)
  | repair x y upper lower =>
      by_cases at_y : n = y
      · exact Or.inr (Or.inr ⟨at_y, at_y ▸ Repair.pc_y inStage⟩)
      · by_cases at_x : n = x
        · have apart : x ≠ y := fun eq => at_y (at_x.trans eq)
          exact Or.inr (Or.inl ⟨at_x, apart, at_x ▸ Repair.pc_x inStage apart⟩)
        · exact Or.inl (Repair.idle inStage n mem at_x at_y)

theorem Net.InStage.guest_pc (inStage : net.InStage plan stage) {n : Addr} (guest : stage.Guest n) :
    stage.Actor n (net.node n).pc := by
  cases stage with
  | joining j a loc maxSpan max =>
      obtain rfl : n = j := guest
      exact ⟨rfl, Joining.pc inStage⟩
  | taken l p s c c' =>
      obtain rfl : n = l := guest
      exact ⟨rfl, Taken.pc inStage⟩
  | polling l p s c c' i =>
      obtain rfl : n = l := guest
      exact ⟨rfl, Polling.pc inStage⟩
  | _ => exact guest.elim

theorem Net.InStage.pc_cases (inStage : net.InStage plan stage) (n : Addr) :
    (plan.Member n ∧ (net.node n).pc = .q6) ∨ stage.Actor n (net.node n).pc ∨
      (net.node n).pc = .absent ∨ (net.node n).pc = .exited true := by
  by_cases mem : plan.Member n
  · exact (inStage.member_pc mem).imp (fun q6 => ⟨mem, q6⟩) Or.inl
  · by_cases guest : stage.Guest n
    · exact Or.inr (Or.inl (inStage.guest_pc guest))
    · rcases inStage.ring.away n mem guest with ⟨absent, -⟩ | exited
      · exact Or.inr (Or.inr (Or.inl absent))
      · exact Or.inr (Or.inr (Or.inr exited))

/-! ## Who listens -/

theorem Pc.alive_of_listens {pc : Pc} (listens : pc.listens = true) : pc.ended = false := by
  cases pc with
  | exited graceful => cases listens
  | faulted => cases listens
  | _ => rfl

theorem Change.Actor.listens {n : Addr} {pc : Pc} (actor : stage.Actor n pc) :
    pc.listens = true := by
  cases stage with
  | idle => exact actor.elim
  | repair x y upper lower =>
      rcases actor with ⟨-, -, rfl⟩ | ⟨-, rfl⟩
      · cases upper <;> rfl
      · cases lower <;> rfl
  | _ =>
      obtain ⟨-, rfl⟩ := actor
      rfl

theorem Net.InStage.listens (inStage : net.InStage plan stage) {n : Addr}
    (present : plan.Member n ∨ stage.Guest n) : (net.node n).pc.listens = true := by
  rcases present with mem | guest
  · rcases inStage.member_pc mem with q6 | actor
    · rw [q6]
      rfl
    · exact actor.listens
  · exact (inStage.guest_pc guest).listens

theorem Change.Actor.alive {n : Addr} {pc : Pc} (actor : stage.Actor n pc) : pc.ended = false :=
  Pc.alive_of_listens actor.listens

theorem Net.InStage.alive (inStage : net.InStage plan stage) {n : Addr}
    (present : plan.Member n ∨ stage.Guest n) : (net.node n).pc.ended = false :=
  Pc.alive_of_listens (inStage.listens present)

/-! ## What is read -/

inductive Change.Handles (T : Topology) (plan : Plan) :
    Change → Addr → Loc → Pdu → List (Loc × Pdu) → Prop where
  | join (j a : Addr) (loc : Loc) (maxSpan : UInt8) (max : Addr) :
      Handles T plan (.joining j a loc maxSpan max) a loc (.netJoin j maxSpan max) []
  | newRange (l p s : Addr) (c c' : Conn) :
      Handles T plan (.offered l p s c c') (plan.heir p l)
        (if (T.wiring l).rangeStart = 0 then .up c' else .down c)
        (.netNewRange (T.wiring l).rangeStart (T.wiring l).rangeEnd) []
  | leaving (x y : Addr) (c : Conn) (lower : Lower) :
      Handles T plan (.repair x y (.orphan c) lower) x (.down c) (.netLeaving y) lower.posts
  | close (x y : Addr) (upper : Upper) (c : Conn) :
      Handles T plan (.repair x y upper (.closing c)) y (.up c) .netCloseConnection (upper.posts y)

theorem Change.Handles.dispatch_isSome {T : Topology} {n : Addr} {loc : Loc} {pdu : Pdu}
    {posts : List (Loc × Pdu)} (handles : stage.Handles T plan n loc pdu posts) (env : Env)
    (selfData : SelfData) : (dispatch env selfData pdu).isSome := by
  cases handles <;> rfl

theorem Upper.posts_cases {T : Topology} {x y : Addr} {upper : Upper} (ok : upper.Ok T plan x y)
    {loc : Loc} {pdu : Pdu} (mem : (loc, pdu) ∈ upper.posts y) :
    upper.posts y = [(loc, pdu)] ∧ loc.reader = x ∧ (∀ c, loc = .up c → x ≠ y) ∧
      ((∃ c, upper = .orphan c ∧ loc = .down c ∧ pdu = .netLeaving y) ∨
        (x ≠ y ∧ ∀ i, upper.pc.polls i = none)) := by
  cases upper with
  | accepting w c rangeStart rangeEnd =>
      obtain ⟨rfl, rfl⟩ := Prod.mk.inj (List.mem_singleton.mp mem)
      exact ⟨rfl, ok.2.2.2.1.target, fun _ _ => ok.1, Or.inr ⟨ok.1, fun _ => rfl⟩⟩
  | receiving c rangeStart rangeEnd =>
      obtain ⟨rfl, rfl⟩ := Prod.mk.inj (List.mem_singleton.mp mem)
      exact ⟨rfl, ok.2.1.target, fun _ _ => ok.1, Or.inr ⟨ok.1, fun _ => rfl⟩⟩
  | orphan c =>
      obtain ⟨rfl, rfl⟩ := Prod.mk.inj (List.mem_singleton.mp mem)
      exact ⟨rfl, ok.1.source, fun _ eq => (by cases eq), Or.inl ⟨c, rfl, rfl, rfl⟩⟩
  | connected c => cases mem
  | alone => cases mem

theorem polls_q6_eq {n : Addr} {i : FdsIndex} {back : Pc}
    (polls : (net.node n).pc.polls i = some back)
    (q6 : (net.node n).pc = .q6) : back = .q6 := by
  rw [q6] at polls
  exact (Option.some.inj polls).symm

/-- A node that polls reads a PDU of the change in `q6`, and it is one of these. -/
theorem Net.InStage.handles (inStage : net.InStage plan stage) {n : Addr} {i : FdsIndex} {back : Pc}
    {loc : Loc} {msg : Msg} {rest : List Msg} (polls : (net.node n).pc.polls i = some back)
    (reads : (net.node n).reads n i = some loc) (queue : net.queue loc = msg :: rest)
    (plain : msg.pdu.requestKey = none) :
    back = .q6 ∧ ∃ posts, stage.Handles net.topology plan n loc msg.pdu posts ∧
      net.control = post ((loc, msg.pdu) :: posts) := by
  have reader := (reads_cases (inStage.ring.held n) reads).1
  cases stage with
  | idle =>
      have idle : Idle net.topology net.control plan := inStage
      exact absurd (mem_control queue plain idle.posts) List.not_mem_nil
  | joining j a loc' maxSpan max =>
      have joining : Joining net.topology net.control plan j a loc' maxSpan max := inStage
      have posts := joining.posts
      obtain ⟨rfl, pdu⟩ := Prod.mk.inj (List.mem_singleton.mp (mem_control queue plain posts))
      obtain rfl : a = n := joining.reader_eq.symm.trans reader
      refine ⟨polls_q6_eq polls (joining.idle a joining.reader), [], ?_, ?_⟩
      · rw [pdu]
        exact .join j a loc maxSpan max
      · rw [pdu]
        exact posts
  | offered l p s c c' =>
      have offered : Offered net.topology net.control plan l p s c c' := inStage
      have posts := offered.posts
      obtain ⟨rfl, pdu⟩ := Prod.mk.inj (List.mem_singleton.mp (mem_control queue plain posts))
      obtain rfl : plan.heir p l = n := offered.reader_eq.1.symm.trans reader
      obtain ⟨mem, apart⟩ := Plan.heir_member offered.ring.tiled offered.between.prev offered.next_p
        offered.between.other
      refine ⟨polls_q6_eq polls (offered.idle _ mem apart), [], ?_, ?_⟩
      · rw [pdu]
        exact .newRange l p s c c'
      · rw [pdu]
        exact posts
  | taken l p s c c' =>
      have taken : Taken net.topology net.control plan l p s c c' := inStage
      obtain ⟨rfl, -⟩ := Prod.mk.inj (List.mem_singleton.mp (mem_control queue plain taken.posts))
      have here : n = l := by
        rw [← reader]
        split
        · exact taken.between.out_l.source
        · exact taken.between.in_l.target
      have pc : (net.node n).pc = .awaitResponse := here ▸ taken.pc
      rw [pc] at polls
      cases polls
  | polling l p s c c' i' =>
      have polling : Polling net.topology net.control plan l p s c c' i' := inStage
      exact absurd (mem_control queue plain polling.posts) List.not_mem_nil
  | repair x y upper lower =>
      have repair : Repair net.topology net.control plan x y upper lower := inStage
      rcases List.mem_append.mp (mem_control queue plain repair.posts) with at_x | at_y
      · obtain ⟨posts, reader_x, -, cases_x⟩ := Upper.posts_cases repair.upper_ok at_x
        obtain rfl : x = n := reader_x.symm.trans reader
        rcases cases_x with ⟨c, rfl, rfl, pdu⟩ | ⟨apart, idle⟩
        · refine ⟨polls_q6_eq polls repair.orphan_q6, lower.posts, ?_, ?_⟩
          · rw [pdu]
            exact .leaving x y c lower
          · rw [repair.posts, posts]
            rfl
        · have pc : (net.node x).pc = upper.pc := repair.pc_x apart
          rw [pc, idle i] at polls
          cases polls
      · cases lower with
        | closing c =>
            obtain ⟨rfl, pdu⟩ := Prod.mk.inj (List.mem_singleton.mp at_y)
            obtain rfl : y = n := repair.lower_ok.1.target.symm.trans reader
            refine ⟨polls_q6_eq polls repair.pc_y, upper.posts y, ?_, ?_⟩
            · rw [pdu]
              exact .close x y upper c
            · rw [repair.posts, pdu]
              cases posts : upper.posts y with
              | nil => rfl
              | cons entry posts' =>
                  obtain ⟨loc', pdu'⟩ := entry
                  have first : (loc', pdu') ∈ upper.posts y := by simp [posts]
                  obtain ⟨single, reader_x, apart, -⟩ := Upper.posts_cases repair.upper_ok first
                  rw [posts] at single
                  rw [single]
                  apply post_swap
                  rintro (rfl : loc' = .up c)
                  exact apart c rfl (reader_x.symm.trans reader)
        | waiting => cases at_y
        | alone => cases at_y

/-! ## No neighbour is gone unnoticed -/

theorem not_closed {loc : Loc} {m : Addr} (is_open : net.shut loc = false)
    (writer : loc.writer = some m) (alive : (net.node m).pc.ended = false) :
    net.closed loc = false := by
  rw [Net.closed, is_open, writer]
  simpa using alive

theorem not_closed_down {m : Addr} {c : Conn} (inn : net.topology.In m c)
    (alive : (net.node m).pc.ended = false) : net.closed (.down c) = false :=
  not_closed inn.is_open (congrArg some inn.target) alive

theorem not_closed_up {n m : Addr} {c : Conn} (out : net.topology.Out n c m)
    (alive : (net.node n).pc.ended = false) : net.closed (.up c) = false :=
  not_closed out.is_open (congrArg some out.source) alive

theorem queue_ne_nil {loc : Loc} (pdu : Pdu) {posts : List (Loc × Pdu)}
    (posted : net.control = post posts) (mem : (loc, pdu) ∈ posts) : net.queue loc ≠ [] := by
  intro empty
  have there : pdu ∈ net.control loc := by
    rw [posted]
    exact mem_post.mpr mem
  rw [Net.control, empty] at there
  cases there

theorem Net.InStage.polling_cases (inStage : net.InStage plan stage) {n : Addr} {i : FdsIndex}
    {back : Pc} (polls : (net.node n).pc.polls i = some back) :
    (plan.Member n ∧ (net.node n).pc = .q6) ∨ ∃ p s c c' j, stage = .polling n p s c c' j := by
  rcases inStage.pc_cases n with q6 | actor | absent | exited
  · exact Or.inl q6
  · cases stage with
    | idle => exact actor.elim
    | polling l p s c c' j =>
        obtain ⟨rfl, -⟩ := actor
        exact Or.inr ⟨p, s, c, c', j, rfl⟩
    | repair x y upper lower =>
        have repair : Repair net.topology net.control plan x y upper lower := inStage
        have mem_y : plan.Member y := repair.next ▸ Plan.member_next repair.ring.tiled repair.member
        rcases polls_cases polls with ⟨q6, -⟩ | ⟨j, new, poll, -⟩
        · rcases actor with ⟨rfl, -, -⟩ | ⟨rfl, -⟩
          · exact Or.inl ⟨repair.member, q6⟩
          · exact Or.inl ⟨mem_y, q6⟩
        · rcases actor with ⟨-, -, pc⟩ | ⟨-, pc⟩
          · rw [poll] at pc
            cases upper <;> cases pc
          · rw [poll] at pc
            cases lower <;> cases pc
    | _ =>
        obtain ⟨-, pc⟩ := actor
        rw [pc] at polls
        cases polls
  · rw [absent] at polls
    cases polls
  · rw [exited] at polls
    cases polls

/-- The successor of a polling node is there, or it has said goodbye. -/
theorem Net.InStage.successor_open (inStage : net.InStage plan stage) {n : Addr} {i : FdsIndex}
    {back : Pc} (polls : (net.node n).pc.polls i = some back) {c : Conn}
    (fds : (net.node n).selfData.fdsSuccessor = some c) :
    net.closed (.down c) = false ∨ net.queue (.down c) ≠ [] := by
  have ring := inStage.ring
  have held : (net.topology.wiring n).fdsSuccessor = some c := fds
  have out_eq : ∀ {c' m}, net.topology.Out n c' m → c' = c := by
    intro c' m out
    exact Option.some.inj (out.fds.symm.trans held)
  rcases inStage.polling_cases polls with ⟨mem, q6⟩ | ⟨p, s, c', c'', j, rfl⟩
  · by_cases bare : stage.Bare n
    · cases stage with
      | taken l p s c' c'' =>
          have between := Taken.between inStage
          obtain rfl : n = p := bare
          obtain rfl := out_eq between.out_p
          exact Or.inl (not_closed_down between.in_l (inStage.alive (Or.inr rfl)))
      | polling l p s c' c'' i' =>
          have between := Polling.between inStage
          obtain rfl : n = p := bare
          obtain rfl := out_eq between.out_p
          exact Or.inl (not_closed_down between.in_l (inStage.alive (Or.inr rfl)))
      | repair x y upper lower =>
          have repair : Repair net.topology net.control plan x y upper lower := inStage
          have ok := repair.upper_ok
          have alive_x := inStage.alive (Or.inl repair.member)
          cases upper with
          | accepting w c' start stop =>
              rcases bare with rfl | feeds
              · have pc : (net.node n).pc = .q7Accept := repair.pc_x ok.1
                rw [q6] at pc
                cases pc
              · obtain rfl : n = w := feeds
                obtain ⟨-, -, -, out, -, -, -, is_open, -⟩ := ok
                obtain rfl := out_eq out
                exact Or.inl (not_closed is_open (congrArg some out.target) alive_x)
          | receiving c' start stop =>
              obtain rfl : n = x := bare.resolve_right fun feeds => feeds
              have pc : (net.node n).pc = .q7Receive := repair.pc_x ok.1
              rw [q6] at pc
              cases pc
          | orphan c' =>
              obtain rfl : n = x := bare.resolve_right fun feeds => feeds
              obtain rfl := out_eq ok.1
              right
              apply queue_ne_nil (.netLeaving y) repair.posts
              simp [Upper.posts]
          | connected c' =>
              obtain rfl : n = x := bare.resolve_right fun feeds => feeds
              obtain ⟨-, out, is_open⟩ := ok
              obtain rfl := out_eq out
              have mem_y := repair.next ▸ Plan.member_next ring.tiled mem
              exact Or.inl (not_closed is_open (congrArg some out.target)
                (inStage.alive (Or.inl mem_y)))
          | alone =>
              obtain rfl : n = x := bare.resolve_right fun feeds => feeds
              have none := ok.2.fds
              rw [held] at none
              cases none
      | _ => exact bare.elim
    · rcases ring.linked n mem bare with ⟨-, c', out, inn, -⟩ | ⟨-, out, -⟩
      · obtain rfl := out_eq out
        exact Or.inl (not_closed_down inn (inStage.alive (Or.inl (Plan.member_next ring.tiled mem))))
      · have none := out.fds
        rw [held] at none
        cases none
  · have polling : Polling net.topology net.control plan n p s c' c'' j := inStage
    have between := polling.between
    obtain rfl := out_eq between.out_l
    have mem_s := polling.next_p ▸ Plan.member_next ring.tiled between.prev
    exact Or.inl (not_closed_down between.in_s (inStage.alive (Or.inl mem_s)))

theorem Net.InStage.predecessor_open (inStage : net.InStage plan stage) {n : Addr} {i : FdsIndex}
    {back : Pc} (polls : (net.node n).pc.polls i = some back) {c : Conn}
    (fds : (net.node n).selfData.fdsPredecessor = some c) :
    net.closed (.up c) = false ∨ net.queue (.up c) ≠ [] := by
  have ring := inStage.ring
  have held : (net.topology.wiring n).fdsPredecessor = some c := fds
  have in_eq : ∀ {c'}, net.topology.In n c' → c' = c := by
    intro c' inn
    exact Option.some.inj (inn.fds.symm.trans held)
  rcases inStage.polling_cases polls with ⟨mem, q6⟩ | ⟨p, s, c', c'', j, rfl⟩
  · obtain ⟨m, mem_m, next_m⟩ := Plan.exists_prev ring.tiled mem
    by_cases bare : stage.Bare m
    · cases stage with
      | taken l p s c' c'' =>
          have taken : Taken net.topology net.control plan l p s c' c'' := inStage
          obtain rfl : m = p := bare
          obtain rfl : n = s := next_m.symm.trans taken.next_p
          obtain rfl := in_eq taken.between.in_s
          exact Or.inl (not_closed_up taken.between.out_l (inStage.alive (Or.inr rfl)))
      | polling l p s c' c'' i' =>
          have polling : Polling net.topology net.control plan l p s c' c'' i' := inStage
          obtain rfl : m = p := bare
          obtain rfl : n = s := next_m.symm.trans polling.next_p
          obtain rfl := in_eq polling.between.in_s
          exact Or.inl (not_closed_up polling.between.out_l (inStage.alive (Or.inr rfl)))
      | repair x y upper lower =>
          have repair : Repair net.topology net.control plan x y upper lower := inStage
          rcases bare with rfl | feeds
          · obtain rfl : n = y := next_m.symm.trans repair.next
            have ok := repair.lower_ok
            cases lower with
            | closing c' =>
                obtain rfl := in_eq ok.1
                right
                apply queue_ne_nil .netCloseConnection repair.posts
                simp [Lower.posts]
            | waiting =>
                have none := ok.2.fds
                rw [held] at none
                cases none
            | alone =>
                have none := ok.2.fds
                rw [held] at none
                cases none
          · -- the new node, which does not poll
            obtain ⟨-, next_x⟩ := Upper.feeds_member repair feeds
            obtain rfl : n = x := next_m.symm.trans next_x
            have ok := repair.upper_ok
            cases upper with
            | accepting w c' start stop =>
                have pc : (net.node n).pc = .q7Accept := repair.pc_x ok.1
                rw [q6] at pc
                cases pc
            | _ => exact feeds.elim
      | _ => exact bare.elim
    · rcases ring.linked m mem_m bare with ⟨-, c', out, inn, -⟩ | ⟨self, -, inn, -⟩
      · rw [next_m] at out inn
        obtain rfl := in_eq inn
        exact Or.inl (not_closed_up out (inStage.alive (Or.inl mem_m)))
      · rw [next_m] at self
        rw [self] at inn
        have none := inn.fds
        rw [held] at none
        cases none
  · have between := Polling.between inStage
    obtain rfl := in_eq between.in_l
    exact Or.inl (not_closed_up between.out_p (inStage.alive (Or.inl between.prev)))

theorem Net.InStage.no_eof (inStage : net.InStage plan stage) (n : Addr) (i : FdsIndex) :
    net.step (.eof n i) = none := by
  rw [Option.eq_none_iff_forall_ne_some]
  intro net' stepped
  obtain ⟨back, conn, loc, own, data, polls, reads, empty, closed, held, -⟩ := eof_eq_some stepped
  have gone : net.closed loc = false ∨ net.queue loc ≠ [] := by
    rcases held with ⟨rfl, fds, -, -⟩ | ⟨rfl, fds, -, -⟩
    · rw [Proc.reads, fds] at reads
      cases reads
      exact inStage.successor_open polls fds
    · rw [Proc.reads, fds] at reads
      cases reads
      exact inStage.predecessor_open polls fds
  rcases gone with is_open | waits
  · rw [is_open] at closed
    cases closed
  · exact waits empty

theorem Net.InStage.handled (inStage : net.InStage plan stage) {n : Addr} {i : FdsIndex} {back : Pc}
    {loc : Loc} {msg : Msg} {rest : List Msg} (polls : (net.node n).pc.polls i = some back)
    (reads : (net.node n).reads n i = some loc) (queue : net.queue loc = msg :: rest) :
    ∃ outcome, dispatch net.env (net.node n).selfData msg.pdu = some outcome := by
  apply Option.isSome_iff_exists.mp
  cases key : msg.pdu.requestKey with
  | some ssn => cases pdu : msg.pdu <;> simp_all [Pdu.requestKey, dispatch]
  | none =>
      obtain ⟨-, posts, handles, -⟩ := inStage.handles polls reads queue key
      exact handles.dispatch_isSome net.env (net.node n).selfData

theorem Net.InStage.no_discard (inStage : net.InStage plan stage) (n : Addr) (i : FdsIndex)
    (k : ℕ) : net.step (.discard n i k) = none := by
  rw [Option.eq_none_iff_forall_ne_some]
  intro net' stepped
  obtain ⟨back, loc, msg, rest, polls, reads, queue, unknown, -⟩ := discard_eq_some stepped
  obtain ⟨outcome, known⟩ := inStage.handled polls reads queue
  rw [unknown] at known
  cases known

/-! ## How far a change is -/

def Upper.rank : Upper → ℕ
  | .accepting _ _ _ _ => 3
  | .receiving _ _ _ => 2
  | .orphan _ => 2
  | .connected _ => 1
  | .alone => 0

def Lower.rank : Lower → ℕ
  | .closing _ => 2
  | .waiting => 1
  | .alone => 0

/-- A bound on the steps that the change still takes.  In an election `w` is the recorded
node, or one that will record itself. -/
def Change.Measured (plan : Plan) : Change → ℕ → Prop
  | .idle => fun m => m = 0
  | .repair _ _ upper lower => fun m => m = 1 + upper.rank + lower.rank
  | .polling _ _ _ _ _ _ => fun m => m = 7
  | .taken _ _ _ _ _ => fun m => m = 8
  | .offered _ _ _ _ _ => fun m => m = 9
  | .joining _ a _ maxSpan max => fun m => ∃ w, plan.Member w ∧ plan.lo w < plan.hi w ∧
      (maxSpan ≠ 0 → w = max) ∧
      m = 10 + (255 - maxSpan.toNat) * 256 + Tiling.gap 256 (plan.lo a) (plan.lo w)

theorem repair_measure_lt (upper : Upper) (lower : Lower) : 1 + upper.rank + lower.rank < 7 := by
  have up : upper.rank ≤ 3 := by cases upper <;> simp [Upper.rank]
  have low : lower.rank ≤ 2 := by cases lower <;> simp [Lower.rank]
  omega

theorem Elects.measured {T : Topology} {control : Loc → List Pdu} {j a : Addr} {loc loc' : Loc}
    {maxSpan maxSpan' : UInt8} {max max' : Addr}
    (joining : Joining T control plan j a loc maxSpan max)
    (elects : Elects plan a maxSpan max maxSpan' max') {m : ℕ}
    (measured : Change.Measured plan (.joining j a loc maxSpan max) m) :
    ∃ m' < m, Change.Measured plan (.joining j (plan.next a) loc' maxSpan' max') m' := by
  have tiled := joining.ring.tiled
  have owns := tiled a joining.reader
  obtain ⟨w, mem, wide, target, rfl⟩ := measured
  have owns_w := tiled w mem
  have start_lt : ∀ {b}, plan.Member b → plan.lo b < 256 := by
    intro b mem
    have := (tiled b mem).nonempty
    have := (tiled b mem).bounded
    omega
  have next_lt := start_lt (Plan.member_next tiled joining.reader)
  rcases elects with ⟨rfl, rfl, other, narrow⟩ | ⟨more, rfl, wide'⟩
  · have apart : w ≠ a := by
      rintro rfl
      by_cases unset : maxSpan' = 0
      · exact narrow unset wide
      · exact other (target unset).symm
    have at_w : plan.own (plan.lo w) = w := Tiling.Tiled.own_eq tiled mem le_rfl owns_w.nonempty
    have closer := Tiling.Tiled.gap_next_lt tiled joining.reader (start_lt mem)
      (fun eq => apart (at_w.symm.trans eq))
    refine ⟨_, Nat.add_lt_add_left closer _, w, mem, wide, target, rfl⟩
  · refine ⟨_, ?_, max', joining.reader, wide', fun _ => rfl, rfl⟩
    have gap := Tiling.gap_lt next_lt (start_lt joining.reader)
    have := maxSpan'.toNat_lt
    omega

inductive Net.Leads (net : Net) (plan : Plan) : Change → Act → Plan → Change → Prop where
  | forward {j a : Addr} {loc : Loc} {maxSpan maxSpan' : UInt8} {max max' : Addr} (i : FdsIndex)
      (c : Conn) : plan.next a ≠ a → max ≠ a → Elects plan a maxSpan max maxSpan' max' →
      Leads net plan (.joining j a loc maxSpan max) (.deliver a i) plan
        (.joining j (plan.next a) (.up c) maxSpan' max')
  | split (j a : Addr) (loc : Loc) (maxSpan : UInt8) (max : Addr) (i : FdsIndex) (mid : UInt8)
      (lower : Lower) : plan.next a = a ∨ max = a →
      (plan.next a = a ∧ lower = .waiting) ∨
        (plan.next a ≠ a ∧ ∃ c, net.topology.Out a c (plan.next a) ∧ lower = .closing c) →
      mid = middlePoint (net.node a).selfData.rangeStart (net.node a).selfData.rangeEnd →
      Leads net plan (.joining j a loc maxSpan max) (.deliver a i) (plan.split a mid.toNat j)
        (.repair j (plan.next a) (.accepting a ⟨a, j, net.topology.serial⟩ (mid + 1)
          (net.node a).selfData.rangeEnd) lower)
  | take (l p s : Addr) (c c' : Conn) (i : FdsIndex) :
      Leads net plan (.offered l p s c c') (.deliver (plan.heir p l) i)
        (plan.handOver l (plan.heir p l)) (.taken l p s c c')
  | reply (l p s : Addr) (c c' : Conn) :
      Leads net plan (.taken l p s c c') (.reply l) plan (.polling l p s c c' .udp)
  | finish (l p s : Addr) (c c' : Conn) (i : FdsIndex) :
      Leads net plan (.polling l p s c c' i) (.finish l) plan
        (.repair p s (.orphan c) (.closing c'))
  | accept (x y w : Addr) (c : Conn) (rangeStart rangeEnd : UInt8) (lower : Lower) :
      Leads net plan (.repair x y (.accepting w c rangeStart rangeEnd) lower) (.accept x) plan
        (.repair x y (.receiving c rangeStart rangeEnd) lower)
  | response (x y : Addr) (c : Conn) (rangeStart rangeEnd : UInt8) (lower : Lower) :
      Leads net plan (.repair x y (.receiving c rangeStart rangeEnd) lower) (.response x) plan
        (.repair x y (.connected ⟨x, y, net.topology.serial⟩) lower)
  | leaving (x y : Addr) (c : Conn) (lower : Lower) (upper' : Upper) (i : FdsIndex) :
      (x ≠ y ∧ upper' = .connected ⟨x, y, net.topology.serial⟩) ∨ (x = y ∧ upper' = .alone) →
      Leads net plan (.repair x y (.orphan c) lower) (.deliver x i) plan (.repair x y upper' lower)
  | close (x y : Addr) (c : Conn) (upper : Upper) (lower' : Lower) (i : FdsIndex) :
      (x ≠ y ∧ lower' = .waiting) ∨ (x = y ∧ lower' = .alone) →
      Leads net plan (.repair x y upper (.closing c)) (.deliver y i) plan (.repair x y upper lower')
  | settle (x y : Addr) (c : Conn) :
      Leads net plan (.repair x y (.connected c) .waiting) (.accept y) plan .idle

theorem Net.Leads.measured {act : Act} {plan' : Plan} {stage' : Change}
    (inStage : net.InStage plan stage)
    (leads : net.Leads plan stage act plan' stage') {m : ℕ} (measured : stage.Measured plan m) :
    ∃ m' < m, stage'.Measured plan' m' := by
  cases leads with
  | forward i c several other elects => exact elects.measured inStage measured
  | split j a loc maxSpan max i mid lower splits below middle =>
      refine ⟨_, ?_, rfl⟩
      obtain ⟨w, -, -, -, rfl⟩ := measured
      have := repair_measure_lt (.accepting a ⟨a, j, net.topology.serial⟩ (mid + 1)
        (net.node a).selfData.rangeEnd) lower
      omega
  | take l p s c c' i =>
      obtain rfl : m = 9 := measured
      exact ⟨8, by omega, rfl⟩
  | reply l p s c c' =>
      obtain rfl : m = 8 := measured
      exact ⟨7, by omega, rfl⟩
  | finish l p s c c' i =>
      obtain rfl : m = 7 := measured
      exact ⟨5, by omega, rfl⟩
  | leaving x y c lower upper' i turn =>
      obtain rfl : m = _ := measured
      refine ⟨_, ?_, rfl⟩
      rcases turn with ⟨-, rfl⟩ | ⟨-, rfl⟩
      · simp only [Upper.rank]
        omega
      · simp only [Upper.rank]
        omega
  | close x y c upper lower' i turn =>
      obtain rfl : m = _ := measured
      refine ⟨_, ?_, rfl⟩
      rcases turn with ⟨-, rfl⟩ | ⟨-, rfl⟩
      · simp only [Lower.rank]
        omega
      · simp only [Lower.rank]
        omega
  | settle x y c =>
      obtain rfl : m = _ := measured
      exact ⟨0, by omega, rfl⟩
  | _ =>
      obtain rfl : m = _ := measured
      refine ⟨_, ?_, rfl⟩
      simp only [Upper.rank]
      omega

/-! ## The steps -/

theorem accept_topology {n : Addr} {back : Pc} {conn : Conn} :
    (({ net with backlog := Function.update net.backlog n [] }).setNode n
      ⟨back, (net.node n).selfData.acceptPredecessor conn⟩).topology =
      net.topology.accept n conn back := by
  rw [setNode_topology]
  rfl

def Change.Turns (stage stage' : Change) : Prop :=
  stage' = stage ∨ ∃ l p s c c' i i', stage = .polling l p s c c' i ∧ stage' = .polling l p s c c' i'

theorem Net.InStage.request (inStage : net.InStage plan stage) {n : Addr} {i : FdsIndex}
    (unharmed : Unharmed net (.deliver n i)) (stepped : net.step (.deliver n i) = some net')
    (request : ∀ loc msg rest, (net.node n).reads n i = some loc → net.queue loc = msg :: rest →
      msg.pdu.requestKey.isSome) :
    ∃ stage', net'.InStage plan stage' ∧ stage.Turns stage' := by
  obtain ⟨back, loc, msg, rest, outcome, polls, reads, queue, dispatched, rfl⟩ :=
    deliver_eq_some stepped
  obtain ⟨topology, control⟩ := handled_request back unharmed reads queue
    (request loc msg rest reads queue) dispatched
  rcases inStage.polling_cases polls with ⟨-, q6⟩ | ⟨p, s, c, c', j, rfl⟩
  · refine ⟨stage, Change.Holds.at _ inStage ?_ control, Or.inl rfl⟩
    rw [topology, polls_q6_eq polls q6]
    unfold Topology.goesOn
    have same : Function.update net.topology.pc n .q6 = net.topology.pc := by
      rw [← show net.topology.pc n = .q6 from q6, Function.update_eq_self]
    rw [same]
  · have polling : Polling net.topology net.control plan n p s c c' j := inStage
    rcases polls_cases polls with ⟨q6, -⟩ | ⟨j', new, pc, rfl⟩
    · rw [show (net.node n).pc = _ from polling.pc] at q6
      cases q6
    · rw [show (net.node n).pc = _ from polling.pc] at pc
      cases pc
      exact ⟨.polling n p s c c' i, Change.Holds.at (.polling n p s c c' i)
        (polling.turn i) topology control, Or.inr ⟨n, p, s, c, c', j, i, rfl, rfl⟩⟩

theorem Net.InStage.deliver (inStage : net.InStage plan stage) {n : Addr} {i : FdsIndex}
    (unharmed : Unharmed net (.deliver n i)) (stepped : net.step (.deliver n i) = some net')
    (plain : ∀ loc msg rest, (net.node n).reads n i = some loc → net.queue loc = msg :: rest →
      msg.pdu.requestKey = none) :
    ∃ plan' stage', net'.InStage plan' stage' ∧ net.Leads plan stage (.deliver n i) plan' stage' := by
  obtain ⟨back, loc, msg, rest, outcome, polls, reads, queue, dispatched, rfl⟩ :=
    deliver_eq_some stepped
  have plain := plain loc msg rest reads queue
  obtain ⟨sound, -⟩ := unharmed.handles n i loc msg rest outcome rfl reads queue dispatched
  obtain ⟨rfl, posts, handles, posted⟩ := inStage.handles polls reads queue plain
  have after : After net (((net.note n msg).setQueue loc rest).commit n .q6 msg.tag outcome) n
      (Pc.after .q6 outcome.ctl) outcome.selfData outcome.effects posts :=
    after_handler queue plain posted
  generalize pdu_eq : msg.pdu = pdu at *
  generalize ((net.note n msg).setQueue loc rest).commit n .q6 msg.tag outcome = net' at *
  cases handles with
  | join j a loc maxSpan max =>
      have joining : Joining net.topology net.control plan j n loc maxSpan max := inStage
      cases dispatched
      rcases joining.after sound after with
        ⟨several, other, maxSpan', max', c, elects, next⟩ | ⟨splits, lower, below, there⟩
      · exact ⟨plan, _, next, .forward i c several other elects⟩
      · exact ⟨_, _, there, .split j n loc maxSpan max i _ lower splits below rfl⟩
  | newRange l p s c c' =>
      have offered : Offered net.topology net.control plan l p s c c' := inStage
      cases dispatched
      exact ⟨_, _, offered.after after, .take l p s c c' i⟩
  | leaving x y c lower =>
      have repair : Repair net.topology net.control plan n y (.orphan c) lower := inStage
      cases dispatched
      rcases repair.after_leaving after with ⟨apart, there⟩ | ⟨same, there⟩
      · exact ⟨plan, _, there, .leaving n y c lower _ i (Or.inl ⟨apart, rfl⟩)⟩
      · exact ⟨plan, _, there, .leaving n y c lower _ i (Or.inr ⟨same, rfl⟩)⟩
  | close x y upper c =>
      have repair : Repair net.topology net.control plan x n upper (.closing c) := inStage
      cases dispatched
      rcases repair.after_close after with ⟨apart, there⟩ | ⟨same, there⟩
      · exact ⟨plan, _, there, .close x n c upper _ i (Or.inl ⟨apart, rfl⟩)⟩
      · exact ⟨plan, _, there, .close x n c upper _ i (Or.inr ⟨same, rfl⟩)⟩

theorem Net.InStage.accept (inStage : net.InStage plan stage) {n : Addr}
    (stepped : net.step (.accept n) = some net') :
    ∃ plan' stage', net'.InStage plan' stage' ∧ net.Leads plan stage (.accept n) plan' stage' := by
  obtain ⟨back, conn, rest, accepted, waits, rfl⟩ := accept_eq_some stepped
  rcases inStage.pc_cases n with ⟨-, q6⟩ | actor | absent | exited
  · rw [q6] at accepted
    cases accepted
  · cases stage with
    | idle => exact actor.elim
    | joining j a loc maxSpan max =>
        obtain ⟨rfl, -⟩ := actor
        have empty : net.backlog n = [] := Joining.backlog inStage
        rw [empty] at waits
        cases waits
    | repair x y upper lower =>
        have repair : Repair net.topology net.control plan x y upper lower := inStage
        have ok := repair.upper_ok
        rcases actor with ⟨rfl, -, pc⟩ | ⟨rfl, pc⟩
        · rw [pc] at accepted
          cases upper with
          | accepting w c start stop =>
              obtain ⟨-, -, -, -, -, -, backlog, -⟩ := ok
              obtain ⟨rfl, rfl⟩ : c = conn ∧ [] = rest :=
                List.cons.inj ((show net.backlog n = [c] from backlog).symm.trans waits)
              cases accepted
              exact ⟨plan, .repair n y (.receiving c start stop) lower,
                Change.Holds.at _ repair.accept accept_topology rfl, .accept n y w c start stop lower⟩
          | _ => cases accepted
        · have backlog : net.backlog n = upper.waits := repair.backlog
          rw [waits] at backlog
          rw [pc] at accepted
          cases lower with
          | waiting =>
              cases upper with
              | connected c =>
                  obtain ⟨rfl, rfl⟩ := List.cons.inj backlog
                  cases accepted
                  exact ⟨plan, .idle, Change.Holds.at .idle repair.settle accept_topology
                    repair.posts, .settle x n conn⟩
              | _ => cases backlog
          | _ => cases accepted
    | _ =>
        obtain ⟨-, pc⟩ := actor
        rw [pc] at accepted
        cases accepted
  · rw [absent] at accepted
    cases accepted
  · rw [exited] at accepted
    cases accepted

theorem received {loc : Loc} {pdu : Pdu} {posts : List (Loc × Pdu)} {others : List Msg}
    (posted : net.control = post ((loc, pdu) :: posts))
    (only : ∀ entry ∈ posts, entry.1 ≠ loc) (queue : net.queue loc = others)
    (plain : ∀ msg rest, net.queue loc = msg :: rest → msg.pdu.requestKey = none) :
    ∃ msg rest, others = msg :: rest ∧ msg.pdu = pdu := by
  cases others with
  | nil => exact absurd queue (queue_ne_nil _ posted List.mem_cons_self)
  | cons msg rest =>
      refine ⟨msg, rest, rfl, ?_⟩
      rcases List.mem_cons.mp (mem_control queue (plain msg rest queue) posted) with eq | other
      · exact (Prod.mk.inj eq).2
      · exact absurd rfl (only _ other)

theorem Net.InStage.response (inStage : net.InStage plan stage) {n : Addr}
    (unharmed : Unharmed net (.response n)) (stepped : net.step (.response n) = some net') :
    ∃ plan' stage', net'.InStage plan' stage' ∧ net.Leads plan stage (.response n) plan' stage' := by
  obtain ⟨waits, loc, receives, reads⟩ := response_eq_some stepped
  rcases inStage.pc_cases n with ⟨-, q6⟩ | actor | absent | exited
  · rw [q6] at waits
    cases waits
  · cases stage with
    | idle => exact actor.elim
    | repair x y upper lower =>
        have repair : Repair net.topology net.control plan x y upper lower := inStage
        have ok := repair.upper_ok
        rcases actor with ⟨rfl, -, pc⟩ | ⟨-, pc⟩
        · rw [pc] at waits
          cases upper with
          | receiving c start stop =>
              have predecessor : (net.node n).selfData.predecessor = some c := ok.2.1.predecessor
              have pc : (net.node n).pc = .q7Receive := pc
              rw [Proc.receives, pc, predecessor] at receives
              obtain rfl : Loc.up c = loc := Option.some.inj receives
              have posted : net.control =
                  post ((.up c, .netJoinResponse y start stop) :: lower.posts) := repair.posts
              have only : ∀ entry ∈ lower.posts, entry.1 ≠ .up c := by
                cases lower with
                | closing c' =>
                    rintro entry mem eq
                    rw [List.mem_singleton.mp mem] at eq
                    cases eq
                    exact ok.1 (ok.2.1.target.symm.trans repair.lower_ok.1.target)
                | waiting => simp [Lower.posts]
                | alone => simp [Lower.posts]
              have plain := fun msg rest => unharmed.waits n (.up c) msg rest (Or.inr rfl) (by
                rw [Proc.receives, pc, predecessor]
                rfl)
              obtain ⟨msg, rest, queue, pdu⟩ := received posted only rfl plain
              rcases reads with ⟨next, rangeStart, rangeEnd, req, rest', queue', rfl⟩ | ⟨other, -⟩
              · rw [queue] at queue'
                obtain ⟨rfl, rfl⟩ := List.cons.inj queue'
                cases pdu
                have after := after_performAll (n := n)
                  (show (net.setQueue (.up c) rest).topology = net.topology from rfl)
                  (control_of_head queue rfl posted) none
                  (Pc.after .q6 (q8 net.env (net.node n).selfData y start stop).ctl)
                  (q8 net.env (net.node n).selfData y start stop).selfData
                  (q8 net.env (net.node n).selfData y start stop).effects
                exact ⟨plan, _, repair.after_response after, .response n y c start stop lower⟩
              · obtain ⟨msg_pdu, req⟩ := msg
                obtain rfl : msg_pdu = _ := pdu
                exact absurd queue (other y start stop req rest)
          | _ => cases waits
        · rw [pc] at waits
          cases lower <;> cases waits
    | _ =>
        obtain ⟨-, pc⟩ := actor
        rw [pc] at waits
        cases waits
  · rw [absent] at waits
    cases waits
  · rw [exited] at waits
    cases waits

theorem Between.receives {l p s : Addr} {c c' : Conn}
    (between : Between net.topology plan l p s c c')
    (pc : (net.node l).pc = .awaitResponse) :
    (net.node l).receives =
      some (if (net.topology.wiring l).rangeStart = 0 then .down c' else .up c) := by
  obtain ⟨successor, predecessor, -, -⟩ := between.sockets
  have wiring : (net.topology.wiring l).rangeStart = (net.node l).selfData.rangeStart := rfl
  rw [Proc.receives, pc, wiring]
  by_cases first : (net.node l).selfData.rangeStart = 0
  · simp [SelfData.heir, first, successor]
  · simp [SelfData.heir, first, predecessor]

theorem Net.InStage.reply (inStage : net.InStage plan stage) {n : Addr}
    (unharmed : Unharmed net (.reply n)) (stepped : net.step (.reply n) = some net') :
    ∃ plan' stage', net'.InStage plan' stage' ∧ net.Leads plan stage (.reply n) plan' stage' := by
  obtain ⟨waits, loc, granted, receives, reads, rfl⟩ := reply_eq_some stepped
  have plain := fun msg rest => unharmed.waits n loc msg rest (Or.inl rfl) receives
  rcases inStage.pc_cases n with ⟨-, q6⟩ | actor | absent | exited
  · rw [q6] at waits
    cases waits
  · cases stage with
    | idle => exact actor.elim
    | offered l p s c c' =>
        -- the offer is still on its way, so there is nothing to read
        have offered : Offered net.topology net.control plan l p s c c' := inStage
        have between := offered.between
        obtain ⟨rfl, -⟩ := actor
        rw [between.receives waits] at receives
        exfalso
        rcases reads with ⟨msg, rest, queue, -⟩ | ⟨-, closed, -⟩
        · have mem := mem_control queue (plain msg rest queue) offered.posts
          have place := (Prod.mk.inj (List.mem_singleton.mp mem)).1
          rw [place] at receives
          split at receives <;> cases receives
        · have is_open : net.closed loc = false := by
            have mem_s : plan.Member s := offered.next_l ▸ Plan.member_next offered.ring.tiled
              (offered.next_p ▸ Plan.member_next offered.ring.tiled between.prev)
            rw [← Option.some.inj receives]
            split
            · exact not_closed_down between.in_s (inStage.alive (Or.inl mem_s))
            · exact not_closed_up between.out_p (inStage.alive (Or.inl between.prev))
          rw [is_open] at closed
          cases closed
    | taken l p s c c' =>
        have taken : Taken net.topology net.control plan l p s c c' := inStage
        obtain ⟨rfl, -⟩ := actor
        rw [taken.between.receives waits] at receives
        have posts := taken.posts
        rw [Option.some.inj receives] at posts
        obtain ⟨msg, rest, queue, pdu⟩ := received posts (by simp) rfl plain
        have granted_eq : granted = true := by
          rcases reads with ⟨msg', rest', queue', eq⟩ | ⟨-, -, eq⟩
          · rw [queue] at queue'
            obtain ⟨rfl, rfl⟩ := List.cons.inj queue'
            rw [eq, pdu]
            rfl
          · exact eq
        have sound := unharmed.handsOver n granted rfl
        rw [granted_eq] at sound ⊢
        have after := after_performAll (n := n)
          (show (net.setQueue loc (net.queue loc).tail).topology = net.topology from rfl)
          (by
            rw [queue]
            exact control_of_head queue (plain msg rest queue) posts) none
          (Pc.after (.lastPoll .udp (net.node n).selfData.successor.destAddr)
            (handOver (net.node n).selfData true).ctl)
          (handOver (net.node n).selfData true).selfData
          (handOver (net.node n).selfData true).effects
        exact ⟨plan, _, taken.after sound after, .reply n p s c c'⟩
    | repair x y upper lower =>
        rcases actor with ⟨-, -, pc⟩ | ⟨-, pc⟩
        · rw [pc] at waits
          cases upper <;> cases waits
        · rw [pc] at waits
          cases lower <;> cases waits
    | _ =>
        obtain ⟨-, pc⟩ := actor
        rw [pc] at waits
        cases waits
  · rw [absent] at waits
    cases waits
  · rw [exited] at waits
    cases waits

theorem Net.InStage.finish (inStage : net.InStage plan stage) {n : Addr}
    (stepped : net.step (.finish n) = some net') :
    ∃ plan' stage', net'.InStage plan' stage' ∧ net.Leads plan stage (.finish n) plan' stage' := by
  obtain ⟨i, new, polls, rfl⟩ := finish_eq_some stepped
  rcases inStage.pc_cases n with ⟨-, q6⟩ | actor | absent | exited
  · rw [q6] at polls
    cases polls
  · cases stage with
    | idle => exact actor.elim
    | polling l p s c c' j =>
        have polling : Polling net.topology net.control plan l p s c c' j := inStage
        obtain ⟨rfl, pc⟩ := actor
        rw [pc] at polls
        cases polls
        have after := after_performAll (n := n) (Eq.refl net.topology) polling.posts none (.exited true)
          (net.node n).selfData (sayGoodbye (net.node n).selfData new)
        exact ⟨plan, _, polling.after after, .finish n p new c c' i⟩
    | repair x y upper lower =>
        rcases actor with ⟨-, -, pc⟩ | ⟨-, pc⟩
        · rw [pc] at polls
          cases upper <;> cases polls
        · rw [pc] at polls
          cases lower <;> cases polls
    | _ =>
        obtain ⟨-, pc⟩ := actor
        rw [pc] at polls
        cases polls
  · rw [absent] at polls
    cases polls
  · rw [exited] at polls
    cases polls

def Net.ServesRequest (net : Net) (act : Act) : Prop :=
  ∃ n i loc msg rest, act = .deliver n i ∧ (net.node n).reads n i = some loc ∧
    net.queue loc = msg :: rest ∧ msg.pdu.requestKey.isSome

/-- Every step is a step of the change or the handling of a request. -/
theorem Net.InStage.step (inStage : net.InStage plan stage) {act : Act}
    (internal : act.internal = true) (unharmed : Unharmed net act)
    (stepped : net.step act = some net') :
    ∃ plan' stage', net'.InStage plan' stage' ∧
      (net.Leads plan stage act plan' stage' ∨
        (plan' = plan ∧ stage.Turns stage' ∧ net.ServesRequest act)) := by
  have leads : (∃ plan' stage', net'.InStage plan' stage' ∧ net.Leads plan stage act plan' stage') →
      ∃ plan' stage', net'.InStage plan' stage' ∧ (net.Leads plan stage act plan' stage' ∨
        (plan' = plan ∧ stage.Turns stage' ∧ net.ServesRequest act)) := by
    rintro ⟨plan', stage', there, leads⟩
    exact ⟨plan', stage', there, Or.inl leads⟩
  cases act with
  | deliver n i =>
      obtain ⟨back, loc, msg, rest, outcome, polls, reads, queue, -, -⟩ := deliver_eq_some stepped
      cases request : msg.pdu.requestKey with
      | none =>
          apply leads
          apply inStage.deliver unharmed stepped
          intro loc' msg' rest' reads' queue'
          cases reads.symm.trans reads'
          cases queue.symm.trans queue'
          exact request
      | some ssn =>
          obtain ⟨stage', there, turns⟩ := inStage.request unharmed stepped (by
            intro loc' msg' rest' reads' queue'
            cases reads.symm.trans reads'
            cases queue.symm.trans queue'
            simp [request])
          have serves : net.ServesRequest (.deliver n i) :=
            ⟨n, i, loc, msg, rest, rfl, reads, queue, by simp [request]⟩
          exact ⟨plan, stage', there, Or.inr ⟨rfl, turns, serves⟩⟩
  | discard n i k =>
      rw [inStage.no_discard n i k] at stepped
      cases stepped
  | eof n i =>
      rw [inStage.no_eof n i] at stepped
      cases stepped
  | accept n => exact leads (inStage.accept stepped)
  | response n => exact leads (inStage.response unharmed stepped)
  | reply n => exact leads (inStage.reply unharmed stepped)
  | finish n => exact leads (inStage.finish stepped)
  | _ => cases internal

/-! ## Some step is possible -/

theorem Net.InStage.deliver_enabled (inStage : net.InStage plan stage) {n : Addr} {i : FdsIndex}
    {back : Pc} {loc : Loc} (polls : (net.node n).pc.polls i = some back)
    (reads : (net.node n).reads n i = some loc) (waits : net.queue loc ≠ []) :
    ∃ act net', act.internal = true ∧ net.step act = some net' := by
  obtain ⟨msg, rest, queue⟩ := List.exists_cons_of_ne_nil waits
  obtain ⟨outcome, dispatched⟩ := inStage.handled polls reads queue
  refine ⟨.deliver n i, ((net.note n msg).setQueue loc rest).commit n back msg.tag outcome, rfl, ?_⟩
  simp [Net.step, Net.deliver, polls, reads, queue, dispatched]

theorem accept_enabled {n : Addr} {back : Pc} {conn : Conn} {rest : List Conn}
    (accepted : (net.node n).pc.accepted = some back) (waits : net.backlog n = conn :: rest) :
    ∃ act net', act.internal = true ∧ net.step act = some net' := by
  refine ⟨.accept n, ({ net with backlog := Function.update net.backlog n rest }).setNode n
    ⟨back, (net.node n).selfData.acceptPredecessor conn⟩, rfl, ?_⟩
  simp [Net.step, Net.accept, accepted, waits]

theorem polls_of_q6 {n : Addr} (q6 : (net.node n).pc = .q6) (i : FdsIndex) :
    (net.node n).pc.polls i = some .q6 := by
  rw [q6]
  rfl

theorem reads_down {n m : Addr} {c : Conn} (out : net.topology.Out n c m) :
    (net.node n).reads n .successor = some (.down c) := by
  have fds : (net.node n).selfData.fdsSuccessor = some c := out.fds
  rw [Proc.reads, fds]
  rfl

theorem reads_up {m : Addr} {c : Conn} (inn : net.topology.In m c) :
    (net.node m).reads m .predecessor = some (.up c) := by
  have fds : (net.node m).selfData.fdsPredecessor = some c := inn.fds
  rw [Proc.reads, fds]
  rfl

theorem Repair.close_enabled {x y : Addr} {upper : Upper} {c : Conn}
    (repair : Repair net.topology net.control plan x y upper (.closing c)) :
    ∃ act net', act.internal = true ∧ net.step act = some net' := by
  have inStage : net.InStage plan (.repair x y upper (.closing c)) := repair
  apply inStage.deliver_enabled (polls_of_q6 repair.pc_y .predecessor) (reads_up repair.lower_ok.1)
  apply queue_ne_nil .netCloseConnection repair.posts
  simp [Lower.posts]

theorem Repair.goes_on {x y : Addr} {upper : Upper} {lower : Lower}
    (repair : Repair net.topology net.control plan x y upper lower) :
    (upper = .alone ∧ lower = .alone) ∨ ∃ act net', act.internal = true ∧ net.step act = some net' := by
  have inStage : net.InStage plan (.repair x y upper lower) := repair
  have ok := repair.upper_ok
  cases upper with
  | accepting w c start stop =>
      right
      obtain ⟨apart, -, -, -, -, -, backlog, -⟩ := ok
      have pc : (net.node x).pc = .q7Accept := repair.pc_x apart
      exact accept_enabled (show (net.node x).pc.accepted = some .q7Receive by rw [pc]; rfl) backlog
  | receiving c start stop =>
      right
      obtain ⟨apart, inn, -⟩ := ok
      have pc : (net.node x).pc = .q7Receive := repair.pc_x apart
      have predecessor : (net.node x).selfData.predecessor = some c := inn.predecessor
      have waits : net.queue (.up c) ≠ [] := queue_ne_nil _ repair.posts List.mem_cons_self
      obtain ⟨msg, rest, queue⟩ := List.exists_cons_of_ne_nil waits
      refine ⟨.response x, ?_⟩
      obtain ⟨pdu, req⟩ := msg
      cases pdu <;> simp [Act.internal, Net.step, Net.response, pc, Proc.receives, predecessor, queue]
  | orphan c =>
      right
      apply inStage.deliver_enabled (polls_of_q6 repair.orphan_q6 .successor) (reads_down ok.1)
      apply queue_ne_nil (.netLeaving y) repair.posts
      simp [Upper.posts]
  | connected c =>
      right
      cases lower with
      | closing c' => exact repair.close_enabled
      | waiting =>
          have pc : (net.node y).pc = .q6Accept := repair.pc_y
          exact accept_enabled (show (net.node y).pc.accepted = some .q6 by rw [pc]; rfl) repair.backlog
      | alone => exact absurd repair.lower_ok.1 ok.1
  | alone =>
      cases lower with
      | closing c' => exact Or.inr repair.close_enabled
      | waiting => exact absurd ok.1 repair.lower_ok.1
      | alone => exact Or.inl ⟨rfl, rfl⟩

theorem Net.InStage.goes_on (inStage : net.InStage plan stage) :
    net.InStage plan .idle ∨ ∃ act net', act.internal = true ∧ net.step act = some net' := by
  cases stage with
  | idle => exact Or.inl inStage
  | joining j a loc maxSpan max =>
      right
      have joining : Joining net.topology net.control plan j a loc maxSpan max := inStage
      have waits := queue_ne_nil _ joining.posts List.mem_cons_self
      have q6 := joining.idle a joining.reader
      rcases joining.reads with rfl | ⟨c, inn, rfl⟩
      · exact inStage.deliver_enabled (i := .udp) (polls_of_q6 q6 .udp) rfl waits
      · exact inStage.deliver_enabled (polls_of_q6 q6 .predecessor) (reads_up inn) waits
  | offered l p s c c' =>
      right
      have offered : Offered net.topology net.control plan l p s c c' := inStage
      have between := offered.between
      have waits := queue_ne_nil _ offered.posts List.mem_cons_self
      have mem_l := offered.next_p ▸ Plan.member_next offered.ring.tiled between.prev
      have mem_s := offered.next_l ▸ Plan.member_next offered.ring.tiled mem_l
      split at waits
      · have q6 := offered.idle s mem_s (Ne.symm between.other')
        exact inStage.deliver_enabled (polls_of_q6 q6 .predecessor) (reads_up between.in_s) waits
      · have q6 := offered.idle p between.prev between.other
        exact inStage.deliver_enabled (polls_of_q6 q6 .successor) (reads_down between.out_p) waits
  | taken l p s c c' =>
      right
      have taken : Taken net.topology net.control plan l p s c c' := inStage
      have pc : (net.node l).pc = .awaitResponse := taken.pc
      have waits := queue_ne_nil _ taken.posts List.mem_cons_self
      obtain ⟨msg, rest, queue⟩ := List.exists_cons_of_ne_nil waits
      refine ⟨.reply l, ?_⟩
      simp [Act.internal, Net.step, Net.reply, pc, taken.between.receives pc, queue]
  | polling l p s c c' i =>
      right
      have pc : (net.node l).pc = .lastPoll i s := Polling.pc inStage
      refine ⟨.finish l, ?_⟩
      simp [Act.internal, Net.step, Net.finish, pc]
  | repair x y upper lower =>
      have repair : Repair net.topology net.control plan x y upper lower := inStage
      rcases repair.goes_on with ⟨rfl, rfl⟩ | enabled
      · exact Or.inl repair.last
      · exact Or.inr enabled

end DhtRing

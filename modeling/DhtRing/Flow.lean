import DhtRing.Orderly

/-!
# Nothing is lost

Each step of an orderly network leaves it orderly.  It serves a request, passes one on,
sends a node's entries to their new owner, or leaves requests and entries as they are.
-/

set_option autoImplicit false

namespace DhtRing

variable {net net' : Net} {plan plan' : Plan} {stage stage' : Change}

/-! ## What a step does to requests and entries -/

def Effect.reply (req : Option ℕ) : Effect → Option (Addr × Msg)
  | .udp dest pdu => some (dest, ⟨pdu, req⟩)
  | _ => none

inductive Net.Flow (net net' : Net) : Prop where
  | still : net'.requests = net.requests → net'.applied = net.applied →
      net'.replies = net.replies → net'.stored = net.stored → Net.Flow net net'
  | serve (n : Addr) (loc : Loc) (msg : Msg) (rest : List Msg) (ssn : Ssn) (outcome : Outcome) :
      (net.node n).pc = .q6 → net.requests loc = msg :: rest → loc.reader = n →
      msg.pdu.requestKey = some ssn → checkRange (net.node n).selfData ssn = true →
      dispatch net.env (net.node n).selfData msg.pdu = some outcome →
      net'.requests = Function.update net.requests loc rest →
      net'.applied = net.applied ++ [(n, msg)] →
      net'.replies = net.replies ++ outcome.effects.filterMap (Effect.reply msg.req) →
      net'.node = Function.update net.node n ⟨.q6, outcome.selfData⟩ → Net.Flow net net'
  | pass (n : Addr) (loc : Loc) (msg : Msg) (rest : List Msg) (c : Conn) :
      net.requests loc = msg :: rest → loc.reader = n → (net.node n).selfData.fdsSuccessor = some c →
      Loc.up c ≠ loc → net'.requests = Function.update (Function.update net.requests loc rest)
        (.up c) (net.requests (.up c) ++ [msg]) →
      net'.applied = net.applied → net'.replies = net.replies → net'.stored = net.stored →
      Net.Flow net net'
  | spread (n : Addr) (fd : Loc) (entries : List (Ssn × ValuePair)) :
      net'.requests = Function.update net.requests fd (net.requests fd ++ entries.map transfer) →
      net'.applied = net.applied → net'.replies = net.replies → (entries.map Prod.fst).Nodup →
      (∀ entry ∈ entries, net.stored n entry.1 = some entry.2) →
      (∀ key, net'.stored n key =
        if key ∈ entries.map Prod.fst then none else net.stored n key) →
      (∀ m, m ≠ n → net'.stored m = net.stored m) → Net.Flow net net'

inductive Net.Handled (net net' : Net) : Prop where
  | serve (n : Addr) (loc : Loc) (msg : Msg) (rest : List Msg) (ssn : Ssn) (outcome : Outcome) :
      (net.node n).pc = .q6 → net.requests loc = msg :: rest → loc.reader = n →
      msg.pdu.requestKey = some ssn → checkRange (net.node n).selfData ssn = true →
      dispatch net.env (net.node n).selfData msg.pdu = some outcome →
      net'.requests = Function.update net.requests loc rest →
      net'.applied = net.applied ++ [(n, msg)] →
      net'.replies = net.replies ++ outcome.effects.filterMap (Effect.reply msg.req) →
      net'.node = Function.update net.node n ⟨.q6, outcome.selfData⟩ → Net.Handled net net'
  | pass (n : Addr) (i : FdsIndex) (back : Pc) (loc : Loc) (msg : Msg) (rest : List Msg)
      (ssn : Ssn) (c : Conn) : (net.node n).pc.polls i = some back →
      net.requests loc = msg :: rest → loc.reader = n → msg.pdu.requestKey = some ssn →
      checkRange (net.node n).selfData ssn = false → msg.req ≠ none →
      (net.node n).selfData.fdsSuccessor = some c → net.topology.Served (.up c) →
      Loc.up c ≠ loc → net'.requests = Function.update (Function.update net.requests loc rest)
        (.up c) (net.requests (.up c) ++ [msg]) →
      net'.applied = net.applied → net'.replies = net.replies → net'.stored = net.stored →
      Net.Handled net net'

theorem Net.Handled.flow (handled : net.Handled net') : net.Flow net' := by
  cases handled with
  | serve n loc msg rest ssn outcome q6 head reader key in_range dispatched requests applied replies
      node =>
      exact .serve n loc msg rest ssn outcome q6 head reader key in_range dispatched requests applied
        replies node
  | pass n i back loc msg rest ssn c polls head reader key out tagged fds served apart requests
      applied replies stored =>
      exact .pass n loc msg rest c head reader fds apart requests applied replies stored

theorem performAll_replies {req : Option ℕ} (effects : List Effect) :
    (net.performAll req effects).replies = net.replies ++ effects.filterMap (Effect.reply req) := by
  induction effects generalizing net with
  | nil => simp
  | cons effect effects ih =>
      rw [performAll_cons, ih]
      cases effect with
      | tcp fd pdu =>
          rw [List.filterMap_cons_none rfl]
          simp only [Net.perform]
          split <;> rfl
      | udp dest pdu =>
          simp [Net.perform, Effect.reply]
      | connect conn =>
          rw [List.filterMap_cons_none rfl]
          rfl
      | close fd =>
          rw [List.filterMap_cons_none rfl]
          rfl

/-! ## Places that stay served -/

section

variable {T : Topology} {n : Addr} {pc : Pc} {w : Wiring} {loc : Loc}

theorem Pc.listens_of_serving (serving : pc.serving = true) : pc.listens = true := by
  cases pc with
  | q7Accept => rfl
  | q7Receive => rfl
  | _ => exact serving

theorem foldl_perform_pc (effects : List Effect) (T : Topology) :
    (effects.foldl Topology.perform T).pc = T.pc ∧
      (effects.foldl Topology.perform T).wiring = T.wiring := by
  induction effects generalizing T with
  | nil => exact ⟨rfl, rfl⟩
  | cons effect effects ih =>
      obtain ⟨pc, wiring⟩ := ih (T.perform effect)
      rw [List.foldl_cons, pc, wiring]
      cases effect <;> exact ⟨rfl, rfl⟩

theorem mem_foldl_perform_backlog (effects : List Effect) (T : Topology) {m : Addr} {c : Conn}
    (waits : c ∈ T.backlog m) : c ∈ (effects.foldl Topology.perform T).backlog m := by
  induction effects generalizing T with
  | nil => exact waits
  | cons effect effects ih =>
      rw [List.foldl_cons]
      apply ih
      cases effect with
      | connect conn =>
          change c ∈ Function.update T.backlog conn.target (T.backlog conn.target ++ [conn]) m
          by_cases here : m = conn.target
          · subst here
            rw [Function.update_self]
            exact List.mem_append_left _ waits
          · rw [Function.update_of_ne here]
            exact waits
      | _ => exact waits

theorem Topology.Served.put (served : T.Served loc) (effects : List Effect)
    (serving : pc.serving = true)
    (succ : ∀ c, loc = .down c → c.source = n → (T.pc n).serving = true →
      (T.wiring n).fdsSuccessor = some c → w.fdsSuccessor = some c)
    (pred : ∀ c, loc = .up c → c.target = n → (T.wiring n).fdsPredecessor = some c →
      w.fdsPredecessor = some c) :
    ((effects.foldl Topology.perform T).put n pc w).Served loc := by
  obtain ⟨same_pc, same_wiring⟩ := foldl_perform_pc effects T
  have pc_here : ((effects.foldl Topology.perform T).put n pc w).pc n = pc :=
    Function.update_self ..
  have wiring_here : ((effects.foldl Topology.perform T).put n pc w).wiring n = w :=
    Function.update_self ..
  have pc_there : ∀ m, m ≠ n → ((effects.foldl Topology.perform T).put n pc w).pc m = T.pc m :=
    fun m other => (Function.update_of_ne other ..).trans (congrFun same_pc m)
  have wiring_there : ∀ m, m ≠ n →
      ((effects.foldl Topology.perform T).put n pc w).wiring m = T.wiring m :=
    fun m other => (Function.update_of_ne other ..).trans (congrFun same_wiring m)
  cases loc with
  | udp m =>
      by_cases here : m = n
      · subst here
        left
        rw [pc_here]
        exact serving
      · change _ ∨ _
        rw [pc_there m here]
        exact served
  | up c =>
      obtain ⟨listens, reads⟩ := served
      by_cases here : c.target = n
      · refine ⟨?_, ?_⟩
        · rw [here, pc_here]
          exact Pc.listens_of_serving serving
        · rcases reads with fds | waits
          · left
            rw [here, wiring_here]
            exact pred c rfl here (here ▸ fds)
          · exact Or.inr (mem_foldl_perform_backlog effects T waits)
      · refine ⟨?_, ?_⟩
        · rw [pc_there _ here]
          exact listens
        · rcases reads with fds | waits
          · left
            rw [wiring_there _ here]
            exact fds
          · exact Or.inr (mem_foldl_perform_backlog effects T waits)
  | down c =>
      obtain ⟨serves, fds⟩ := served
      by_cases here : c.source = n
      · refine ⟨?_, ?_⟩
        · rw [here, pc_here]
          exact serving
        · rw [here, wiring_here]
          exact succ c rfl here (here ▸ serves) (here ▸ fds)
      · refine ⟨?_, ?_⟩
        · rw [pc_there _ here]
          exact serves
        · rw [wiring_there _ here]
          exact fds

theorem Topology.Served.goesOn (served : T.Served loc) (serving : pc.serving = true) :
    (T.goesOn n pc).Served loc := by
  have same : T.goesOn n pc = ([].foldl Topology.perform T).put n pc (T.wiring n) := by
    unfold Topology.goesOn Topology.put
    congr 1
    exact (Function.update_eq_self n T.wiring).symm
  rw [same]
  exact served.put [] serving (fun _ _ _ _ fds => fds) fun _ _ _ fds => fds

end

/-! ## Requests -/

theorem tidy_update {n : Addr} {proc : Proc} (node : net'.node = Function.update net.node n proc)
    (tidy : ∀ m, (net.node m).pc.inRing = true → Tidy (net.node m).selfData)
    (here : proc.pc.inRing = true → Tidy proc.selfData) (m : Addr)
    (inRing : (net'.node m).pc.inRing = true) : Tidy (net'.node m).selfData := by
  rw [node] at inRing ⊢
  by_cases same : m = n
  · subst same
    rw [Function.update_self] at inRing ⊢
    exact here inRing
  · rw [Function.update_of_ne same] at inRing ⊢
    exact tidy m inRing

theorem stored_update {n : Addr} {proc : Proc} (node : net'.node = Function.update net.node n proc)
    (here : ∀ key, (if proc.pc.inRing then proc.selfData.get key else none) = net.stored n key) :
    net'.stored = net.stored := by
  funext m key
  unfold Net.stored
  rw [node]
  by_cases same : m = n
  · subst same
    rw [Function.update_self]
    exact here key
  · rw [Function.update_of_ne same]

theorem Change.Ordered.pass {queue queue' : Loc → List Msg} (ordered : stage.Ordered queue)
    {loc : Loc} {msg : Msg} {rest : List Msg} (head : queue loc = msg :: rest)
    (request : msg.pdu.requestKey.isSome) (sent : Loc → List Msg)
    (moved : ∀ other, queue' other = Function.update queue loc rest other ++ sent other)
    (quiet : ∀ x y upper lower, stage = .repair x y upper lower →
      (∀ c, upper = .orphan c → sent (.down c) = []) ∧
        ∀ c, lower = .closing c → sent (.up c) = []) : stage.Ordered queue' := by
  have first : ∀ other, (∃ msg rest, queue other = msg :: rest ∧ msg.pdu.requestKey = none) →
      ∃ msg rest, queue' other = msg :: rest ∧ msg.pdu.requestKey = none := by
    rintro other ⟨first, later, there, plain⟩
    have apart : other ≠ loc := by
      rintro rfl
      rw [head] at there
      cases there
      rw [plain] at request
      cases request
    rw [moved, Function.update_of_ne apart, there]
    exact ⟨first, _, rfl, plain⟩
  have last : ∀ other, sent other = [] →
      (∃ before msg, queue other = before ++ [msg] ∧ msg.pdu.requestKey = none) →
      ∃ before msg, queue' other = before ++ [msg] ∧ msg.pdu.requestKey = none := by
    rintro other nothing ⟨before, goodbye, there, plain⟩
    rw [moved, nothing, List.append_nil]
    by_cases here : other = loc
    · subst here
      rw [head] at there
      rw [Function.update_self]
      cases before with
      | nil =>
          cases there
          rw [plain] at request
          cases request
      | cons first before =>
          obtain ⟨-, rfl⟩ := List.cons.inj there
          exact ⟨before, goodbye, rfl, plain⟩
    · rw [Function.update_of_ne here]
      exact ⟨before, goodbye, there, plain⟩
  cases stage with
  | repair x y upper lower =>
      obtain ⟨quiet_up, quiet_down⟩ := quiet x y upper lower rfl
      obtain ⟨at_x, at_y⟩ := ordered
      constructor
      · cases upper with
        | accepting w c start stop => exact first _ at_x
        | receiving c start stop => exact first _ at_x
        | orphan c => exact last _ (quiet_up c rfl) at_x
        | _ => trivial
      · cases lower with
        | closing c => exact last _ (quiet_down c rfl) at_y
        | _ => trivial
  | _ => trivial

theorem Change.Turns.early (turns : stage.Turns stage') : stage'.early = stage.early := by
  rcases turns with rfl | ⟨l, p, s, c, c', i, i', rfl, rfl⟩
  · rfl
  · rfl

theorem Change.Turns.ordered (turns : stage.Turns stage') {queue : Loc → List Msg}
    (ordered : stage.Ordered queue) : stage'.Ordered queue := by
  rcases turns with rfl | ⟨l, p, s, c, c', i, i', rfl, rfl⟩
  · exact ordered
  · trivial

theorem Change.Turns.bequest (turns : stage.Turns stage') {T : Topology}
    (bequest : stage.Bequest T plan) : stage'.Bequest T plan := by
  rcases turns with rfl | ⟨l, p, s, c, c', i, i', rfl, rfl⟩
  · exact bequest
  · trivial

theorem Orderly.tagged (orderly : Orderly net plan stage) {n : Addr} {i : FdsIndex} {back : Pc}
    (polls : (net.node n).pc.polls i = some back) {loc : Loc} {msg : Msg} {ssn : Ssn}
    (mem : msg ∈ net.requests loc) (reader : loc.reader = n) (key : msg.pdu.requestKey = some ssn)
    (out : checkRange (net.node n).selfData ssn = false) : msg.req ≠ none := by
  intro untagged
  have inStage := orderly.inStage
  have owner := orderly.owned loc msg ssn mem untagged key
  have bounded : (hashSsn ssn).toNat < 256 := (hashSsn ssn).toNat_lt
  rw [reader] at owner
  rcases inStage.polling_cases polls with ⟨mem_n, q6⟩ | ⟨p, s, c, c', j, rfl⟩
  · obtain ⟨start, stop⟩ := inStage.ring.node_range mem_n (by rw [q6]; rfl)
    have inside := Tiling.Tiled.at inStage.ring.tiled bounded
    rw [owner, ← start, ← stop, ← checkRange_eq_true, out] at inside
    cases inside
  · exact Polling.gone inStage ⟨_, bounded, owner⟩

theorem Msg.tag_of_request {msg : Msg} {ssn : Ssn} (key : msg.pdu.requestKey = some ssn) :
    msg.tag = msg.req := by
  rw [Msg.tag, key]

theorem performAll_silent {req : Option ℕ} {effects : List Effect}
    (replies : ∀ effect ∈ effects, ∃ dest reply, effect = .udp dest reply) :
    (net.performAll req effects).queue = net.queue := by
  refine performAll_induct (P := fun other => other.queue = net.queue) rfl effects ?_
  intro other effect mem same
  obtain ⟨dest, reply, rfl⟩ := replies effect mem
  exact same

section

variable {n : Addr} {i : FdsIndex} {back : Pc} {loc : Loc} {msg : Msg} {rest : List Msg} {ssn : Ssn}

theorem Orderly.after_request (orderly : Orderly net plan stage)
    (there : net'.InStage plan stage') (turns : stage.Turns stage')
    (topology : net'.topology = net.topology.goesOn n back) (serving : back.serving = true)
    (queue : net.queue loc = msg :: rest) (key : msg.pdu.requestKey = some ssn)
    (node : net'.node = Function.update net.node n ⟨back, (net'.node n).selfData⟩)
    (tidy : back.inRing = true → Tidy (net'.node n).selfData) (sent : Loc → List Msg)
    (moved : ∀ other, net'.queue other = Function.update net.queue loc rest other ++ sent other)
    (quiet : ∀ x y upper lower, stage = .repair x y upper lower →
      (∀ c, upper = .orphan c → sent (.down c) = []) ∧ ∀ c, lower = .closing c → sent (.up c) = [])
    (only : ∀ other, ∀ found ∈ sent other,
      found = msg ∧ net.topology.Served other ∧ msg.req ≠ none ∧ ∀ c, other ≠ .down c) :
    Orderly net' plan stage' := by
  have request : msg.pdu.requestKey.isSome = true := by rw [key]; rfl
  have wiring : net'.topology.wiring = net.topology.wiring := by rw [topology]; rfl
  -- what waits after the step waited before, or was sent on
  have origin : ∀ other found, found ∈ net'.requests other →
      (found ∈ net.requests other) ∨ found ∈ sent other := by
    intro other found mem
    obtain ⟨mem, is_request⟩ := mem_requests.mp mem
    rw [moved, List.mem_append] at mem
    rcases mem with old | new
    · left
      rw [mem_requests]
      refine ⟨?_, is_request⟩
      by_cases here : other = loc
      · subst here
        rw [Function.update_self] at old
        rw [queue]
        exact List.mem_cons_of_mem _ old
      · rwa [Function.update_of_ne here] at old
    · exact Or.inr new
  have served : ∀ other found, found ∈ net'.requests other → net'.topology.Served other := by
    intro other found mem
    rw [topology]
    apply Topology.Served.goesOn _ serving
    rcases origin other found mem with old | new
    · exact orderly.served other found old
    · exact (only other found new).2.1
  refine ⟨there, tidy_update node orderly.tidy tidy, ?_, served, ?_, ?_, ?_, ?_⟩
  · exact turns.ordered (orderly.ordered.pass queue request sent moved quiet)
  · intro early other found mem
    rw [turns.early] at early
    rcases origin other found mem with old | new
    · exact orderly.late early other found old
    · obtain ⟨rfl, -, tagged, -⟩ := only other found new
      exact tagged
  · intro other found ssn' mem untagged key'
    rcases origin other found mem with old | new
    · exact orderly.owned other found ssn' old untagged key'
    · obtain ⟨rfl, -, tagged, -⟩ := only other found new
      exact absurd untagged tagged
  · intro c found mem
    rcases origin (.down c) found mem with old | new
    · exact orderly.downs c found old
    · exact absurd rfl ((only _ found new).2.2.2 c)
  · have same : stage'.Bequest net.topology plan := turns.bequest orderly.bequest
    cases stage' with
    | taken l p s c c' =>
        intro x from_start to_stop
        rw [wiring] at from_start to_stop ⊢
        exact same x from_start to_stop
    | _ => trivial

theorem Orderly.request_step (orderly : Orderly net plan stage)
    (careful : Careful net (.deliver n i)) (stepped : net.step (.deliver n i) = some net')
    (request : ∀ loc msg rest, (net.node n).reads n i = some loc → net.queue loc = msg :: rest →
      msg.pdu.requestKey.isSome) :
    (∃ stage', Orderly net' plan stage' ∧ stage.Turns stage') ∧ net.Handled net' := by
  have unharmed := orderly.unharmed careful stepped
  obtain ⟨stage', there, turns⟩ := orderly.inStage.request unharmed stepped request
  obtain ⟨back, loc, msg, rest, outcome, polls, reads, queue, dispatched, rfl⟩ :=
    deliver_eq_some stepped
  have request := request loc msg rest reads queue
  obtain ⟨ssn, key⟩ := Option.isSome_iff_exists.mp request
  obtain ⟨topology, -⟩ := handled_request back unharmed reads queue request dispatched
  obtain ⟨reader, reads_here⟩ := reads_cases (orderly.inStage.ring.held n) reads
  have serving : back.serving = true := by
    rcases polls_cases polls with ⟨-, rfl⟩ | ⟨j, new, -, rfl⟩
    · rfl
    · rfl
  have here : msg ∈ net.requests loc := by
    rw [requests_of_head queue request]
    exact List.mem_cons_self
  have popped : (net.setQueue loc rest).requests =
      Function.update net.requests loc ((net.setQueue loc rest).requests loc) := by
    rw [setQueue_requests, Function.update_self]
  rcases orderly.request careful polls reads queue key dispatched with
    ⟨in_range, q6, run, tidy, replies⟩ | ⟨out, c, fds, is_open, other, served, rfl⟩
  · have back_q6 := polls_q6_eq polls q6
    subst back_q6
    have node : (((net.note n msg).setQueue loc rest).commit n .q6 msg.tag outcome).node =
        Function.update net.node n ⟨.q6, outcome.selfData⟩ := by
      rw [commit_node, setQueue_node, note_node, run]
      rfl
    have waits : (((net.note n msg).setQueue loc rest).commit n .q6 msg.tag outcome).queue =
        Function.update net.queue loc rest := by
      rw [Net.commit, setNode_queue, performAll_silent replies, setQueue_queue, note_queue]
    have data : ((((net.note n msg).setQueue loc rest).commit n .q6 msg.tag outcome).node n).selfData =
        outcome.selfData := by
      rw [node, Function.update_self]
    refine ⟨⟨stage', orderly.after_request there turns topology serving queue key ?_ ?_
      (fun _ => []) ?_ ?_ ?_, turns⟩, ?_⟩
    · rw [data]
      exact node
    · rw [data]
      exact fun _ => tidy
    · intro other
      rw [waits, List.append_nil]
    · exact fun _ _ _ _ _ => ⟨fun _ _ => rfl, fun _ _ => rfl⟩
    · intro other found mem
      cases mem
    · refine .serve n loc msg _ ssn outcome q6 (requests_of_head queue request) reader key in_range
        dispatched ?_ ?_ ?_ node
      · rw [← popped]
        funext other
        rw [Net.requests, Net.requests, waits, setQueue_queue]
      · rw [Net.commit, setNode_applied, performAll_applied, setQueue_applied, Net.note, key]
        simp [in_range]
      · rw [Net.commit, setNode_replies, performAll_replies, setQueue_replies,
          Msg.tag_of_request key]
        congr 1
        unfold Net.note
        rw [key]
        dsimp only
        split <;> rfl
  · have tagged := orderly.tagged polls here reader key out
    have note : net.note n msg = net := by
      rw [Net.note, key]
      simp [out]
    have whole : (⟨msg.pdu, msg.tag⟩ : Msg) = msg := by
      rw [Msg.tag_of_request key]
    have commit : ((net.note n msg).setQueue loc rest).commit n back msg.tag
        ⟨(net.node n).selfData, [.tcp (.up c) msg.pdu], .run⟩ =
        ((net.setQueue loc rest).push (.up c) msg).setNode n ⟨back, (net.node n).selfData⟩ := by
      rw [note, Net.commit, performAll_cons, performAll_nil]
      simp [Net.perform, is_open, whole, Pc.after]
    rw [commit] at there topology ⊢
    have apart : Loc.up c ≠ loc := by
      rintro rfl
      exact other reader
    have source : c.source = n := (orderly.inStage.ring.held n).successor c fds
    refine ⟨⟨stage', orderly.after_request there turns topology serving queue key ?_ ?_
      (fun other => if other = .up c then [msg] else []) ?_ ?_ ?_, turns⟩, ?_⟩
    · rw [setNode_node, Function.update_self]
      rfl
    · rw [setNode_node, Function.update_self]
      intro inRing
      apply orderly.tidy n
      rcases polls_cases polls with ⟨q6, -⟩ | ⟨j, new, -, rfl⟩
      · rw [q6]
        rfl
      · cases inRing
    · intro other
      rw [setNode_queue, Net.push, setQueue_queue, setQueue_queue]
      by_cases at_c : other = .up c
      · subst at_c
        simp [apart]
      · simp [at_c]
    · rintro x y upper lower rfl
      have repair : Repair net.topology net.control plan x y upper lower := orderly.inStage
      refine ⟨fun c' _ => by simp, ?_⟩
      rintro c' rfl
      refine if_neg fun eq => ?_
      cases eq
      -- the old predecessor has ended, or sends to another node now
      rcases repair.lower_ok.2 with exited | elsewhere
      · have exited : (net.node c.source).pc = .exited true := exited
        rw [source] at exited
        rw [exited] at polls
        cases polls
      · rw [source] at elsewhere
        exact elsewhere fds
    · intro other found mem
      by_cases at_c : other = .up c
      · subst at_c
        rw [if_pos rfl, List.mem_singleton] at mem
        exact ⟨mem, served, tagged, fun _ eq => by cases eq⟩
      · rw [if_neg at_c] at mem
        cases mem
    · refine .pass n i back loc msg _ ssn c polls (requests_of_head queue request) reader key out
        tagged fds served apart ?_ rfl rfl ?_
      · rw [setNode_requests, push_requests, if_pos request, ← popped]
        congr 2
        rw [setQueue_requests, Function.update_of_ne apart]
      · apply stored_update (n := n) rfl
        intro key
        unfold Net.stored
        rcases polls_cases polls with ⟨q6, rfl⟩ | ⟨j, new, pc, rfl⟩
        · rw [q6]
        · rw [pc]
          rfl

end

/-! ## Steps of the change -/

/-- A step that leaves the requests where they are. -/
theorem Orderly.still (orderly : Orderly net plan stage) (there : net'.InStage plan' stage')
    (requests : net'.requests = net.requests)
    (tidy : ∀ n, (net'.node n).pc.inRing = true → Tidy (net'.node n).selfData)
    (ordered : stage'.Ordered net'.queue)
    (served : ∀ loc, ∀ msg ∈ net.requests loc, net.topology.Served loc → net'.topology.Served loc)
    (late : stage'.early = true → stage.early = true)
    (owned : plan' = plan ∨ stage.early = true) (bequest : stage'.Bequest net'.topology plan') :
    Orderly net' plan' stage' where
  inStage := there
  tidy := tidy
  ordered := ordered
  served loc msg mem := by
    rw [requests] at mem
    exact served loc msg mem (orderly.served loc msg mem)
  late early := by
    rw [requests]
    exact orderly.late (late early)
  owned loc msg ssn mem untagged key := by
    rw [requests] at mem
    rcases owned with rfl | early
    · exact orderly.owned loc msg ssn mem untagged key
    · exact absurd untagged (orderly.late early loc msg mem)
  downs := by
    rw [requests]
    exact orderly.downs
  bequest := bequest

section

variable {n : Addr} {loc : Loc} {msg : Msg} {rest : List Msg} {outcome : Outcome}

/-- What `n` makes of a PDU of the change, when it sends no request. -/
theorem Orderly.after_control (orderly : Orderly net plan stage) {back : Pc}
    (queue : net.queue loc = msg :: rest) (plain : msg.pdu.requestKey = none)
    (there : (((net.note n msg).setQueue loc rest).commit n back msg.tag outcome).InStage plan' stage')
    (sends : ∀ fd pdu, .tcp fd pdu ∈ outcome.effects → pdu.requestKey = none)
    (silent : outcome.effects.filterMap (Effect.reply msg.tag) = [])
    (q6 : (net.node n).pc = .q6) (serving : (back.after outcome.ctl).serving = true)
    (tidy : Tidy outcome.selfData)
    (same : (back.after outcome.ctl).inRing = true ∧
      ∀ key, outcome.selfData.get key = (net.node n).selfData.get key)
    (ordered : stage'.Ordered
      (((net.note n msg).setQueue loc rest).commit n back msg.tag outcome).queue)
    (succ : ∀ c, (∃ msg, msg ∈ net.requests (.down c)) → c.source = n →
      (net.node n).selfData.fdsSuccessor = some c → outcome.selfData.fdsSuccessor = some c)
    (pred : ∀ c, (∃ msg, msg ∈ net.requests (.up c)) → c.target = n →
      (net.node n).selfData.fdsPredecessor = some c → outcome.selfData.fdsPredecessor = some c)
    (late : stage'.early = true → stage.early = true)
    (owned : plan' = plan ∨ stage.early = true)
    (bequest : stage'.Bequest
      (((net.note n msg).setQueue loc rest).commit n back msg.tag outcome).topology plan') :
    Orderly (((net.note n msg).setQueue loc rest).commit n back msg.tag outcome) plan' stage' ∧
      net.Flow (((net.note n msg).setQueue loc rest).commit n back msg.tag outcome) := by
  have note : net.note n msg = net := by
    rw [Net.note, plain]
  have node : (((net.note n msg).setQueue loc rest).commit n back msg.tag outcome).node =
      Function.update net.node n ⟨back.after outcome.ctl, outcome.selfData⟩ := by
    rw [commit_node, setQueue_node, note_node]
  have requests : (((net.note n msg).setQueue loc rest).commit n back msg.tag outcome).requests =
      net.requests := by
    rw [Net.commit, setNode_requests, performAll_requests_plain sends, note,
      requests_of_plain queue plain]
  refine ⟨orderly.still there requests (tidy_update node orderly.tidy fun _ => tidy) ordered ?_ late
    owned bequest, .still requests ?_ ?_ (stored_update node ?_)⟩
  · intro other found mem served
    rw [commit_topology, setQueue_topology, note_topology]
    refine served.put _ serving ?_ ?_
    · rintro c rfl source - fds
      exact succ c ⟨found, mem⟩ source fds
    · rintro c rfl target fds
      exact pred c ⟨found, mem⟩ target fds
  · rw [Net.commit, setNode_applied, performAll_applied, setQueue_applied, note]
  · rw [Net.commit, setNode_replies, performAll_replies, silent, setQueue_replies, note,
      List.append_nil]
  · intro key
    rw [Net.stored, same.1, q6]
    exact same.2 key

end

end DhtRing

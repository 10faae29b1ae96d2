import DhtRing.Ledger

/-!
# Operations on a quiet ring

The first node, what a client's datagram, a new node and a leaving node begin, and
that the steps after it treat requests with care as long as one operation is under way.
-/

set_option autoImplicit false

namespace DhtRing

open OnePlace

variable {net net' : Net} {plan plan' : Plan} {stage stage' : Change}
  {map : Ssn → Option ValuePair}

/-! ## The first node -/

def Plan.first (n : Addr) : Plan where
  own _ := n
  lo _ := 0
  hi _ := 255

theorem Plan.tiled_first (n : Addr) : (Plan.first n).Tiled := by
  rintro m ⟨x, small, rfl⟩
  exact ⟨by simp [Plan.first], by simp [Plan.first],
    fun y _ => ⟨fun _ => ⟨by simp [Plan.first], by simp [Plan.first]; omega⟩, fun _ => rfl⟩⟩

theorem Plan.member_first {n m : Addr} : (Plan.first n).Member m ↔ m = n :=
  ⟨fun ⟨_, _, own⟩ => own.symm, fun eq => ⟨0, by decide, eq.symm⟩⟩

theorem founded_node (n : Addr) : (Net.founded n).node n = ⟨.q6, q4 (SelfData.setup n)⟩ :=
  if_pos rfl

theorem founded_other {n m : Addr} (other : m ≠ n) :
    (Net.founded n).node m = ⟨.absent, SelfData.setup m⟩ := if_neg other

theorem founded_wiring (n m : Addr) :
    ((Net.founded n).topology.wiring m).successor = ⟨none, ⟨0, 0⟩⟩ ∧
      ((Net.founded n).topology.wiring m).fdsSuccessor = none ∧
      ((Net.founded n).topology.wiring m).predecessor = none ∧
      ((Net.founded n).topology.wiring m).fdsPredecessor = none ∧
      ((Net.founded n).topology.wiring m).listening = m := by
  change ((Net.founded n).node m).selfData.wiring.successor = _ ∧ _
  by_cases here : m = n
  · rw [here]
    simp only [Net.topology, founded_node]
    exact ⟨rfl, rfl, rfl, rfl, rfl⟩
  · simp only [Net.topology, founded_other here]
    exact ⟨rfl, rfl, rfl, rfl, rfl⟩

theorem founded_control (n : Addr) : (Net.founded n).control = post [] := rfl

theorem founded_requests (n : Addr) (loc : Loc) : (Net.founded n).requests loc = [] := rfl

theorem idle_founded {n : Addr} (port : n.port ≠ 0) :
    Idle (Net.founded n).topology (Net.founded n).control (Plan.first n) := by
  have q6 : (Net.founded n).topology.pc n = .q6 := congrArg Proc.pc (founded_node n)
  refine ⟨⟨Plan.tiled_first n, ?_, ?_, ?_, ?_, fun m => (founded_wiring n m).2.2.2.2, ?_,
    fun _ _ => ⟨rfl, rfl⟩⟩, ?_, founded_control n⟩
  · intro m mem _
    rw [Plan.member_first.mp mem]
    simp only [Net.topology, founded_node]
    exact ⟨rfl, rfl⟩
  · intro m mem _
    obtain ⟨successor, fds, predecessor, fds', -⟩ := founded_wiring n n
    rw [Plan.member_first.mp mem]
    exact Or.inr ⟨rfl, ⟨by rw [successor], fds⟩, ⟨predecessor, fds'⟩, rfl⟩
  · intro m outside _
    have other : m ≠ n := fun eq => outside (Plan.member_first.mpr eq)
    exact Or.inl ⟨congrArg Proc.pc (founded_other other), rfl⟩
  · intro m mem
    rw [Plan.member_first.mp mem]
    exact port
  · intro m
    obtain ⟨-, fds, -, fds', -⟩ := founded_wiring n m
    exact ⟨by simp [fds], by simp [fds']⟩
  · intro m mem
    rw [Plan.member_first.mp mem]
    exact q6

theorem orderly_founded {n : Addr} (port : n.port ≠ 0) :
    Orderly (Net.founded n) (Plan.first n) .idle where
  inStage := idle_founded port
  tidy m inRing := by
    by_cases here : m = n
    · rw [here, founded_node]
      exact Tidy.of_create rfl
    · rw [founded_other here] at inRing
      cases inRing
  ordered := trivial
  served loc msg mem := absurd mem List.not_mem_nil
  late early := by cases early
  owned loc msg ssn mem := absurd mem List.not_mem_nil
  downs c msg mem := absurd mem List.not_mem_nil
  bequest := trivial

theorem stored_founded (n m : Addr) : (Net.founded n).stored m = fun _ => none := by
  funext key
  rw [Net.stored]
  by_cases here : m = n
  · rw [here, founded_node]
    rfl
  · rw [founded_other here]
    rfl

theorem ledger_founded (n : Addr) : Ledger (Net.founded n) fun _ => none where
  entries key := by
    have : Nonempty Site := ⟨.node n⟩
    refine placed_none ?_
    rintro (m | loc)
    · rw [Net.entries, stored_founded]
      rfl
    · rfl
  transfers loc msg mem := absurd mem List.not_mem_nil
  keyed loc msg mem := absurd mem List.not_mem_nil
  nonzero key stored := absurd rfl stored

theorem accounted_founded (n : Addr) : (Net.founded n).Accounted := by
  intro k
  refine ⟨none, placed_none ?_, ?_⟩
  · rintro (_ | loc) <;> rfl
  · simp [Net.founded]

/-! ## A client's datagram -/

def Net.Untransferred (net : Net) : Prop := ∀ loc, ∀ msg ∈ net.requests loc, msg.req ≠ none

def Net.Clientless (net : Net) : Prop := ∀ loc, ∀ msg ∈ net.requests loc, msg.req = none

theorem Change.Ordered.of_links {queue queue' : Loc → List Msg} (ordered : stage.Ordered queue)
    (up : ∀ c, queue' (.up c) = queue (.up c)) (down : ∀ c, queue' (.down c) = queue (.down c)) :
    stage.Ordered queue' := by
  cases stage with
  | repair x y upper lower =>
      obtain ⟨first, last⟩ := ordered
      constructor
      · cases upper with
        | accepting w c start stop => rwa [Upper.Ordered, up]
        | receiving c start stop => rwa [Upper.Ordered, up]
        | orphan c => rwa [Upper.Ordered, down]
        | _ => trivial
      · cases lower with
        | closing c => rwa [Lower.Ordered, up]
        | _ => trivial
  | _ => trivial

section

variable {n : Addr} {pdu : Pdu}

theorem client_spec (stepped : net.step (.client n pdu) = some net') :
    (net.node n).pc.serving = true ∧ pdu.requestKey.isSome ∧ net'.topology = net.topology ∧
      net'.control = net.control ∧ net'.node = net.node ∧ net'.applied = net.applied ∧
      net'.replies = net.replies ∧ net'.issued = net.issued + 1 ∧
      (∀ loc, loc ≠ .udp n → net'.queue loc = net.queue loc) ∧
      net'.requests = Function.update net.requests (.udp n)
        (net.requests (.udp n) ++ [⟨pdu, some net.issued⟩]) := by
  obtain ⟨serving, request, rfl⟩ := client_eq_some stepped
  have pushed : (net.push (.udp n) ⟨pdu, some net.issued⟩).control = _ := push_control (.udp n) pdu
  have quiet : Effect.control (.tcp (.udp n) pdu) = none := by
    simp [Effect.control, Option.isNone_iff_eq_none, Option.isSome_iff_ne_none.mp request]
  rw [quiet] at pushed
  refine ⟨serving, request, rfl, ?_, rfl, rfl, rfl, rfl, ?_, ?_⟩
  · refine pushed.trans ?_
    funext loc
    exact List.append_nil _
  · intro loc other
    exact Function.update_of_ne other ..
  · refine (push_requests _).trans ?_
    rw [if_pos request]

theorem Orderly.client (orderly : Orderly net plan stage)
    (stepped : net.step (.client n pdu) = some net') : Orderly net' plan stage := by
  obtain ⟨serving, request, topology, control, node, -, -, -, queue, requests⟩ :=
    client_spec stepped
  have cases_mem : ∀ loc, ∀ msg ∈ net'.requests loc,
      msg ∈ net.requests loc ∨ loc = .udp n ∧ msg.req ≠ none := by
    intro loc msg mem
    rw [requests] at mem
    by_cases here : loc = .udp n
    · subst here
      rw [Function.update_self, List.mem_append, List.mem_singleton] at mem
      rcases mem with old | rfl
      · exact Or.inl old
      · exact Or.inr ⟨rfl, by simp⟩
    · rw [Function.update_of_ne here] at mem
      exact Or.inl mem
  refine ⟨?_, ?_, ?_, ?_, ?_, ?_, ?_, ?_⟩
  · exact Change.Holds.at stage orderly.inStage topology control
  · rw [node]
    exact orderly.tidy
  · exact Change.Ordered.of_links orderly.ordered (fun c => queue _ (by simp)) fun c => queue _ (by simp)
  · intro loc msg mem
    rw [topology]
    rcases cases_mem loc msg mem with old | ⟨rfl, -⟩
    · exact orderly.served loc msg old
    · exact Or.inl serving
  · intro early loc msg mem
    rcases cases_mem loc msg mem with old | ⟨-, tagged⟩
    · exact orderly.late early loc msg old
    · exact tagged
  · intro loc msg ssn mem untagged key
    rcases cases_mem loc msg mem with old | ⟨-, tagged⟩
    · exact orderly.owned loc msg ssn old untagged key
    · exact absurd untagged tagged
  · intro c msg mem
    rcases cases_mem _ msg mem with old | ⟨other, -⟩
    · exact orderly.downs c msg old
    · cases other
  · rw [topology]
    exact orderly.bequest

theorem stored_of_node (node : net'.node = net.node) : net'.stored = net.stored := by
  funext m key
  rw [Net.stored, Net.stored, node]

theorem client_mem (stepped : net.step (.client n pdu) = some net') {loc : Loc} {msg : Msg}
    (mem : msg ∈ net'.requests loc) :
    msg ∈ net.requests loc ∨ loc = .udp n ∧ msg = ⟨pdu, some net.issued⟩ := by
  obtain ⟨-, -, -, -, -, -, -, -, -, requests⟩ := client_spec stepped
  rw [requests] at mem
  by_cases here : loc = .udp n
  · subst here
    rw [Function.update_self, List.mem_append, List.mem_singleton] at mem
    exact mem.imp_right fun new => ⟨rfl, new⟩
  · rw [Function.update_of_ne here] at mem
    exact Or.inl mem

theorem Net.Untransferred.client (untransferred : net.Untransferred)
    (stepped : net.step (.client n pdu) = some net') : net'.Untransferred := by
  intro loc msg mem
  rcases client_mem stepped mem with old | ⟨-, rfl⟩
  · exact untransferred loc msg old
  · exact Option.some_ne_none _

theorem Ledger.client (ledger : Ledger net map) (stepped : net.step (.client n pdu) = some net')
    (nonzero : ∀ ssn, pdu.requestKey = some ssn → Nonzero ssn) : Ledger net' map := by
  obtain ⟨-, -, -, -, node, -, -, -, -, requests⟩ := client_spec stepped
  refine ⟨fun key => (ledger.entries key).congr ?_, ?_, ?_, ledger.nonzero⟩
  · rintro (m | loc)
    · rw [Net.entries, Net.entries, stored_of_node node]
    · rw [Net.entries, Net.entries, requests]
      by_cases here : loc = .udp n
      · subst here
        have carried : Msg.transferred key ⟨pdu, some net.issued⟩ = none := rfl
        rw [Function.update_self, List.filterMap_append, List.filterMap_cons_none carried,
          List.filterMap_nil, List.append_nil]
      · rw [Function.update_of_ne here]
  · intro loc msg mem untagged
    rcases client_mem stepped mem with old | ⟨-, rfl⟩
    · exact ledger.transfers loc msg old untagged
    · cases untagged
  · intro loc msg mem ssn key
    rcases client_mem stepped mem with old | ⟨-, rfl⟩
    · exact ledger.keyed loc msg old ssn key
    · exact nonzero ssn key

theorem Net.Accounted.client (accounted : net.Accounted)
    (stepped : net.step (.client n pdu) = some net') : net'.Accounted := by
  obtain ⟨-, -, -, -, -, applied, -, issued, -, requests⟩ := client_spec stepped
  have done : ∀ k, net'.whereabouts k none = net.whereabouts k none := by
    intro k
    rw [Net.whereabouts, Net.whereabouts, applied]
  have elsewhere : ∀ k loc, loc ≠ .udp n →
      net'.whereabouts k (some loc) = net.whereabouts k (some loc) := by
    intro k loc other
    rw [Net.whereabouts, Net.whereabouts, requests, Function.update_of_ne other]
  have here : ∀ k, net'.whereabouts k (some (.udp n)) =
      net.whereabouts k (some (.udp n)) ++
        (Msg.client k ⟨pdu, some net.issued⟩).toList := by
    intro k
    rw [Net.whereabouts, Net.whereabouts, requests, Function.update_self,
      List.filterMap_append, filterMap_head, List.filterMap_nil, List.append_nil]
  intro k
  obtain ⟨found, placed, known⟩ := accounted k
  by_cases new : k = net.issued
  · subst new
    obtain rfl : found = none := by
      by_contra some_found
      exact absurd (known.mp some_found) (lt_irrefl _)
    have nowhere := placed.eq_nil
    refine ⟨some ⟨pdu, some net.issued⟩, ⟨some (.udp n), ?_, ?_⟩, ?_⟩
    · rw [here, nowhere, Msg.client, if_pos rfl]
      rfl
    · rintro (_ | loc) apart
      · rw [done, nowhere]
      · rw [elsewhere _ loc fun eq => apart (by rw [eq]), nowhere]
    · rw [issued]
      exact ⟨fun _ => Nat.lt_succ_self _, fun _ => Option.some_ne_none _⟩
  · refine ⟨found, placed.congr ?_, ?_⟩
    · rintro (_ | loc)
      · exact done k
      · by_cases same : loc = .udp n
        · have skipped : Msg.client k ⟨pdu, some net.issued⟩ = none :=
            if_neg fun eq => new (Option.some.inj eq).symm
          rw [same, here, skipped]
          exact List.append_nil _
        · exact elsewhere k loc same
    · rw [known, issued]
      omega

end

/-! ## A new node -/

section

variable {j e : Addr}

theorem Topology.Served.start {T : Topology} {loc : Loc} (served : T.Served loc)
    (absent : T.pc j = .absent) : (T.start j).Served loc := by
  have pc_there : ∀ m, m ≠ j → (T.start j).pc m = T.pc m :=
    fun m other => Function.update_of_ne other ..
  have wiring_there : ∀ m, m ≠ j → (T.start j).wiring m = T.wiring m :=
    fun m other => Function.update_of_ne other ..
  cases loc with
  | udp m =>
      have other : m ≠ j := by
        rintro rfl
        rcases served with serving | gone
        · rw [absent] at serving
          cases serving
        · rw [absent] at gone
          cases gone
      change _ ∨ _
      rw [pc_there m other]
      exact served
  | up c =>
      obtain ⟨listens, reads⟩ := served
      have other : c.target ≠ j := by
        intro eq
        rw [eq, absent] at listens
        cases listens
      refine ⟨?_, ?_⟩
      · rw [pc_there _ other]
        exact listens
      · rw [wiring_there _ other]
        exact reads
  | down c =>
      obtain ⟨serving, fds⟩ := served
      have other : c.source ≠ j := by
        intro eq
        rw [eq, absent] at serving
        cases serving
      refine ⟨?_, ?_⟩
      · rw [pc_there _ other]
        exact serving
      · rw [wiring_there _ other]
        exact fds

theorem Orderly.join (orderly : Orderly net plan .idle) (untransferred : net.Untransferred)
    (stepped : net.step (.join j e) = some net') :
    Orderly net' plan (.joining j e (.udp e) 0 ⟨0, 0⟩) ∧ net.Flow net' ∧
      net'.issued = net.issued ∧ net'.requests = net.requests := by
  obtain ⟨absent, port, serving, rfl⟩ := join_eq_some stepped
  have idle : Idle net.topology net.control plan := orderly.inStage
  have entry : plan.Member e := by
    by_contra outside
    rcases idle.ring.away e outside (fun guest => guest) with ⟨gone, -⟩ | gone
    · rw [show (net.node e).pc = .absent from gone] at serving
      cases serving
    · rw [show (net.node e).pc = .exited true from gone] at serving
      cases serving
  have node : ((net.push (.udp e) ⟨joinPdu j, none⟩).setNode j ⟨.q7Accept, SelfData.setup j⟩).node =
      Function.update net.node j ⟨.q7Accept, SelfData.setup j⟩ := rfl
  have requests : ((net.push (.udp e) ⟨joinPdu j, none⟩).setNode j
      ⟨.q7Accept, SelfData.setup j⟩).requests = net.requests :=
    (push_requests _).trans (if_neg (by simp [joinPdu, Pdu.requestKey]))
  have control : ((net.push (.udp e) ⟨joinPdu j, none⟩).setNode j
      ⟨.q7Accept, SelfData.setup j⟩).control = post [(.udp e, joinPdu j)] := by
    refine (push_control (.udp e) (joinPdu j)).trans ?_
    funext loc
    rw [show net.control = post [] from idle.posts]
    rfl
  have topology : ((net.push (.udp e) ⟨joinPdu j, none⟩).setNode j
      ⟨.q7Accept, SelfData.setup j⟩).topology = net.topology.start j := setNode_topology ..
  refine ⟨⟨?_, tidy_update node orderly.tidy fun inRing => ?_, trivial, ?_, ?_, ?_, ?_, trivial⟩,
    .still requests rfl rfl (stored_update node ?_), rfl, requests⟩
  · exact Change.Holds.at (.joining j e (.udp e) 0 ⟨0, 0⟩) (idle.join absent port entry) topology
      control
  · cases inRing
  · intro loc msg mem
    rw [requests] at mem
    rw [topology]
    exact (orderly.served loc msg mem).start absent
  · intro _ loc msg mem
    rw [requests] at mem
    exact untransferred loc msg mem
  · intro loc msg ssn mem untagged
    rw [requests] at mem
    exact absurd untagged (untransferred loc msg mem)
  · rw [requests]
    exact orderly.downs
  · intro key
    rw [Net.stored, absent]
    rfl

end

/-! ## A leaving node -/

theorem Orderly.leave (orderly : Orderly net plan .idle) (untransferred : net.Untransferred)
    {l : Addr} (mem : plan.Member l) (several : plan.next l ≠ l)
    (stepped : net.step (.leave l) = some net') :
    (∃ p s c c', Orderly net' plan (.offered l p s c c')) ∧ net.Flow net' ∧
      net'.issued = net.issued ∧ net'.requests = net.requests := by
  have idle : Idle net.topology net.control plan := orderly.inStage
  obtain ⟨q6, ⟨noPredecessor, noSuccessor, -⟩ | ⟨-, rfl⟩⟩ := leave_eq_some stepped
  · rcases idle.ring.linked l mem (fun bare => bare) with ⟨-, c, out, -⟩ | ⟨self, -⟩
    · have connected : (net.node l).selfData.successor = ⟨some c, plan.next l⟩ := out.successor
      rw [connected] at noSuccessor
      cases noSuccessor
    · exact absurd self.symm several
  · have sends : ∀ effect ∈ offerRange (net.node l).selfData,
        ∃ fd, effect = .tcp fd (.netNewRange (net.node l).selfData.rangeStart
          (net.node l).selfData.rangeEnd) := by
      intro effect emitted
      rw [offerRange] at emitted
      split at emitted
      · rw [sendSuccessor] at emitted
        split at emitted
        · exact ⟨_, List.mem_singleton.mp emitted⟩
        · cases emitted
      · rw [sendPredecessor] at emitted
        split at emitted
        · exact ⟨_, List.mem_singleton.mp emitted⟩
        · cases emitted
    have plain : ∀ fd pdu, .tcp fd pdu ∈ offerRange (net.node l).selfData →
        pdu.requestKey = none := by
      intro fd pdu emitted
      obtain ⟨fd', eq⟩ := sends _ emitted
      cases eq
      rfl
    have after : After net _ l .awaitResponse (net.node l).selfData
        (offerRange (net.node l).selfData) [] :=
      after_performAll rfl idle.posts none .awaitResponse (net.node l).selfData _
    have requests : ((net.performAll none (offerRange (net.node l).selfData)).setNode l
        ⟨.awaitResponse, (net.node l).selfData⟩).requests = net.requests := by
      rw [setNode_requests, performAll_requests_plain plain]
    have node := performAll_setNode_node net none (offerRange (net.node l).selfData) l
      ⟨.awaitResponse, (net.node l).selfData⟩
    have silent : (offerRange (net.node l).selfData).filterMap (Effect.reply none) = [] := by
      rw [List.filterMap_eq_nil_iff]
      intro effect emitted
      obtain ⟨fd, rfl⟩ := sends effect emitted
      rfl
    obtain ⟨p, s, c, c', there⟩ := idle.after_leave mem several after
    refine ⟨⟨p, s, c, c', there, tidy_update node orderly.tidy fun _ => ?_, trivial, ?_, ?_, ?_,
      ?_, trivial⟩, .still requests ?_ ?_ (stored_update node ?_), ?_, requests⟩
    · exact orderly.tidy l (by rw [q6]; rfl)
    · intro loc msg waiting
      rw [requests] at waiting
      rw [after.topology]
      exact (orderly.served loc msg waiting).put _ rfl (fun _ _ _ _ fds => fds)
        fun _ _ _ fds => fds
    · intro _ loc msg waiting
      rw [requests] at waiting
      exact untransferred loc msg waiting
    · intro loc msg ssn waiting untagged
      rw [requests] at waiting
      exact absurd untagged (untransferred loc msg waiting)
    · rw [requests]
      exact orderly.downs
    · rw [setNode_applied, performAll_applied]
    · rw [setNode_replies, performAll_replies, silent, List.append_nil]
    · intro key
      rw [Net.stored, q6]
      rfl
    · rw [setNode_issued, performAll_issued]

end DhtRing

import DhtRing.Traffic

/-!
# A join under traffic

One node joins while clients' requests are on their way.  The node that splits sends
the entries of the granted range behind the `NET_JOIN_RESPONSE`, so whatever comes
over the same link comes behind them.  A datagram at the new node's own UDP socket
does not: when the poll takes it first, the older entry overwrites what it did.
-/

set_option autoImplicit false

namespace DhtRing

open OnePlace Transition

variable {net net' : Net} {plan plan' : Plan} {stage stage' : Change}

def Change.arriving : Change → Prop
  | .idle | .joining _ _ _ _ _ => True
  | .repair _ _ upper _ => ∀ c, upper ≠ .orphan c
  | _ => False

theorem Change.Turns.arriving (turns : stage.Turns stage') (arriving : stage.arriving) :
    stage'.arriving := by
  rcases turns with rfl | ⟨l, p, s, c, c', i, i', rfl, -⟩
  · exact arriving
  · exact arriving.elim

theorem Net.Leads.arriving {act : Act} (leads : net.Leads plan stage act plan' stage')
    (arriving : stage.arriving) : stage'.arriving := by
  cases leads with
  | forward | settle => trivial
  | split j a loc maxSpan max i mid lower => exact fun c eq => by cases eq
  | accept x y w c rangeStart rangeEnd lower => exact fun c eq => by cases eq
  | response x y c rangeStart rangeEnd lower => exact fun c eq => by cases eq
  | leaving x y c lower upper' i => exact absurd rfl (arriving c)
  | close x y c upper lower' i => exact arriving
  | take | reply | finish => exact arriving.elim

/-- A client's request for a key whose entry is still being transferred is read at the
owner of the key. -/
def Net.Overtakes (net : Net) (act : Act) : Prop :=
  ∃ n i msg ssn loc pair, act = .deliver n i ∧ net.Serves n i msg ssn ∧ msg.req ≠ none ∧
    transfer (ssn, pair) ∈ net.requests loc

/-- Clients send requests, the nodes go on, and no request overtakes an entry. -/
def Heedful (net : Net) (act : Act) : Prop := Bustling net act ∧ ¬ net.Overtakes act

/-! ## Careful steps -/

theorem Net.InStage.arriving_q6 (inStage : net.InStage plan stage) (arriving : stage.arriving)
    {n : Addr} {i : FdsIndex} {back : Pc} (polls : (net.node n).pc.polls i = some back) :
    plan.Member n ∧ (net.node n).pc = .q6 := by
  rcases inStage.polling_cases polls with here | ⟨p, s, c, c', j, rfl⟩
  · exact here
  · exact arriving.elim

theorem Orderly.careful_of_arriving (orderly : Orderly net plan stage) (formed : net.Formed)
    (arriving : stage.arriving) {act : Act} (slot : net.HasSlot act)
    (stepped : net.step act = some net') : Careful net act where
  serves := by
    rintro n i loc msg rest ssn call rfl reads queue key asks in_range
    obtain ⟨back, -, -, -, -, polls, -⟩ := deliver_eq_some stepped
    obtain ⟨-, q6⟩ := orderly.inStage.arriving_q6 arriving polls
    exact ⟨q6, slot n i loc msg rest call rfl q6 reads queue asks,
      formed.scans (mem_requests_head queue key) asks _⟩
  relays := by
    rintro n i loc msg rest ssn c rfl reads queue key out fds
    obtain ⟨back, -, -, -, -, polls, -⟩ := deliver_eq_some stepped
    intro ended
    have alive : (net.node c.target).pc.ended = false := by
      rcases orderly.inStage.sends_on polls fds with ⟨mem, next | ⟨l, guest, here, -⟩⟩ |
        ⟨p, s, c₁, c₂, j, rfl, -⟩ | ⟨⟨y, c₁, lower, rfl⟩, -⟩
      · rw [next]
        exact orderly.inStage.alive (Or.inl (Plan.member_next orderly.inStage.ring.tiled mem))
      · rw [here]
        exact orderly.inStage.alive (Or.inr guest)
      · exact arriving.elim
      · exact absurd rfl (arriving c₁)
    rw [ended] at alive
    cases alive
  awaits := by
    rintro n loc msg rest rfl receives queue
    obtain ⟨waits, -⟩ := reply_eq_some stepped
    rcases orderly.inStage.awaiting waits with ⟨p, s, c, c', rfl⟩ | ⟨p, s, c, c', rfl⟩
    · exact arriving.elim
    · exact arriving.elim
  finishes := by
    rintro n c rfl fds
    obtain ⟨i, new, pc, -⟩ := finish_eq_some stepped
    have polls : (net.node n).pc.polls i = some (.lastPoll i new) := by
      rw [pc, Pc.polls, if_pos le_rfl]
    obtain ⟨-, q6⟩ := orderly.inStage.arriving_q6 arriving polls
    rw [pc] at q6
    cases q6

/-! ## The owner -/

theorem Orderly.serves_owner (orderly : Orderly net plan stage) (arriving : stage.arriving)
    {n : Addr} {i : FdsIndex} {msg : Msg} {ssn : Ssn} (polls : ((net.node n).pc.polls i).isSome)
    (serves : net.Serves n i msg ssn) :
    (net.node n).pc = .q6 ∧ plan.own (hashSsn ssn).toNat = n := by
  obtain ⟨back, polls⟩ := Option.isSome_iff_exists.mp polls
  obtain ⟨mem, q6⟩ := orderly.inStage.arriving_q6 arriving polls
  exact ⟨q6, (orderly.inStage.ring.checkRange_iff mem (by rw [q6]; rfl) ssn).mp serves.2.2⟩

theorem Orderly.owner_of_serving (orderly : Orderly net plan stage) (arriving : stage.arriving)
    {n : Addr} (serving : (net.node n).pc.serving = true) {ssn : Ssn}
    (in_range : checkRange (net.node n).selfData ssn = true) :
    plan.own (hashSsn ssn).toNat = n := by
  rcases orderly.inStage.owner_of_serving serving in_range with owner | ⟨p, s, c, c', rfl⟩ |
    ⟨p, s, c, c', i, rfl⟩
  · exact owner
  · exact arriving.elim
  · exact arriving.elim

/-! ## The invariant -/

structure Welcoming (few : Prop) (net : Net) (plan : Plan) (stage : Change) : Prop where
  busy : Busy (fun _ => False) few net plan stage
  arriving : stage.arriving

section

variable {few : Prop}

theorem Welcoming.step (welcoming : Welcoming few net plan stage) {act : Act}
    (internal : act.internal = true) (bustling : Bustling net act)
    (stepped : net.step act = some net') :
    ∃ plan' stage', Welcoming few net' plan' stage' ∧ net.Goes plan stage act net' plan' stage' := by
  have orderly := welcoming.busy.orderly
  have careful := orderly.careful_of_arriving welcoming.busy.formed welcoming.arriving
    (orderly.hasSlot bustling.2) stepped
  obtain ⟨plan', stage', orderly', goes⟩ := orderly.step internal careful stepped
  refine ⟨plan', stage', ⟨?_, ?_⟩, goes⟩
  · refine welcoming.busy.goes internal stepped orderly' goes ?_
    rintro l p s c c' rfl
    exact welcoming.arriving.elim
  · rcases goes with ⟨leads, -⟩ | ⟨-, turns, -⟩
    · exact leads.arriving welcoming.arriving
    · exact turns.arriving welcoming.arriving

theorem Welcoming.client (welcoming : Welcoming few net plan stage) {n : Addr} {pdu : Pdu}
    (stepped : net.step (.client n pdu) = some net')
    (nonzero : ∀ ssn, pdu.requestKey = some ssn → Nonzero ssn) : Welcoming few net' plan stage := by
  refine ⟨welcoming.busy.client stepped nonzero ?_, welcoming.arriving⟩
  rintro l p s c c' (rfl | ⟨i, rfl⟩)
  · exact welcoming.arriving.elim
  · exact welcoming.arriving.elim

theorem Welcoming.run (welcoming : Welcoming few net plan stage) {acts : List Act}
    (run : Run Net.step Bustling net acts net') :
    ∃ plan' stage', Welcoming few net' plan' stage' := by
  refine traffic_keeps (fun _ _ bustling => bustling.1) ?_ ?_ welcoming run
  · intro net plan stage act net' here internal bustling stepped
    obtain ⟨plan', stage', there, -⟩ := here.step internal bustling stepped
    exact ⟨plan', stage', there⟩
  · intro net plan stage n pdu net' here stepped nonzero
    exact here.client stepped nonzero

theorem Welcoming.join (welcoming : Welcoming True net plan .idle)
    (untransferred : net.Untransferred) {j e : Addr} (stepped : net.step (.join j e) = some net') :
    ∃ stage, Welcoming net.Few net' plan stage ∧ net.Flow net' := by
  have orderly := welcoming.busy.orderly
  obtain ⟨orderly', flow, issued, requests⟩ := orderly.join untransferred stepped
  refine ⟨_, ⟨⟨orderly', welcoming.busy.formed.flow flow, welcoming.busy.accounted.flow flow issued,
    ?_, ?_⟩, trivial⟩, flow⟩
  · intro n msg
    rw [requests]
    exact welcoming.busy.sockets n msg
  · intro few
    have inStage := orderly.inStage
    obtain ⟨w, mem, wide⟩ := Tiling.Tiled.exists_wide inStage.ring.tiled fun members all => by
      have small := few members fun n mem => (inStage.serving_iff n).mpr (all n mem)
      omega
    obtain ⟨⟨m, weight⟩, -, weighs⟩ := welcoming.busy.bounded trivial
    obtain ⟨weight', weighs'⟩ := flow.weighs weighs
    exact ⟨(_, weight'), ⟨w, mem, wide, fun some_span => absurd rfl some_span, rfl⟩, weighs'⟩

end

/-- The ring while a node joins under traffic: it does what the dictionary does when the
requests of the log, which began with `start`, are sent to it in their order. -/
structure Admitting (dict : Dictionary) (start : List (Addr × Msg)) (few : Prop) (net : Net)
    (plan : Plan) (stage : Change) : Prop extends Welcoming few net plan stage where
  kept : ∃ later, net.applied = start ++ later ∧ net.Keeps (dict.log later)

section

variable {dict : Dictionary} {start : List (Addr × Msg)} {few : Prop}

theorem Admitting.in_turn (admitting : Admitting dict start few net plan stage) {act : Act}
    (in_turn : ¬ net.Overtakes act) (stepped : net.step act = some net') {n : Addr} {msg : Msg}
    {ssn : Ssn} (grown : net'.applied = net.applied ++ [(n, msg)]) (client : msg.req ≠ none)
    (key : msg.pdu.requestKey = some ssn) (site : Site) (other : site ≠ .node n) :
    net.entries ssn site = [] := by
  have orderly := admitting.busy.orderly
  obtain ⟨i, rfl, polls, serves⟩ := step_applied_grown stepped grown key
  cases site with
  | node k =>
      rw [Net.entries, Option.toList_eq_nil_iff]
      by_contra stored
      have owner := orderly.stored_owner
        (fun l p s c c' eq => by rw [eq] at admitting; exact admitting.arriving.elim) stored
      obtain ⟨-, here⟩ := orderly.serves_owner admitting.arriving polls serves
      exact other (by rw [← here, owner])
  | link loc =>
      rw [Net.entries, List.filterMap_eq_nil_iff]
      intro waiting mem
      by_contra carried
      have transferred : waiting.req = none := by
        by_contra tagged
        exact carried (transferred_of_client tagged)
      obtain ⟨⟨key', pair⟩, rfl⟩ := admitting.busy.formed.transfers loc waiting mem transferred
      rw [transferred_transfer, ite_eq_right_iff, not_forall] at carried
      obtain ⟨rfl, -⟩ := carried
      exact in_turn ⟨n, i, msg, key', loc, pair, rfl, serves, client, mem⟩

theorem Admitting.step (admitting : Admitting dict start few net plan stage) {act : Act}
    (internal : act.internal = true) (heedful : Heedful net act)
    (stepped : net.step act = some net') :
    ∃ plan' stage', Admitting dict start few net' plan' stage' ∧
      net.Goes plan stage act net' plan' stage' := by
  obtain ⟨plan', stage', there, goes⟩ := admitting.toWelcoming.step internal heedful.1 stepped
  obtain ⟨later, applied, keeps⟩ := admitting.kept
  obtain ⟨more, grown, keeps'⟩ := keeps.flow admitting.busy.orderly there.busy.orderly goes.flow
    fun n msg ssn grown client key => admitting.in_turn heedful.2 stepped grown client key
  refine ⟨plan', stage', ⟨there, later ++ more, by rw [grown, applied, List.append_assoc], ?_⟩, goes⟩
  rw [Dictionary.log_append]
  exact keeps'

theorem Admitting.client (admitting : Admitting dict start few net plan stage) {n : Addr}
    {pdu : Pdu}
    (stepped : net.step (.client n pdu) = some net')
    (nonzero : ∀ ssn, pdu.requestKey = some ssn → Nonzero ssn) :
    Admitting dict start few net' plan stage := by
  obtain ⟨later, applied, keeps⟩ := admitting.kept
  obtain ⟨-, -, -, -, -, same, -⟩ := client_spec stepped
  exact ⟨admitting.toWelcoming.client stepped nonzero, later, same.trans applied,
    keeps.client stepped nonzero⟩

theorem Admitting.run (admitting : Admitting dict start few net plan stage) {acts : List Act}
    (run : Run Net.step Heedful net acts net') :
    ∃ plan' stage', Admitting dict start few net' plan' stage' := by
  refine traffic_keeps (fun _ _ heedful => heedful.1.1) ?_ ?_ admitting run
  · intro net plan stage act net' here internal heedful stepped
    obtain ⟨plan', stage', there, -⟩ := here.step internal heedful stepped
    exact ⟨plan', stage', there⟩
  · intro net plan stage n pdu net' here stepped nonzero
    exact here.client stepped nonzero

theorem Net.Untransferred.not_overtakes (untransferred : net.Untransferred) (act : Act) :
    ¬ net.Overtakes act := by
  rintro ⟨n, i, msg, ssn, loc, pair, -, -, -, waits⟩
  exact untransferred loc _ waits rfl

theorem Admitting.run_idle (admitting : Admitting dict start few net plan .idle)
    (untransferred : net.Untransferred) {acts : List Act}
    (run : Run Net.step Bustling net acts net') :
    ∃ plan', Admitting dict start few net' plan' .idle ∧ net'.Untransferred := by
  refine run.invariant
    (P := fun net => ∃ plan, Admitting dict start few net plan .idle ∧ net.Untransferred)
    ⟨plan, admitting, untransferred⟩ ?_
  rintro net act net' ⟨plan, here, untransferred⟩ bustling stepped
  rcases bustling.1.cases with internal | ⟨n, pdu, rfl, nonzero⟩
  · obtain ⟨plan', stage', there, goes⟩ :=
      here.step internal ⟨bustling, untransferred.not_overtakes act⟩ stepped
    obtain ⟨rfl, rfl, handled⟩ := goes.of_idle
    exact ⟨plan', there, untransferred.handled handled⟩
  · exact ⟨plan, here.client stepped nonzero, untransferred.client stepped⟩

theorem Admitting.join (admitting : Admitting dict start True net plan .idle)
    (untransferred : net.Untransferred) {j e : Addr} (stepped : net.step (.join j e) = some net') :
    ∃ stage, Admitting dict start net.Few net' plan stage := by
  obtain ⟨stage, there, flow⟩ := admitting.toWelcoming.join untransferred stepped
  have unapplied : net'.applied = net.applied := by
    rcases step_applied stepped with same | ⟨n, i, msg, ssn, eq, -⟩
    · exact same
    · cases eq
  obtain ⟨later, applied, keeps⟩ := admitting.kept
  obtain ⟨more, grown, keeps'⟩ := keeps.flow admitting.busy.orderly there.busy.orderly flow
    fun n msg ssn grown => by
      rw [unapplied, List.self_eq_append_right] at grown
      cases grown
  rw [unapplied, List.self_eq_append_right] at grown
  rw [grown] at keeps'
  exact ⟨stage, there, later, unapplied.trans applied, keeps'⟩

/-! ## What clients see -/

theorem Admitting.serving_iff (admitting : Admitting dict start few net plan stage)
    (drained : net.Drained) (n : Addr) :
    ((net.node n).pc.serving = true ↔ plan.Member n) ∧
      (plan.Member n → (net.node n).pc.inRing = true) := by
  have inStage := admitting.busy.orderly.inStage
  have nothing : ∀ loc pdu, pdu ∉ net.control loc := by
    intro loc pdu
    rw [Net.control, drained loc]
    exact List.not_mem_nil
  have at_work : plan.Member n → (net.node n).pc = .q6 ∨ (net.node n).pc = .q6Accept := by
    intro mem
    rcases inStage.member_pc mem with q6 | actor
    · exact Or.inl q6
    · cases stage with
      | idle => exact actor.elim
      | joining j a loc maxSpan max =>
          have joining : Joining net.topology net.control plan j a loc maxSpan max := inStage
          refine absurd ?_ (nothing loc (.netJoin j maxSpan max))
          rw [joining.posts, mem_post]
          exact List.mem_singleton_self _
      | repair x y upper lower =>
          have repair : Repair net.topology net.control plan x y upper lower := inStage
          have sent : ∀ loc pdu, (loc, pdu) ∉ upper.posts y := by
            intro loc pdu posted
            refine nothing loc pdu ?_
            rw [repair.posts, mem_post]
            exact List.mem_append_left _ posted
          rcases actor with ⟨-, -, pc⟩ | ⟨-, pc⟩
          · cases upper with
            | accepting | receiving => exact absurd (List.mem_singleton_self _) (sent _ _)
            | _ => exact Or.inl pc
          · cases lower with
            | waiting => exact Or.inr pc
            | _ => exact Or.inl pc
      | _ => exact admitting.arriving.elim
  refine ⟨⟨fun serving => ?_, fun mem => ?_⟩, fun mem => ?_⟩
  · rcases inStage.member_of_serving serving with mem | ⟨p, s, c, c', rfl⟩ | ⟨p, s, c, c', i, rfl⟩
    · exact mem
    · exact admitting.arriving.elim
    · exact admitting.arriving.elim
  · rcases at_work mem with pc | pc
    · rw [pc]
      rfl
    · rw [pc]
      rfl
  · rcases at_work mem with pc | pc
    · rw [pc]
      rfl
    · rw [pc]
      rfl

/-- Every client request was applied once, at the one owner of its key, and together the
requests did to the ring, in the order in which owners read them, what they do to a
dictionary. -/
structure Net.Preserves (net : Net) (dict : Dictionary) (start : List (Addr × Msg)) : Prop where
  alive : ∀ n, (net.node n).pc ≠ .exited false ∧ (net.node n).pc ≠ .faulted
  owner : ∀ act after n msg ssn, net.step act = some after →
    after.applied = net.applied ++ [(n, msg)] → msg.pdu.requestKey = some ssn →
    ∀ m, ((net.node m).pc.serving = true ∧ checkRange (net.node m).selfData ssn = true) ↔ m = n
  once : net.Drained → ∀ k < net.issued, net.AppliedOnce k
  inOrder : ∃ later, net.applied = start ++ later ∧ (net.Drained → net.ActsAs (dict.log later))

theorem Admitting.preserves (admitting : Admitting dict start few net plan stage) :
    net.Preserves dict start where
  alive := admitting.busy.orderly.inStage.sound
  owner act after n msg ssn stepped grown key m := by
    have orderly := admitting.busy.orderly
    obtain ⟨i, rfl, polls, serves⟩ := step_applied_grown stepped grown key
    obtain ⟨q6, owner⟩ := orderly.serves_owner admitting.arriving polls serves
    constructor
    · rintro ⟨serving, in_range⟩
      exact (orderly.owner_of_serving admitting.arriving serving in_range).symm.trans owner
    · rintro rfl
      exact ⟨by rw [q6]; rfl, serves.2.2⟩
  once drained k issued :=
    (admitting.busy.accounted.applied_or_waits issued).resolve_right <| by
      rintro ⟨loc, msg, waits, -⟩
      rw [Net.requests, drained loc] at waits
      cases waits
  inOrder := by
    obtain ⟨later, applied, keeps⟩ := admitting.kept
    refine ⟨later, applied, fun drained => ?_⟩
    have acts := admitting.busy.orderly.actsAs
      (fun l p s c c' eq => by rw [eq] at admitting; exact admitting.arriving.elim)
      (fun n => (admitting.serving_iff drained n).1) (fun n => (admitting.serving_iff drained n).2)
      (fun loc => by rw [Net.requests, drained loc]; rfl) keeps.ledger
    rw [keeps.answered] at acts
    exact acts

theorem Admitting.terminates (admitting : Admitting dict start few net plan stage) (small : few) :
    Terminates Net.step (fun net act => act.internal = true ∧ Heedful net act) net := by
  obtain ⟨bound, bounded⟩ := admitting.busy.bounded small
  have upholds : Upholds (fun net act => act.internal = true ∧ Heedful net act)
      (Admitting dict start few) :=
    ⟨fun _ _ _ here => here.busy.orderly,
      fun _ _ _ _ _ here allowed stepped => here.step allowed.1 allowed.2 stepped⟩
  exact upholds.terminates admitting bounded

end

theorem History.admitting {first : Addr} (port : first.port ≠ 0) {ops : List Op}
    (history : History Undisturbed Net.Admits first ops net) :
    ∃ plan, Admitting (Dictionary.run ops) net.applied True net plan .idle ∧ net.Untransferred := by
  obtain ⟨plan, replies, settled, answered⟩ := history.settled port
  refine ⟨plan, ⟨⟨⟨settled.orderly, settled.ledger.formed, settled.accounted, ?_, fun _ => ?_⟩,
    trivial⟩, [], (List.append_nil _).symm, settled.ledger, ?_⟩, settled.untransferred⟩
  · intro n msg mem
    rw [settled.empty] at mem
    cases mem
  · exact ⟨(0, 0), rfl, weighs_nothing settled.empty⟩
  · rw [settled.replied]
    exact answered

/-- A node may join while clients send requests: if no node comes to hold too many
entries and no request overtakes a transferred entry, nothing is lost. -/
theorem join_preserves {first : Addr} (port : first.port ≠ 0) {ops : List Op} {start begun : Net}
    (history : History Undisturbed Net.Admits first ops start) {acts acts' : List Act}
    (before : Run Net.step Bustling start acts net) {j e : Addr}
    (joins : net.step (.join j e) = some begun) (run : Run Net.step Heedful begun acts' net') :
    net'.Preserves (Dictionary.run ops) start.applied ∧ (net.Few → Terminates Net.step
      (fun net act => act.internal = true ∧ Heedful net act) net') := by
  obtain ⟨plan, admitting, untransferred⟩ := history.admitting port
  obtain ⟨plan', there, untransferred'⟩ := admitting.run_idle untransferred before
  obtain ⟨stage, joining⟩ := there.join untransferred' joins
  obtain ⟨plan'', stage', done⟩ := joining.run run
  exact ⟨done.preserves, done.terminates⟩

/-! ## Two nodes -/

def storeLast : Script := [(.request nodeA (.valInsert lastKey olderPair), [.deliver nodeA .udp])]

def Net.holdsLast (net : Net) : Bool :=
  decide (net.applied = [(nodeA, ⟨.valInsert lastKey olderPair, some 0⟩)])

/-- A client's request that is served next is for a stored key. -/
def Net.timely (net : Net) : Act → Bool
  | .deliver n i => ((net.node n).reads n i).all fun loc => (net.queue loc).head?.all fun msg =>
      msg.req.isNone || msg.pdu.requestKey.all fun ssn =>
        !checkRange (net.node n).selfData ssn || (net.stored n ssn).isSome
  | _ => true

theorem Net.Keeps.timely {dict : Dictionary} (keeps : net.Keeps dict) {act : Act}
    (timely : net.timely act = true) : ¬ net.Overtakes act := by
  rintro ⟨n, i, msg, ssn, loc, pair, rfl, ⟨⟨place, rest, reads, queue⟩, key, in_range⟩, client, waits⟩
  simp only [Net.timely, reads, queue, key, in_range, Option.all_some, List.head?_cons, Bool.not_true,
    Bool.false_or, Bool.or_eq_true, Option.isNone_iff_eq_none] at timely
  have stored := timely.resolve_left client
  have here : net.entries ssn (.node n) ≠ [] := by
    rw [Net.entries]
    intro none_stored
    rw [Option.toList_eq_nil_iff] at none_stored
    rw [none_stored] at stored
    cases stored
  obtain ⟨-, elsewhere⟩ := (keeps.ledger.entries ssn).of_ne_nil here
  have carried : pair ∈ net.entries ssn (.link loc) :=
    List.mem_filterMap.mpr ⟨_, waits, if_pos rfl⟩
  rw [elsewhere (.link loc) (by simp)] at carried
  cases carried

theorem Admitting.heedful {dict : Dictionary} {start : List (Addr × Msg)} {few : Prop}
    (admitting : Admitting dict start few net plan stage) {acts : List Act}
    (run : Run Net.step (fun net act => Bustling net act ∧ net.timely act = true) net acts net') :
    Run Net.step Heedful net acts net' := by
  refine run.induct (P := fun acts after => Run Net.step Heedful net acts after) .nil ?_
  rintro as t act u - sofar ⟨bustling, timely⟩ stepped
  obtain ⟨plan', stage', there⟩ := admitting.run sofar
  obtain ⟨later, -, keeps⟩ := there.kept
  exact sofar.snoc ⟨bustling, keeps.timely timely⟩ stepped

/-- The second node joins, and the requests that the first one has sent on come behind the
entry. -/
def attend : List Act :=
  [.client nodeA (.valLookup lastKey nodeC), .deliver nodeA .udp, .accept nodeB, .response nodeB,
    .client nodeA (.valInsert lastKey newerPair), .accept nodeA, .deliver nodeA .udp,
    .deliver nodeA .udp, .deliver nodeB .predecessor, .deliver nodeB .predecessor,
    .deliver nodeB .predecessor]

theorem join_preserves_attend : ∃ start begun net,
    History Undisturbed Net.Admits nodeA (storeLast.map Prod.fst) start ∧
      start.step (.join nodeB nodeA) = some begun ∧ Run Net.step Heedful begun attend net ∧
      (net.node nodeB).selfData.get lastKey = some newerPair ∧
      net.Preserves (Dictionary.run (storeLast.map Prod.fst)) start.applied := by
  have executed : (((perform (Net.founded nodeA) storeLast).bind fun start =>
      (pairAct (.join nodeB nodeA) start).bind fun begun => (execChecked Net.step
        (fun net act => (decide act.traffic && net.timely act) && pairStep net act) begun
          attend).filter fun net =>
            decide ((net.node nodeB).selfData.get lastKey = some newerPair))).isSome := by
    decide +kernel
  obtain ⟨net, executed⟩ := Option.isSome_iff_exists.mp executed
  obtain ⟨start, performed, executed⟩ := Option.bind_eq_some_iff.mp executed
  obtain ⟨begun, joined, executed⟩ := Option.bind_eq_some_iff.mp executed
  obtain ⟨executed, stored⟩ := Option.filter_eq_some_iff.mp executed
  obtain ⟨history, pair⟩ := history_of_perform storeLast .founded pair_founded performed
  obtain ⟨stepped, pair'⟩ := pairAct_spec pair joined
  obtain ⟨plan, admitting, untransferred⟩ := history.admitting (by decide)
  obtain ⟨stage, there⟩ := admitting.join untransferred stepped
  obtain ⟨timely, -⟩ := pair'.bustling executed
  have run := there.heedful timely
  obtain ⟨preserves, -⟩ := join_preserves (by decide) history .nil stepped run
  exact ⟨start, begun, net, history, stepped, run, of_decide_eq_true stored, preserves⟩

/-- The second node reads a client's `VAL_REMOVE` before the entry that was sent behind
its range. -/
def overtake : List Act :=
  [.deliver nodeA .udp, .accept nodeB, .response nodeB, .client nodeB (.valRemove lastKey),
    .deliver nodeB .udp, .deliver nodeB .predecessor, .accept nodeA]

def Net.revived (net : Net) : Bool :=
  net.quiet nodeA && net.quiet nodeB && (net.node nodeB).pc.serving &&
    decide ((net.node nodeB).selfData.get lastKey = some olderPair) &&
    decide (net.applied = [(nodeA, ⟨.valInsert lastKey olderPair, some 0⟩),
      (nodeB, ⟨.valRemove lastKey, some 1⟩), (nodeB, transfer (lastKey, olderPair))])

/-- An entry that was removed while it was on its way to the new node is stored again. -/
theorem join_overtaken : ¬ ∀ first ops start net begun net' acts acts' j e, first.port ≠ 0 →
    History Undisturbed Net.Admits first ops start → Run Net.step Bustling start acts net →
    net.step (.join j e) = some begun → Run Net.step Bustling begun acts' net' →
    net'.Preserves (Dictionary.run ops) start.applied := by
  intro claim
  have executed : (((perform (Net.founded nodeA) storeLast).filter Net.holdsLast).bind
      fun start => (pairAct (.join nodeB nodeA) start).bind fun begun => (execChecked Net.step
        (fun net act => (decide act.traffic && true) && pairStep net act) begun overtake).filter
          Net.revived).isSome := by decide +kernel
  obtain ⟨net, executed⟩ := Option.isSome_iff_exists.mp executed
  obtain ⟨start, performed, executed⟩ := Option.bind_eq_some_iff.mp executed
  obtain ⟨performed, holds⟩ := Option.filter_eq_some_iff.mp performed
  obtain ⟨begun, joined, executed⟩ := Option.bind_eq_some_iff.mp executed
  obtain ⟨executed, revived⟩ := Option.filter_eq_some_iff.mp executed
  obtain ⟨history, pair⟩ := history_of_perform storeLast .founded pair_founded performed
  obtain ⟨stepped, begins⟩ := pairAct_spec pair joined
  obtain ⟨checked, pair'⟩ := begins.bustling executed
  have run := checked.mono fun _ _ allowed => allowed.1
  have preserves := claim nodeA _ start start begun net [] overtake nodeB nodeA (by decide) history
    .nil stepped run
  simp only [Net.revived, Bool.and_eq_true, decide_eq_true_eq] at revived
  obtain ⟨⟨⟨⟨quiet_a, quiet_b⟩, serving⟩, stored⟩, applied⟩ := revived
  obtain ⟨plan, admitting, untransferred⟩ := history.admitting (by decide)
  obtain ⟨stage, welcoming, -⟩ := admitting.toWelcoming.join untransferred stepped
  obtain ⟨plan', stage', there⟩ := welcoming.run run
  have rest := there.busy.orderly.rest_of_quiet (pair'.quiet quiet_a quiet_b)
  obtain ⟨later, grown, acts⟩ := preserves.inOrder
  rw [of_decide_eq_true holds, applied] at grown
  obtain rfl : [_, _] = later := (List.cons.inj grown).2
  have entry := (acts (there.busy.drained_of_rest (fun _ gone => gone) rest)).stored nodeB serving
    lastKey
  rw [stored] at entry
  split at entry
  · cases entry
  · cases entry

end DhtRing

import DhtRing.Operations
import DhtRing.Arrival

/-!
# One operation at a time

A ring at rest, and that the steps after a single operation treat requests with care
and come to an end.
-/

set_option autoImplicit false

namespace DhtRing

open OnePlace Transition

variable {net net' : Net} {plan plan' : Plan} {stage stage' : Change}
  {map : Ssn → Option ValuePair}

/-! ## At rest -/

def Net.AtRest (net : Net) : Prop := ∀ act, act.internal = true → net.step act = none

theorem Orderly.idle_of_rest (orderly : Orderly net plan stage) (rest : net.AtRest) :
    Orderly net plan .idle := by
  rcases orderly.inStage.goes_on with idle | ⟨act, after, internal, stepped⟩
  · exact ⟨idle, orderly.tidy, trivial, orderly.served, fun early => absurd early (by decide),
      orderly.owned, orderly.downs, trivial⟩
  · rw [rest act internal] at stepped
    cases stepped

theorem Net.InStage.idle_pc (inStage : net.InStage plan .idle) (n : Addr) :
    (plan.Member n ∧ (net.node n).pc = .q6) ∨ (¬ plan.Member n ∧
      ((net.node n).pc = .absent ∨ (net.node n).pc = .exited true)) := by
  have idle : Idle net.topology net.control plan := inStage
  by_cases mem : plan.Member n
  · exact Or.inl ⟨mem, idle.idle n mem⟩
  · refine Or.inr ⟨mem, ?_⟩
    rcases idle.ring.away n mem (fun guest => guest) with ⟨absent, -⟩ | gone
    · exact Or.inl absent
    · exact Or.inr gone

theorem mem_requests_head {loc : Loc} {msg : Msg} {rest : List Msg} {ssn : Ssn}
    (queue : net.queue loc = msg :: rest) (key : msg.pdu.requestKey = some ssn) :
    msg ∈ net.requests loc :=
  mem_requests.mpr ⟨by rw [queue]; exact List.mem_cons_self, by rw [key]; rfl⟩

/-- In a quiet ring only requests wait, and a member can read those that wait for it. -/
theorem Orderly.reads_request (orderly : Orderly net plan .idle) {loc : Loc} {msg : Msg}
    (mem : msg ∈ net.requests loc) :
    (∃ n i, (net.node n).pc = .q6 ∧ (net.node n).reads n i = some loc) ∨
      ∃ n, loc = .udp n ∧ (net.node n).pc = .exited true := by
  have idle : Idle net.topology net.control plan := orderly.inStage
  have present : ∀ n, (net.node n).pc.listens = true →
      plan.Member n ∧ (net.node n).pc = .q6 := by
    intro n listens
    rcases orderly.inStage.idle_pc n with here | ⟨-, absent | gone⟩
    · exact here
    · rw [absent] at listens
      cases listens
    · rw [gone] at listens
      cases listens
  have served := orderly.served loc msg mem
  cases loc with
  | udp n =>
      rcases served with serving | gone
      · exact Or.inl ⟨n, .udp, (present n (Pc.listens_of_serving serving)).2, rfl⟩
      · exact Or.inr ⟨n, rfl, gone⟩
  | up c =>
      obtain ⟨listens, fds | waits⟩ := served
      · have fds : (net.node c.target).selfData.fdsPredecessor = some c := fds
        refine Or.inl ⟨c.target, .predecessor, (present _ listens).2, ?_⟩
        rw [Proc.reads, fds]
        rfl
      · obtain ⟨p, mem_p, next⟩ := Plan.exists_prev idle.ring.tiled (present _ listens).1
        have linked := idle.ring.linked p mem_p fun bare => bare
        rw [next] at linked
        rcases linked with ⟨-, -, -, -, empty⟩ | ⟨same, -, -, empty⟩
        · rw [empty] at waits
          cases waits
        · rw [← same, empty] at waits
          cases waits
  | down c =>
      obtain ⟨serving, fds⟩ := served
      have fds : (net.node c.source).selfData.fdsSuccessor = some c := fds
      refine Or.inl ⟨c.source, .successor, (present _ (Pc.listens_of_serving serving)).2, ?_⟩
      rw [Proc.reads, fds]
      rfl

/-- At rest no request waits but at the socket of a node that has left. -/
theorem Orderly.requests_of_rest (orderly : Orderly net plan .idle) (rest : net.AtRest) {loc : Loc}
    {msg : Msg} (mem : msg ∈ net.requests loc) :
    ∃ n, loc = .udp n ∧ (net.node n).pc = .exited true := by
  refine (orderly.reads_request mem).resolve_left ?_
  rintro ⟨n, i, q6, reads⟩
  obtain ⟨waiting, -⟩ := mem_requests.mp mem
  obtain ⟨act, after, internal, stepped⟩ :=
    orderly.inStage.deliver_enabled (polls_of_q6 q6 i) reads (List.ne_nil_of_mem waiting)
  rw [rest act internal] at stepped
  cases stepped

theorem atRest_of_consumed (consumed : ∀ n, net.consumed n = true)
    (pcs : ∀ n, (net.node n).pc = .absent ∨ (net.node n).pc = .exited true ∨
      (net.node n).pc = .q6)
    (open_ends : ∀ n i, net.step (.eof n i) = none) : net.AtRest := by
  have read : ∀ n i back loc msg rest, (net.node n).pc.polls i = some back →
      (net.node n).reads n i = some loc → net.queue loc ≠ msg :: rest := by
    intro n i back loc msg rest polls reads queue
    have serving : (net.node n).pc.serving = true := by
      rcases polls_cases polls with ⟨pc, -⟩ | ⟨j, new, pc, -⟩ <;> rw [pc] <;> rfl
    rw [consumed_spec (consumed n) serving i reads] at queue
    cases queue
  intro act internal
  rw [Option.eq_none_iff_forall_ne_some]
  intro after stepped
  cases act with
  | deliver n i =>
      obtain ⟨back, loc, msg, rest, outcome, polls, reads, queue, -⟩ := deliver_eq_some stepped
      exact read n i back loc msg rest polls reads queue
  | discard n i k =>
      obtain ⟨back, loc, msg, rest, polls, reads, queue, -⟩ := discard_eq_some stepped
      exact read n i back loc msg rest polls reads queue
  | eof n i =>
      rw [open_ends n i] at stepped
      cases stepped
  | accept n =>
      obtain ⟨back, conn, rest, accepted, -⟩ := accept_eq_some stepped
      rcases pcs n with pc | pc | pc <;> rw [pc] at accepted <;> cases accepted
  | response n =>
      obtain ⟨waits, -⟩ := response_eq_some stepped
      rcases pcs n with pc | pc | pc <;> rw [pc] at waits <;> cases waits
  | reply n =>
      obtain ⟨waits, -⟩ := reply_eq_some stepped
      rcases pcs n with pc | pc | pc <;> rw [pc] at waits <;> cases waits
  | finish n =>
      obtain ⟨i, new, polls, -⟩ := finish_eq_some stepped
      rcases pcs n with pc | pc | pc <;> rw [pc] at polls <;> cases polls
  | _ => cases internal

def Net.quiet (net : Net) (n : Addr) : Bool :=
  match (net.node n).pc with
  | .absent | .exited true => true
  | .q6 => net.consumed n
  | _ => false

theorem Orderly.rest_of_quiet (orderly : Orderly net plan stage)
    (quiet : ∀ n, net.quiet n = true) : net.AtRest := by
  have cases_n : ∀ n, (net.node n).pc = .absent ∨ (net.node n).pc = .exited true ∨
      ((net.node n).pc = .q6 ∧ net.consumed n = true) := by
    intro n
    have here := quiet n
    unfold Net.quiet at here
    split at here
    · exact Or.inl ‹_›
    · exact Or.inr (Or.inl ‹_›)
    · exact Or.inr (Or.inr ⟨‹_›, here⟩)
    · cases here
  refine atRest_of_consumed (fun n => ?_) (fun n => ?_) orderly.inStage.no_eof
  · rcases cases_n n with pc | pc | ⟨-, consumed⟩
    · simp [Net.consumed, pc, Pc.serving]
    · simp [Net.consumed, pc, Pc.serving]
    · exact consumed
  · exact (cases_n n).imp_right fun later => later.imp_right And.left

/-! ## Careful steps -/

/-- The operation that is under way: clients' requests in a quiet ring, or a change
without any. -/
def Net.Single (net : Net) (stage : Change) : Prop :=
  (stage = .idle ∧ net.Untransferred) ∨ net.Clientless

def Net.HasSlot (net : Net) (act : Act) : Prop :=
  ∀ n i loc msg rest call, act = .deliver n i → (net.node n).pc = .q6 →
    (net.node n).reads n i = some loc → net.queue loc = msg :: rest → msg.pdu.call = some call →
    HasRoom (net.node n).selfData call

def Net.WithinSize (net : Net) : Prop :=
  ∀ n ht, (net.node n).selfData.hashTable = some ht → getNumEntries ht ≤ maxSize

structure Net.Formed (net : Net) : Prop where
  transfers : ∀ loc, ∀ msg ∈ net.requests loc, msg.req = none → ∃ entry, msg = transfer entry
  keyed : ∀ loc, ∀ msg ∈ net.requests loc, msg.req ≠ none → ∀ ssn,
    msg.pdu.requestKey = some ssn → Nonzero ssn

theorem Ledger.formed (ledger : Ledger net map) : net.Formed :=
  ⟨ledger.transfers, fun loc msg mem _ => ledger.keyed loc msg mem⟩

theorem Net.Formed.scans (formed : net.Formed) {loc : Loc} {msg : Msg}
    (mem : msg ∈ net.requests loc) {call : TableCall} (asks : msg.pdu.call = some call)
    (selfData : SelfData) : ScansBucket selfData call := by
  by_cases client : msg.req = none
  · obtain ⟨entry, rfl⟩ := formed.transfers loc msg mem client
    cases asks
    trivial
  · have keyed := formed.keyed loc msg mem client
    generalize msg.pdu = pdu at asks keyed
    cases pdu with
    | valRemove ssn =>
        cases asks
        intro _ key first
        have agrees := List.find?_some first
        rw [decide_eq_true_eq] at agrees
        rw [(ckey_inj_of_nonzero (keyed ssn rfl)).mp agrees]
    | valInsert ssn pair =>
        cases asks
        trivial
    | valLookup ssn sender =>
        cases asks
        trivial
    | _ => cases asks

theorem Net.Formed.client (formed : net.Formed) {n : Addr} {pdu : Pdu}
    (stepped : net.step (.client n pdu) = some net')
    (nonzero : ∀ ssn, pdu.requestKey = some ssn → Nonzero ssn) : net'.Formed := by
  constructor
  · intro loc msg mem untagged
    rcases client_mem stepped mem with old | ⟨-, rfl⟩
    · exact formed.transfers loc msg old untagged
    · cases untagged
  · intro loc msg mem tagged ssn key
    rcases client_mem stepped mem with old | ⟨-, rfl⟩
    · exact formed.keyed loc msg old tagged ssn key
    · exact nonzero ssn key

theorem mem_taken {place loc : Loc} {head msg : Msg} {rest : List Msg}
    (queue : net.requests place = head :: rest)
    (mem : msg ∈ Function.update net.requests place rest loc) : msg ∈ net.requests loc := by
  by_cases here : loc = place
  · subst here
    rw [Function.update_self] at mem
    rw [queue]
    exact List.mem_cons_of_mem _ mem
  · rwa [Function.update_of_ne here] at mem

theorem mem_passed {place fd loc : Loc} {head msg : Msg} {rest : List Msg}
    (queue : net.requests place = head :: rest)
    (mem : msg ∈ Function.update (Function.update net.requests place rest) fd
      (net.requests fd ++ [head]) loc) : ∃ other, msg ∈ net.requests other := by
  by_cases next : loc = fd
  · subst next
    rw [Function.update_self, List.mem_append, List.mem_singleton] at mem
    rcases mem with old | rfl
    · exact ⟨_, old⟩
    · exact ⟨place, by rw [queue]; exact List.mem_cons_self⟩
  · rw [Function.update_of_ne next] at mem
    exact ⟨loc, mem_taken queue mem⟩

theorem Net.Handled.mem (handled : net.Handled net') {loc : Loc} {msg : Msg}
    (mem : msg ∈ net'.requests loc) : ∃ other, msg ∈ net.requests other := by
  cases handled with
  | serve n place head rest ssn outcome q6 queue reader key in_range dispatched requests =>
      rw [requests] at mem
      exact ⟨loc, mem_taken queue mem⟩
  | pass n i back place head rest ssn c polls queue reader key out tagged fds served apart
      requests =>
      rw [requests] at mem
      exact mem_passed queue mem

theorem Net.Flow.mem (flow : net.Flow net') {loc : Loc} {msg : Msg}
    (mem : msg ∈ net'.requests loc) :
    (∃ other, msg ∈ net.requests other) ∨ ∃ entry, msg = transfer entry := by
  cases flow with
  | still requests =>
      rw [requests] at mem
      exact Or.inl ⟨loc, mem⟩
  | serve n place head rest ssn outcome q6 queue reader key in_range dispatched requests =>
      rw [requests] at mem
      exact Or.inl ⟨loc, mem_taken queue mem⟩
  | pass n place head rest c queue reader fds apart requests =>
      rw [requests] at mem
      exact Or.inl (mem_passed queue mem)
  | spread n fd entries requests =>
      rw [requests] at mem
      by_cases here : loc = fd
      · subst here
        rw [Function.update_self, List.mem_append] at mem
        rcases mem with old | sent
        · exact Or.inl ⟨_, old⟩
        · obtain ⟨entry, -, rfl⟩ := List.mem_map.mp sent
          exact Or.inr ⟨entry, rfl⟩
      · rw [Function.update_of_ne here] at mem
        exact Or.inl ⟨loc, mem⟩

theorem Net.Formed.flow (formed : net.Formed) (flow : net.Flow net') : net'.Formed := by
  constructor
  · intro loc msg mem untagged
    rcases flow.mem mem with ⟨other, old⟩ | new
    · exact formed.transfers other msg old untagged
    · exact new
  · intro loc msg mem tagged ssn key
    rcases flow.mem mem with ⟨other, old⟩ | ⟨entry, rfl⟩
    · exact formed.keyed other msg old tagged ssn key
    · exact absurd rfl tagged

theorem Net.Clientless.flow (clientless : net.Clientless) (flow : net.Flow net') :
    net'.Clientless := by
  intro loc msg mem
  rcases flow.mem mem with ⟨other, old⟩ | ⟨entry, rfl⟩
  · exact clientless other msg old
  · rfl

theorem Net.Untransferred.handled (untransferred : net.Untransferred)
    (handled : net.Handled net') : net'.Untransferred := by
  intro loc msg mem
  obtain ⟨other, old⟩ := handled.mem mem
  exact untransferred other msg old

theorem Net.Leads.not_idle {act : Act} (leads : net.Leads plan stage act plan' stage') :
    stage ≠ .idle := by
  cases leads <;> simp

theorem Net.Goes.of_idle {act : Act} (goes : net.Goes plan .idle act net' plan' stage') :
    plan' = plan ∧ stage' = .idle ∧ net.Handled net' := by
  rcases goes with ⟨leads, -⟩ | ⟨same, turns, handled⟩
  · exact absurd rfl leads.not_idle
  · refine ⟨same, ?_, handled⟩
    rcases turns with rfl | ⟨l, p, s, c, c', i, i', eq, -⟩
    · rfl
    · cases eq

theorem Net.InStage.idle_successor (inStage : net.InStage plan .idle) {n : Addr} {i : FdsIndex}
    {back : Pc} (polls : (net.node n).pc.polls i = some back) {c : Conn}
    (fds : (net.node n).selfData.fdsSuccessor = some c) : (net.node c.target).pc = .q6 := by
  have idle : Idle net.topology net.control plan := inStage
  rcases inStage.idle_pc n with ⟨mem, q6⟩ | ⟨-, pc | pc⟩
  · rcases idle.ring.linked n mem (fun bare => bare) with ⟨-, c', out, -⟩ | ⟨-, noOut, -⟩
    · cases fds.symm.trans out.fds
      rw [out.target]
      exact idle.idle _ (Plan.member_next idle.ring.tiled mem)
    · cases fds.symm.trans noOut.fds
  · rw [pc] at polls
    cases polls
  · rw [pc] at polls
    cases polls

/-- A node of a change in which no client takes part reads only requests for itself. -/
theorem Orderly.careful (orderly : Orderly net plan stage) (formed : net.Formed)
    (single : net.Single stage) {act : Act} (slot : net.HasSlot act)
    (stepped : net.step act = some net') : Careful net act where
  serves := by
    rintro n i loc msg rest ssn call rfl reads queue key asks in_range
    obtain ⟨back, -, -, -, -, polls, -⟩ := deliver_eq_some stepped
    have waiting := mem_requests_head queue key
    have q6 : (net.node n).pc = .q6 := by
      rcases orderly.inStage.polling_cases polls with ⟨-, q6⟩ | ⟨p, s, c, c', j, rfl⟩
      · exact q6
      · obtain ⟨eq, -⟩ | clientless := single
        · cases eq
        · have owner := orderly.owned loc msg ssn waiting (clientless loc msg waiting) key
          obtain ⟨reader, -⟩ := reads_cases (orderly.inStage.ring.held n) reads
          have gone := Polling.gone orderly.inStage
          exact absurd ⟨_, (hashSsn ssn).toNat_lt, owner.trans reader⟩ gone
    exact ⟨q6, slot n i loc msg rest call rfl q6 reads queue asks, formed.scans waiting asks _⟩
  relays := by
    rintro n i loc msg rest ssn c rfl reads queue key out fds
    obtain ⟨back, -, -, -, -, polls, -⟩ := deliver_eq_some stepped
    have waiting := mem_requests_head queue key
    obtain ⟨reader, -⟩ := reads_cases (orderly.inStage.ring.held n) reads
    have tagged := orderly.tagged polls waiting reader key out
    obtain ⟨rfl, -⟩ | clientless := single
    · rw [orderly.inStage.idle_successor polls fds]
      simp
    · exact absurd (clientless loc msg waiting) tagged
  awaits := by
    rintro n loc msg rest rfl receives queue
    obtain ⟨waits, -⟩ := reply_eq_some stepped
    cases key : msg.pdu.requestKey with
    | none => rfl
    | some ssn =>
        have waiting := mem_requests_head queue key
        have early : stage.early = true ∧ stage ≠ .idle := by
          rcases orderly.inStage.awaiting waits with ⟨p, s, c, c', rfl⟩ | ⟨p, s, c, c', rfl⟩
          · exact ⟨rfl, by simp⟩
          · exact ⟨rfl, by simp⟩
        obtain ⟨eq, -⟩ | clientless := single
        · exact absurd eq early.2
        · exact absurd (clientless loc msg waiting) (orderly.late early.1 loc msg waiting)
  finishes := by
    rintro n c rfl fds
    obtain ⟨i, new, pc, -⟩ := finish_eq_some stepped
    obtain ⟨p, s, c₁, c₂, j, rfl⟩ : ∃ p s c₁ c₂ j, stage = .polling n p s c₁ c₂ j := by
      have polls : (net.node n).pc.polls i = some (.lastPoll i new) := by
        rw [pc, Pc.polls, if_pos le_rfl]
      refine (orderly.inStage.polling_cases polls).resolve_left ?_
      rintro ⟨-, q6⟩
      rw [pc] at q6
      cases q6
    obtain ⟨eq, -⟩ | clientless := single
    · cases eq
    · have posts : net.control = post [] := Polling.posts orderly.inStage
      have gone := Polling.gone orderly.inStage
      cases queue : net.queue (.up c) with
      | nil => rfl
      | cons msg rest =>
          cases key : msg.pdu.requestKey with
          | none => cases mem_control queue key posts
          | some ssn =>
              have waiting := mem_requests_head queue key
              have owner := orderly.owned _ msg ssn waiting (clientless _ msg waiting) key
              have target : c.target = n := (orderly.inStage.ring.held n).predecessor c fds
              exact absurd ⟨_, (hashSsn ssn).toNat_lt, owner.trans target⟩ gone

theorem Tidy.hasRoom {selfData : SelfData} (tidy : Tidy selfData) {ssn : Ssn} {pair : ValuePair}
    (within : ∀ ht, (handleHtInsert selfData ssn pair).selfData.hashTable = some ht →
      getNumEntries ht ≤ maxSize) : HasRoom selfData (.insert ssn pair) := by
  intro in_range ht table resident
  obtain ⟨keys, mirrored, -⟩ := tidy
  obtain ⟨ht', table', mirrors⟩ := id mirrored
  cases table.symm.trans table'
  have length : getNumEntries ht = keys.length := mirrors.length
  have run := handleHtInsert_absent mirrored table in_range resident pair
  rw [length]
  by_contra full
  rw [if_neg full] at run
  have grown := within (htInsert ht ssn pair) (by rw [run])
  rw [getNumEntries, length_htInsert_eq mirrors.sound, resident, mirrors.length] at grown
  simp only [Option.isSome_none, Bool.false_eq_true, if_false] at grown
  omega

theorem Orderly.hasSlot (orderly : Orderly net plan stage) {act : Act}
    (within : ∀ net', net.step act = some net' → net'.WithinSize) : net.HasSlot act := by
  rintro n i loc msg rest call rfl q6 reads queue asks
  obtain ⟨outcome, dispatched⟩ := orderly.inStage.handled (polls_of_q6 q6 i) reads queue
  have stepped : net.step (.deliver n i) =
      some (((net.note n msg).setQueue loc rest).commit n .q6 msg.tag outcome) := by
    simp [Net.step, Net.deliver, q6, Pc.polls, reads, queue, dispatched]
  have small := within _ stepped n
  rw [commit_node, setQueue_node, note_node, Function.update_self] at small
  have tidy := orderly.tidy n (by rw [q6]; rfl)
  generalize msg.pdu = pdu at asks dispatched
  cases pdu with
  | valInsert ssn pair =>
      cases asks
      cases dispatched
      exact tidy.hasRoom small
  | valRemove ssn =>
      cases asks
      trivial
  | valLookup ssn sender =>
      cases asks
      trivial
  | _ => cases asks

/-! ## Owners -/

theorem Ring.checkRange_iff {bare guest : Addr → Prop} (ring : Ring net.topology plan bare guest)
    {n : Addr} (mem : plan.Member n) (born : (net.node n).pc.born = true) (ssn : Ssn) :
    checkRange (net.node n).selfData ssn = true ↔ plan.own (hashSsn ssn).toNat = n := by
  obtain ⟨start, stop⟩ := ring.node_range mem born
  rw [checkRange_eq_true, start, stop]
  exact ((ring.tiled n mem).exact _ (hashSsn ssn).toNat_lt).symm

theorem Pc.serving_of_inRing {pc : Pc} (inRing : pc.inRing = true) : pc.serving = true := by
  cases pc <;> first | rfl | cases inRing

theorem Pc.born_of_serving {pc : Pc} (serving : pc.serving = true) : pc.born = true := by
  cases pc with
  | q7Accept | q7Receive => cases serving
  | _ => rfl

theorem Net.InStage.member_of_serving (inStage : net.InStage plan stage) {n : Addr}
    (serving : (net.node n).pc.serving = true) :
    plan.Member n ∨ (∃ p s c c', stage = .taken n p s c c') ∨
      ∃ p s c c' i, stage = .polling n p s c c' i := by
  rcases inStage.pc_cases n with ⟨mem, -⟩ | actor | pc | pc
  · exact Or.inl mem
  · cases stage with
    | idle => exact actor.elim
    | joining j a loc maxSpan max =>
        rw [actor.2] at serving
        cases serving
    | offered l p s c c' =>
        obtain ⟨rfl, -⟩ := actor
        have offered : Offered net.topology net.control plan n p s c c' := inStage
        exact Or.inl (offered.next_p ▸ Plan.member_next offered.ring.tiled offered.between.prev)
    | taken l p s c c' =>
        obtain ⟨rfl, -⟩ := actor
        exact Or.inr (Or.inl ⟨p, s, c, c', rfl⟩)
    | polling l p s c c' i =>
        obtain ⟨rfl, -⟩ := actor
        exact Or.inr (Or.inr ⟨p, s, c, c', i, rfl⟩)
    | repair x y upper lower =>
        have repair : Repair net.topology net.control plan x y upper lower := inStage
        rcases actor with ⟨rfl, -⟩ | ⟨rfl, -⟩
        · exact Or.inl repair.member
        · exact Or.inl (repair.next ▸ Plan.member_next repair.ring.tiled repair.member)
  · rw [pc] at serving
    cases serving
  · rw [pc] at serving
    cases serving

theorem Net.InStage.member_of_inRing (inStage : net.InStage plan stage) {n : Addr}
    (inRing : (net.node n).pc.inRing = true) :
    plan.Member n ∨ ∃ p s c c', stage = .taken n p s c c' := by
  rcases inStage.member_of_serving (Pc.serving_of_inRing inRing) with mem | taken |
    ⟨p, s, c, c', i, rfl⟩
  · exact Or.inl mem
  · exact Or.inr taken
  · rw [show (net.node n).pc = .lastPoll i s from Polling.pc inStage] at inRing
    cases inRing

theorem Pc.born_of_inRing {pc : Pc} (inRing : pc.inRing = true) : pc.born = true :=
  Pc.born_of_serving (Pc.serving_of_inRing inRing)

/-- The entry of a key is stored at its owner only. -/
theorem Orderly.stored_owner (orderly : Orderly net plan stage)
    (kept : ∀ l p s c c', stage ≠ .taken l p s c c') {n : Addr} {key : Ssn}
    (stored : net.stored n key ≠ none) : plan.own (hashSsn key).toNat = n := by
  rw [Net.stored] at stored
  split at stored
  · rename_i inRing
    have mem : plan.Member n := by
      rcases orderly.inStage.member_of_inRing inRing with mem | ⟨p, s, c, c', eq⟩
      · exact mem
      · exact absurd eq (kept n p s c c')
    rw [← orderly.inStage.ring.checkRange_iff mem (Pc.born_of_inRing inRing)]
    exact (orderly.tidy n inRing).range stored
  · exact absurd rfl stored

end DhtRing

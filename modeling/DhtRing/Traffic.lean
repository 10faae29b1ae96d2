import DhtRing.Histories

/-!
# Requests while the ring changes

A ring in which clients' requests are on their way while one node joins or leaves.
-/

set_option autoImplicit false

namespace DhtRing

open OnePlace Transition

variable {net net' : Net} {plan plan' : Plan} {stage stage' : Change}

/-- Clients send requests for keys without zero bytes, and the nodes go on by
themselves. -/
def Act.traffic : Act → Prop
  | .client _ pdu => ∀ ssn, pdu.requestKey = some ssn → Nonzero ssn
  | act => act.internal = true

instance (act : Act) : Decidable act.traffic :=
  match act with
  | .client _ pdu => decidable_of_iff ((pdu.requestKey.all fun ssn => decide (Nonzero ssn)) = true)
      (by cases key : pdu.requestKey <;> simp [Act.traffic, key])
  | .join _ _ | .leave _ | .timeout _ | .deliver _ _ | .discard _ _ _ | .eof _ _ | .accept _
  | .response _ | .reply _ | .finish _ => inferInstanceAs (Decidable (_ = true))

theorem Act.traffic.cases {act : Act} (traffic : act.traffic) :
    act.internal = true ∨ ∃ n pdu, act = .client n pdu ∧
      ∀ ssn, pdu.requestKey = some ssn → Nonzero ssn := by
  cases act with
  | client n pdu => exact Or.inr ⟨n, pdu, rfl, traffic⟩
  | _ => exact Or.inl traffic

/-- Clients send requests, the nodes go on, and no node comes to hold too many entries. -/
def Bustling (net : Net) (act : Act) : Prop :=
  act.traffic ∧ ∀ net', net.step act = some net' → net'.WithinSize

theorem traffic_keeps {ok : Net → Act → Prop} {inv : Net → Plan → Change → Prop}
    (traffic : ∀ net act, ok net act → act.traffic)
    (step : ∀ net plan stage act net', inv net plan stage → act.internal = true → ok net act →
      net.step act = some net' → ∃ plan' stage', inv net' plan' stage')
    (client : ∀ net plan stage n pdu net', inv net plan stage →
      net.step (.client n pdu) = some net' →
      (∀ ssn, pdu.requestKey = some ssn → Nonzero ssn) → inv net' plan stage)
    (start : inv net plan stage) {acts : List Act} (run : Run Net.step ok net acts net') :
    ∃ plan' stage', inv net' plan' stage' := by
  refine run.invariant (P := fun net => ∃ plan stage, inv net plan stage) ⟨plan, stage, start⟩ ?_
  rintro net act net' ⟨plan, stage, here⟩ allowed stepped
  rcases (traffic net act allowed).cases with internal | ⟨n, pdu, rfl, nonzero⟩
  · exact step net plan stage act net' here internal allowed stepped
  · exact ⟨plan, stage, client net plan stage n pdu net' here stepped nonzero⟩

def Net.AppliedOnce (net : Net) (k : ℕ) : Prop :=
  (net.applied.filter fun entry => entry.2.req = some k).length = 1

theorem length_filterMap_client (k : ℕ) (applied : List (Addr × Msg)) :
    ((applied.map Prod.snd).filterMap (Msg.client k)).length =
      (applied.filter fun entry => entry.2.req = some k).length := by
  induction applied with
  | nil => rfl
  | cons entry later ih =>
      by_cases here : entry.2.req = some k
      · simp [Msg.client, here, ← ih]
      · simp [Msg.client, here, ← ih]

/-! ## Members -/

theorem Net.InStage.owner_of_serving (inStage : net.InStage plan stage) {n : Addr}
    (serving : (net.node n).pc.serving = true) {ssn : Ssn}
    (in_range : checkRange (net.node n).selfData ssn = true) :
    plan.own (hashSsn ssn).toNat = n ∨ (∃ p s c c', stage = .taken n p s c c') ∨
      ∃ p s c c' i, stage = .polling n p s c c' i := by
  rcases inStage.member_of_serving serving with mem | leaves
  · exact Or.inl ((inStage.ring.checkRange_iff mem (Pc.born_of_serving serving) ssn).mp in_range)
  · exact Or.inr leaves

theorem Net.Leads.member {act : Act} (leads : net.Leads plan stage act plan' stage')
    (inStage : net.InStage plan stage) {n : Addr} (mem : plan.Member n) :
    plan'.Member n ∨ ∃ p s c c', stage = .offered n p s c c' := by
  cases leads with
  | split j a loc maxSpan max i mid lower splits sides eq =>
      have joining : Joining net.topology net.control plan j a loc maxSpan max := inStage
      obtain ⟨from_lo, below, -⟩ := joining.middle (joining.wide splits)
      rw [← eq] at from_lo below
      exact Or.inl ((Plan.member_split joining.ring.tiled joining.reader from_lo below).mpr
        (Or.inr mem))
  | take l p s c c' i =>
      have offered : Offered net.topology net.control plan l p s c c' := inStage
      by_cases leaves : n = l
      · exact Or.inr ⟨p, s, c, c', by rw [leaves]⟩
      · exact Or.inl ((Plan.member_handOver offered.ring.tiled offered.between.prev offered.next_p
          offered.between.other).mpr ⟨leaves, mem⟩)
  | _ => exact Or.inl mem

/-- No node has ended but in good order. -/
theorem Net.InStage.sound (inStage : net.InStage plan stage) (n : Addr) :
    (net.node n).pc ≠ .exited false ∧ (net.node n).pc ≠ .faulted := by
  rcases inStage.pc_cases n with ⟨-, pc⟩ | actor | pc | pc
  · simp [pc]
  · have alive := actor.alive
    constructor
    · intro ended
      rw [ended] at alive
      cases alive
    · intro ended
      rw [ended] at alive
      cases alive
  · simp [pc]
  · simp [pc]

/-! ## A busy ring -/

/-- Requests are on their way.  Those at the sockets of `gone` may stay there. -/
structure Busy (gone : Addr → Prop) (few : Prop) (net : Net) (plan : Plan) (stage : Change) :
    Prop where
  orderly : Orderly net plan stage
  formed : net.Formed
  accounted : net.Accounted
  sockets : ∀ n msg, msg ∈ net.requests (.udp n) → plan.Member n ∨ gone n
  bounded : few → ∃ bound, net.Bounded plan stage bound

section

variable {gone : Addr → Prop} {few : Prop}

theorem Net.Flow.client_mem (flow : net.Flow net') {loc : Loc} {msg : Msg}
    (mem : msg ∈ net'.requests loc) (client : msg.req ≠ none) :
    msg ∈ net.requests loc ∨ ∃ c, loc = .up c := by
  cases flow with
  | still requests =>
      rw [requests] at mem
      exact Or.inl mem
  | serve n place head rest ssn outcome q6 queue reader key in_range dispatched requests =>
      rw [requests] at mem
      exact Or.inl (mem_taken queue mem)
  | pass n place head rest c queue reader fds apart requests =>
      by_cases next : loc = .up c
      · exact Or.inr ⟨c, next⟩
      · rw [requests, Function.update_of_ne next] at mem
        exact Or.inl (mem_taken queue mem)
  | spread n fd entries requests =>
      rw [requests] at mem
      by_cases here : loc = fd
      · subst here
        rw [Function.update_self, List.mem_append] at mem
        refine Or.inl (mem.resolve_right fun sent => client ?_)
        obtain ⟨entry, -, rfl⟩ := List.mem_map.mp sent
        rfl
      · rw [Function.update_of_ne here] at mem
        exact Or.inl mem

/-- A step of the ring keeps account of all requests. -/
theorem Busy.goes (busy : Busy gone few net plan stage) {act : Act}
    (internal : act.internal = true) (stepped : net.step act = some net')
    (orderly' : Orderly net' plan' stage') (goes : net.Goes plan stage act net' plan' stage')
    (leaver : ∀ l p s c c', stage = .offered l p s c c' → gone l) :
    Busy gone few net' plan' stage' where
  orderly := orderly'
  formed := busy.formed.flow goes.flow
  accounted := busy.accounted.flow goes.flow (step_issued internal stepped)
  sockets n msg mem := by
    by_cases client : msg.req = none
    · obtain ⟨entry, rfl⟩ := (busy.formed.flow goes.flow).transfers _ msg mem client
      have owner := orderly'.owned _ _ entry.1 mem rfl rfl
      exact Or.inl ⟨_, (hashSsn entry.1).toNat_lt, owner⟩
    · rcases goes.flow.client_mem mem client with old | ⟨c, eq⟩
      · rcases busy.sockets n msg old with member | left
        · rcases goes with ⟨leads, -⟩ | ⟨rfl, -⟩
          · rcases leads.member busy.orderly.inStage member with still | ⟨p, s, c, c', eq⟩
            · exact Or.inl still
            · exact Or.inr (leaver n p s c c' eq)
          · exact Or.inl member
        · exact Or.inr left
      · cases eq
  bounded small := by
    obtain ⟨bound, bounded⟩ := busy.bounded small
    obtain ⟨bound', -, bounded'⟩ := goes.bounded busy.orderly.inStage bounded
    exact ⟨bound', bounded'⟩

theorem Busy.client (busy : Busy gone few net plan stage) {n : Addr} {pdu : Pdu}
    (stepped : net.step (.client n pdu) = some net')
    (nonzero : ∀ ssn, pdu.requestKey = some ssn → Nonzero ssn)
    (leaver : ∀ l p s c c', (stage = .taken l p s c c' ∨ ∃ i, stage = .polling l p s c c' i) →
      gone l) : Busy gone few net' plan stage := by
  obtain ⟨serving, -, -, -, -, -, -, -, -, requests⟩ := client_spec stepped
  refine ⟨busy.orderly.client stepped, busy.formed.client stepped nonzero,
    busy.accounted.client stepped, ?_, fun small => ?_⟩
  · intro m msg mem
    rcases client_mem stepped mem with old | ⟨eq, -⟩
    · exact busy.sockets m msg old
    · cases eq
      rcases busy.orderly.inStage.member_of_serving serving with member | ⟨p, s, c, c', eq⟩ |
        ⟨p, s, c, c', i, eq⟩
      · exact Or.inl member
      · exact Or.inr (leaver _ p s c c' (Or.inl eq))
      · exact Or.inr (leaver _ p s c c' (Or.inr ⟨i, eq⟩))
  · obtain ⟨⟨m, w⟩, measured, weighs⟩ := busy.bounded small
    obtain ⟨w', weighs', -⟩ := weighs.update (.udp n)
      (net.requests (.udp n) ++ [⟨pdu, some net.issued⟩])
    rw [← requests] at weighs'
    exact ⟨(m, w'), measured, weighs'⟩

/-- Every request was applied once, or it waits somewhere. -/
theorem Net.Accounted.applied_or_waits (accounted : net.Accounted) {k : ℕ}
    (issued : k < net.issued) :
    net.AppliedOnce k ∨ ∃ loc msg, msg ∈ net.requests loc ∧ msg.req = some k := by
  obtain ⟨found, ⟨place, here, -⟩, known⟩ := accounted k
  obtain ⟨msg, rfl⟩ := Option.ne_none_iff_exists'.mp (known.mpr issued)
  cases place with
  | none =>
      left
      have count := length_filterMap_client k net.applied
      rw [show (net.applied.map Prod.snd).filterMap (Msg.client k) = [msg] from here] at count
      exact count.symm
  | some loc =>
      right
      have mem : msg ∈ (net.requests loc).filterMap (Msg.client k) := by
        rw [show (net.requests loc).filterMap (Msg.client k) = [msg] from here]
        exact List.mem_singleton_self msg
      obtain ⟨found, waits, eq⟩ := List.mem_filterMap.mp mem
      rw [Msg.client] at eq
      split at eq
      · rename_i tagged
        cases eq
        exact ⟨loc, msg, waits, tagged⟩
      · cases eq

theorem Busy.requests_of_rest (busy : Busy gone few net plan stage) (rest : net.AtRest) {loc : Loc}
    {msg : Msg} (waits : msg ∈ net.requests loc) :
    ∃ n, loc = .udp n ∧ gone n ∧ (net.node n).pc = .exited true := by
  have orderly := busy.orderly.idle_of_rest rest
  obtain ⟨n, rfl, ended⟩ := orderly.requests_of_rest rest waits
  refine ⟨n, rfl, (busy.sockets n msg waits).resolve_left fun member => ?_, ended⟩
  rcases orderly.inStage.idle_pc n with ⟨-, q6⟩ | ⟨outside, -⟩
  · rw [ended] at q6
    cases q6
  · exact outside member

def Net.Drained (net : Net) : Prop := ∀ loc, net.queue loc = []

theorem Busy.drained_of_rest (busy : Busy gone few net plan stage) (nobody : ∀ n, ¬ gone n)
    (rest : net.AtRest) : net.Drained := by
  have idle : Idle net.topology net.control plan := (busy.orderly.idle_of_rest rest).inStage
  intro loc
  cases queue : net.queue loc with
  | nil => rfl
  | cons msg later =>
      cases key : msg.pdu.requestKey with
      | none => cases mem_control queue key idle.posts
      | some ssn =>
          obtain ⟨n, -, left, -⟩ := busy.requests_of_rest rest (mem_requests_head queue key)
          exact absurd left (nobody n)

end

/-! ## The log -/

def served (entry : Addr × Msg) : Option Op :=
  entry.2.req.map fun _ => .request entry.1 entry.2.pdu

def Dictionary.log (dict : Dictionary) (applied : List (Addr × Msg)) : Dictionary :=
  (applied.filterMap served).foldl .apply dict

/-- The ring holds the entries of the dictionary and has given its answers. -/
structure Net.Keeps (net : Net) (dict : Dictionary) : Prop where
  ledger : Ledger net dict.entries
  answered : (net.replies.map fun reply => (reply.1, reply.2.pdu)) = dict.answers

theorem Dictionary.log_append (dict : Dictionary) (applied later : List (Addr × Msg)) :
    dict.log (applied ++ later) = (dict.log applied).log later := by
  rw [Dictionary.log, List.filterMap_append, List.foldl_append]
  rfl

section

variable {dict : Dictionary}

theorem Net.Keeps.client (keeps : net.Keeps dict) {n : Addr} {pdu : Pdu}
    (stepped : net.step (.client n pdu) = some net')
    (nonzero : ∀ ssn, pdu.requestKey = some ssn → Nonzero ssn) : net'.Keeps dict := by
  obtain ⟨-, -, -, -, -, -, replies, -⟩ := client_spec stepped
  exact ⟨keeps.ledger.client stepped nonzero, by rw [replies, keeps.answered]⟩

/-- A request that is applied in its turn does to the ring what it does to a
dictionary. -/
theorem Net.Keeps.serve (keeps : net.Keeps dict) (orderly : Orderly net plan stage)
    (orderly' : Orderly net' plan' stage') {n : Addr} {loc : Loc} {msg : Msg} {rest : List Msg}
    {ssn : Ssn} {outcome : Outcome} (q6 : (net.node n).pc = .q6)
    (head : net.requests loc = msg :: rest) (key : msg.pdu.requestKey = some ssn)
    (in_range : checkRange (net.node n).selfData ssn = true)
    (dispatched : dispatch net.env (net.node n).selfData msg.pdu = some outcome)
    (requests : net'.requests = Function.update net.requests loc rest)
    (replies : net'.replies = net.replies ++ outcome.effects.filterMap (Effect.reply msg.req))
    (node : net'.node = Function.update net.node n ⟨.q6, outcome.selfData⟩)
    (in_turn : msg.req ≠ none → ∀ site, site ≠ .node n → net.entries ssn site = []) :
    net'.Keeps (dict.log [(n, msg)]) := by
  have mem : msg ∈ net.requests loc := by
    rw [head]
    exact List.mem_cons_self
  obtain ⟨call, asks⟩ := Pdu.call_isSome key
  obtain ⟨here, there, effects⟩ := orderly.served_stored orderly' q6 key in_range
    (keeps.ledger.keyed loc msg mem ssn key) dispatched node asks
  have ledger := keeps.ledger.serve ⟨head, requests, there⟩ key asks here
    fun client _ => in_turn client
  cases client : msg.req with
  | none =>
      obtain ⟨entry, rfl⟩ := keeps.ledger.transfers loc msg mem client
      cases asks
      refine ⟨ledger, ?_⟩
      rw [replies, effects]
      exact (congrArg _ (List.append_nil _)).trans keeps.answered
  | some k =>
      obtain ⟨pdu, req⟩ := msg
      cases client
      have is_request : pdu.requestKey.isSome := by
        rw [show pdu.requestKey = some ssn from key]
        rfl
      obtain ⟨entries, answers⟩ := dict.apply_request n is_request k
      have after : dict.log [(n, ⟨pdu, some k⟩)] = dict.apply (.request n pdu) := rfl
      rw [after]
      refine ⟨?_, ?_⟩
      · rw [entries]
        exact ledger
      · have same := answer_congr asks key (keeps.ledger.stored_eq (in_turn (by simp)))
        rw [replies, effects, List.map_append, keeps.answered, answers, same, Msg.answer]
        simp only [asks]

/-- Whatever a step does, the ring does to clients what a dictionary does, as long as
their requests are applied in their turn. -/
theorem Net.Keeps.flow (keeps : net.Keeps dict) (orderly : Orderly net plan stage)
    (orderly' : Orderly net' plan' stage') (flow : net.Flow net')
    (in_turn : ∀ n msg ssn, net'.applied = net.applied ++ [(n, msg)] → msg.req ≠ none →
      msg.pdu.requestKey = some ssn → ∀ site, site ≠ .node n → net.entries ssn site = []) :
    ∃ later, net'.applied = net.applied ++ later ∧ net'.Keeps (dict.log later) := by
  cases flow with
  | still requests applied replies stored =>
      refine ⟨[], by rw [applied, List.append_nil], keeps.ledger.still requests stored, ?_⟩
      rw [replies]
      exact keeps.answered
  | serve n loc msg rest ssn outcome q6 head reader key in_range dispatched requests applied replies
      node =>
      exact ⟨[(n, msg)], applied, keeps.serve orderly orderly' q6 head key in_range dispatched requests
        replies node fun client => in_turn n msg ssn applied client key⟩
  | pass n loc msg rest c head reader fds apart requests applied replies stored =>
      refine ⟨[], by rw [applied, List.append_nil], keeps.ledger.pass head apart requests stored, ?_⟩
      rw [replies]
      exact keeps.answered
  | spread n fd entries requests applied replies nodup stored left there =>
      refine ⟨[], by rw [applied, List.append_nil],
        keeps.ledger.spread requests nodup stored left there, ?_⟩
      rw [replies]
      exact keeps.answered

end

/-! ## What is applied -/

def Net.Serves (net : Net) (n : Addr) (i : FdsIndex) (msg : Msg) (ssn : Ssn) : Prop :=
  (∃ loc rest, (net.node n).reads n i = some loc ∧ net.queue loc = msg :: rest) ∧
    msg.pdu.requestKey = some ssn ∧ checkRange (net.node n).selfData ssn = true

theorem step_applied {act : Act} (stepped : net.step act = some net') :
    net'.applied = net.applied ∨ ∃ n i msg ssn, act = .deliver n i ∧
      ((net.node n).pc.polls i).isSome ∧ net.Serves n i msg ssn ∧
      net'.applied = net.applied ++ [(n, msg)] := by
  cases act with
  | client m pdu =>
      obtain ⟨-, -, rfl⟩ := client_eq_some stepped
      exact Or.inl rfl
  | join j e =>
      obtain ⟨-, -, -, rfl⟩ := join_eq_some stepped
      exact Or.inl rfl
  | leave m =>
      obtain ⟨-, ⟨-, -, rfl⟩ | ⟨-, rfl⟩⟩ := leave_eq_some stepped
      · exact Or.inl rfl
      · exact Or.inl (by rw [setNode_applied, performAll_applied])
  | timeout m =>
      obtain ⟨-, rfl⟩ := timeout_eq_some stepped
      exact Or.inl rfl
  | deliver n i =>
      obtain ⟨back, loc, msg, rest, outcome, polls, reads, queue, -, rfl⟩ := deliver_eq_some stepped
      rw [Net.commit, setNode_applied, performAll_applied, setQueue_applied, Net.note]
      split
      · rename_i ssn key
        split
        · rename_i in_range
          exact Or.inr ⟨n, i, msg, ssn, rfl, by rw [polls]; rfl, ⟨⟨loc, rest, reads, queue⟩, key,
            in_range⟩, rfl⟩
        · exact Or.inl rfl
      · exact Or.inl rfl
  | discard m i k =>
      obtain ⟨back, loc, msg, rest, -, -, -, -, rfl⟩ := discard_eq_some stepped
      exact Or.inl rfl
  | eof m i =>
      obtain ⟨back, conn, loc, fd, data, -, -, -, -, -, rfl⟩ := eof_eq_some stepped
      exact Or.inl rfl
  | accept m =>
      obtain ⟨back, conn, rest, -, -, rfl⟩ := accept_eq_some stepped
      exact Or.inl rfl
  | response m =>
      obtain ⟨-, loc, -, ⟨next, rangeStart, rangeEnd, req, rest, -, rfl⟩ | ⟨-, rfl⟩⟩ :=
        response_eq_some stepped
      · exact Or.inl (by rw [Net.commit, setNode_applied, performAll_applied, setQueue_applied])
      · exact Or.inl (by rw [setNode_applied, setQueue_applied])
  | reply m =>
      obtain ⟨-, loc, granted, -, -, rfl⟩ := reply_eq_some stepped
      exact Or.inl (by rw [Net.commit, setNode_applied, performAll_applied, setQueue_applied])
  | finish m =>
      obtain ⟨i, new, -, rfl⟩ := finish_eq_some stepped
      exact Or.inl (by rw [setNode_applied, performAll_applied])

theorem step_applied_grown {act : Act} (stepped : net.step act = some net') {n : Addr} {msg : Msg}
    (grown : net'.applied = net.applied ++ [(n, msg)]) {ssn : Ssn}
    (key : msg.pdu.requestKey = some ssn) :
    ∃ i, act = .deliver n i ∧ ((net.node n).pc.polls i).isSome ∧ net.Serves n i msg ssn := by
  rcases step_applied stepped with same | ⟨m, i, found, ssn', eq, polls, serves, applied⟩
  · rw [same, List.self_eq_append_right] at grown
    cases grown
  · rw [applied, List.append_cancel_left_eq, List.singleton_inj, Prod.mk.injEq] at grown
    obtain ⟨rfl, rfl⟩ := grown
    cases key.symm.trans serves.2.1
    exact ⟨i, eq, polls, serves⟩

theorem Net.Pair.bustling {test : Net → Act → Bool} (pair : net.Pair) {acts : List Act}
    (executed : execChecked Net.step
      (fun net act => (decide act.traffic && test net act) && pairStep net act) net acts =
        some net') :
    Run Net.step (fun net act => Bustling net act ∧ test net act = true) net acts net' ∧
      net'.Pair := by
  obtain ⟨run, pair'⟩ := pair.run executed
  refine ⟨run.mono fun net act allowed => ?_, pair'⟩
  obtain ⟨passed, within⟩ := allowed
  rw [Bool.and_eq_true, decide_eq_true_eq] at passed
  exact ⟨⟨passed.1, within⟩, passed.2⟩

def pairAct (act : Act) (net : Net) : Option Net := if pairStep net act then net.step act else none

theorem pairAct_spec {act : Act} (pair : net.Pair) (acted : pairAct act net = some net') :
    net.step act = some net' ∧ net'.Pair := by
  rw [pairAct] at acted
  split at acted
  · rename_i checked
    exact ⟨acted, pair.step checked acted⟩
  · cases acted

end DhtRing

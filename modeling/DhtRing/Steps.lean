import DhtRing.Net
import DhtRing.Wiring

/-!
# What a step does

The updates of a network field by field, each step's effect stated once, and the
parts of a node and of the network that its steps leave alone.
-/

set_option autoImplicit false

namespace DhtRing

/-! ## Updates -/

section

variable (net : Net) (n : Addr) (proc : Proc) (loc : Loc) (msgs : List Msg)

@[simp] theorem setNode_node : (net.setNode n proc).node = Function.update net.node n proc := rfl
@[simp] theorem setNode_queue : (net.setNode n proc).queue = net.queue := rfl
@[simp] theorem setNode_shut : (net.setNode n proc).shut = net.shut := rfl
@[simp] theorem setNode_backlog : (net.setNode n proc).backlog = net.backlog := rfl
@[simp] theorem setNode_serial : (net.setNode n proc).serial = net.serial := rfl
@[simp] theorem setNode_issued : (net.setNode n proc).issued = net.issued := rfl
@[simp] theorem setNode_applied : (net.setNode n proc).applied = net.applied := rfl
@[simp] theorem setNode_replies : (net.setNode n proc).replies = net.replies := rfl

@[simp] theorem setQueue_node : (net.setQueue loc msgs).node = net.node := rfl
@[simp] theorem setQueue_queue :
    (net.setQueue loc msgs).queue = Function.update net.queue loc msgs := rfl
@[simp] theorem setQueue_shut : (net.setQueue loc msgs).shut = net.shut := rfl
@[simp] theorem setQueue_backlog : (net.setQueue loc msgs).backlog = net.backlog := rfl
@[simp] theorem setQueue_serial : (net.setQueue loc msgs).serial = net.serial := rfl
@[simp] theorem setQueue_issued : (net.setQueue loc msgs).issued = net.issued := rfl
@[simp] theorem setQueue_applied : (net.setQueue loc msgs).applied = net.applied := rfl
@[simp] theorem setQueue_replies : (net.setQueue loc msgs).replies = net.replies := rfl

variable {net n proc} in
theorem setNode_same (same : net.node n = proc) : net.setNode n proc = net := by
  rw [← same, Net.setNode, Function.update_eq_self]

variable {net loc msgs} in
theorem setQueue_same (same : net.queue loc = msgs) : net.setQueue loc msgs = net := by
  rw [← same, Net.setQueue, Function.update_eq_self]

end

section

variable {net : Net} {req : Option Nat}

@[simp] theorem performAll_nil : net.performAll req [] = net := rfl

theorem performAll_cons (effect : Effect) (effects : List Effect) :
    net.performAll req (effect :: effects) =
      (Net.perform req net effect).performAll req effects := rfl

theorem performAll_append (first second : List Effect) :
    net.performAll req (first ++ second) =
      (net.performAll req first).performAll req second := List.foldl_append ..

theorem perform_node (effect : Effect) : (Net.perform req net effect).node = net.node := by
  cases effect with
  | tcp fd pdu =>
      simp only [Net.perform]
      split <;> rfl
  | _ => rfl

/-- A field that no single call changes. -/
theorem performAll_induct {P : Net → Prop} (start : P net) (effects : List Effect)
    (preserve : ∀ net, ∀ effect ∈ effects, P net → P (Net.perform req net effect)) :
    P (net.performAll req effects) := by
  induction effects generalizing net with
  | nil => exact start
  | cons effect effects ih =>
      rw [performAll_cons]
      exact ih (preserve net effect (by simp) start)
        fun net other mem => preserve net other (by simp [mem])

@[simp] theorem performAll_node (effects : List Effect) :
    (net.performAll req effects).node = net.node :=
  performAll_induct (P := fun other => other.node = net.node) rfl effects
    fun _ effect _ same => (perform_node effect).trans same

@[simp] theorem performAll_issued (effects : List Effect) :
    (net.performAll req effects).issued = net.issued := by
  refine performAll_induct (P := fun other => other.issued = net.issued) rfl effects ?_
  intro other effect _ same
  cases effect with
  | tcp fd pdu =>
      simp only [Net.perform]
      split <;> exact same
  | _ => exact same

@[simp] theorem performAll_applied (effects : List Effect) :
    (net.performAll req effects).applied = net.applied := by
  refine performAll_induct (P := fun other => other.applied = net.applied) rfl effects ?_
  intro other effect _ same
  cases effect with
  | tcp fd pdu =>
      simp only [Net.perform]
      split <;> exact same
  | _ => exact same

theorem mem_performAll_queue {effects : List Effect} {loc : Loc} {msg : Msg}
    (mem : msg ∈ (net.performAll req effects).queue loc) :
    msg ∈ net.queue loc ∨ ∃ pdu, .tcp loc pdu ∈ effects ∧ msg = ⟨pdu, req⟩ := by
  revert mem
  refine performAll_induct (P := fun other => msg ∈ other.queue loc →
    msg ∈ net.queue loc ∨ ∃ pdu, .tcp loc pdu ∈ effects ∧ msg = ⟨pdu, req⟩) Or.inl effects ?_
  intro other effect mem_effect ih mem
  cases effect with
  | tcp fd pdu =>
      simp only [Net.perform] at mem
      split at mem
      · exact ih mem
      · simp only [Net.push, setQueue_queue] at mem
        by_cases here : loc = fd
        · subst here
          rw [Function.update_self, List.mem_append, List.mem_singleton] at mem
          rcases mem with old | new
          · exact ih old
          · exact Or.inr ⟨pdu, mem_effect, new⟩
        · rw [Function.update_of_ne here] at mem
          exact ih mem
  | _ => exact ih mem

def Effect.sentTo (loc : Loc) : Effect → Option Pdu
  | .tcp fd pdu => if fd = loc then some pdu else none
  | _ => none

theorem Effect.sentTo_self (loc : Loc) (pdu : Pdu) :
    Effect.sentTo loc (.tcp loc pdu) = some pdu := if_pos rfl

theorem Effect.sentTo_of_ne {fd loc : Loc} (other : fd ≠ loc) (pdu : Pdu) :
    Effect.sentTo loc (.tcp fd pdu) = none := if_neg other

theorem performAll_queue {loc : Loc} (is_open : net.shut loc = false) (effects : List Effect)
    (kept : .close loc ∉ effects) :
    (net.performAll req effects).queue loc =
      net.queue loc ++ (effects.filterMap (Effect.sentTo loc)).map fun pdu => ⟨pdu, req⟩ := by
  induction effects generalizing net with
  | nil => simp
  | cons effect effects ih =>
      rw [List.mem_cons, not_or] at kept
      have still_open : (Net.perform req net effect).shut loc = false := by
        cases effect with
        | tcp fd pdu =>
            simp only [Net.perform]
            split <;> exact is_open
        | udp dest pdu => exact is_open
        | connect conn => exact is_open
        | close fd =>
            have other : loc ≠ fd := fun eq => kept.1 (by rw [eq])
            simpa [Net.perform, Function.update_of_ne other] using is_open
      rw [performAll_cons, ih still_open kept.2]
      cases effect with
      | tcp fd pdu =>
          by_cases here : fd = loc
          · subst here
            simp [Net.perform, is_open, Net.push, Effect.sentTo]
          · have other : loc ≠ fd := fun eq => here eq.symm
            simp only [Net.perform, Effect.sentTo, if_neg here, List.filterMap_cons_none]
            split
            · rfl
            · rw [Net.push, setQueue_queue, Function.update_of_ne other]
      | _ => rfl

theorem performAll_sends {fd : Loc} (is_open : net.shut fd = false) (pdus : List Pdu) :
    net.performAll req (sends fd pdus) =
      net.setQueue fd (net.queue fd ++ pdus.map fun pdu => ⟨pdu, req⟩) := by
  induction pdus generalizing net with
  | nil => simp [sends, Net.setQueue]
  | cons pdu pdus ih =>
      have sent : Net.perform req net (.tcp fd pdu) = net.push fd ⟨pdu, req⟩ := by
        simp [Net.perform, is_open]
      rw [sends, List.map_cons, performAll_cons, sent]
      have pushed : (net.push fd ⟨pdu, req⟩).shut fd = false := is_open
      refine (ih pushed).trans ?_
      simp [Net.push, Net.setQueue]

end

@[simp] theorem note_node (net : Net) (n : Addr) (msg : Msg) :
    (net.note n msg).node = net.node := by
  unfold Net.note
  split
  · split <;> rfl
  · rfl

@[simp] theorem note_queue (net : Net) (n : Addr) (msg : Msg) :
    (net.note n msg).queue = net.queue := by
  unfold Net.note
  split
  · split <;> rfl
  · rfl

@[simp] theorem note_backlog (net : Net) (n : Addr) (msg : Msg) :
    (net.note n msg).backlog = net.backlog := by
  unfold Net.note
  split
  · split <;> rfl
  · rfl

theorem performAll_setNode_node (net : Net) (req : Option Nat) (effects : List Effect) (n : Addr)
    (proc : Proc) :
    ((net.performAll req effects).setNode n proc).node = Function.update net.node n proc := by
  rw [setNode_node, performAll_node]

@[simp] theorem commit_node (net : Net) (n : Addr) (back : Pc) (req : Option Nat)
    (outcome : Outcome) :
    (net.commit n back req outcome).node =
      Function.update net.node n ⟨back.after outcome.ctl, outcome.selfData⟩ :=
  performAll_setNode_node ..

/-! ## The steps -/

section

variable {net net' : Net} {n : Addr} {i : FdsIndex}

theorem polls_cases {pc back : Pc} (polls : pc.polls i = some back) :
    (pc = .q6 ∧ back = .q6) ∨ ∃ j new, pc = .lastPoll j new ∧ back = .lastPoll i new := by
  cases pc with
  | q6 =>
      cases polls
      exact Or.inl ⟨rfl, rfl⟩
  | lastPoll j new =>
      simp only [Pc.polls] at polls
      split at polls
      · cases polls
        exact Or.inr ⟨j, new, rfl, rfl⟩
      · cases polls
  | _ => cases polls

theorem deliver_eq_some (stepped : net.deliver n i = some net') :
    ∃ back loc msg rest outcome, (net.node n).pc.polls i = some back ∧
      (net.node n).reads n i = some loc ∧ net.queue loc = msg :: rest ∧
      dispatch net.env (net.node n).selfData msg.pdu = some outcome ∧
      net' = ((net.note n msg).setQueue loc rest).commit n back msg.tag outcome := by
  unfold Net.deliver at stepped
  cases polls : (net.node n).pc.polls i with
  | none => simp [polls] at stepped
  | some back =>
      cases reads : (net.node n).reads n i with
      | none => simp [polls, reads] at stepped
      | some loc =>
          cases queue : net.queue loc with
          | nil => simp [polls, reads, queue] at stepped
          | cons msg rest =>
              simp only [polls, reads, queue, Option.map_eq_some_iff] at stepped
              obtain ⟨outcome, dispatched, rfl⟩ := stepped
              exact ⟨back, loc, msg, rest, outcome, rfl, rfl, queue, dispatched, rfl⟩

theorem discard_eq_some {k : Nat} (stepped : net.discard n i k = some net') :
    ∃ back loc msg rest, (net.node n).pc.polls i = some back ∧
      (net.node n).reads n i = some loc ∧ net.queue loc = msg :: rest ∧
      dispatch net.env (net.node n).selfData msg.pdu = none ∧
      net' = (net.setQueue loc (rest.drop k)).setNode n ⟨back, (net.node n).selfData⟩ := by
  unfold Net.discard at stepped
  cases polls : (net.node n).pc.polls i with
  | none => simp [polls] at stepped
  | some back =>
      cases reads : (net.node n).reads n i with
      | none => simp [polls, reads] at stepped
      | some loc =>
          cases queue : net.queue loc with
          | nil => simp [polls, reads, queue] at stepped
          | cons msg rest =>
              simp only [polls, reads, queue] at stepped
              split at stepped
              · cases stepped
              · split at stepped
                · cases stepped
                · rename_i unknown _
                  cases stepped
                  exact ⟨back, loc, msg, rest, rfl, rfl, queue, by simpa using unknown, rfl⟩

theorem eof_eq_some (stepped : net.eof n i = some net') :
    ∃ back conn loc own data, (net.node n).pc.polls i = some back ∧
      (net.node n).reads n i = some loc ∧ net.queue loc = [] ∧ net.closed loc = true ∧
      ((i = .successor ∧ (net.node n).selfData.fdsSuccessor = some conn ∧ own = .up conn ∧
          data = { (net.node n).selfData with fdsSuccessor := none }) ∨
        (i = .predecessor ∧ (net.node n).selfData.fdsPredecessor = some conn ∧
          own = .down conn ∧ data = { (net.node n).selfData with fdsPredecessor := none })) ∧
      net' = ({ net with shut := Function.update net.shut own true }).setNode n ⟨back, data⟩ := by
  unfold Net.eof at stepped
  cases polls : (net.node n).pc.polls i with
  | none => simp [polls] at stepped
  | some back =>
      cases i with
      | udp => simp [polls] at stepped
      | successor =>
          cases held : (net.node n).selfData.fdsSuccessor with
          | none => simp [polls, held] at stepped
          | some conn =>
              simp only [polls, held] at stepped
              split at stepped
              · rename_i ended
                cases stepped
                exact ⟨back, conn, .down conn, _, _, rfl, by simp [Proc.reads, held], ended.1,
                  ended.2, Or.inl ⟨rfl, rfl, rfl, rfl⟩, rfl⟩
              · cases stepped
      | predecessor =>
          cases held : (net.node n).selfData.fdsPredecessor with
          | none => simp [polls, held] at stepped
          | some conn =>
              simp only [polls, held] at stepped
              split at stepped
              · rename_i ended
                cases stepped
                exact ⟨back, conn, .up conn, _, _, rfl, by simp [Proc.reads, held], ended.1,
                  ended.2, Or.inr ⟨rfl, rfl, rfl, rfl⟩, rfl⟩
              · cases stepped

theorem accept_eq_some (stepped : net.accept n = some net') :
    ∃ back conn rest, (net.node n).pc.accepted = some back ∧ net.backlog n = conn :: rest ∧
      net' = ({ net with backlog := Function.update net.backlog n rest }).setNode n
        ⟨back, (net.node n).selfData.acceptPredecessor conn⟩ := by
  unfold Net.accept at stepped
  cases accepted : (net.node n).pc.accepted with
  | none => simp [accepted] at stepped
  | some back =>
      cases waits : net.backlog n with
      | nil => simp [accepted, waits] at stepped
      | cons conn rest =>
          simp only [accepted, waits, Option.some.injEq] at stepped
          exact ⟨back, conn, rest, rfl, rfl, stepped.symm⟩

theorem response_eq_some (stepped : net.response n = some net') :
    (net.node n).pc = .q7Receive ∧ ∃ loc, (net.node n).receives = some loc ∧
      ((∃ next rangeStart rangeEnd req rest,
          net.queue loc = ⟨.netJoinResponse next rangeStart rangeEnd, req⟩ :: rest ∧
          net' = (net.setQueue loc rest).commit n .q6 none
            (q8 net.env (net.node n).selfData next rangeStart rangeEnd)) ∨
        ((∀ next rangeStart rangeEnd req rest,
            net.queue loc ≠ ⟨.netJoinResponse next rangeStart rangeEnd, req⟩ :: rest) ∧
          net' = (net.setQueue loc (net.queue loc).tail).setNode n
            ⟨.exited false, (net.node n).selfData⟩)) := by
  unfold Net.response at stepped
  dsimp only at stepped
  split at stepped
  · rename_i waits
    refine ⟨waits, ?_⟩
    cases receives : (net.node n).receives with
    | none => simp [receives] at stepped
    | some loc =>
        refine ⟨loc, rfl, ?_⟩
        simp only [receives] at stepped
        split at stepped
        · rename_i next rangeStart rangeEnd req rest queue
          cases stepped
          exact Or.inl ⟨next, rangeStart, rangeEnd, req, rest, queue, rfl⟩
        · rename_i msg rest other queue
          cases stepped
          refine Or.inr ⟨?_, by rw [queue]; rfl⟩
          intro next rangeStart rangeEnd req rest' eq
          rw [queue, List.cons.injEq] at eq
          exact other next rangeStart rangeEnd req eq.1
        · rename_i queue
          split at stepped
          · cases stepped
            refine Or.inr ⟨by simp [queue], ?_⟩
            rw [queue, List.tail_nil, setQueue_same queue]
            rfl
          · cases stepped
  · cases stepped

theorem leave_eq_some (stepped : net.leave n = some net') :
    (net.node n).pc = .q6 ∧
      (((net.node n).selfData.predecessor = none ∧
          (net.node n).selfData.successor.socket = none ∧
          net' = net.setNode n ⟨.exited true, (net.node n).selfData⟩) ∨
        (((net.node n).selfData.predecessor ≠ none ∨
            (net.node n).selfData.successor.socket ≠ none) ∧
          net' = (net.performAll none (offerRange (net.node n).selfData)).setNode n
            ⟨.awaitResponse, (net.node n).selfData⟩)) := by
  unfold Net.leave at stepped
  dsimp only at stepped
  split at stepped
  · rename_i idle
    refine ⟨idle, ?_⟩
    split at stepped
    · rename_i alone
      cases stepped
      exact Or.inl ⟨alone.1, alone.2, rfl⟩
    · rename_i linked
      cases stepped
      exact Or.inr ⟨by tauto, rfl⟩
  · cases stepped

theorem reply_eq_some (stepped : net.reply n = some net') :
    (net.node n).pc = .awaitResponse ∧ ∃ loc granted, (net.node n).receives = some loc ∧
      ((∃ msg rest, net.queue loc = msg :: rest ∧
          granted = (msg.pdu.type == Pdu.netNewRangeResponse.type)) ∨
        (net.queue loc = [] ∧ net.closed loc = true ∧ granted = true)) ∧
      net' = (net.setQueue loc (net.queue loc).tail).commit n
        (.lastPoll .udp (net.node n).selfData.successor.destAddr) none
        (handOver (net.node n).selfData granted) := by
  unfold Net.reply at stepped
  dsimp only at stepped
  split at stepped
  · rename_i waits
    refine ⟨waits, ?_⟩
    cases receives : (net.node n).receives with
    | none => simp [receives] at stepped
    | some loc =>
        simp only [receives] at stepped
        cases queue : net.queue loc with
        | nil =>
            simp only [queue] at stepped
            split at stepped
            · rename_i ended
              cases stepped
              refine ⟨loc, true, rfl, Or.inr ⟨queue, ended, rfl⟩, ?_⟩
              rw [queue, List.tail_nil, setQueue_same queue]
            · cases stepped
        | cons msg rest =>
            simp only [queue] at stepped
            cases stepped
            exact ⟨loc, _, rfl, Or.inl ⟨msg, rest, queue, rfl⟩, by rw [queue]; rfl⟩
  · cases stepped

theorem timeout_eq_some (stepped : net.timeout n = some net') :
    ((net.node n).pc = .q7Receive ∨ (net.node n).pc = .awaitResponse) ∧
      net' = net.setNode n ⟨.exited false, (net.node n).selfData⟩ := by
  unfold Net.timeout at stepped
  dsimp only at stepped
  split at stepped
  · rename_i waits
    refine ⟨waits, ?_⟩
    split at stepped
    · split at stepped
      · cases stepped
        rfl
      · cases stepped
    · cases stepped
      rfl
  · cases stepped

theorem finish_eq_some (stepped : net.finish n = some net') :
    ∃ i new, (net.node n).pc = .lastPoll i new ∧
      net' = (net.performAll none (sayGoodbye (net.node n).selfData new)).setNode n
        ⟨.exited true, (net.node n).selfData⟩ := by
  unfold Net.finish at stepped
  dsimp only at stepped
  split at stepped
  · rename_i i new polls
    cases stepped
    exact ⟨i, new, polls, rfl⟩
  · cases stepped

theorem join_eq_some {j entry : Addr} (stepped : net.join j entry = some net') :
    (net.node j).pc = .absent ∧ j.port ≠ 0 ∧ (net.node entry).pc.serving = true ∧
      net' = (net.push (.udp entry) ⟨joinPdu j, none⟩).setNode j
        ⟨.q7Accept, SelfData.setup j⟩ := by
  unfold Net.join at stepped
  split at stepped
  · rename_i ready
    cases stepped
    exact ⟨ready.1, ready.2.1, ready.2.2, rfl⟩
  · cases stepped

theorem client_eq_some {pdu : Pdu} (stepped : net.client n pdu = some net') :
    (net.node n).pc.serving = true ∧ pdu.requestKey.isSome ∧
      net' = { net.push (.udp n) ⟨pdu, some net.issued⟩ with issued := net.issued + 1 } := by
  unfold Net.client at stepped
  split at stepped
  · rename_i ready
    cases stepped
    exact ⟨ready.1, ready.2, rfl⟩
  · cases stepped

end

/-! ## Addresses -/

def Net.Addressed (net : Net) : Prop := ∀ n, (net.node n).selfData.listening = n

theorem addressed_founded (n : Addr) : (Net.founded n).Addressed := by
  intro m
  simp only [Net.founded]
  split
  · rename_i same
    rw [same]
    rfl
  · rfl

theorem Net.Addressed.update {net net' : Net} (own : net.Addressed) {n : Addr} {proc : Proc}
    (node : net'.node = Function.update net.node n proc) (same : proc.selfData.listening = n) :
    net'.Addressed := by
  intro m
  by_cases here : m = n
  · rw [node, here, Function.update_self, same]
  · rw [node, Function.update_of_ne here, own]

theorem Net.Addressed.step {net net' : Net} (own : net.Addressed) {act : Act}
    (stepped : net.step act = some net') : net'.Addressed := by
  cases act with
  | client n pdu =>
      obtain ⟨-, -, rfl⟩ := client_eq_some stepped
      exact own
  | join j entry =>
      obtain ⟨-, -, -, rfl⟩ := join_eq_some stepped
      exact own.update (n := j) rfl rfl
  | leave n =>
      obtain ⟨-, ⟨-, -, rfl⟩ | ⟨-, rfl⟩⟩ := leave_eq_some stepped
      · exact own.update (n := n) rfl (own n)
      · exact own.update (performAll_setNode_node ..) (own n)
  | timeout n =>
      obtain ⟨-, rfl⟩ := timeout_eq_some stepped
      exact own.update (n := n) rfl (own n)
  | deliver n i =>
      obtain ⟨back, loc, msg, rest, outcome, -, -, -, dispatched, rfl⟩ := deliver_eq_some stepped
      have popped : ((net.note n msg).setQueue loc rest).Addressed := by
        intro m
        rw [setQueue_node, note_node, own]
      exact popped.update (commit_node ..) ((dispatch_listening dispatched).trans (own n))
  | discard n i k =>
      obtain ⟨back, loc, msg, rest, -, -, -, -, rfl⟩ := discard_eq_some stepped
      exact own.update (n := n) rfl (own n)
  | eof n i =>
      obtain ⟨back, conn, loc, fd, data, -, -, -, -, held, rfl⟩ := eof_eq_some stepped
      refine own.update (n := n) rfl ?_
      rcases held with ⟨-, -, -, rfl⟩ | ⟨-, -, -, rfl⟩ <;> exact own n
  | accept n =>
      obtain ⟨back, conn, rest, -, -, rfl⟩ := accept_eq_some stepped
      exact own.update (n := n) rfl (own n)
  | response n =>
      obtain ⟨-, loc, -, ⟨next, rangeStart, rangeEnd, req, rest, -, rfl⟩ | ⟨-, rfl⟩⟩ :=
        response_eq_some stepped
      · have popped : (net.setQueue loc rest).Addressed := own
        refine popped.update (commit_node ..) ?_
        refine andThen_listening ?_ ?_ <;> exact connectToTcp_listening.trans (own n)
      · exact own.update (n := n) rfl (own n)
  | reply n =>
      obtain ⟨-, loc, granted, -, -, rfl⟩ := reply_eq_some stepped
      have popped : (net.setQueue loc (net.queue loc).tail).Addressed := own
      have wiring := (sendAllEntries_wiring (net.node n).selfData (net.node n).selfData.heir).1
      have kept := (congrArg Wiring.listening wiring).trans (own n)
      refine popped.update (commit_node ..) (andThen_listening kept ?_)
      split <;> exact kept
  | finish n =>
      obtain ⟨i, new, -, rfl⟩ := finish_eq_some stepped
      exact own.update (performAll_setNode_node ..) (own n)

end DhtRing

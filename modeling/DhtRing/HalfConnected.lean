import DhtRing.Naming
import DhtRing.Rewiring

/-!
# Nodes with one neighbour

`handle_net_join` ends a node that has a predecessor or a successor but not both.  The
two sockets are cleared by two PDUs of a leaving node, on two connections, and a
`NET_JOIN` can arrive between them.
-/

set_option autoImplicit false

namespace DhtRing

open Transition

def Net.joining (net : Net) : Prop := ∃ src maxSpan max, net.flying (.netJoin src maxSpan max)

/-- The node waits in `accept_predecessor_connection`, called from a handler. -/
def Pc.waits : Pc → Bool
  | .q6Accept | .lastPollAccept _ _ => true
  | _ => false

/-- A running node has both neighbours or none; a predecessor that it waits for
counts. -/
def Proc.Even (proc : Proc) : Prop :=
  proc.pc.serving = true →
    ((proc.selfData.predecessor = none ∧ proc.pc.waits = false) ↔
      proc.selfData.successor.socket = none)

/-- Whenever `handle_net_join` can run it finds both sockets zero or both nonzero. -/
def JoinsFindBothOrNone (net : Net) : Prop :=
  ∀ n i loc msg rest src maxSpan max, ((net.node n).pc.polls i).isSome →
    (net.node n).reads n i = some loc → net.queue loc = msg :: rest →
    msg.pdu = .netJoin src maxSpan max →
      ((net.node n).selfData.predecessor = none ↔
        (net.node n).selfData.successor.socket = none)

/-- The successor of `n` has said goodbye and named `n` itself; `n` has not read it. -/
def Net.leavingDue (net : Net) (n : Addr) : Prop :=
  ∃ conn, (net.node n).selfData.successor.socket = some conn ∧
    ∃ msg ∈ net.queue (.down conn), msg.pdu = .netLeaving (net.node n).selfData.listening

/-- The predecessor of `n` has closed its connection; `n` has not read it. -/
def Net.closeDue (net : Net) (n : Addr) : Prop :=
  ∃ conn, (net.node n).selfData.predecessor = some conn ∧
    ∃ msg ∈ net.queue (.up conn), msg.pdu = .netCloseConnection

/-- The last farewell takes a node's only neighbour away by two PDUs.  The node reads
the first of them while the second waits and no `NET_JOIN` is on its way, and no process
asks to join before it has read the second.  No other farewell takes one neighbour
away for good, and none is dropped with the rest of a chunk. -/
def KeepsBothOrNone (net : Net) : Act → Prop
  | .join _ _ => ∀ n, ¬ net.leavingDue n ∧ ¬ net.closeDue n
  | .deliver n i =>
      ∀ loc msg rest, (net.node n).reads n i = some loc → net.queue loc = msg :: rest →
        (msg.pdu = .netCloseConnection →
          if (net.node n).selfData.rangeStart = 0 ∧ (net.node n).selfData.rangeEnd = 255 then
            (net.node n).selfData.successor.socket = none ∨ (¬ net.joining ∧ net.leavingDue n)
          else (net.node n).selfData.successor.socket ≠ none) ∧
        ∀ new, msg.pdu = .netLeaving new →
          if new = (net.node n).selfData.listening then
            (net.node n).selfData.predecessor = none ∨ (¬ net.joining ∧ net.closeDue n)
          else (net.node n).selfData.predecessor ≠ none
  | .discard n i k =>
      ∀ loc msg rest, (net.node n).reads n i = some loc → net.queue loc = msg :: rest →
        ∀ other ∈ rest.take k,
          other.pdu ≠ .netCloseConnection ∧ ∀ new, other.pdu ≠ .netLeaving new
  | _ => True

/-! ## The invariant -/

def StillWaits (pdu : Pdu) (n : Addr) (net net' : Net) : Prop :=
  ∀ loc, loc.reader = n → ∀ msg ∈ net.queue loc, msg.pdu = pdu → msg ∈ net'.queue loc

structure Steady (net : Net) : Prop where
  even : ∀ n, (net.node n).Even ∨ ¬ net.joining ∧ (net.leavingDue n ∨ net.closeDue n)
  linked : ∀ n, (net.node n).pc.waits = true → (net.node n).selfData.successor.socket ≠ none
  accepted : ∀ n, (net.node n).pc = .q7Receive → (net.node n).selfData.predecessor ≠ none

section

variable {net net' : Net} {n m : Addr} {pdu : Pdu}

theorem joining_step {act : Act} (stepped : net.step act = some net') (joining : net'.joining) :
    net.joining ∨ ∃ j entry, act = .join j entry := by
  obtain ⟨src, maxSpan, max, flying⟩ := joining
  rcases step_join_origin stepped flying with old | ⟨⟨entry, eq⟩, -⟩ | entered
  · exact Or.inl ⟨src, maxSpan, max, old⟩
  · exact Or.inr ⟨src, entry, eq⟩
  · obtain ⟨n, i, loc, msg, rest, maxSpan', -, -, queue, ⟨max', pdu⟩, -⟩ := entered
    exact Or.inl ⟨src, maxSpan', max', loc, msg, by rw [queue]; exact List.mem_cons_self, pdu⟩

theorem StillWaits.leavingDue (stay : StillWaits (.netLeaving n) n net net') (own : net.Owned)
    (addressed : net'.Addressed)
    (same : (net'.node n).selfData.successor.socket = (net.node n).selfData.successor.socket)
    (due : net.leavingDue n) : net'.leavingDue n := by
  obtain ⟨conn, held, msg, mem, told⟩ := due
  have reader : (Loc.down conn).reader = n := (own.ends n).successor conn held
  rw [own.addressed n] at told
  exact ⟨conn, same.trans held, msg, stay _ reader msg mem told, by rw [told, addressed n]⟩

theorem StillWaits.closeDue (stay : StillWaits .netCloseConnection n net net') (own : net.Owned)
    (same : (net'.node n).selfData.predecessor = (net.node n).selfData.predecessor)
    (due : net.closeDue n) : net'.closeDue n := by
  obtain ⟨conn, held, msg, mem, told⟩ := due
  have reader : (Loc.up conn).reader = n := (own.ends n).predecessor conn held
  exact ⟨conn, same.trans held, msg, stay _ reader msg mem told, told⟩

theorem stillWaits_of_reader {loc : Loc} {msgs : List Msg} (reader : loc.reader = m)
    (other : n ≠ m)
    (grows : ∀ place, ∀ msg ∈ Function.update net.queue loc msgs place, msg ∈ net'.queue place) :
    StillWaits pdu n net net' := by
  intro place reader' msg mem _
  have elsewhere : place ≠ loc := fun eq => other (by rw [← reader', eq, reader])
  exact grows place msg (by rwa [Function.update_of_ne elsewhere])

theorem stillWaits_of_pop {loc : Loc} {msg : Msg} {rest : List Msg}
    (queue : net.queue loc = msg :: rest) (another : msg.pdu ≠ pdu)
    (grows : ∀ place, ∀ msg ∈ Function.update net.queue loc rest place, msg ∈ net'.queue place) :
    StillWaits pdu n net net' := by
  intro place _ other mem eq
  refine grows place other ?_
  by_cases here : place = loc
  · rw [here, queue, List.mem_cons] at mem
    rcases mem with rfl | later
    · exact absurd eq another
    · rwa [here, Function.update_self]
  · rwa [Function.update_of_ne here]

theorem stillWaits_of_grows (grows : ∀ loc, ∀ msg ∈ net.queue loc, msg ∈ net'.queue loc) :
    StillWaits pdu n net net' :=
  fun loc _ msg mem _ => grows loc msg mem

theorem Steady.update (steady : Steady net) (own : net.Owned) (addressed : net'.Addressed)
    {proc : Proc}
    (node : net'.node = Function.update net.node m proc)
    (stay : ∀ n pdu, n ≠ m → StillWaits pdu n net net')
    (before : ∀ n, (net.node n).Even ∨ ¬ net'.joining ∧ (net.leavingDue n ∨ net.closeDue n))
    (even : (net'.node m).Even ∨ ¬ net'.joining ∧ (net'.leavingDue m ∨ net'.closeDue m))
    (linked : proc.pc.waits = true → proc.selfData.successor.socket ≠ none)
    (accepted : proc.pc = .q7Receive → proc.selfData.predecessor ≠ none) : Steady net' := by
  have others : ∀ n, n ≠ m → net'.node n = net.node n := fun n other => by
    rw [node, Function.update_of_ne other]
  have here : net'.node m = proc := by rw [node, Function.update_self]
  refine ⟨fun n => ?_, fun n => ?_, fun n => ?_⟩
  · by_cases same : n = m
    · rw [same]
      exact even
    · rcases before n with balanced | ⟨quiet, due⟩
      · exact Or.inl (by rwa [others n same])
      · refine Or.inr ⟨quiet, due.imp ?_ ?_⟩
        · exact (stay n _ same).leavingDue own addressed (by rw [others n same])
        · exact (stay n _ same).closeDue own (by rw [others n same])
  · by_cases same : n = m
    · rw [same, here]
      exact linked
    · rw [others n same]
      exact steady.linked n
  · by_cases same : n = m
    · rw [same, here]
      exact accepted
    · rw [others n same]
      exact steady.accepted n

theorem even_of_ended {pc : Pc} {selfData : SelfData} (ended : pc.serving = false) :
    Proc.Even ⟨pc, selfData⟩ := by
  intro serving
  rw [ended] at serving
  cases serving

/-- Between two waits only the sockets count. -/
theorem even_iff {pc : Pc} {selfData : SelfData} (serving : pc.serving = true)
    (goes_on : pc.waits = false) :
    Proc.Even ⟨pc, selfData⟩ ↔
      (selfData.predecessor = none ↔ selfData.successor.socket = none) := by
  simp [Proc.Even, serving, goes_on]

theorem polls_serving {pc back : Pc} {i : FdsIndex} (polls : pc.polls i = some back) :
    (pc.serving = true ∧ pc.waits = false) ∧ back.serving = true ∧ back.waits = false ∧
      back ≠ .q7Receive ∧ back.blocked.waits = true ∧ back.blocked ≠ .q7Receive := by
  rcases polls_cases polls with ⟨rfl, rfl⟩ | ⟨j, new, rfl, rfl⟩ <;> simp [Pc.serving, Pc.waits,
    Pc.blocked]

theorem even_of_kept (own : net.Owned) (addressed : net'.Addressed)
    (joins : net'.joining → net.joining)
    (stay : StillWaits (.netLeaving n) n net net')
    (stay' : StillWaits .netCloseConnection n net net')
    (before : (net.node n).Even ∨ ¬ net.joining ∧ (net.leavingDue n ∨ net.closeDue n))
    (idle : (net.node n).pc.serving = true ∧ (net.node n).pc.waits = false)
    (idle' : (net'.node n).pc.serving = true ∧ (net'.node n).pc.waits = false)
    (predecessor : (net'.node n).selfData.predecessor = (net.node n).selfData.predecessor)
    (successor : (net'.node n).selfData.successor.socket =
      (net.node n).selfData.successor.socket) :
    (net'.node n).Even ∨ ¬ net'.joining ∧ (net'.leavingDue n ∨ net'.closeDue n) := by
  rcases before with balanced | ⟨quiet, due⟩
  · refine Or.inl ((even_iff idle'.1 idle'.2).mpr ?_)
    rw [predecessor, successor]
    exact (even_iff idle.1 idle.2).mp balanced
  · refine Or.inr ⟨fun joining => quiet (joins joining), due.imp ?_ ?_⟩
    · exact stay.leavingDue own addressed successor
    · exact stay'.closeDue own predecessor

theorem Steady.before (steady : Steady net) (joins : net'.joining → net.joining) :
    ∀ n, (net.node n).Even ∨ ¬ net'.joining ∧ (net.leavingDue n ∨ net.closeDue n) :=
  fun n => (steady.even n).imp_right fun ⟨quiet, due⟩ => ⟨fun joining => quiet (joins joining), due⟩

theorem Steady.deliver (steady : Steady net) (own : net.Owned) {i : FdsIndex}
    (keeps : KeepsBothOrNone net (.deliver n i)) (stepped : net.deliver n i = some net') :
    Steady net' := by
  have step : net.step (.deliver n i) = some net' := stepped
  have addressed := (own.step step).addressed
  have joins : net'.joining → net.joining := fun joining =>
    (joining_step step joining).resolve_right (by simp)
  obtain ⟨back, loc, msg, rest, ⟨data, effects, ctl⟩, polls, reads, queue, dispatched, eq⟩ :=
    deliver_eq_some stepped
  obtain ⟨idle, serving', goes_on', other, waits, other'⟩ := polls_serving polls
  obtain ⟨close, leaving⟩ := keeps loc msg rest reads queue
  have node : net'.node = Function.update net.node n ⟨back.after ctl, data⟩ := by
    rw [eq, commit_node, setQueue_node, note_node]
  have grows : ∀ place, ∀ other ∈ Function.update net.queue loc rest place,
      other ∈ net'.queue place := by
    intro place other mem
    rw [eq]
    exact mem_queue_performAll (by rwa [setQueue_queue, note_queue]) msg.tag effects
  have here : net'.node n = ⟨back.after ctl, data⟩ := by rw [node, Function.update_self]
  have predecessor : data.predecessor = data.ends.predecessor := rfl
  have successor : data.successor.socket = data.ends.successor := rfl
  have rewires : Rewires net.env (net.node n).selfData msg.pdu data.ends ctl :=
    dispatch_rewires dispatched
  generalize data.ends = ends at rewires predecessor successor
  have linked : ctl = .accept → data.successor.socket ≠ none := by
    rintro rfl
    rw [successor]
    cases rewires with
    | keeps _ returns => exact absurd rfl returns
    | first => simp [Ends.connect]
    | named _ _ returns => exact absurd rfl returns
    | part told part =>
        have linked := close told
        rwa [if_neg part] at linked
  have not_run : ctl ≠ .run → (net'.node n).Even := by
    intro ends
    rw [here]
    cases ctl with
    | run => exact absurd rfl ends
    | accept =>
        intro _
        exact iff_of_false (fun idle => by rw [Pc.after, waits] at idle; cases idle.2) (linked rfl)
    | exit text => exact even_of_ended rfl
    | fault => exact even_of_ended rfl
  have run : (data.predecessor = none ↔ data.successor.socket = none) → ctl = .run →
      (net'.node n).Even := by
    rintro both rfl
    rw [here]
    exact (even_iff serving' goes_on').mpr both
  have even : (net'.node n).Even ∨ ¬ net'.joining ∧ (net'.leavingDue n ∨ net'.closeDue n) := by
    by_cases returns : ctl = .run
    · subst returns
      cases rewires with
      | keeps other =>
          refine even_of_kept own addressed joins (stillWaits_of_pop queue ?_ grows)
            (stillWaits_of_pop queue ?_ grows) (steady.even n) idle
            (by rw [here]; exact ⟨serving', goes_on'⟩) (by rw [here, predecessor]; rfl)
            (by rw [here, successor]; rfl)
          · rintro told
            rw [told] at other
            cases other
          · rintro told
            rw [told] at other
            cases other
      | first _ waits => exact absurd rfl waits
      | named _ linked =>
          refine Or.inl (run (iff_of_false ?_ ?_) rfl)
          · rwa [predecessor]
          · simp [successor, Ends.connect]
      | last told =>
          have alone := leaving _ told
          rw [if_pos rfl] at alone
          rcases alone with alone | ⟨quiet, due⟩
          · exact Or.inl (run (iff_of_true (predecessor.trans alone) successor) rfl)
          · refine Or.inr ⟨fun joining => quiet (joins joining), Or.inr ?_⟩
            exact (stillWaits_of_pop queue (by simp [told]) grows).closeDue own
              (by rw [here, predecessor]; rfl) due
      | @next new told other =>
          have linked := leaving _ told
          rw [if_neg other] at linked
          refine Or.inl (run (iff_of_false ?_ ?_) rfl)
          · rwa [predecessor]
          · simp [successor, Ends.connect]
      | whole told full =>
          have alone := close told
          rw [if_pos full] at alone
          rcases alone with alone | ⟨quiet, due⟩
          · exact Or.inl (run (iff_of_true predecessor (successor.trans alone)) rfl)
          · refine Or.inr ⟨fun joining => quiet (joins joining), Or.inl ?_⟩
            exact (stillWaits_of_pop queue (by simp [told]) grows).leavingDue own addressed
              (by rw [here, successor]; rfl) due
    · exact Or.inl (not_run returns)
  refine steady.update own addressed node
    (fun m pdu other => stillWaits_of_reader (own.reads reads) other grows)
    (steady.before joins) even ?_ ?_
  · intro waiting
    refine linked ?_
    cases ctl <;> simp_all [Pc.after, Pc.waits]
  · intro receives
    cases ctl <;> simp [Pc.after, other, other'] at receives

theorem stillWaits_of_discard {env : Env} {selfData : SelfData} {loc : Loc} {msg : Msg}
    {rest : List Msg} {k : ℕ} (queue : net.queue loc = msg :: rest)
    (unknown : dispatch env selfData msg.pdu = none)
    (kept : ∀ other ∈ rest.take k,
      other.pdu ≠ .netCloseConnection ∧ ∀ new, other.pdu ≠ .netLeaving new)
    (farewell : pdu.farewell = true) :
    StillWaits pdu n net (net.setQueue loc (rest.drop k)) := by
  have dispatched : pdu ≠ msg.pdu := by
    rintro rfl
    cases eq : msg.pdu with
    | netCloseConnection =>
        rw [eq] at unknown
        cases unknown
    | netLeaving new =>
        rw [eq] at unknown
        cases unknown
    | _ =>
        rw [eq] at farewell
        cases farewell
  intro place _ other mem eq
  rw [setQueue_queue]
  by_cases here : place = loc
  · rw [here, Function.update_self]
    rw [here, queue, List.mem_cons] at mem
    rcases mem with rfl | later
    · exact absurd eq.symm dispatched
    · rw [← List.take_append_drop k rest, List.mem_append] at later
      rcases later with dropped | later
      · obtain ⟨close, leaving⟩ := kept other dropped
        rw [eq] at close leaving
        cases pdu with
        | netCloseConnection => exact absurd rfl close
        | netLeaving new => exact absurd rfl (leaving new)
        | _ => cases farewell
      · exact later
  · rwa [Function.update_of_ne here]

theorem serving_of_waits {pc : Pc} (waits : pc.waits = true) : pc.serving = true := by
  cases pc <;> first | rfl | cases waits

theorem Steady.ends (steady : Steady net) (own : net.Owned) (addressed : net'.Addressed)
    {pc : Pc} {selfData : SelfData} (ended : pc.serving = false) (other : pc ≠ .q7Receive)
    (node : net'.node = Function.update net.node m ⟨pc, selfData⟩)
    (stay : ∀ n pdu, n ≠ m → StillWaits pdu n net net')
    (before : ∀ n, (net.node n).Even ∨ ¬ net'.joining ∧ (net.leavingDue n ∨ net.closeDue n)) :
    Steady net' := by
  refine steady.update own addressed node stay before (Or.inl ?_) ?_ fun eq => absurd eq other
  · rw [node, Function.update_self]
    exact even_of_ended ended
  · intro waits
    rw [serving_of_waits waits] at ended
    cases ended

theorem Steady.goesOn (steady : Steady net) (own : net.Owned) (addressed : net'.Addressed)
    (joins : net'.joining → net.joining) {pc : Pc} {selfData : SelfData}
    (idle : (net.node m).pc.serving = true ∧ (net.node m).pc.waits = false)
    (idle' : pc.serving = true ∧ pc.waits = false)
    (node : net'.node = Function.update net.node m ⟨pc, selfData⟩)
    (stay : ∀ n pdu, n ≠ m ∨ pdu.farewell = true → StillWaits pdu n net net')
    (predecessor : selfData.predecessor = (net.node m).selfData.predecessor)
    (successor : selfData.successor.socket = (net.node m).selfData.successor.socket) :
    Steady net' := by
  have here : net'.node m = ⟨pc, selfData⟩ := by rw [node, Function.update_self]
  refine steady.update own addressed node (fun n pdu other => stay n pdu (Or.inl other))
    (steady.before joins) ?_ ?_ ?_
  · exact even_of_kept own addressed joins (stay m _ (Or.inr rfl)) (stay m _ (Or.inr rfl))
      (steady.even m) idle (by rw [here]; exact idle') (by rw [here, predecessor])
      (by rw [here, successor])
  · intro waits
    rw [idle'.2] at waits
    cases waits
  · rintro rfl
    cases idle'.1

theorem Steady.response (steady : Steady net) (own : net.Owned)
    (stepped : net.step (.response n) = some net') (addressed : net'.Addressed)
    (joins : net'.joining → net.joining) : Steady net' := by
  obtain ⟨pc, loc, receives, ⟨next, rangeStart, rangeEnd, req, rest, -, rfl⟩ | ⟨-, rfl⟩⟩ :=
    response_eq_some stepped
  · have stay : ∀ m pdu, m ≠ n → StillWaits pdu m net ((net.setQueue loc rest).commit n .q6 none
        (q8 net.env (net.node n).selfData next rangeStart rangeEnd)) := fun m pdu other =>
      stillWaits_of_reader (own.receives receives) other fun place msg mem =>
        mem_queue_performAll (by rwa [setQueue_queue]) none _
    cases answered : net.env.answers next with
    | true =>
        rw [q8_answered rangeStart rangeEnd answered] at stay stepped addressed joins ⊢
        refine steady.update own addressed (commit_node ..) stay
          (steady.before joins) (Or.inl ?_) (by simp [Pc.after, Pc.waits])
          (by simp [Pc.after])
        rw [commit_node, Function.update_self]
        exact (even_iff rfl rfl).mpr (iff_of_false (steady.accepted n pc) (by simp))
    | false =>
        rw [q8_refused rangeStart rangeEnd answered] at stay stepped addressed joins ⊢
        exact steady.ends own addressed rfl (by simp [Pc.after]) (commit_node ..) stay
          (steady.before joins)
  · exact steady.ends own addressed (m := n) rfl (by simp) rfl
      (fun m pdu other => stillWaits_of_reader (own.receives receives) other
        fun place msg mem => mem) (steady.before joins)

theorem Steady.reply (steady : Steady net) (own : net.Owned)
    (stepped : net.step (.reply n) = some net') (addressed : net'.Addressed)
    (joins : net'.joining → net.joining) : Steady net' := by
  obtain ⟨pc, loc, granted, receives, reply, rfl⟩ := reply_eq_some stepped
  obtain ⟨ends, goes_on, refused⟩ := handOver_ends (net.node n).selfData granted
  have grows : ∀ place, ∀ msg ∈ Function.update net.queue loc (net.queue loc).tail place,
      msg ∈ ((net.setQueue loc (net.queue loc).tail).commit n
        (.lastPoll .udp (net.node n).selfData.successor.destAddr) none
        (handOver (net.node n).selfData granted)).queue place :=
    fun place msg mem => mem_queue_performAll (by rwa [setQueue_queue]) none _
  have stay : ∀ m pdu, m ≠ n → StillWaits pdu m net _ := fun m pdu other =>
    stillWaits_of_reader (own.receives receives) other grows
  cases ctl : (handOver (net.node n).selfData granted).ctl with
  | run =>
      refine steady.goesOn own addressed joins (by rw [pc]; exact ⟨rfl, rfl⟩)
        (by rw [ctl]; exact ⟨rfl, rfl⟩) (commit_node ..) (fun m pdu kind => ?_)
        (congrArg Ends.predecessor ends) (congrArg Ends.successor ends)
      rcases kind with other | farewell
      · exact stay m pdu other
      · have given : granted = true := by
          cases granted with
          | true => rfl
          | false => exact absurd ctl (refused rfl)
        rcases reply with ⟨msg, rest, queue, rfl⟩ | ⟨empty, -⟩
        · refine stillWaits_of_pop queue ?_ fun place other mem =>
            grows place other (by rwa [queue, List.tail_cons])
          rintro rfl
          cases eq : msg.pdu with
          | netNewRangeResponse =>
              rw [eq] at farewell
              cases farewell
          | _ =>
              rw [eq] at given
              cases given
        · refine stillWaits_of_grows fun place msg mem => grows place msg ?_
          rwa [empty, List.tail_nil, ← empty, Function.update_eq_self]
  | accept => exact absurd ctl goes_on
  | exit text =>
      exact steady.ends own addressed (by rw [ctl]; rfl) (by rw [ctl]; simp [Pc.after])
        (commit_node ..) stay (steady.before joins)
  | fault =>
      exact steady.ends own addressed (by rw [ctl]; rfl) (by rw [ctl]; simp [Pc.after])
        (commit_node ..) stay (steady.before joins)

theorem Steady.step (steady : Steady net) (own : net.Owned) {act : Act}
    (keeps : KeepsBothOrNone net act) (stepped : net.step act = some net') : Steady net' := by
  have addressed := (own.step stepped).addressed
  have joins := joining_step stepped
  -- apart from a start, the joins on their way were there before
  have before : (∀ j entry, act ≠ .join j entry) → net'.joining → net.joining :=
    fun other joining => (joins joining).resolve_right fun ⟨j, entry, eq⟩ => other j entry eq
  cases act with
  | client n pdu =>
      obtain ⟨-, -, rfl⟩ := client_eq_some stepped
      have grows : ∀ loc, ∀ msg ∈ net.queue loc,
          msg ∈ (net.push (.udp n) ⟨pdu, some net.issued⟩).queue loc :=
        fun loc msg mem => mem_queue_push mem
      refine ⟨fun m => ?_, steady.linked, steady.accepted⟩
      refine (steady.before (before (by simp)) m).imp_right fun ⟨quiet, due⟩ => ⟨quiet, ?_⟩
      refine due.imp ?_ ?_
      · exact (stillWaits_of_grows grows).leavingDue own addressed rfl
      · exact (stillWaits_of_grows grows).closeDue own rfl
  | join j entry =>
      obtain ⟨-, -, -, rfl⟩ := join_eq_some stepped
      refine steady.ends own addressed (m := j) rfl (by simp) rfl
        (fun n pdu _ => stillWaits_of_grows fun loc msg mem => mem_queue_push mem) fun n => ?_
      exact (steady.even n).imp_right fun ⟨_, due⟩ => absurd due (not_or.mpr (keeps n))
  | leave n =>
      obtain ⟨q6, ⟨-, -, rfl⟩ | ⟨-, rfl⟩⟩ := leave_eq_some stepped
      · exact steady.ends own addressed (m := n) rfl (by simp) rfl
          (fun m pdu _ => stillWaits_of_grows fun loc msg mem => mem)
          (steady.before (before (by simp)))
      · exact steady.goesOn own addressed (before (by simp)) (by rw [q6]; exact ⟨rfl, rfl⟩)
          ⟨rfl, rfl⟩ (performAll_setNode_node ..) (fun m pdu _ => stillWaits_of_grows
            fun loc msg mem => mem_queue_performAll mem none _) rfl rfl
  | timeout n =>
      obtain ⟨-, rfl⟩ := timeout_eq_some stepped
      exact steady.ends own addressed (m := n) rfl (by simp) rfl
        (fun m pdu _ => stillWaits_of_grows fun loc msg mem => mem)
        (steady.before (before (by simp)))
  | deliver n i => exact steady.deliver own keeps stepped
  | discard n i k =>
      obtain ⟨back, loc, msg, rest, polls, reads, queue, unknown, rfl⟩ := discard_eq_some stepped
      obtain ⟨idle, serving', goes_on', -⟩ := polls_serving polls
      have kept := keeps loc msg rest reads queue
      refine steady.goesOn own addressed (before (by simp)) (m := n) idle ⟨serving', goes_on'⟩ rfl
        (fun m pdu kind => ?_) rfl rfl
      rcases kind with other | farewell
      · exact stillWaits_of_reader (own.reads reads) other fun place msg mem => mem
      · exact stillWaits_of_discard queue unknown kept farewell
  | eof n i =>
      obtain ⟨back, conn, loc, fd, data, polls, -, -, -, held, rfl⟩ := eof_eq_some stepped
      obtain ⟨idle, serving', goes_on', -⟩ := polls_serving polls
      refine steady.goesOn own addressed (before (by simp)) (m := n) idle ⟨serving', goes_on'⟩ rfl
        (fun m pdu _ => stillWaits_of_grows fun loc msg mem => mem) ?_ ?_
      · rcases held with ⟨-, -, -, rfl⟩ | ⟨-, -, -, rfl⟩ <;> rfl
      · rcases held with ⟨-, -, -, rfl⟩ | ⟨-, -, -, rfl⟩ <;> rfl
  | accept n =>
      obtain ⟨back, conn, rest, accepted, -, rfl⟩ := accept_eq_some stepped
      have goes_on : back.waits = false ∧ (back.serving = true → (net.node n).pc.waits = true) := by
        cases pc : (net.node n).pc <;> rw [pc] at accepted <;> cases accepted <;>
          simp [Pc.waits, Pc.serving]
      refine steady.update own addressed (m := n) rfl
        (fun m pdu _ => stillWaits_of_grows fun loc msg mem => mem)
        (steady.before (before (by simp))) (Or.inl ?_) (by simp [goes_on])
        (fun _ => by simp [SelfData.acceptPredecessor])
      rw [setNode_node, Function.update_self]
      intro serving
      exact iff_of_false (by simp [SelfData.acceptPredecessor])
        (steady.linked n (goes_on.2 serving))
  | response n => exact steady.response own stepped addressed (before (by simp))
  | reply n => exact steady.reply own stepped addressed (before (by simp))
  | finish n =>
      obtain ⟨i, new, -, rfl⟩ := finish_eq_some stepped
      exact steady.ends own addressed rfl (by simp) (performAll_setNode_node ..)
        (fun m pdu _ => stillWaits_of_grows fun loc msg mem => mem_queue_performAll mem none _)
        (steady.before (before (by simp)))

end

theorem steady_founded (n : Addr) : Steady (Net.founded n) where
  even m := by
    left
    simp only [Net.founded]
    split
    · exact (even_iff rfl rfl).mpr (iff_of_true rfl rfl)
    · exact even_of_ended rfl
  linked m waits := by
    simp only [Net.founded] at waits
    split at waits <;> cases waits
  accepted m receives := by
    simp only [Net.founded] at receives
    split at receives <;> cases receives

/-- In every run in which last farewells and joins do not meet, `handle_net_join` finds
both sockets zero or both nonzero. -/
theorem joinsFindBothOrNone_of_run {n : Addr} {acts : List Act} {net : Net}
    (run : Run Net.step KeepsBothOrNone (Net.founded n) acts net) : JoinsFindBothOrNone net := by
  have start : (Net.founded n).Owned ∧ Steady (Net.founded n) :=
    ⟨owned_founded n, steady_founded n⟩
  obtain ⟨-, steady⟩ := run.invariant (P := fun net => net.Owned ∧ Steady net) start
    fun _ _ _ inv keeps stepped => ⟨inv.1.step stepped, inv.2.step inv.1 keeps stepped⟩
  intro m i loc msg rest src maxSpan max polled reads queue pdu
  obtain ⟨back, polls⟩ := Option.isSome_iff_exists.mp polled
  have joining : net.joining :=
    ⟨src, maxSpan, max, loc, msg, by rw [queue]; exact List.mem_cons_self, pdu⟩
  obtain ⟨⟨serving, goes_on⟩, -⟩ := polls_serving polls
  refine (even_iff serving goes_on).mp ((steady.even m).resolve_right ?_)
  exact fun ⟨quiet, _⟩ => quiet joining

/-! ## A leave while a join waits -/

def nodeD : Addr := ⟨1, 5003⟩

def askFirst : List Act := [.join nodeB nodeA, .join nodeC nodeA, .join nodeD nodeA]

/-- The first two of them join, the second node leaves, and the third `NET_JOIN` is
forwarded. -/
def leaveBetweenJoins : List Act :=
  [.deliver nodeA .udp, .accept nodeB, .response nodeB, .accept nodeA,
    .deliver nodeA .udp, .deliver nodeB .predecessor, .deliver nodeA .predecessor,
    .deliver nodeB .predecessor, .accept nodeC, .response nodeC, .accept nodeB,
    .leave nodeB, .deliver nodeC .successor, .reply nodeB, .finish nodeB,
    .deliver nodeA .predecessor, .deliver nodeC .successor, .accept nodeA,
    .deliver nodeA .udp]

/-- Before the first connection nobody can be told of a farewell. -/
theorem run_of_joins {n : Addr} {acts : List Act} {net : Net}
    (joins : ∀ act ∈ acts, ∃ j entry, act = .join j entry)
    (executed : exec Net.step (Net.founded n) acts = some net) :
    Run Net.step KeepsBothOrNone (Net.founded n) acts net := by
  have run : Run Net.step (fun _ act => act ∈ acts) (Net.founded n) acts net :=
    run_of_exec executed fun _ _ mem => mem
  refine (run.induct (P := fun as net => Run Net.step KeepsBothOrNone (Net.founded n) as net ∧
    ∀ conn, net.queue (.down conn) = [] ∧ net.queue (.up conn) = []) ⟨.nil, fun _ => ⟨rfl, rfl⟩⟩
    ?_).1
  rintro as net act net' - ⟨before, silent⟩ mem stepped
  obtain ⟨j, entry, rfl⟩ := joins act mem
  refine ⟨before.snoc (fun m => ⟨?_, ?_⟩) stepped, fun conn => ?_⟩
  · rintro ⟨conn, -, msg, waits, -⟩
    rw [(silent conn).1] at waits
    cases waits
  · rintro ⟨conn, -, msg, waits, -⟩
    rw [(silent conn).2] at waits
    cases waits
  · obtain ⟨-, -, -, rfl⟩ := join_eq_some stepped
    rw [setNode_queue, Net.push, setQueue_queue, Function.update_of_ne (by simp),
      Function.update_of_ne (by simp)]
    exact silent conn

/-- A test for `KeepsBothOrNone` as if some `NET_JOIN` were always on its way. -/
def keepsEven (net : Net) : Act → Bool
  | .deliver n i =>
      let selfData := (net.node n).selfData
      match (net.node n).reads n i with
      | none => true
      | some loc =>
          match net.queue loc with
          | [] => true
          | msg :: _ =>
              match msg.pdu with
              | .netCloseConnection =>
                  (selfData.rangeStart == 0 && selfData.rangeEnd == 255) ==
                    selfData.successor.socket.isNone
              | .netLeaving new => (new == selfData.listening) == selfData.predecessor.isNone
              | _ => true
  | .join _ _ | .discard _ _ _ => false
  | _ => true

theorem keepsBothOrNone_of_keepsEven (net : Net) (act : Act) (passed : keepsEven net act = true) :
    KeepsBothOrNone net act := by
  cases act with
  | join j entry => cases passed
  | discard n i k => cases passed
  | deliver n i =>
      intro loc msg rest reads queue
      simp only [keepsEven, reads, queue] at passed
      refine ⟨fun told => ?_, fun new told => ?_⟩
      · simp only [told, beq_iff_eq] at passed
        split
        · rename_i full
          left
          simpa [full] using passed
        · rename_i part
          intro alone
          simp [alone] at passed
          exact part passed
      · simp only [told, beq_iff_eq] at passed
        split
        · rename_i last
          left
          simpa [last] using passed
        · rename_i other
          intro alone
          simp [alone] at passed
          exact other passed
  | _ => trivial

/-- The `NET_JOIN` of the fourth node waits while the second one says goodbye. -/
theorem joinsFindBothOrNone_leaveBetweenJoins : ∃ net,
    Run Net.step KeepsBothOrNone (Net.founded nodeA) (askFirst ++ leaveBetweenJoins) net ∧
      (net.node nodeB).pc = .exited true ∧
      net.queue (.up ⟨nodeA, nodeC, 2⟩) = [⟨.netJoin nodeD 63 nodeA, none⟩] ∧
      JoinsFindBothOrNone net := by
  have executed : ((exec Net.step (Net.founded nodeA) askFirst).bind fun asked =>
      execChecked Net.step keepsEven asked leaveBetweenJoins).map (fun net =>
        ((net.node nodeB).pc, net.queue (.up ⟨nodeA, nodeC, 2⟩))) =
      some (.exited true, [⟨.netJoin nodeD 63 nodeA, none⟩]) := by decide
  obtain ⟨net, reached, eq⟩ := Option.map_eq_some_iff.mp executed
  obtain ⟨asked, before, after⟩ := Option.bind_eq_some_iff.mp reached
  rw [Prod.mk.injEq] at eq
  have run := (run_of_joins (by simp [askFirst]) before).append
    (run_of_execChecked keepsBothOrNone_of_keepsEven after)
  exact ⟨net, run, eq.1, eq.2, joinsFindBothOrNone_of_run run⟩

/-- The second of two nodes leaves.  The first has read `NET_CLOSE_CONNECTION` and not
yet `NET_LEAVING` when a `NET_JOIN` reaches it, and exits. -/
theorem join_between_farewells : ∃ acts net net',
    Run Net.step (fun _ _ => True) (Net.founded nodeA) acts net ∧ ¬ JoinsFindBothOrNone net ∧
      net.step (.deliver nodeA .udp) = some net' ∧ (net'.node nodeA).pc = .exited false := by
  have executed : (exec Net.step (Net.founded nodeA) (pairUp ++ [.leave nodeB,
      .deliver nodeA .successor, .reply nodeB, .finish nodeB, .join nodeC nodeA,
      .deliver nodeA .predecessor])).map
      (fun net => (((net.node nodeA).pc, (net.node nodeA).selfData.predecessor,
        (net.node nodeA).selfData.successor.socket), net.queue (.udp nodeA),
        (net.step (.deliver nodeA .udp)).map fun net' => (net'.node nodeA).pc)) =
      some ((.q6, none, some connAB), [⟨joinPdu nodeC, none⟩], some (.exited false)) := by decide
  obtain ⟨net, reached, eq⟩ := Option.map_eq_some_iff.mp executed
  simp only [Prod.mk.injEq] at eq
  obtain ⟨⟨pc, predecessor, successor⟩, queue, last⟩ := eq
  obtain ⟨net', stepped, exited⟩ := Option.map_eq_some_iff.mp last
  refine ⟨_, net, net', run_of_exec_true reached, fun both => ?_, stepped, exited⟩
  have here := (both nodeA .udp (.udp nodeA) _ [] nodeC 0 ⟨0, 0⟩ (by rw [pc]; rfl) rfl queue
    rfl).mp predecessor
  rw [successor] at here
  cases here

end DhtRing

import DhtRing.Steps

/-!
# What a handler does to the connections

The two ends that a node holds, in its own fields and in `fds`.  Each handler keeps
them, connects to another successor or gives one of them up.  So in every run a node
holds only ends of its own, and nobody else takes a PDU that waits for it there.
-/

set_option autoImplicit false

namespace DhtRing

/-- The descriptors of a node's connections, in its own fields and in `fds`. -/
structure Ends where
  predecessor : Option Conn
  fdsPredecessor : Option Conn
  successor : Option Conn
  fdsSuccessor : Option Conn

def SelfData.ends (selfData : SelfData) : Ends where
  predecessor := selfData.predecessor
  fdsPredecessor := selfData.fdsPredecessor
  successor := selfData.successor.socket
  fdsSuccessor := selfData.fdsSuccessor

def Ends.connect (ends : Ends) (conn : Conn) : Ends :=
  { ends with successor := some conn, fdsSuccessor := some conn }

def Pdu.farewell : Pdu → Bool
  | .netCloseConnection | .netLeaving _ => true
  | _ => false

/-- What the handler of a PDU does to the connections, and how it ends. -/
inductive Rewires (env : Env) (selfData : SelfData) (pdu : Pdu) : Ends → Ctl → Prop where
  | keeps {ctl : Ctl} (other : pdu.farewell = false) (returns : ctl ≠ .accept) :
      Rewires env selfData pdu selfData.ends ctl
  | refused {text : String} :
      Rewires env selfData pdu { selfData.ends with successor := none } (.exit text)
  | first {src : Addr} {ctl : Ctl} (other : pdu.farewell = false) (waits : ctl ≠ .run) :
      Rewires env selfData pdu (selfData.ends.connect (env.conn selfData src)) ctl
  | named {src : Addr} {ctl : Ctl} (other : pdu.farewell = false)
      (linked : selfData.predecessor ≠ none) (returns : ctl ≠ .accept) :
      Rewires env selfData pdu (selfData.ends.connect (env.conn selfData src)) ctl
  | last (told : pdu = .netLeaving selfData.listening) :
      Rewires env selfData pdu { selfData.ends with successor := none, fdsSuccessor := none } .run
  | next {new : Addr} (told : pdu = .netLeaving new) (other : new ≠ selfData.listening) :
      Rewires env selfData pdu (selfData.ends.connect (env.conn selfData new)) .run
  | whole (told : pdu = .netCloseConnection)
      (full : selfData.rangeStart = 0 ∧ selfData.rangeEnd = 255) :
      Rewires env selfData pdu { selfData.ends with predecessor := none, fdsPredecessor := none }
        .run
  | part (told : pdu = .netCloseConnection)
      (part : ¬ (selfData.rangeStart = 0 ∧ selfData.rangeEnd = 255)) :
      Rewires env selfData pdu { selfData.ends with predecessor := none, fdsPredecessor := none }
        .accept

section

variable {env : Env} {selfData : SelfData} {pdu : Pdu} {outcome : Outcome}

theorem updateRange_ends (selfData : SelfData) (rangeStart rangeEnd : UInt8) :
    (updateRange selfData rangeStart rangeEnd).selfData.ends = selfData.ends ∧
      (updateRange selfData rangeStart rangeEnd).ctl ≠ .accept := by
  unfold updateRange sendOrExit
  dsimp only
  split
  · split <;> simp [SelfData.ends]
  · split
    · split <;> simp [SelfData.ends]
    · split <;> simp [SelfData.ends]

theorem ends_of_wiring {selfData selfData' : SelfData}
    (same : selfData'.wiring = selfData.wiring) : selfData'.ends = selfData.ends := by
  have pred := congrArg Wiring.predecessor same
  have fdsPred := congrArg Wiring.fdsPredecessor same
  have succ := congrArg (ConnectionPoint.socket ∘ Wiring.successor) same
  have fdsSucc := congrArg Wiring.fdsSuccessor same
  rw [SelfData.ends, SelfData.ends, Ends.mk.injEq]
  exact ⟨pred, fdsPred, succ, fdsSucc⟩

theorem ends_of_connected {data : SelfData} {conn : Conn} {src : Addr} {rangeEnd : UInt8}
    (connected : data.wiring = { selfData.wiring with
      rangeEnd := rangeEnd
      successor := ⟨some conn, src⟩
      fdsSuccessor := some conn }) : data.ends = selfData.ends.connect conn := by
  let wired := { selfData with
    rangeEnd := rangeEnd
    successor := ⟨some conn, src⟩
    fdsSuccessor := some conn }
  have same : data.wiring = wired.wiring := connected
  exact ends_of_wiring same

theorem handleNetJoin_rewires {src max : Addr} {maxSpan : UInt8} :
    Rewires env selfData (.netJoin src maxSpan max)
      (handleNetJoin env selfData src maxSpan max).selfData.ends
      (handleNetJoin env selfData src maxSpan max).ctl := by
  by_cases alone : selfData.predecessor = none ∧ selfData.successor.socket = none
  · cases answered : env.answers src with
    | true =>
        obtain ⟨data, moved, ctl, eq, wiring, ctl_cases, -⟩ :=
          handleNetJoin_alone max maxSpan alone.1 alone.2 answered
        rw [eq, ends_of_connected wiring]
        exact .first rfl (by rcases ctl_cases with rfl | rfl <;> simp)
    | false =>
        rw [handleNetJoin, if_pos alone]
        simp only [Outcome.andThen, connectToTcp_refused answered]
        exact .refused
  · by_cases linked : selfData.predecessor = none ∨ selfData.successor.socket = none
    · rw [handleNetJoin, if_neg alone, if_pos linked]
      exact .keeps rfl (by simp)
    · obtain ⟨pred, succ⟩ := not_or.mp linked
      by_cases named : max = selfData.listening
      · cases answered : env.answers src with
        | true =>
            obtain ⟨data, moved, ctl, eq, wiring, ctl_cases, -⟩ :=
              handleNetJoin_resolve maxSpan pred succ named answered
            rw [eq, ends_of_connected wiring]
            exact .named rfl pred (by rcases ctl_cases with rfl | rfl <;> simp)
        | false =>
            rw [handleNetJoin_unreachable maxSpan pred succ named answered]
            exact .refused
      · rw [handleNetJoin_forward env src maxSpan pred succ named]
        exact .keeps rfl (by simp)

theorem dispatch_rewires (dispatched : dispatch env selfData pdu = some outcome) :
    Rewires env selfData pdu outcome.selfData.ends outcome.ctl := by
  cases request : pdu.requestKey with
  | some ssn =>
      obtain ⟨wiring, goes_on, -⟩ := dispatch_request request dispatched
      rw [ends_of_wiring wiring]
      exact .keeps (by cases pdu <;> first | rfl | cases request) goes_on
  | none =>
      cases pdu with
      | netJoin src maxSpan max =>
          cases dispatched
          exact handleNetJoin_rewires
      | netNewRange rangeStart rangeEnd =>
          cases dispatched
          obtain ⟨ends, goes_on⟩ := updateRange_ends selfData rangeStart rangeEnd
          rw [handleNetNewRange, ends]
          exact .keeps rfl goes_on
      | netLeaving new =>
          cases dispatched
          rw [handleNetLeavingPdu_eq]
          split
          · rename_i last
            exact .last (by rw [last])
          · rename_i other
            split
            · exact .next rfl other
            · exact .refused
      | netCloseConnection =>
          cases dispatched
          rw [handleNetCloseConnection]
          split
          · rename_i full
            exact .whole rfl full
          · rename_i part
            exact .part rfl part
      | netJoinResponse _ _ _ => cases dispatched
      | netNewRangeResponse => cases dispatched
      | valLookupResponse _ _ => cases dispatched
      | _ => cases request

/-! ## Owned ends -/

structure Ends.Own (n : Addr) (ends : Ends) : Prop where
  predecessor : ∀ conn, ends.predecessor = some conn → conn.target = n
  fdsPredecessor : ∀ conn, ends.fdsPredecessor = some conn → conn.target = n
  successor : ∀ conn, ends.successor = some conn → conn.source = n
  fdsSuccessor : ∀ conn, ends.fdsSuccessor = some conn → conn.source = n

theorem Ends.own_none (n : Addr) : (Ends.mk none none none none).Own n := by
  constructor <;> simp

theorem Ends.Own.connect {n : Addr} {ends : Ends} (own : ends.Own n) {conn : Conn}
    (source : conn.source = n) : (ends.connect conn).Own n where
  predecessor := own.predecessor
  fdsPredecessor := own.fdsPredecessor
  successor held eq := by rw [← Option.some.inj eq, source]
  fdsSuccessor held eq := by rw [← Option.some.inj eq, source]

theorem Rewires.own {ends : Ends} {ctl : Ctl} (rewires : Rewires env selfData pdu ends ctl)
    (own : selfData.ends.Own selfData.listening) : ends.Own selfData.listening := by
  cases rewires with
  | keeps => exact own
  | refused => exact { own with successor := by simp }
  | first => exact own.connect rfl
  | named => exact own.connect rfl
  | last =>
      exact { own with
        successor := by simp
        fdsSuccessor := by simp }
  | next => exact own.connect rfl
  | whole =>
      exact { own with
        predecessor := by simp
        fdsPredecessor := by simp }
  | part =>
      exact { own with
        predecessor := by simp
        fdsPredecessor := by simp }

end

/-- The hand-over keeps the connections; it goes on to the last poll or ends the node. -/
theorem handOver_ends (selfData : SelfData) (granted : Bool) :
    (handOver selfData granted).selfData.ends = selfData.ends ∧
      (handOver selfData granted).ctl ≠ .accept ∧
      (granted = false → (handOver selfData granted).ctl ≠ .run) := by
  obtain ⟨wiring, -, ctl, -⟩ := sendAllEntries_wiring selfData selfData.heir
  have ends := ends_of_wiring wiring
  unfold handOver Outcome.andThen
  rcases ctl with ctl | ctl
  · rw [ctl]
    dsimp only
    split
    · exact ⟨ends, by simp, by simp_all⟩
    · exact ⟨ends, by simp, by simp⟩
  · rw [ctl]
    exact ⟨ends, by simp [ctl], by simp [ctl]⟩

def Loc.reader : Loc → Addr
  | .udp n => n
  | .up conn => conn.target
  | .down conn => conn.source

structure Net.Owned (net : Net) : Prop where
  addressed : net.Addressed
  ends : ∀ n, (net.node n).selfData.ends.Own n
  backlog : ∀ n, ∀ conn ∈ net.backlog n, conn.target = n

section

variable {net net' : Net} {n m : Addr} {i : FdsIndex} {loc : Loc}

theorem Net.Owned.reads (own : net.Owned) (reads : (net.node n).reads n i = some loc) :
    loc.reader = n := by
  cases i with
  | udp =>
      cases reads
      rfl
  | successor =>
      obtain ⟨conn, held, rfl⟩ := Option.map_eq_some_iff.mp reads
      exact (own.ends n).fdsSuccessor conn held
  | predecessor =>
      obtain ⟨conn, held, rfl⟩ := Option.map_eq_some_iff.mp reads
      exact (own.ends n).fdsPredecessor conn held

theorem Net.Owned.receives (own : net.Owned) (receives : (net.node n).receives = some loc) :
    loc.reader = n := by
  unfold Proc.receives at receives
  split at receives
  · obtain ⟨conn, held, rfl⟩ := Option.map_eq_some_iff.mp receives
    exact (own.ends n).predecessor conn held
  · split at receives
    · obtain ⟨conn, held, rfl⟩ := Option.map_eq_some_iff.mp receives
      exact (own.ends n).successor conn held
    · obtain ⟨conn, held, rfl⟩ := Option.map_eq_some_iff.mp receives
      exact (own.ends n).predecessor conn held
  · cases receives

theorem performAll_backlog (backlog : ∀ n, ∀ conn ∈ net.backlog n, conn.target = n)
    (req : Option Nat) (effects : List Effect) :
    ∀ n, ∀ conn ∈ (net.performAll req effects).backlog n, conn.target = n := by
  refine performAll_induct (P := fun net => ∀ n, ∀ conn ∈ net.backlog n, conn.target = n)
    backlog effects ?_
  intro net effect _ backlog
  cases effect with
  | tcp fd pdu =>
      simp only [Net.perform]
      split <;> exact backlog
  | connect new =>
      intro n conn mem
      simp only [Net.perform] at mem
      by_cases here : n = new.target
      · rw [here, Function.update_self, List.mem_append, List.mem_singleton] at mem
        rcases mem with old | rfl
        · rw [here]
          exact backlog _ conn old
        · exact here.symm
      · rw [Function.update_of_ne here] at mem
        exact backlog n conn mem
  | _ => exact backlog

theorem mem_queue_push {msg new : Msg} {fd : Loc} (mem : msg ∈ net.queue loc) :
    msg ∈ (net.push fd new).queue loc := by
  simp only [Net.push, setQueue_queue]
  by_cases here : loc = fd
  · rw [here] at mem
    rw [here, Function.update_self]
    exact List.mem_append_left _ mem
  · rwa [Function.update_of_ne here]

theorem mem_queue_performAll {msg : Msg} (mem : msg ∈ net.queue loc) (req : Option Nat)
    (effects : List Effect) : msg ∈ (net.performAll req effects).queue loc := by
  refine performAll_induct (P := fun net => msg ∈ net.queue loc) mem effects ?_
  intro net effect _ mem
  cases effect with
  | tcp fd pdu =>
      simp only [Net.perform]
      split
      · exact mem
      · exact mem_queue_push mem
  | _ => exact mem

theorem Net.Owned.update (own : net.Owned) {proc : Proc}
    (node : net'.node = Function.update net.node m proc)
    (listening : proc.selfData.listening = m) (ends : proc.selfData.ends.Own m)
    (backlog : ∀ n, ∀ conn ∈ net'.backlog n, conn.target = n) : net'.Owned := by
  refine ⟨own.addressed.update node listening, fun n => ?_, backlog⟩
  by_cases same : n = m
  · rw [node, same, Function.update_self]
    exact ends
  · rw [node, Function.update_of_ne same]
    exact own.ends n

theorem owned_founded (n : Addr) : (Net.founded n).Owned := by
  refine ⟨addressed_founded n, fun m => ?_, fun m conn mem => by cases mem⟩
  simp only [Net.founded]
  split <;> exact Ends.own_none m

theorem Net.Owned.step (own : net.Owned) {act : Act} (stepped : net.step act = some net') :
    net'.Owned := by
  have addressed := own.addressed.step stepped
  cases act with
  | client n pdu =>
      obtain ⟨-, -, rfl⟩ := client_eq_some stepped
      exact ⟨addressed, own.ends, own.backlog⟩
  | join j entry =>
      obtain ⟨-, -, -, rfl⟩ := join_eq_some stepped
      exact own.update (m := j) rfl rfl (Ends.own_none j) own.backlog
  | leave n =>
      obtain ⟨-, ⟨-, -, rfl⟩ | ⟨-, rfl⟩⟩ := leave_eq_some stepped
      · exact own.update (m := n) rfl (own.addressed n) (own.ends n) own.backlog
      · exact own.update (performAll_setNode_node ..) (own.addressed n) (own.ends n)
          (performAll_backlog own.backlog none _)
  | timeout n =>
      obtain ⟨-, rfl⟩ := timeout_eq_some stepped
      exact own.update (m := n) rfl (own.addressed n) (own.ends n) own.backlog
  | deliver n i =>
      obtain ⟨back, loc, msg, rest, outcome, -, -, -, dispatched, rfl⟩ := deliver_eq_some stepped
      have node := commit_node ((net.note n msg).setQueue loc rest) n back msg.tag outcome
      rw [setQueue_node, note_node] at node
      have ends := (dispatch_rewires dispatched).own
      rw [own.addressed n] at ends
      refine own.update node ((dispatch_listening dispatched).trans (own.addressed n))
        (ends (own.ends n)) (performAll_backlog ?_ _ _)
      rw [setQueue_backlog, note_backlog]
      exact own.backlog
  | discard n i k =>
      obtain ⟨back, loc, msg, rest, -, -, -, -, rfl⟩ := discard_eq_some stepped
      exact own.update (m := n) rfl (own.addressed n) (own.ends n) own.backlog
  | eof n i =>
      obtain ⟨back, conn, loc, fd, data, -, -, -, -, held, rfl⟩ := eof_eq_some stepped
      rcases held with ⟨-, -, -, rfl⟩ | ⟨-, -, -, rfl⟩
      · exact own.update (m := n) rfl (own.addressed n)
          { own.ends n with fdsSuccessor := by simp [SelfData.ends] } own.backlog
      · exact own.update (m := n) rfl (own.addressed n)
          { own.ends n with fdsPredecessor := by simp [SelfData.ends] } own.backlog
  | accept n =>
      obtain ⟨back, conn, rest, -, waiting, rfl⟩ := accept_eq_some stepped
      have target := own.backlog n conn (by rw [waiting]; exact List.mem_cons_self)
      refine own.update (m := n) rfl (own.addressed n) { own.ends n with
        predecessor := fun held eq => by rw [← Option.some.inj eq, target]
        fdsPredecessor := fun held eq => by rw [← Option.some.inj eq, target] } ?_
      intro m held mem
      by_cases same : m = n
      · simp only [setNode_backlog, same, Function.update_self] at mem
        rw [same]
        exact own.backlog n held (by rw [waiting]; exact List.mem_cons_of_mem _ mem)
      · simp only [setNode_backlog, Function.update_of_ne same] at mem
        exact own.backlog m held mem
  | response n =>
      obtain ⟨-, loc, -, ⟨next, rangeStart, rangeEnd, req, rest, -, rfl⟩ | ⟨-, rfl⟩⟩ :=
        response_eq_some stepped
      · have backlog : ∀ n, ∀ conn ∈ (net.setQueue loc rest).backlog n, conn.target = n :=
          own.backlog
        refine own.update (commit_node ..) (by simpa using addressed n) ?_
          (performAll_backlog backlog none _)
        cases answered : net.env.answers next with
        | true =>
            rw [q8_answered rangeStart rangeEnd answered]
            exact (own.ends n).connect (own.addressed n)
        | false =>
            rw [q8_refused rangeStart rangeEnd answered]
            exact { own.ends n with successor := by simp [SelfData.ends] }
      · exact own.update (m := n) rfl (own.addressed n) (own.ends n) own.backlog
  | reply n =>
      obtain ⟨-, loc, granted, -, -, rfl⟩ := reply_eq_some stepped
      have backlog : ∀ n, ∀ conn ∈ (net.setQueue loc (net.queue loc).tail).backlog n,
          conn.target = n := own.backlog
      refine own.update (commit_node ..) (by simpa using addressed n) ?_
        (performAll_backlog backlog none _)
      rw [(handOver_ends _ granted).1]
      exact own.ends n
  | finish n =>
      obtain ⟨i, new, -, rfl⟩ := finish_eq_some stepped
      exact own.update (performAll_setNode_node ..) (own.addressed n) (own.ends n)
        (performAll_backlog own.backlog none _)

end

end DhtRing

import Mathlib.Data.List.Chain
import DhtRing.Naming
import DhtRing.Lib.FirstMax

/-!
# The election of the node that lets a new node in

A `NET_JOIN` enters a quiet ring at some node and goes round it once to find the
largest span and a second time to come back to the node that has it.
-/

set_option autoImplicit false

namespace DhtRing

open Transition FirstMax

/-! ## A quiet ring -/

def Linked (net : Net) (a b : Addr) : Prop :=
  ∃ conn, conn.source = a ∧ conn.target = b ∧
    (net.node a).selfData.successor = ⟨some conn, b⟩ ∧
    (net.node a).selfData.fdsSuccessor = some conn ∧
    (net.node b).selfData.predecessor = some conn ∧
    (net.node b).selfData.fdsPredecessor = some conn ∧
    net.shut (.up conn) = false ∧ net.shut (.down conn) = false

/-- A ring with nothing on its way: `first` and the nodes of `rest`, in successor
order.  Every other address is unused, gone, or waits to be let in. -/
structure QuietRing (net : Net) (first : Addr) (rest : List Addr) : Prop where
  several : rest ≠ []
  nodup : (first :: rest).Nodup
  serving : ∀ a ∈ first :: rest, (net.node a).pc = .q6
  addressed : net.Addressed
  port : ∀ a ∈ first :: rest, a.port ≠ 0
  range : ∀ a ∈ first :: rest,
    (net.node a).selfData.rangeStart ≤ (net.node a).selfData.rangeEnd
  linked : (first :: rest ++ [first]).IsChain (Linked net)
  others : ∀ a, a ∉ first :: rest → (net.node a).pc = .absent ∨ (net.node a).pc = .q7Accept ∨
    (net.node a).pc.ended = true
  quiet : ∀ loc, net.queue loc = []
  backlog : ∀ a, net.backlog a = []
  unused : ∀ conn, net.serial ≤ conn.serial → net.shut (.up conn) = false

def Net.span (net : Net) (a : Addr) : ℕ :=
  (net.node a).selfData.rangeEnd.toNat - (net.node a).selfData.rangeStart.toNat

def Net.carrying (net : Net) (loc : Loc) (pdu : Pdu) : Net := net.setQueue loc [⟨pdu, none⟩]

section

variable {net : Net} {first : Addr} {rest : List Addr}

theorem QuietRing.selfRange (ring : QuietRing net first rest) {a : Addr}
    (mem : a ∈ first :: rest) : (net.node a).selfData.selfRange = net.span a := by
  have le := UInt8.le_iff_toNat_le.mp (ring.range a mem)
  rw [SelfData.selfRange, Net.span]
  omega

theorem carrying_queue (ring : QuietRing net first rest) (loc other : Loc) (pdu : Pdu) :
    (net.carrying loc pdu).queue other = if other = loc then [⟨pdu, none⟩] else [] := by
  rw [Net.carrying, setQueue_queue]
  by_cases here : other = loc
  · rw [if_pos here, here, Function.update_self]
  · rw [if_neg here, Function.update_of_ne here, ring.quiet]

theorem QuietRing.next (ring : QuietRing net first rest) {a : Addr} (mem : a ∈ first :: rest) :
    ∃ b ∈ first :: rest, Linked net a b := by
  obtain ⟨pre, post, split⟩ := List.append_of_mem mem
  have chain := ring.linked
  cases post with
  | nil =>
      refine ⟨first, List.mem_cons_self, ?_⟩
      rw [split, List.append_assoc] at chain
      exact (List.isChain_append_cons_cons.mp chain).2.1
  | cons b post =>
      refine ⟨b, by rw [split]; simp, ?_⟩
      rw [split, List.append_assoc] at chain
      exact (List.isChain_append_cons_cons.mp chain).2.1

theorem QuietRing.prev (ring : QuietRing net first rest) {b : Addr} (mem : b ∈ first :: rest) :
    ∃ a ∈ first :: rest, Linked net a b := by
  have chain := ring.linked
  rcases List.mem_cons.mp mem with rfl | later
  · -- the last node of the list comes before the first
    obtain ⟨init, last, split⟩ := List.eq_nil_or_concat rest |>.resolve_left ring.several
    refine ⟨last, by rw [split]; simp, ?_⟩
    rw [split, List.concat_eq_append, ← List.cons_append, List.append_assoc] at chain
    exact (List.isChain_append_cons_cons.mp chain).2.1
  · obtain ⟨pre, post, split⟩ := List.append_of_mem later
    have regrouped : first :: rest ++ [first] = (first :: pre) ++ b :: (post ++ [first]) := by
      rw [split]
      simp
    rw [regrouped] at chain
    obtain ⟨init, last, whole⟩ := List.eq_nil_or_concat (first :: pre) |>.resolve_left (by simp)
    refine ⟨last, ?_, ?_⟩
    · have : last ∈ first :: pre := by rw [whole]; simp
      rcases List.mem_cons.mp this with rfl | inside
      · exact List.mem_cons_self
      · rw [split]
        simp [inside]
    · rw [whole, List.concat_eq_append, List.append_assoc] at chain
      exact (List.isChain_append_cons_cons.mp chain).2.1

/-! ## Only the PDU's reader can move -/

def Net.hears (net : Net) (a : Addr) (i : FdsIndex) (loc : Loc) : Prop :=
  i ≠ .successor ∧ (net.node a).reads a i = some loc

theorem Linked.hears {a b : Addr} (linked : Linked net a b) :
    ∃ conn, (net.node a).selfData.successor.socket = some conn ∧ net.shut (.up conn) = false ∧
      net.hears b .predecessor (.up conn) := by
  obtain ⟨conn, -, -, successor, -, -, pred, is_open, -⟩ := linked
  exact ⟨conn, by rw [successor], is_open, by decide, by simp [Proc.reads, pred]⟩

theorem QuietRing.reader (ring : QuietRing net first rest) {a b : Addr} {i j : FdsIndex}
    {loc : Loc} (mem_a : a ∈ first :: rest) (mem_b : b ∈ first :: rest) (hears : net.hears a i loc)
    (reads : (net.node b).reads b j = some loc) : b = a ∧ j = i := by
  obtain ⟨not_successor, reads_a⟩ := hears
  obtain ⟨p, -, conn_p, -, target_p, -, -, -, fds_p, -, -⟩ := ring.prev mem_a
  obtain ⟨q, -, conn_q, -, target_q, -, -, -, fds_q, -, -⟩ := ring.prev mem_b
  obtain ⟨s, -, conn_s, -, -, -, fds_s, -, -, -, -⟩ := ring.next mem_b
  cases i with
  | successor => exact absurd rfl not_successor
  | udp =>
      cases reads_a
      cases j <;> simp [Proc.reads, fds_q, fds_s] at reads
      exact ⟨reads, rfl⟩
  | predecessor =>
      simp only [Proc.reads, fds_p, Option.map_some, Option.some.injEq] at reads_a
      subst reads_a
      cases j <;> simp [Proc.reads, fds_q, fds_s] at reads
      exact ⟨by rw [← target_q, ← target_p, reads], rfl⟩

/-- The nodes of a list serve and nobody closes a connection that they read; all
other addresses are unused, gone, or wait to be let in. -/
structure Still (net : Net) (members : List Addr) : Prop where
  serving : ∀ a ∈ members, (net.node a).pc = .q6
  others : ∀ a, a ∉ members → (net.node a).pc = .absent ∨ (net.node a).pc = .q7Accept ∨
    (net.node a).pc.ended = true
  held : ∀ a ∈ members, ∀ i loc, (net.node a).reads a i = some loc → net.closed loc = true →
    i = .udp
  backlog : ∀ a, net.backlog a = []

theorem QuietRing.still (ring : QuietRing net first rest) : Still net (first :: rest) where
  serving := ring.serving
  others := ring.others
  backlog := ring.backlog
  held a mem i loc reads closed := by
    obtain ⟨p, mem_p, conn_p, source_p, -, -, -, -, fds_p, up_p, -⟩ := ring.prev mem
    obtain ⟨s, mem_s, conn_s, -, target_s, -, fds_s, -, -, -, down_s⟩ := ring.next mem
    cases i with
    | udp => rfl
    | successor =>
        have at_conn : Loc.down conn_s = loc := by simpa [Proc.reads, fds_s] using reads
        subst at_conn
        simp [Net.closed, Loc.writer, down_s, target_s, ring.serving s mem_s, Pc.ended] at closed
    | predecessor =>
        have at_conn : Loc.up conn_p = loc := by simpa [Proc.reads, fds_p] using reads
        subst at_conn
        simp [Net.closed, Loc.writer, up_p, source_p, ring.serving p mem_p, Pc.ended] at closed

theorem Still.polls {members : List Addr} (still : Still net members) {a : Addr} {back : Pc}
    {i : FdsIndex} (polls : (net.node a).pc.polls i = some back) : a ∈ members := by
  by_contra outside
  rcases still.others a outside with pc | pc | ended
  · rw [pc] at polls
    cases polls
  · rw [pc] at polls
    cases polls
  · cases pc : (net.node a).pc <;> simp [pc, Pc.ended] at ended <;> simp [pc, Pc.polls] at polls

theorem Still.internal_reads {members : List Addr} (still : Still net members) {act : Act}
    (internal : act.internal = true) {net' : Net} (stepped : net.step act = some net') :
    ∃ n ∈ members, ∃ i loc msg tail, (net.node n).reads n i = some loc ∧
      net.queue loc = msg :: tail ∧
      (act = .deliver n i ∨ dispatch net.env (net.node n).selfData msg.pdu = none) := by
  have waiting : ∀ b, (net.node b).pc ≠ .q7Receive ∧ (net.node b).pc ≠ .awaitResponse ∧
      ∀ j new, (net.node b).pc ≠ .lastPoll j new := by
    intro b
    by_cases inside : b ∈ members
    · rw [still.serving b inside]
      simp
    · rcases still.others b inside with pc | pc | ended
      · rw [pc]
        simp
      · rw [pc]
        simp
      · cases pc : (net.node b).pc <;> simp [pc, Pc.ended] at ended ⊢
  cases act with
  | client n pdu => cases internal
  | join j entry => cases internal
  | leave n => cases internal
  | timeout n => cases internal
  | deliver n j =>
      obtain ⟨back, other, msg, tail, outcome, polls, reads, found, -, -⟩ := deliver_eq_some stepped
      exact ⟨n, still.polls polls, j, other, msg, tail, reads, found, Or.inl rfl⟩
  | discard n j k =>
      obtain ⟨back, other, msg, tail, polls, reads, found, unknown, -⟩ := discard_eq_some stepped
      exact ⟨n, still.polls polls, j, other, msg, tail, reads, found, Or.inr unknown⟩
  | eof n j =>
      obtain ⟨back, conn, other, own, data, polls, reads, -, ended, held, -⟩ := eof_eq_some stepped
      have at_udp := still.held n (still.polls polls) j other reads ended
      rcases held with ⟨rfl, -⟩ | ⟨rfl, -⟩
      · cases at_udp
      · cases at_udp
  | accept n =>
      obtain ⟨back, conn, tail, -, waits, -⟩ := accept_eq_some stepped
      rw [still.backlog] at waits
      cases waits
  | response n =>
      obtain ⟨pc, -⟩ := response_eq_some stepped
      exact absurd pc (waiting n).1
  | reply n =>
      obtain ⟨pc, -⟩ := reply_eq_some stepped
      exact absurd pc (waiting n).2.1
  | finish n =>
      obtain ⟨j, new, pc, -⟩ := finish_eq_some stepped
      exact absurd pc ((waiting n).2.2 j new)

/-- While one PDU is on its way to a known reader, every step that the nodes can take
by themselves is its delivery. -/
theorem Still.only_delivery {members : List Addr} (still : Still net members)
    (quiet : ∀ loc, net.queue loc = []) {a : Addr} {i : FdsIndex} {loc : Loc}
    (reader : ∀ b ∈ members, ∀ j, (net.node b).reads b j = some loc → b = a ∧ j = i) {msg : Msg}
    (known : ∀ env selfData, dispatch env selfData msg.pdu ≠ none) {act : Act}
    (internal : act.internal = true) {net' : Net}
    (stepped : (net.setQueue loc [msg]).step act = some net') : act = .deliver a i := by
  have still' : Still (net.setQueue loc [msg]) members :=
    ⟨still.serving, still.others, still.held, still.backlog⟩
  obtain ⟨n, mem, j, other, msg', tail, reads, found, read⟩ := still'.internal_reads internal stepped
  rw [setQueue_queue] at found
  by_cases here : other = loc
  · subst here
    rw [Function.update_self] at found
    cases found
    obtain ⟨rfl, rfl⟩ := reader n mem j reads
    exact read.resolve_right (known _ _)
  · rw [Function.update_of_ne here, quiet] at found
    cases found

theorem QuietRing.only_delivery (ring : QuietRing net first rest) {a : Addr} {i : FdsIndex}
    {loc : Loc} (mem : a ∈ first :: rest) (hears : net.hears a i loc) {src max : Addr}
    {maxSpan : UInt8} {act : Act} (internal : act.internal = true) {net' : Net}
    (stepped : (net.carrying loc (.netJoin src maxSpan max)).step act = some net') :
    act = .deliver a i :=
  ring.still.only_delivery ring.quiet (fun _ mem_b _ reads => ring.reader mem mem_b hears reads)
    (fun _ _ unknown => by cases unknown) internal stepped

/-! ## Forwarding -/

theorem span_le (net : Net) (a : Addr) : net.span a ≤ 255 := by
  have := (net.node a).selfData.rangeEnd.toNat_lt
  rw [Net.span]
  omega

def recordPdu (src : Addr) (best : ℕ × Addr) : Pdu := .netJoin src (UInt8.ofNat best.1) best.2

theorem QuietRing.forward (ring : QuietRing net first rest) (src : Addr) {a : Addr}
    {i : FdsIndex} {loc : Loc} (mem : a ∈ first :: rest) (hears : net.hears a i loc) {conn : Conn}
    (successor : (net.node a).selfData.successor.socket = some conn)
    (is_open : net.shut (.up conn) = false) {best : ℕ × Addr} (small : best.1 ≤ 255)
    (other : best.2 ≠ a) :
    (net.carrying loc (recordPdu src best)).step (.deliver a i) =
      some (net.carrying (.up conn) (recordPdu src (pick net.span best a))) := by
  obtain ⟨p, -, conn_p, -, -, -, -, pred, -, -, -⟩ := ring.prev mem
  have queue := carrying_queue ring loc loc (recordPdu src best)
  rw [if_pos rfl] at queue
  have idle : ⟨.q6, (net.node a).selfData⟩ = net.node a := by rw [← ring.serving a mem]
  have record : (UInt8.ofNat best.1).toNat = best.1 := by
    rw [UInt8.toNat_ofNat']
    omega
  have handled : dispatch net.env (net.node a).selfData (recordPdu src best) =
      some ⟨(net.node a).selfData,
        [.tcp (.up conn) (recordPdu src (pick net.span best a))], .run⟩ := by
    have not_named : best.2 ≠ (net.node a).selfData.listening := by rwa [ring.addressed a]
    rw [recordPdu, dispatch, handleNetJoin_forward net.env src _ (by rw [pred]; simp)
      (by rw [successor]; simp) not_named, ring.selfRange mem, record, ring.addressed a,
      sendSuccessor, successor]
    by_cases larger : best.1 < net.span a
    · rw [if_pos (Int.ofNat_lt.mpr larger), pick, if_pos larger, ofInt_natCast]
      rfl
    · rw [if_neg (fun h => larger (Int.ofNat_lt.mp h)), pick, if_neg larger, recordPdu]
  have emptied : (net.carrying loc (recordPdu src best)).setQueue loc [] = net := by
    simp [Net.carrying, Net.setQueue, ← ring.quiet loc]
  have polls : ((net.carrying loc (recordPdu src best)).node a).pc.polls i = some .q6 := by
    change (net.node a).pc.polls i = _
    rw [ring.serving a mem]
    rfl
  have reads : ((net.carrying loc (recordPdu src best)).node a).reads a i = some loc := hears.2
  have dispatched : dispatch (net.carrying loc (recordPdu src best)).env
      ((net.carrying loc (recordPdu src best)).node a).selfData (recordPdu src best) = _ := handled
  simp only [Net.step, Net.deliver, polls, reads, queue, dispatched, Option.map_some]
  have noted : (net.carrying loc (recordPdu src best)).note a ⟨recordPdu src best, none⟩ =
      net.carrying loc (recordPdu src best) := rfl
  rw [noted, emptied, Net.commit, performAll_cons, performAll_nil]
  have pushed : Net.perform (Msg.tag ⟨recordPdu src best, none⟩) net
      (.tcp (.up conn) (recordPdu src (pick net.span best a))) =
      net.carrying (.up conn) (recordPdu src (pick net.span best a)) := by
    simp [Net.perform, is_open, Net.push, ring.quiet, Net.carrying, Msg.tag, recordPdu,
      Pdu.requestKey]
  rw [pushed]
  exact congrArg some (setNode_same idle.symm)

/-- The deliveries along a path that starts at descriptor `i` of its first node. -/
def handlings : FdsIndex → List Addr → List Act
  | _, [] => []
  | i, a :: as => .deliver a i :: handlings .predecessor as

/-- Along a path none of whose nodes is named when the PDU reaches it, every node
passes the PDU on and nothing else can happen. -/
theorem QuietRing.travel (ring : QuietRing net first rest) (src : Addr) (as : List Addr)
    (w : Addr) :
    ∀ (i : FdsIndex) (loc : Loc) (best : ℕ × Addr), (as ++ [w]).IsChain (Linked net) →
      (∀ a ∈ as, a ∈ first :: rest) → (∀ a, (as ++ [w]).head? = some a → net.hears a i loc) →
      best.1 ≤ 255 →
      (∀ pre a post, as = pre ++ a :: post → (pre.foldl (pick net.span) best).2 ≠ a) →
      ∃ loc', net.hears w (if as = [] then i else .predecessor) loc' ∧
        Forced Net.step (fun _ act => act.internal = true) (fun other => other.node = net.node)
          (net.carrying loc (recordPdu src best)) (handlings i as)
          (net.carrying loc' (recordPdu src (as.foldl (pick net.span) best))) := by
  induction as with
  | nil =>
      intro i loc best _ _ hears _ _
      exact ⟨loc, hears w rfl, .nil⟩
  | cons a as ih =>
      intro i loc best chain mem hears small others
      have mem_a := mem a List.mem_cons_self
      have hears_a := hears a rfl
      obtain ⟨b, tail, eq, linked⟩ : ∃ b tail, as ++ [w] = b :: tail ∧ Linked net a b := by
        cases as with
        | nil => exact ⟨w, [], rfl, (List.isChain_cons_cons.mp chain).1⟩
        | cons b as => exact ⟨b, as ++ [w], rfl, (List.isChain_cons_cons.mp chain).1⟩
      obtain ⟨conn, successor, is_open, hears_b⟩ := linked.hears
      have first_step := ring.forward src mem_a hears_a successor is_open small
        (others [] a as rfl)
      have small' : (pick net.span best a).1 ≤ 255 := by
        rw [pick]
        split
        · exact span_le net a
        · exact small
      obtain ⟨loc', hears_w, forced⟩ := ih .predecessor (.up conn) (pick net.span best a)
        chain.tail (fun c mem_c => mem c (List.mem_cons_of_mem _ mem_c))
        (fun c head => by rw [eq] at head; cases head; exact hears_b) small'
        (fun pre c post split => others (a :: pre) c post (by rw [split]; rfl))
      refine ⟨loc', ?_, .cons rfl first_step ?_ forced⟩
      · simpa using hears_w
      · intro act net' internal stepped
        exact ring.only_delivery mem_a hears_a internal stepped

/-! ## Resolving -/

/-- Node `w` has let `j` in: it kept the lower half of its range, `j` is its successor
and is told the upper half, and no other node has changed. -/
structure LetsIn (net : Net) (w j : Addr) (net' : Net) : Prop where
  others : ∀ a, a ≠ w → net'.node a = net.node a
  start : (net'.node w).selfData.rangeStart = (net.node w).selfData.rangeStart
  stop : (net'.node w).selfData.rangeEnd =
    middlePoint (net.node w).selfData.rangeStart (net.node w).selfData.rangeEnd
  response : ∃ conn moved, conn.source = w ∧ conn.target = j ∧
    (net'.node w).selfData.successor = ⟨some conn, j⟩ ∧
    net'.queue (.up conn) = ⟨.netJoinResponse (net.node w).selfData.successor.destAddr
      (middlePoint (net.node w).selfData.rangeStart (net.node w).selfData.rangeEnd + 1)
      (net.node w).selfData.rangeEnd, none⟩ :: moved
  answered : ∀ src maxSpan max, ¬ net'.flying (.netJoin src maxSpan max)

theorem QuietRing.resolve (ring : QuietRing net first rest) {w j : Addr} {loc : Loc}
    (mem : w ∈ first :: rest) (hears : net.hears w .predecessor loc)
    (waits : (net.node j).pc = .q7Accept) (record : UInt8) :
    ∃ net', (net.carrying loc (.netJoin j record w)).step (.deliver w .predecessor) = some net' ∧
      LetsIn net w j net' := by
  obtain ⟨p, -, conn_p, -, -, -, -, pred, -, -, -⟩ := ring.prev mem
  obtain ⟨s, mem_s, conn_s, -, target_s, successor, -, -, -, open_s, -⟩ := ring.next mem
  have queue := carrying_queue ring loc loc (.netJoin j record w)
  rw [if_pos rfl] at queue
  have answers : net.env.answers j = true := by simp [Net.env, waits, Pc.listens]
  have linked : (net.node w).selfData.predecessor ≠ none := by
    rw [pred]
    simp
  have linked' : (net.node w).selfData.successor.socket ≠ none := by
    rw [successor]
    simp
  obtain ⟨data, moved, ctl, run, wiring, -, inserts⟩ :=
    handleNetJoin_resolve record linked linked' (ring.addressed w).symm answers
  have dispatched : dispatch (net.carrying loc (.netJoin j record w)).env
      ((net.carrying loc (.netJoin j record w)).node w).selfData (.netJoin j record w) = _ :=
    congrArg some run
  have polls : ((net.carrying loc (.netJoin j record w)).node w).pc.polls .predecessor =
      some .q6 := by
    change (net.node w).pc.polls .predecessor = _
    rw [ring.serving w mem]
    rfl
  have reads : ((net.carrying loc (.netJoin j record w)).node w).reads w .predecessor =
      some loc := hears.2
  have emptied : ((net.carrying loc (.netJoin j record w)).note w
      ⟨.netJoin j record w, none⟩).setQueue loc [] = net := by
    simp [Net.note, Pdu.requestKey, Net.carrying, Net.setQueue, ← ring.quiet loc]
  refine ⟨net.commit w .q6 none ⟨data, _, ctl⟩, by
    simp only [Net.step, Net.deliver, polls, reads, queue, dispatched, Option.map_some, emptied]
    rfl, ?_⟩
  -- the new connection is not the one to the old successor
  have not_j : s ≠ j := by
    rintro rfl
    rw [ring.serving s mem_s] at waits
    cases waits
  have other : Loc.up conn_s ≠ .up (net.env.conn (net.node w).selfData j) := by
    intro eq
    rw [Loc.up.injEq] at eq
    rw [eq] at target_s
    exact not_j target_s.symm
  have source : (net.env.conn (net.node w).selfData j).source = w := ring.addressed w
  have fresh : net.shut (.up (net.env.conn (net.node w).selfData j)) = false :=
    ring.unused _ le_rfl
  have closes : sendSuccessor (net.node w).selfData .netCloseConnection =
      [.tcp (.up conn_s) .netCloseConnection] := by rw [sendSuccessor, successor]
  have start := congrArg Wiring.rangeStart wiring
  have stop := congrArg Wiring.rangeEnd wiring
  have next := congrArg Wiring.successor wiring
  refine ⟨fun a ne => ?_, ?_, ?_, ?_, ?_⟩
  · rw [commit_node, Function.update_of_ne ne]
  · rw [commit_node, Function.update_self]
    exact start
  · rw [commit_node, Function.update_self]
    exact stop
  · refine ⟨_, (moved.filterMap (Effect.sentTo (.up (net.env.conn (net.node w).selfData j)))).map
      fun pdu => ⟨pdu, none⟩, source, rfl, ?_, ?_⟩
    · rw [commit_node, Function.update_self]
      exact next
    · rw [Net.commit, setNode_queue, performAll_queue fresh, ring.quiet, closes]
      · have skipped := Effect.sentTo_of_ne other .netCloseConnection
        rw [List.nil_append, List.singleton_append, List.filterMap_cons_none skipped,
          List.filterMap_cons_none rfl, List.filterMap_cons_some (Effect.sentTo_self ..)]
        rfl
      · rw [closes]
        simp only [List.cons_append, List.nil_append, List.mem_cons, reduceCtorEq, false_or]
        intro closed
        obtain ⟨ssn, pair, eq⟩ := inserts _ closed
        cases eq
  · intro src maxSpan max flying
    rcases flying_performAll (flying_of_queue (fun _ _ mem => mem) flying) with old | ⟨fd, sent⟩
    · obtain ⟨other_loc, msg, waiting, -⟩ := old
      rw [ring.quiet] at waiting
      cases waiting
    · rw [closes] at sent
      simp only [List.cons_append, List.nil_append, List.mem_cons, Effect.tcp.injEq, reduceCtorEq,
        and_false, false_or] at sent
      obtain ⟨ssn, pair, eq⟩ := inserts _ sent
      cases eq

/-! ## The whole election -/

theorem handlings_append (i : FdsIndex) (a : Addr) (as bs : List Addr) :
    handlings i (a :: as ++ bs) = handlings i (a :: as) ++ handlings .predecessor bs := by
  induction as generalizing i a with
  | nil => rfl
  | cons b as ih =>
      have later := ih .predecessor b
      rw [List.cons_append] at later
      change Act.deliver a i :: handlings .predecessor (b :: (as ++ bs)) = _
      rw [later]
      rfl

theorem QuietRing.letWait (ring : QuietRing net first rest) {j : Addr}
    (absent : (net.node j).pc = .absent) :
    QuietRing (net.setNode j ⟨.q7Accept, SelfData.setup j⟩) first rest := by
  have member : ∀ a ∈ first :: rest,
      (net.setNode j ⟨.q7Accept, SelfData.setup j⟩).node a = net.node a := by
    intro a mem
    refine Function.update_of_ne ?_ _ _
    rintro rfl
    rw [ring.serving a mem] at absent
    cases absent
  refine ⟨ring.several, ring.nodup, ?_, ring.addressed.update rfl rfl, ring.port, ?_, ?_, ?_,
    ring.quiet, ring.backlog, ring.unused⟩
  · intro a mem
    rw [member a mem]
    exact ring.serving a mem
  · intro a mem
    rw [member a mem]
    exact ring.range a mem
  · refine ring.linked.imp_of_mem_imp ?_
    rintro a b mem_a mem_b ⟨conn, source, target, successor, fds, pred, fds_pred, shut⟩
    have in_ring : ∀ c ∈ first :: rest ++ [first], c ∈ first :: rest := by
      intro c mem
      rcases List.mem_append.mp mem with inside | last
      · exact inside
      · rw [List.mem_singleton.mp last]
        exact List.mem_cons_self
    refine ⟨conn, source, target, ?_, ?_, ?_, ?_, shut⟩
    · rw [member a (in_ring a mem_a)]
      exact successor
    · rw [member a (in_ring a mem_a)]
      exact fds
    · rw [member b (in_ring b mem_b)]
      exact pred
    · rw [member b (in_ring b mem_b)]
      exact fds_pred
  · intro a outside
    by_cases same : a = j
    · rw [same, setNode_node, Function.update_self]
      exact Or.inr (Or.inl rfl)
    · rw [setNode_node, Function.update_of_ne same]
      exact ring.others a outside

theorem no_join_step {net' : Net} {act : Act}
    (quiet : ∀ src maxSpan max, ¬ net.flying (.netJoin src maxSpan max))
    (internal : act.internal = true) (stepped : net.step act = some net') :
    ∀ src maxSpan max, ¬ net'.flying (.netJoin src maxSpan max) := by
  intro src maxSpan max flying
  rcases step_join_origin stepped flying with old | ⟨⟨entry, rfl⟩, -⟩ | entered
  · exact quiet src maxSpan max old
  · cases internal
  · obtain ⟨n, i, loc, msg, tail, maxSpan', -, -, queue, ⟨max', pdu⟩, -⟩ := entered
    exact quiet src maxSpan' max' ⟨loc, msg, by rw [queue]; exact List.mem_cons_self, pdu⟩

/-- The election.  `w` is the first node with the largest span in successor order
from the node at which the fresh `NET_JOIN` enters.  The PDU is handled once by
every node of the ring and once more by the nodes before `w`, and none of them
changes; then `w` lets the joining node in.  Whatever the nodes do by themselves,
they are on this way, or they have gone all of it and no `NET_JOIN` is left. -/
theorem netJoin_election {net₁ : Net} {j : Addr} (ring : QuietRing net first rest)
    (spread : ∃ a ∈ first :: rest,
      (net.node a).selfData.rangeStart < (net.node a).selfData.rangeEnd)
    (joined : net.join j first = some net₁) :
    ∃ pre w post net₂ net₃, IsFirstMax net.span (first :: rest) pre w post ∧
      (first :: rest ++ pre ++ [w]).length ≤ 2 * (first :: rest).length ∧
      exec Net.step net₁ (handlings .udp (first :: rest ++ pre)) = some net₂ ∧
      net₂.node = net₁.node ∧ net₂.step (.deliver w .predecessor) = some net₃ ∧
      LetsIn net₂ w j net₃ ∧
      ∀ acts net', Run Net.step (fun _ act => act.internal = true) net₁ acts net' →
        (net'.node = net₁.node ∧ acts <+: handlings .udp (first :: rest ++ pre ++ [w]) ∧
          acts ≠ handlings .udp (first :: rest ++ pre ++ [w])) ∨
        (handlings .udp (first :: rest ++ pre ++ [w]) <+: acts ∧
          ∀ src maxSpan max, ¬ net'.flying (.netJoin src maxSpan max)) := by
  obtain ⟨absent, -, -, rfl⟩ := join_eq_some joined
  let base := net.setNode j ⟨.q7Accept, SelfData.setup j⟩
  have wait : QuietRing base first rest := ring.letWait absent
  have entered : (net.push (.udp first) ⟨joinPdu j, none⟩).setNode j ⟨.q7Accept, SelfData.setup j⟩ =
      base.carrying (.udp first) (recordPdu j (0, ⟨0, 0⟩)) := by
    rw [Net.push, ring.quiet]
    rfl
  rw [entered]
  have same_span : ∀ a ∈ first :: rest, base.span a = net.span a := by
    intro a mem
    have other : a ≠ j := by
      rintro rfl
      rw [ring.serving a mem] at absent
      cases absent
    simp [Net.span, base, Function.update_of_ne other]
  -- the first trip finds the maximum
  obtain ⟨loc₁, hears₁, trip₁⟩ := wait.travel j (first :: rest) first .udp (.udp first)
    (0, ⟨0, 0⟩) wait.linked (fun a mem => mem)
    (fun a head => by cases head; exact ⟨by decide, rfl⟩) (by decide) (by
      intro pre a post split
      have nodup := wait.nodup
      rw [split] at nodup
      rcases foldl_pick_holder base.span (0, ⟨0, 0⟩) pre with start | mem
      · rw [start]
        intro eq
        exact wait.port a (by rw [split]; simp) (congrArg Addr.port eq).symm
      · rintro rfl
        exact (List.nodup_append.mp nodup).2.2 _ mem _ List.mem_cons_self rfl)
  rcases foldl_pick base.span (0, ⟨0, 0⟩) (first :: rest) with
    ⟨small, -⟩ | ⟨pre, w, post, best, -, record⟩
  · obtain ⟨a, mem, wide⟩ := spread
    have none := small a mem
    rw [same_span a mem, Net.span] at none
    have := UInt8.lt_iff_toNat_lt.mp wide
    omega
  rw [record] at trip₁
  have mem_w : w ∈ first :: rest := by
    rw [best.split]
    simp
  -- the second trip comes back to it
  have nodup := wait.nodup
  rw [best.split] at nodup
  obtain ⟨loc₂, hears₂, trip₂⟩ := wait.travel j pre w .predecessor loc₁ (base.span w, w)
    (by
      have chain := wait.linked
      rw [best.split, List.append_assoc, List.cons_append, List.isChain_split] at chain
      exact chain.1)
    (fun a mem => by rw [best.split]; simp [mem])
    (fun a head => by
      have at_first : (pre ++ [w]).head? = some first := by
        have heads := congrArg List.head? best.split
        cases pre with
        | nil => exact heads.symm
        | cons b pre => exact heads.symm
      rw [at_first] at head
      cases head
      simpa using hears₁)
    (span_le base w) (by
      intro pre' a post' split
      have small : ∀ b ∈ pre', base.span b ≤ (base.span w, w).1 := fun b mem =>
        best.le (by rw [best.split, split]; simp [mem])
      rw [foldl_pick_of_le small]
      rintro rfl
      exact (List.nodup_append.mp nodup).2.2 w (by rw [split]; simp) w List.mem_cons_self rfl)
  have record₂ : pre.foldl (pick base.span) (base.span w, w) = (base.span w, w) :=
    foldl_pick_of_le fun a mem => (best.before a mem).le
  rw [record₂] at trip₂
  have hears_w : base.hears w .predecessor loc₂ := by
    split at hears₂ <;> exact hears₂
  -- `w` recognises itself
  obtain ⟨net₃, resolved, letsIn⟩ := wait.resolve mem_w hears_w
    (show (base.node j).pc = .q7Accept by rw [setNode_node, Function.update_self])
    (UInt8.ofNat (base.span w))
  have trip := trip₁.append trip₂
  rw [← handlings_append] at trip
  have last : Forced Net.step (fun _ act => act.internal = true)
      (fun other => other.node = base.node)
      (base.carrying loc₂ (recordPdu j (base.span w, w))) [.deliver w .predecessor] net₃ :=
    .cons rfl resolved (fun act net' internal stepped =>
      wait.only_delivery mem_w hears_w internal stepped) .nil
  have whole := trip.append last
  have path : handlings .udp (first :: rest ++ pre) ++ [.deliver w .predecessor] =
      handlings .udp (first :: rest ++ pre ++ [w]) :=
    (handlings_append .udp first (rest ++ pre) [w]).symm
  rw [path] at whole
  refine ⟨pre, w, post, _, net₃, best.congr fun a mem => (same_span a mem).symm, ?_, trip.exec, rfl,
    resolved, ⟨letsIn.others, letsIn.start, letsIn.stop, letsIn.response, letsIn.answered⟩, ?_⟩
  · have length := congrArg List.length best.split
    simp only [List.length_append, List.length_cons, List.length_nil] at length ⊢
    omega
  · intro acts net' run
    rcases whole.cover run with ⟨same, before, other⟩ | ⟨later, rfl, rest_run⟩
    · exact Or.inl ⟨same, before, other⟩
    · refine Or.inr ⟨List.prefix_append _ _, ?_⟩
      exact rest_run.invariant (P := fun net => ∀ src maxSpan max,
        ¬ net.flying (.netJoin src maxSpan max)) letsIn.answered
        fun _ _ _ quiet internal stepped => no_join_step quiet internal stepped

end

/-! ## A ring of two -/

def pairNet : Net :=
  { Net.founded nodeA with
    node := fun a =>
      if a = nodeA then
        ⟨.q6, { SelfData.setup nodeA with
          hashTable := some htCreate
          rangeStart := 0
          rangeEnd := 127
          fdsSuccessor := some connAB
          fdsPredecessor := some connBA
          successor := ⟨some connAB, nodeB⟩
          predecessor := some connBA }⟩
      else if a = nodeB then
        ⟨.q6, { SelfData.setup nodeB with
          hashTable := some htCreate
          rangeStart := 128
          rangeEnd := 255
          fdsSuccessor := some connBA
          fdsPredecessor := some connAB
          successor := ⟨some connBA, nodeA⟩
          predecessor := some connAB }⟩
      else ⟨.absent, SelfData.setup a⟩
    serial := 2 }

theorem quietRing_pairNet : QuietRing pairNet nodeA [nodeB] where
  several := by simp
  nodup := by decide
  serving := by decide
  addressed := by
    intro a
    simp only [pairNet]
    split
    · rename_i same
      rw [same]
      rfl
    · split
      · rename_i same
        rw [same]
        rfl
      · rfl
  port := by decide
  range := by decide
  linked := by
    refine .cons_cons ⟨connAB, rfl, rfl, rfl, rfl, rfl, rfl, rfl, rfl⟩ (.cons_cons ?_ (.singleton _))
    exact ⟨connBA, rfl, rfl, rfl, rfl, rfl, rfl, rfl, rfl⟩
  others := by
    intro a outside
    rw [List.mem_cons, List.mem_singleton, not_or] at outside
    simp [pairNet, outside.1, outside.2]
  quiet := fun _ => rfl
  backlog := fun _ => rfl
  unused := fun _ _ => rfl

theorem netJoin_election_pairNet : ∃ net₁ w net₂ net₃, pairNet.join nodeC nodeA = some net₁ ∧
    net₂.step (.deliver w .predecessor) = some net₃ ∧ LetsIn net₂ w nodeC net₃ := by
  obtain ⟨net₁, joined⟩ : ∃ net₁, pairNet.join nodeC nodeA = some net₁ :=
    Option.isSome_iff_exists.mp (by decide)
  obtain ⟨pre, w, post, net₂, net₃, -, -, -, -, resolved, letsIn, -⟩ :=
    netJoin_election quietRing_pairNet ⟨nodeA, by decide, by decide⟩ joined
  exact ⟨net₁, w, net₂, net₃, joined, resolved, letsIn⟩

end DhtRing

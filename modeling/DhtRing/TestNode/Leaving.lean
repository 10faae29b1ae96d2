import DhtRing.TestNode.Receiving
import DhtRing.TestNode.Rounds

/-!
# Leaving under request traffic

A node that leaves asks a neighbour to take its range, waits for the answer and stops.  It
asks the predecessor on the connection on which requests come in.  A request in front of the
answer ends in a panic, and a request that is read together with it stays in the queue.  A
PDU that has been left in the queue before, say behind a `NET_JOIN_RESPONSE`, is taken for
the answer too.
-/

set_option autoImplicit false

namespace DhtRing.TestNode

open Framing

/-! ## What comes in -/

def Node.Arrival.bytes (arrival : Node.Arrival) : List UInt8 :=
  arrival.bursts.flatMap Subtype.val

def arrived (arrivals : List Node.Arrival) : List UInt8 := arrivals.flatMap Node.Arrival.bytes

structure Request (pdu : PDU) : Prop where
  key : pdu.key.isSome
  encodable : pdu.Encodable

def rangeResponse : PDU := .netNewRangeResponse NetNewRangeResponsePdu.new

/-- How many bytes the read that brings the answer brings behind it, when nothing is in front
of the answer. -/
def behindAnswer (arrivals : List Node.Arrival) : ℕ :=
  min (((arrivals.map Node.Arrival.bytes).find? (· ≠ [])).getD []).length bufferSize - 1

/-- The first `k` bytes complete no request, and do not end behind the name of one. -/
def Incomplete (k : ℕ) : List PDU → Prop
  | [] => True
  | pdu :: _ => k < pdu.toBytes.length ∧ pdu.nameEnd ≠ some k

namespace Node

/-! ## The two connections -/

def sideWrapper (node : Node) (successor : Bool) : TcpWrapper :=
  if successor then node.successorWrapper else node.predecessorWrapper

def sideSocket (node : Node) (successor : Bool) : Option TcpStream :=
  if successor then node.successor else node.predecessor

def leave (node : Node) (arrivals : List Arrival) : Except String (Option Node) := do
  match ← node.q10.q11 arrivals with
  | none => return none
  | some node => return some (← node.q18)

/-- The node stops without a panic, and nothing that it has read is left behind. -/
def LeavesClean (node : Node) (arrivals : List Arrival) : Prop :=
  ∃ left, node.leave arrivals = .ok (some left) ∧ left.running = false ∧
    left.predecessorWrapper.incomingQueue = [] ∧ left.successorWrapper.incomingQueue = []

def asksSuccessor (node : Node) : Bool := node.hashRange.1 = 0

/-- A node leaves a ring of at least two nodes.  The neighbour that it asks has sent the
requests `before`, of which some bytes are here already, and sends the answer and then the
requests `after`.  Only a predecessor sends requests.  Nobody has answered before. -/
structure Traffic (node : Node) (arrivals : List Arrival) (before after : List PDU) : Prop where
  successor : node.successor.isSome
  predecessor : node.predecessor.isSome
  successorListen : node.successorListen.isSome
  unanswered : ∀ side, ∀ message ∈ (node.sideWrapper side).incomingQueue,
    ∀ pdu, message.1 ≠ .netNewRangeResponse pdu
  requests : ∀ pdu ∈ before ++ after, Request pdu
  stream : ∃ socket waiting begun rest, node.sideSocket node.asksSuccessor = some socket ∧
    (node.sideWrapper node.asksSuccessor).buffer ++ socket.pending ++ waiting =
      before.flatMap PDU.toBytes ∧
    arrived arrivals = waiting ++ rangeResponse.toBytes ++ begun ∧
    begun ++ rest = after.flatMap PDU.toBytes
  one_way : node.asksSuccessor = true → before = [] ∧ after = []

/-! ## One poll -/

variable {node next : Node} {side : Bool} {socket : TcpStream} {buffer pending : List UInt8}

structure Waiting (node : Node) (side : Bool) (buffer pending : List UInt8) : Prop where
  wrapper : node.sideWrapper side = ⟨[], buffer⟩
  socket : ∃ socket, node.sideSocket side = some socket ∧ socket.pending = pending

structure OtherSide (side : Bool) (node next : Node) : Prop where
  wrapper : next.sideWrapper (!side) = node.sideWrapper (!side)
  successor : next.successor.isSome = node.successor.isSome
  predecessor : next.predecessor.isSome = node.predecessor.isSome
  successorListen : next.successorListen = node.successorListen
  hashRange : next.hashRange = node.hashRange

theorem OtherSide.trans {last : Node} (first : OtherSide side node next)
    (second : OtherSide side next last) : OtherSide side node last where
  wrapper := second.wrapper.trans first.wrapper
  successor := second.successor.trans first.successor
  predecessor := second.predecessor.trans first.predecessor
  successorListen := second.successorListen.trans first.successorListen
  hashRange := second.hashRange.trans first.hashRange

def withSide (node : Node) (side : Bool) (wrapper : TcpWrapper) (socket : TcpStream) : Node :=
  if side then { node with successor := some socket, successorWrapper := wrapper }
  else { node with predecessor := some socket, predecessorWrapper := wrapper }

theorem withSide_other (set : node.sideSocket side = some socket) (wrapper : TcpWrapper)
    (socket' : TcpStream) : OtherSide side node (node.withSide side wrapper socket') := by
  cases side with
  | false =>
      have set : node.predecessor = some socket := set
      exact ⟨rfl, rfl, by rw [set]; rfl, rfl, rfl⟩
  | true =>
      have set : node.successor = some socket := set
      exact ⟨rfl, by rw [set]; rfl, rfl, rfl, rfl⟩

theorem sideWrapper_withSide (wrapper : TcpWrapper) :
    (node.withSide side wrapper socket).sideWrapper side = wrapper := by
  cases side <;> rfl

theorem sideSocket_withSide (wrapper : TcpWrapper) :
    (node.withSide side wrapper socket).sideSocket side = some socket := by
  cases side <;> rfl

theorem pollPdu_eq (set : node.sideSocket side = some socket) :
    node.pollPdu side =
      match (node.sideWrapper side).tryRead socket with
      | .error e => .error e
      | .ok (_, wrapper, socket') =>
          match wrapper.incomingQueue with
          | [] => .ok (none, node.withSide side wrapper socket')
          | x :: queue =>
              .ok (some x, node.withSide side { wrapper with incomingQueue := queue } socket') := by
  cases side with
  | false =>
      have set : node.predecessor = some socket := set
      simp only [pollPdu, set, unwrap, ok_bind, sideWrapper, withSide, Bool.false_eq_true, if_false]
      cases node.predecessorWrapper.tryRead socket with
      | error e => rfl
      | ok answer =>
          obtain ⟨closed, ⟨queue, buffer⟩, socket'⟩ := answer
          cases queue <;> rfl
  | true =>
      have set : node.successor = some socket := set
      simp only [pollPdu, set, unwrap, ok_bind, sideWrapper, withSide, if_true]
      cases node.successorWrapper.tryRead socket with
      | error e => rfl
      | ok answer =>
          obtain ⟨closed, ⟨queue, buffer⟩, socket'⟩ := answer
          cases queue <;> rfl

theorem awaitPdu_cons (set : node.sideSocket side = some socket) (arrival : Arrival)
    (arrivals : List Arrival) :
    awaitPdu side (arrival :: arrivals) node =
      match (node.sideWrapper side).tryRead (arrive socket arrival) with
      | .error e => .error e
      | .ok (_, wrapper, socket') =>
          match wrapper.incomingQueue with
          | [] => awaitPdu side arrivals (node.withSide side wrapper socket')
          | x :: queue =>
              .ok (some (x, node.withSide side { wrapper with incomingQueue := queue } socket')) := by
  obtain ⟨reached, eq, set', wrapper, same⟩ : ∃ reached : Node,
      (if side then { node with successor := node.successor.map (arrive · arrival) }
        else { node with predecessor := node.predecessor.map (arrive · arrival) }) = reached ∧
      reached.sideSocket side = some (arrive socket arrival) ∧
      reached.sideWrapper side = node.sideWrapper side ∧
      ∀ wrapper socket, reached.withSide side wrapper socket = node.withSide side wrapper socket := by
    cases side <;> exact ⟨_, rfl, congrArg (Option.map (arrive · arrival)) set, rfl, fun _ _ => rfl⟩
  rw [awaitPdu, eq, pollPdu_eq set', wrapper]
  cases (node.sideWrapper side).tryRead (arrive socket arrival) with
  | error e => rfl
  | ok answer =>
      obtain ⟨closed, ⟨queue, buffer⟩, socket'⟩ := answer
      simp only [same]
      cases queue <;> rfl

theorem pending_arrive (socket : TcpStream) (arrival : Arrival) :
    (arrive socket arrival).pending = socket.pending ++ arrival.bytes :=
  List.flatMap_append

def nextBuffer (buffer pending : List UInt8) (arrival : Arrival) : List UInt8 :=
  buffer ++ (pending ++ arrival.bytes).take (bufferSize - buffer.length)

def nextPending (buffer pending : List UInt8) (arrival : Arrival) : List UInt8 :=
  (pending ++ arrival.bytes).drop (bufferSize - buffer.length)

theorem nextBuffer_append (buffer pending : List UInt8) (arrival : Arrival) :
    nextBuffer buffer pending arrival ++ nextPending buffer pending arrival =
      buffer ++ pending ++ arrival.bytes := by
  rw [nextBuffer, nextPending, List.append_assoc, List.take_append_drop, List.append_assoc]

/-- What is in the queue already comes out first. -/
theorem awaitPdu_queued {message first : Message} {queue : List Message}
    (set : (node.sideSocket side).isSome)
    (wrapper : node.sideWrapper side = ⟨message :: queue, buffer⟩) {arrivals : List Arrival}
    (got : awaitPdu side arrivals node = .ok (some (first, next))) :
    first = message := by
  obtain ⟨socket, set⟩ := Option.isSome_iff_exists.mp set
  cases arrivals with
  | nil => cases got
  | cons arrival arrivals =>
      obtain ⟨socket', read, -⟩ := (node.sideWrapper side).tryRead_eq (arrive socket arrival)
      rw [awaitPdu_cons set, read, wrapper] at got
      cases fed : feed parsePdu ([], []) ((⟨message :: queue, buffer⟩ : TcpWrapper).filled
          (arrive socket arrival)) with
      | error e =>
          rw [fed] at got
          cases got
      | ok found =>
          rw [fed] at got
          cases got
          rfl

theorem awaitPdu_other {message : Message} : ∀ {arrivals : List Arrival} {node : Node},
    (node.sideSocket side).isSome → awaitPdu side arrivals node = .ok (some (message, next)) →
      OtherSide side node next := by
  intro arrivals
  induction arrivals with
  | nil =>
      intro node _ got
      cases got
  | cons arrival arrivals ih =>
      intro node set got
      obtain ⟨socket, set⟩ := Option.isSome_iff_exists.mp set
      rw [awaitPdu_cons set] at got
      cases read : (node.sideWrapper side).tryRead (arrive socket arrival) with
      | error e =>
          rw [read] at got
          cases got
      | ok answer =>
          rw [read] at got
          obtain ⟨closed, ⟨queue, buffer⟩, socket'⟩ := answer
          cases queue with
          | nil =>
              have later := ih (by rw [sideSocket_withSide]; rfl) got
              exact (withSide_other set _ _).trans later
          | cons first queue =>
              cases got
              exact withSide_other set _ _

theorem awaitPdu_poll (waiting : Waiting node side buffer pending) (arrival : Arrival)
    (arrivals : List Arrival) :
    match feed parsePdu ([], []) (nextBuffer buffer pending arrival) with
    | .error e => awaitPdu side (arrival :: arrivals) node = .error e
    | .ok ([], rest) => ∃ next, Waiting next side rest (nextPending buffer pending arrival) ∧
        OtherSide side node next ∧
        awaitPdu side (arrival :: arrivals) node = awaitPdu side arrivals next
    | .ok (pdu :: more, rest) => ∃ addr next, OtherSide side node next ∧
        next.sideWrapper side = ⟨more.map fun pdu => (pdu, addr), rest⟩ ∧
        awaitPdu side (arrival :: arrivals) node = .ok (some ((pdu, addr), next)) := by
  obtain ⟨wrapper, socket, set, rfl⟩ := waiting
  obtain ⟨socket', read, left, -⟩ := (node.sideWrapper side).tryRead_eq (arrive socket arrival)
  have filled : (node.sideWrapper side).filled (arrive socket arrival) =
      nextBuffer buffer socket.pending arrival := by
    rw [TcpWrapper.filled, wrapper, pending_arrive, nextBuffer]
  have next_pending : socket'.pending = nextPending buffer socket.pending arrival := by
    rw [left, wrapper, pending_arrive, nextPending]
  rw [filled, wrapper] at read
  rw [awaitPdu_cons set, wrapper, read]
  cases feed parsePdu ([], []) (nextBuffer buffer socket.pending arrival) with
  | error e => rfl
  | ok found =>
      obtain ⟨_ | ⟨pdu, more⟩, rest⟩ := found
      · exact ⟨_, ⟨sideWrapper_withSide _, socket', sideSocket_withSide _, next_pending⟩,
          withSide_other set _ _, rfl⟩
      · exact ⟨_, _, withSide_other set _ _, sideWrapper_withSide _, rfl⟩

/-! ## The first PDU -/

theorem feed_cases (buffer : List UInt8) :
    ∃ pdus rest, (∀ pdu ∈ pdus, pdu.Parsed) ∧ Stuck parsePdu rest ∧
      buffer = pdus.flatMap PDU.wire ++ rest ∧
      feed parsePdu ([], []) buffer = match parsePdu rest with
        | .error e => .error e
        | .ok _ => .ok (pdus, rest) := by
  obtain ⟨pdus, rest, valid, stuck, split⟩ := parsePdu_frames.exists_split buffer
  have piece : [] ++ buffer = pdus.flatMap PDU.wire ++ rest := split
  refine ⟨pdus, rest, valid, stuck, split, ?_⟩
  rw [parsePdu_frames.feed_eq valid stuck piece]
  cases parsePdu rest <;> rfl

/-- The PDU that a node gets is the first one of the stream. -/
theorem awaitPdu_first {pdus : List PDU} {message : Message} (valid : ∀ pdu ∈ pdus, pdu.Parsed) :
    ∀ {arrivals : List Arrival} {node : Node} {buffer pending tail : List UInt8},
      Waiting node side buffer pending →
      buffer ++ pending ++ arrived arrivals ++ tail = pdus.flatMap PDU.wire →
      awaitPdu side arrivals node = .ok (some (message, next)) →
        ∃ later, pdus = message.1 :: later := by
  intro arrivals
  induction arrivals with
  | nil =>
      intro node buffer pending tail _ _ got
      cases got
  | cons arrival arrivals ih =>
      intro node buffer pending tail waiting stream got
      have poll := awaitPdu_poll waiting arrival arrivals
      have split_stream : nextBuffer buffer pending arrival ++
          nextPending buffer pending arrival ++ arrived arrivals ++ tail =
            pdus.flatMap PDU.wire := by
        have first : arrived (arrival :: arrivals) = arrival.bytes ++ arrived arrivals := rfl
        rw [nextBuffer_append, ← stream, first]
        simp only [List.append_assoc]
      obtain ⟨found, rest, valid_found, -, split, fed⟩ :=
        feed_cases (nextBuffer buffer pending arrival)
      rw [fed] at poll
      cases parsed : parsePdu rest with
      | error e =>
          rw [parsed] at poll
          rw [poll] at got
          cases got
      | ok stuck =>
          rw [parsed] at poll
          cases found with
          | nil =>
              obtain ⟨later, waiting', -, same⟩ := poll
              rw [List.flatMap_nil, List.nil_append] at split
              rw [split] at split_stream
              exact ih waiting' split_stream (same ▸ got)
          | cons pdu more =>
              obtain ⟨addr, last, -, -, eq⟩ := poll
              obtain ⟨rfl, -⟩ := Prod.mk.inj (Option.some.inj (Except.ok.inj (eq.symm.trans got)))
              rw [split, List.append_assoc, List.append_assoc, List.append_assoc] at split_stream
              obtain ⟨later, rfl, -⟩ :=
                parsePdu_frames.of_prefix valid_found valid split_stream
              exact ⟨more ++ later, rfl⟩

/-! ## The answer in front -/

theorem behindAnswer_cons (arrival : Arrival) (arrivals : List Arrival) :
    behindAnswer (arrival :: arrivals) =
      if arrival.bytes = [] then behindAnswer arrivals
      else min arrival.bytes.length bufferSize - 1 := by
  rw [behindAnswer, List.map_cons]
  by_cases empty : arrival.bytes = []
  · rw [if_pos empty, List.find?_cons_of_neg (by simp [empty]), behindAnswer]
  · rw [if_neg empty, List.find?_cons_of_pos (by simp [empty])]
    rfl

/-- Polls that bring nothing change nothing, and the first that brings bytes brings the
answer. -/
theorem awaitPdu_answer {begun : List UInt8} : ∀ {arrivals : List Arrival} {node : Node},
    Waiting node side [] [] → arrived arrivals = rangeResponse.toBytes ++ begun →
      ∃ x y, begun = x ++ y ∧ x.length = behindAnswer arrivals ∧
        match feed parsePdu ([], []) (rangeResponse.toBytes ++ x) with
        | .error e => awaitPdu side arrivals node = .error e
        | .ok ([], _) => True
        | .ok (pdu :: more, rest) => ∃ addr next, OtherSide side node next ∧
            next.sideWrapper side = ⟨more.map fun pdu => (pdu, addr), rest⟩ ∧
            awaitPdu side arrivals node = .ok (some ((pdu, addr), next)) := by
  intro arrivals
  induction arrivals with
  | nil =>
      intro node _ stream
      cases stream
  | cons arrival arrivals ih =>
      intro node waiting stream
      have poll := awaitPdu_poll waiting arrival arrivals
      have read : nextBuffer [] [] arrival = arrival.bytes.take bufferSize := rfl
      have first : arrived (arrival :: arrivals) = arrival.bytes ++ arrived arrivals := rfl
      rw [first] at stream
      rw [behindAnswer_cons]
      by_cases empty : arrival.bytes = []
      · have nothing : feed parsePdu ([], []) (nextBuffer [] [] arrival) = .ok ([], []) := by
          rw [read, empty]
          rfl
        have none_left : nextPending [] [] arrival = [] := by
          rw [nextPending, empty]
          rfl
        rw [nothing] at poll
        obtain ⟨next, waiting', other, same⟩ := poll
        rw [none_left] at waiting'
        rw [empty, List.nil_append] at stream
        obtain ⟨x, y, split, length, got⟩ := ih waiting' stream
        refine ⟨x, y, split, by rw [if_pos empty, length], ?_⟩
        rw [same]
        cases fed : feed parsePdu ([], []) (rangeResponse.toBytes ++ x) with
        | error e =>
            rw [fed] at got
            exact got
        | ok found =>
            rw [fed] at got
            obtain ⟨_ | ⟨pdu, more⟩, rest⟩ := found
            · trivial
            · obtain ⟨addr, last, other', wrapper, eq⟩ := got
              exact ⟨addr, last, other.trans other', wrapper, eq⟩
      · obtain ⟨byte, bytes, eq⟩ := List.exists_cons_of_ne_nil empty
        rw [eq] at stream
        change byte :: (bytes ++ arrived arrivals) = 8 :: begun at stream
        obtain ⟨rfl, rfl⟩ := List.cons.inj stream
        have taken : nextBuffer [] [] arrival =
            rangeResponse.toBytes ++ bytes.take (bufferSize - 1) := by
          rw [read, eq]
          rfl
        refine ⟨bytes.take (bufferSize - 1), bytes.drop (bufferSize - 1) ++ arrived arrivals,
          ?_, ?_, ?_⟩
        · rw [← List.append_assoc, List.take_append_drop]
        · rw [if_neg empty, eq, List.length_take, List.length_cons]
          omega
        · rw [← taken]
          cases fed : feed parsePdu ([], []) (nextBuffer [] [] arrival) with
          | error e =>
              rw [fed] at poll
              exact poll
          | ok found =>
              rw [fed] at poll
              obtain ⟨_ | ⟨pdu, more⟩, rest⟩ := found
              · trivial
              · exact poll

theorem q18_of_neighbours (successor : node.successor.isSome)
    (predecessor : node.predecessor.isSome)
    (successorListen : node.successorListen.isSome) :
    ∃ left, node.q18 = .ok left ∧ left.running = false ∧
      ∀ side, left.sideWrapper side = node.sideWrapper side := by
  obtain ⟨suc, suc_set⟩ := Option.isSome_iff_exists.mp successor
  obtain ⟨pred, pred_set⟩ := Option.isSome_iff_exists.mp predecessor
  obtain ⟨addr, listen⟩ := Option.isSome_iff_exists.mp successorListen
  have moved : ∃ next, node.transfer (node.hashRange.1 = 0) node.hashRange.1 node.hashRange.2 =
      .ok next ∧ next.successor = some suc ∧ next.predecessor = some pred ∧
      next.successorListen = some addr ∧ ∀ side, next.sideWrapper side = node.sideWrapper side := by
    have set : ∃ socket, unwrap (if decide (node.hashRange.1 = 0) = true then node.successor
        else node.predecessor) = .ok socket := by
      split
      · exact ⟨suc, by rw [suc_set]; rfl⟩
      · exact ⟨pred, by rw [pred_set]; rfl⟩
    obtain ⟨socket, set⟩ := set
    rw [transfer, set, ok_bind]
    exact ⟨_, rfl, suc_set, pred_set, listen, fun side => rfl⟩
  obtain ⟨next, moved, suc_next, pred_next, listen_next, same⟩ := moved
  rw [q18]
  dsimp only
  rw [moved, ok_bind]
  simp only [suc_next, pure_bind, emit, listen_next, pred_next]
  exact ⟨_, rfl, rfl, same⟩

end Node

/-! ## Behind the answer -/

section

variable {pdu : PDU} {after : List PDU} {x y : List UInt8}

theorem Request.parsed (request : Request pdu) : pdu.Parsed := by
  have same : pdu.asParsed = pdu := by
    have key := request.key
    cases pdu <;> first | rfl | cases key
  rw [← same]
  exact request.encodable.asParsed

theorem Request.wire (request : Request pdu) : pdu.wire = pdu.toBytes :=
  PDU.wire_eq_toBytes request.encodable.1

theorem flatMap_wire_requests (requests : ∀ pdu ∈ after, Request pdu) :
    after.flatMap PDU.wire = after.flatMap PDU.toBytes :=
  List.flatMap_congr fun pdu mem => (requests pdu mem).wire

theorem nameEnd_lt {cut : ℕ} (fits : pdu.Fits) (named : pdu.nameEnd = some cut) :
    cut < pdu.wire.length := by
  obtain ⟨-, nameLength, ssn, name, email, ssn_length, name_length, rfl, some_email, wire⟩ :=
    PDU.wire_of_nameEnd fits named
  have := List.length_pos_iff.mpr some_email
  rw [wire, List.length_append, List.length_cons, List.length_append, List.length_cons,
    ssn_length, name_length]
  omega

theorem incomplete_iff {found : List PDU} {rest : List UInt8}
    (requests : ∀ pdu ∈ after, Request pdu) (begun : x ++ y = after.flatMap PDU.toBytes)
    (valid : ∀ pdu ∈ found, pdu.Parsed) (stuck : Stuck parsePdu rest)
    (split : x = found.flatMap PDU.wire ++ rest) :
    Incomplete x.length after ↔ found = [] ∧ ∀ e, parsePdu rest ≠ .error e := by
  have parsed : ∀ pdu ∈ after, pdu.Parsed := fun pdu mem => (requests pdu mem).parsed
  rw [← flatMap_wire_requests requests] at begun
  cases after with
  | nil =>
      rw [List.flatMap_nil] at begun
      obtain ⟨rfl, -⟩ := List.append_eq_nil_iff.mp begun
      obtain ⟨none, rfl⟩ := List.append_eq_nil_iff.mp split.symm
      refine iff_of_true trivial ⟨?_, fun e fails => ?_⟩
      · cases found with
        | nil => rfl
        | cons pdu found =>
            exact absurd (List.append_eq_nil_iff.mp none).1 pdu.wire_ne_nil
      · cases fails
  | cons pdu after =>
      have here := requests pdu (List.mem_cons_self ..)
      rw [Incomplete, ← here.wire]
      constructor
      · rintro ⟨short, unnamed⟩
        have none_found : found = [] := by
          cases found with
          | nil => rfl
          | cons first found =>
              have stream := begun
              rw [split, List.append_assoc] at stream
              obtain ⟨later, eq, -⟩ := parsePdu_frames.of_prefix valid parsed stream
              obtain ⟨rfl, -⟩ := List.cons.inj eq
              rw [split, List.flatMap_cons, List.length_append, List.length_append] at short
              omega
        refine ⟨none_found, fun e fails => ?_⟩
        subst none_found
        have whole : x = rest := split
        subst whole
        rw [List.flatMap_cons] at begun
        obtain ⟨cut, named, eq⟩ := nameEnd_of_error here.parsed.2 fails begun
        have inside := nameEnd_lt here.parsed.2 named
        apply unnamed
        rw [named, eq, List.length_take, Nat.min_eq_left inside.le]
      · rintro ⟨rfl, waits⟩
        have whole : x = rest := split
        subst whole
        rw [List.flatMap_cons] at begun
        refine ⟨?_, fun named => ?_⟩
        · by_contra long
          have long := Nat.le_of_not_lt long
          have taken := congrArg (List.take pdu.wire.length) begun
          rw [List.take_append_of_le_length long, List.take_left] at taken
          have front := List.take_append_drop pdu.wire.length x
          rw [taken] at front
          exact stuck pdu _ (front ▸ parsePdu_frames.whole pdu _ here.parsed)
        · have inside := nameEnd_lt here.parsed.2 named
          have front : x = pdu.wire.take x.length := by
            have taken := congrArg (List.take x.length) begun
            rw [List.take_left, List.take_append_of_le_length inside.le] at taken
            exact taken
          obtain ⟨e, fails⟩ := parsePdu_take_nameEnd here.parsed.2 named
          rw [← front] at fails
          exact waits e fails

end

namespace Node

variable {node : Node} {arrivals : List Arrival} {before after : List PDU}

theorem q11_eq (successor : node.successor.isSome) (predecessor : node.predecessor.isSome)
    (arrivals : List Arrival) :
    ∃ asked, node.q10.q11 arrivals = (do
        match ← awaitPdu node.asksSuccessor arrivals asked with
        | none => return none
        | some ((pdu, _), node) => return some (← node.q11Received pdu)) ∧
      OtherSide node.asksSuccessor node asked ∧
      asked.sideWrapper node.asksSuccessor = node.sideWrapper node.asksSuccessor ∧
      asked.sideSocket node.asksSuccessor = node.sideSocket node.asksSuccessor := by
  obtain ⟨suc, suc_set⟩ := Option.isSome_iff_exists.mp successor
  obtain ⟨pred, pred_set⟩ := Option.isSome_iff_exists.mp predecessor
  have entered : node.q10 = { node with state := .q11 } := by
    rw [q10, suc_set]
    rfl
  obtain ⟨asked, asks, other, wrapper, socket⟩ : ∃ asked,
      q11Ask { node with state := .q11 } = .ok (node.asksSuccessor, asked) ∧
      OtherSide node.asksSuccessor node asked ∧
      asked.sideWrapper node.asksSuccessor = node.sideWrapper node.asksSuccessor ∧
      asked.sideSocket node.asksSuccessor = node.sideSocket node.asksSuccessor := by
    simp only [q11Ask, suc_set, pred_set, asksSuccessor]
    split
    · refine ⟨_, rfl, ⟨rfl, ?_, ?_, rfl, rfl⟩, rfl, ?_⟩
      all_goals simp only [emit, sideSocket, suc_set, pred_set]
    · refine ⟨_, rfl, ⟨rfl, ?_, ?_, rfl, rfl⟩, rfl, ?_⟩
      all_goals simp only [emit, sideSocket, suc_set, pred_set]
  refine ⟨asked, ?_, other, wrapper, socket⟩
  rw [entered, q11, asks]
  rfl

theorem q11Received_of_request {pdu : PDU} (request : Request pdu) (node : Node) :
    node.q11Received pdu = .error "Expected NET_NEW_RANGE_RESPONSE" := by
  have key := request.key
  cases pdu <;> first | rfl | cases key

/-- With the answer at the head of what was read, the rest of that read stays in the queue. -/
theorem leavesClean_of_answer {asked next : Node} {addr : Addr} {found : List PDU}
    {rest : List UInt8} (traffic : node.Traffic arrivals before after)
    (handled : ∀ side, (node.sideWrapper side).incomingQueue = [])
    (asks : node.q10.q11 arrivals = (do
        match ← awaitPdu node.asksSuccessor arrivals asked with
        | none => return none
        | some ((pdu, _), node) => return some (← node.q11Received pdu)))
    (other : OtherSide node.asksSuccessor node next)
    (wrapper : next.sideWrapper node.asksSuccessor = ⟨found.map fun pdu => (pdu, addr), rest⟩)
    (answered : awaitPdu node.asksSuccessor arrivals asked =
      .ok (some ((rangeResponse, addr), next))) :
    node.LeavesClean arrivals ↔ found = [] := by
  have listens : next.successorListen.isSome := by
    rw [other.successorListen]
    exact traffic.successorListen
  obtain ⟨left, ran, stopped, same⟩ : ∃ left, q18 { next with state := .q18 } = .ok left ∧
      left.running = false ∧ ∀ side, left.sideWrapper side = next.sideWrapper side :=
    q18_of_neighbours (other.successor.trans traffic.successor)
      (other.predecessor.trans traffic.predecessor) listens
  have left_eq : node.leave arrivals = .ok (some left) := by
    rw [leave, asks, answered]
    change (q18 { next with state := .q18 } >>= fun node => pure (some node)) = _
    rw [ran]
    rfl
  have asked_queue : (left.sideWrapper node.asksSuccessor).incomingQueue = [] ↔ found = [] := by
    rw [same, wrapper, List.map_eq_nil_iff]
  have other_queue : (left.sideWrapper (!node.asksSuccessor)).incomingQueue = [] := by
    rw [same, other.wrapper]
    exact handled _
  constructor
  · rintro ⟨left', left_eq', -, predecessor, successor⟩
    obtain rfl := Option.some.inj (Except.ok.inj (left_eq.symm.trans left_eq'))
    apply asked_queue.mp
    cases node.asksSuccessor with
    | false => exact predecessor
    | true => exact successor
  · intro none
    have none_asked := asked_queue.mpr none
    cases side : node.asksSuccessor with
    | false =>
        rw [side] at none_asked other_queue
        exact ⟨left, left_eq, stopped, none_asked, other_queue⟩
    | true =>
        rw [side] at none_asked other_queue
        exact ⟨left, left_eq, stopped, other_queue, none_asked⟩

theorem leave_eq_ok {asked left : Node}
    (asks : node.q10.q11 arrivals = (do
        match ← awaitPdu node.asksSuccessor arrivals asked with
        | none => return none
        | some ((pdu, _), node) => return some (← node.q11Received pdu)))
    (left_eq : node.leave arrivals = .ok (some left)) :
    ∃ message next answered,
      awaitPdu node.asksSuccessor arrivals asked = .ok (some (message, next)) ∧
      next.q11Received message.1 = .ok answered ∧ answered.q18 = .ok left := by
  rw [leave, asks] at left_eq
  cases got : awaitPdu node.asksSuccessor arrivals asked with
  | error e =>
      rw [got] at left_eq
      cases left_eq
  | ok answer =>
      rw [got] at left_eq
      cases answer with
      | none => cases left_eq
      | some answer =>
          obtain ⟨⟨pdu, addr⟩, next⟩ := answer
          change (next.q11Received pdu >>= fun node => pure (some node)) >>= _ = _ at left_eq
          cases received : next.q11Received pdu with
          | error e =>
              rw [received] at left_eq
              cases left_eq
          | ok answered =>
              rw [received] at left_eq
              change (answered.q18 >>= fun node => pure (some node)) = _ at left_eq
              cases stopped : answered.q18 with
              | error e =>
                  rw [stopped] at left_eq
                  cases left_eq
              | ok last =>
                  rw [stopped] at left_eq
                  cases left_eq
                  exact ⟨(pdu, addr), next, answered, rfl, received, stopped⟩

theorem q11Received_eq_ok {answered : Node} {pdu : PDU}
    (received : node.q11Received pdu = .ok answered) :
    (∃ response, pdu = .netNewRangeResponse response) ∧ answered = { node with state := .q18 } := by
  cases pdu with
  | netNewRangeResponse response =>
      cases received
      exact ⟨⟨response, rfl⟩, rfl⟩
  | _ => cases received

theorem handled_of_leavesClean (traffic : node.Traffic arrivals before after)
    (clean : node.LeavesClean arrivals) : ∀ side, (node.sideWrapper side).incomingQueue = [] := by
  obtain ⟨left, left_eq, -, predecessor, successor⟩ := clean
  obtain ⟨socket, -, -, -, set, -⟩ := traffic.stream
  obtain ⟨asked, asks, other, wrapper, sockets⟩ :=
    q11_eq traffic.successor traffic.predecessor arrivals
  obtain ⟨message, next, answered, got, received, stopped⟩ := leave_eq_ok asks left_eq
  obtain ⟨⟨response, answer⟩, rfl⟩ := q11Received_eq_ok received
  have set_asked : (asked.sideSocket node.asksSuccessor).isSome := by
    rw [sockets, set]
    rfl
  have elsewhere := other.trans (awaitPdu_other set_asked got)
  have listens : next.successorListen.isSome := by
    rw [elsewhere.successorListen]
    exact traffic.successorListen
  obtain ⟨left', stopped', -, kept⟩ : ∃ left, q18 { next with state := .q18 } = .ok left ∧
      left.running = false ∧ ∀ side, left.sideWrapper side = next.sideWrapper side :=
    q18_of_neighbours (elsewhere.successor.trans traffic.successor)
      (elsewhere.predecessor.trans traffic.predecessor) listens
  obtain rfl := Except.ok.inj (stopped.symm.trans stopped')
  have empty : ∀ side, (left.sideWrapper side).incomingQueue = [] := by
    intro side
    cases side with
    | false => exact predecessor
    | true => exact successor
  intro side
  by_cases here : side = node.asksSuccessor
  · subst here
    cases queue : (node.sideWrapper node.asksSuccessor).incomingQueue with
    | nil => rfl
    | cons first queue' =>
        have queued : asked.sideWrapper node.asksSuccessor =
            ⟨first :: queue', (node.sideWrapper node.asksSuccessor).buffer⟩ := by
          rw [wrapper, ← queue]
        obtain rfl := awaitPdu_queued set_asked queued got
        have unanswered := traffic.unanswered node.asksSuccessor message
          (by rw [queue]; exact List.mem_cons_self)
        exact absurd answer (unanswered response)
  · have away : side = !node.asksSuccessor := Bool.eq_not.mpr here
    rw [away, ← elsewhere.wrapper, ← kept]
    exact empty _

theorem leavesClean_of_handled (traffic : node.Traffic arrivals before after)
    (handled : ∀ side, (node.sideWrapper side).incomingQueue = []) :
    node.LeavesClean arrivals ↔
      node.hashRange.1 = 0 ∨ before = [] ∧ Incomplete (behindAnswer arrivals) after := by
  obtain ⟨socket, waiting_bytes, begun, tail, set, early, stream, late⟩ := traffic.stream
  obtain ⟨asked, asks, other, wrapper, sockets⟩ :=
    q11_eq traffic.successor traffic.predecessor arrivals
  have waiting : Waiting asked node.asksSuccessor
      (node.sideWrapper node.asksSuccessor).buffer socket.pending := by
    refine ⟨?_, socket, sockets.trans set, rfl⟩
    rw [wrapper, ← handled node.asksSuccessor]
  have requests_before : ∀ pdu ∈ before, Request pdu :=
    fun pdu mem => traffic.requests pdu (List.mem_append_left _ mem)
  have requests_after : ∀ pdu ∈ after, Request pdu :=
    fun pdu mem => traffic.requests pdu (List.mem_append_right _ mem)
  by_cases first : before = []
  · subst first
    obtain ⟨none, rfl⟩ := List.append_eq_nil_iff.mp early
    obtain ⟨no_buffer, no_pending⟩ := List.append_eq_nil_iff.mp none
    rw [no_buffer, no_pending] at waiting
    rw [List.nil_append] at stream
    obtain ⟨x, y, rfl, length, got⟩ := awaitPdu_answer waiting stream
    obtain ⟨found, rest, valid, stuck, split, -⟩ := feed_cases x
    have all : [] ++ (rangeResponse.toBytes ++ x) =
        (rangeResponse :: found).flatMap PDU.wire ++ rest := by
      rw [split]
      rfl
    have valid_all : ∀ pdu ∈ rangeResponse :: found, pdu.Parsed := by
      rintro pdu (_ | ⟨_, mem⟩)
      · exact ⟨rfl, trivial⟩
      · exact valid pdu mem
    have alone : (node.hashRange.1 = 0 ∨
          ([] : List PDU) = [] ∧ Incomplete (behindAnswer arrivals) after) ↔
        found = [] ∧ ∀ e, parsePdu rest ≠ .error e := by
      rw [← length, ← incomplete_iff requests_after
        ((List.append_assoc ..).symm.trans late) valid stuck split]
      refine ⟨?_, fun incomplete => Or.inr ⟨rfl, incomplete⟩⟩
      rintro (zero | ⟨-, incomplete⟩)
      · rw [(traffic.one_way (decide_eq_true zero)).2]
        trivial
      · exact incomplete
    rw [alone]
    rw [parsePdu_frames.feed_eq valid_all stuck all] at got
    cases parsed : parsePdu rest with
    | error e =>
        rw [parsed] at got
        refine iff_of_false ?_ (fun clean => clean.2 e rfl)
        rintro ⟨left, left_eq, -⟩
        rw [leave, asks, got] at left_eq
        cases left_eq
    | ok waits =>
        rw [parsed] at got
        obtain ⟨addr, next, other', wrapper', answered⟩ := got
        rw [leavesClean_of_answer traffic handled asks (other.trans other') wrapper' answered]
        exact ⟨fun none => ⟨none, fun e fails => by cases fails⟩, fun clean => clean.1⟩
  · refine iff_of_false ?_ ?_
    · rintro ⟨left, left_eq, -⟩
      obtain ⟨⟨pdu, addr⟩, next, answered, got, received, -⟩ := leave_eq_ok asks left_eq
      have parsed : ∀ pdu ∈ before ++ rangeResponse :: after, pdu.Parsed := by
        intro pdu mem
        rcases List.mem_append.mp mem with mem | mem
        · exact (requests_before pdu mem).parsed
        · rcases List.mem_cons.mp mem with rfl | mem
          · exact ⟨rfl, trivial⟩
          · exact (requests_after pdu mem).parsed
      have whole : (node.sideWrapper node.asksSuccessor).buffer ++ socket.pending ++
          arrived arrivals ++ tail = (before ++ rangeResponse :: after).flatMap PDU.wire := by
        rw [stream, List.flatMap_append, List.flatMap_cons,
          flatMap_wire_requests requests_before, flatMap_wire_requests requests_after,
          ← early, ← late]
        simp only [List.append_assoc]
        rfl
      obtain ⟨later, eq⟩ := awaitPdu_first parsed waiting whole got
      obtain ⟨request, requests, rfl⟩ := List.exists_cons_of_ne_nil first
      obtain ⟨rfl, -⟩ := List.cons.inj eq
      rw [q11Received_of_request (requests_before request (List.mem_cons_self ..))] at received
      cases received
    · rintro (zero | ⟨none, -⟩)
      · exact first (traffic.one_way (decide_eq_true zero)).1
      · exact first none

/-- A leaving node stops clean, if and only if no PDU waits in its queues, and it asks its
successor, or nothing stands in front of the answer and nothing comes with it. -/
theorem leavesClean_iff (traffic : node.Traffic arrivals before after) :
    node.LeavesClean arrivals ↔
      (∀ side, (node.sideWrapper side).incomingQueue = []) ∧
        (node.hashRange.1 = 0 ∨ before = [] ∧ Incomplete (behindAnswer arrivals) after) := by
  constructor
  · intro clean
    have handled := handled_of_leavesClean traffic clean
    exact ⟨handled, (leavesClean_of_handled traffic handled).mp clean⟩
  · rintro ⟨handled, quiet⟩
    exact (leavesClean_of_handled traffic handled).mpr quiet

def leaver : Node :=
  { Node.new ⟨1, 5000⟩ 4000 4001 with
    state := .q10
    hashRange := (100, 200)
    successor := some ⟨0, ⟨2, 4002⟩, [], false⟩
    successorListen := some ⟨2, 4002⟩
    predecessor := some ⟨1, ⟨3, 4003⟩, [], false⟩ }

theorem leaver_traffic {arrivals : List Arrival} {before after : List PDU}
    (requests : ∀ pdu ∈ before ++ after, Request pdu)
    (stream : arrived arrivals = before.flatMap PDU.toBytes ++ rangeResponse.toBytes ++
      after.flatMap PDU.toBytes) : leaver.Traffic arrivals before after where
  successor := rfl
  predecessor := rfl
  successorListen := rfl
  unanswered side message waits := by cases side <;> cases waits
  requests := requests
  stream := ⟨_, _, _, [], rfl, rfl, stream, List.append_nil _⟩
  one_way asks := by cases asks

def forwardedInsert : PDU := .valInsert (ValInsertPdu.new (List.replicate 12 '0') ['n'] [])

theorem forwardedInsert_request : Request forwardedInsert :=
  ⟨rfl, rfl, by decide, by decide, by decide⟩

def piece (pdu : PDU) : Arrival :=
  ⟨[⟨pdu.toBytes, by cases pdu <;> exact List.cons_ne_nil _ _⟩], false⟩

/-- The answer comes alone, and a request later. -/
theorem leavesClean_iff_alone :
    leaver.LeavesClean [piece rangeResponse, piece forwardedInsert] := by
  have traffic : leaver.Traffic [piece rangeResponse, piece forwardedInsert] []
      [forwardedInsert] := by
    refine leaver_traffic ?_ rfl
    intro pdu mem
    obtain rfl := List.mem_singleton.mp mem
    exact forwardedInsert_request
  exact (leavesClean_iff traffic).mpr
    ⟨fun side => by cases side <;> rfl, Or.inr ⟨rfl, by decide, by decide⟩⟩

/-- A request that the predecessor has forwarded before it answers. -/
theorem leaver_panics :
    leaver.Traffic [piece forwardedInsert, piece rangeResponse] [forwardedInsert] [] ∧
      ¬ leaver.LeavesClean [piece forwardedInsert, piece rangeResponse] := by
  refine ⟨leaver_traffic ?_ rfl, ?_⟩
  · intro pdu mem
    obtain rfl := List.mem_singleton.mp mem
    exact forwardedInsert_request
  · have panics : leaver.leave [piece forwardedInsert, piece rangeResponse] =
        .error "Expected NET_NEW_RANGE_RESPONSE" := by rfl
    rintro ⟨left, left_eq, -⟩
    rw [panics] at left_eq
    cases left_eq

end Node

end DhtRing.TestNode

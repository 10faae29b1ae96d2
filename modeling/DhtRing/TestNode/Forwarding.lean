import DhtRing.TestNode.Network
import DhtRing.TestNode.Rounds

/-!
# A successor to forward to

A node in `Q6` has a successor, or it has all keys and nothing to forward.  `q6` gives the
successor up as soon as it sees the close, and `q16` connects to the next one.  What is
handled in between finds no successor; in the runs where that is only the `NET_LEAVING` and
requests for the node's own keys, no node panics for the lack of one.
-/

set_option autoImplicit false

namespace DhtRing.TestNode

/-! ## Rounds in which the successor closes -/

def PDU.leaves : PDU → Bool
  | .netLeaving _ => true
  | _ => false

def leavesAfter (leaves : Bool) (x : PDU × Source) : Bool :=
  if x.1.accepted then x.1.leaves else leaves

def leavesLast (pdus : List (PDU × Source)) : Bool := pdus.foldl leavesAfter false

namespace Node

def owns (node : Node) (pdus : List (PDU × Source)) : Bool :=
  pdus.all fun x => x.1.key.all node.inMyRange

/-- The PDUs that events of a poll deliver, up to one that panics. -/
def delivered : List Token → Node → List (PDU × Source)
  | [], _ => []
  | event :: events, node =>
      match node.collect event with
      | .error _ => []
      | .ok (pdus, read) => pdus ++ delivered events read

/-- Where the close of the successor is read, it comes with its `NET_LEAVING` and behind it
with nothing that `q6` acts on. -/
def closesOrderly : List Token → Node → Bool
  | [], _ => true
  | event :: events, node =>
      match node.collect event with
      | .error _ => true
      | .ok (pdus, read) =>
          if node.successor.isSome && read.successor.isNone then
            node.owns (pdus ++ delivered events read) && leavesLast (pdus ++ delivered events read)
          else closesOrderly events read

end Node

/-! ## Panics while reading -/

abbrev Otherwise {α : Type} (r : Except String α) : Prop := Ends Other (fun _ => True) r

theorem splitAt_otherwise (input : List UInt8) (mid : ℕ) : Otherwise (splitAt input mid) := by
  unfold splitAt
  split
  · exact .ok trivial
  · exact .error (by decide)

theorem readBeU8_otherwise (input : List UInt8) : Otherwise (readBeU8 input) := by
  refine (splitAt_otherwise input 1).bind fun parts _ => ?_
  split
  · exact .ok trivial
  · exact .error (by decide)

theorem ValInsertPdu.tryParse_otherwise (buffer : List UInt8) :
    Otherwise (ValInsertPdu.tryParse buffer) := by
  unfold ValInsertPdu.tryParse
  split
  · exact .ok trivial
  · refine (readBeU8_otherwise _).bind ?_
    rintro ⟨type, buffer⟩ -
    refine (splitAt_otherwise ..).bind ?_
    rintro ⟨ssn, buffer⟩ -
    refine (readBeU8_otherwise _).bind ?_
    rintro ⟨nameLength, buffer⟩ -
    dsimp only
    split
    · exact .ok trivial
    · refine (splitAt_otherwise ..).bind ?_
      rintro ⟨name, buffer⟩ -
      refine (readBeU8_otherwise _).bind ?_
      rintro ⟨emailLength, buffer⟩ -
      dsimp only
      split
      · exact .ok trivial
      · exact .ok trivial

theorem ValLookupResponsePdu.tryParse_otherwise (buffer : List UInt8) :
    Otherwise (ValLookupResponsePdu.tryParse buffer) := by
  refine (ValInsertPdu.tryParse_otherwise buffer).bind fun parsed _ => ?_
  split
  · exact .ok trivial
  · exact .ok trivial

theorem intoPdu_otherwise {α : Type} (kind : α → PDU) {parsed : Except String (Option (α × ℕ))}
    (otherwise : Otherwise parsed) : Otherwise (intoPdu kind parsed) := by
  refine otherwise.bind fun found _ => ?_
  split
  · exact .ok trivial
  · exact .ok trivial

theorem Total.otherwise {α : Type} {parse : List UInt8 → Except String (Option (α × ℕ))}
    (total : Total parse) (buffer : List UInt8) : Otherwise (parse buffer) := by
  cases parsed : parse buffer with
  | error e => exact absurd parsed (total buffer e)
  | ok found => exact .ok trivial

theorem parsePdu_otherwise (buffer : List UInt8) : Otherwise (parsePdu buffer) := by
  unfold parsePdu
  split
  · exact .ok trivial
  split
  · exact intoPdu_otherwise _ (NetAlivePdu.parses.2.otherwise _)
  · exact intoPdu_otherwise _ (NetGetNodePdu.parses.2.otherwise _)
  · exact intoPdu_otherwise _ (NetGetNodeResponsePdu.parses.2.otherwise _)
  · exact intoPdu_otherwise _ (NetJoinPdu.parses.2.otherwise _)
  · exact intoPdu_otherwise _ (NetJoinResponsePdu.parses.2.otherwise _)
  · exact intoPdu_otherwise _ (NetCloseConnectionPdu.parses.2.otherwise _)
  · exact intoPdu_otherwise _ (NetNewRangePdu.parses.2.otherwise _)
  · exact intoPdu_otherwise _ (NetLeavingPdu.parses.2.otherwise _)
  · exact intoPdu_otherwise _ (NetNewRangeResponsePdu.parses.2.otherwise _)
  · exact intoPdu_otherwise _ (ValInsertPdu.tryParse_otherwise _)
  · exact intoPdu_otherwise _ (ValRemovePdu.parses.2.otherwise _)
  · exact intoPdu_otherwise _ (ValLookupPdu.parses.2.otherwise _)
  · exact intoPdu_otherwise _ (ValLookupResponsePdu.tryParse_otherwise _)
  · exact intoPdu_otherwise _ (StunLookupPdu.parses.2.otherwise _)
  · exact intoPdu_otherwise _ (StunResponsePdu.parses.2.otherwise _)
  · exact .error (by decide)

theorem drain_otherwise (fuel : ℕ) (buffer : List UInt8) :
    Otherwise (Framing.drain parsePdu fuel buffer) := by
  induction fuel generalizing buffer with
  | zero => exact .ok trivial
  | succ fuel ih =>
      rw [Framing.drain]
      have parses := parsePdu_otherwise buffer
      cases parsed : parsePdu buffer with
      | error e =>
          rw [parsed] at parses
          exact .error parses.failure
      | ok found =>
          cases found with
          | none => exact .ok trivial
          | some found => exact ((ih _).mono (fun _ other => other) fun _ _ => trivial).map

theorem TcpWrapper.tryRead_otherwise (wrapper : TcpWrapper) (socket : TcpStream) :
    Otherwise (wrapper.tryRead socket) :=
  (drain_otherwise ..).bind fun _ _ => .ok trivial

theorem UdpWrapper.tryRead_otherwise (wrapper : UdpWrapper) (datagrams : List Datagram) :
    Otherwise (wrapper.tryRead datagrams) :=
  Ends.foldlM (fun _ _ _ => (drain_otherwise ..).bind fun _ _ => .ok trivial) _ _ trivial

namespace Node

variable {env : Env} {node next read : Node} {pdus : List (PDU × Source)}
variable {event : Token} {events : List Token}

theorem collect_ends (node : Node) (event : Token) : Ends Other
    (fun x => node.predecessor = none → x.2.predecessor = none) (node.collect event) := by
  cases event with
  | udp => exact (UdpWrapper.tryRead_otherwise ..).bind fun _ _ => .ok fun unset => unset
  | successor =>
      rw [collect]
      cases node.successor with
      | none => exact .ok fun unset => unset
      | some socket =>
          exact (TcpWrapper.tryRead_otherwise ..).bind fun _ _ => .ok fun unset => unset
  | predecessor =>
      rw [collect]
      rcases Option.eq_none_or_eq_some node.predecessor with unset | ⟨socket, set⟩
      · rw [unset]
        exact .ok fun _ => unset
      · rw [set]
        exact (TcpWrapper.tryRead_otherwise ..).bind fun _ _ =>
          .ok fun unset => absurd unset (Option.some_ne_none socket)

theorem collect_sockets (collected : node.collect event = .ok (pdus, read)) :
    node.withSockets read = read := by
  have same : (node.withSockets node).collect event = _ := collect_withSockets event
  rw [withSockets_self, collected] at same
  exact (Prod.ext_iff.mp (Except.ok.inj same)).2.symm

theorem collect_hashRange (collected : node.collect event = .ok (pdus, read)) :
    read.hashRange = node.hashRange := by
  rw [← collect_sockets collected]
  rfl

theorem pollPdu_ends (node : Node) (successor : Bool) :
    Ends Other (fun x => x.2.state = node.state) (node.pollPdu successor) := by
  unfold pollPdu
  split
  · refine (unwrap_ends _).bind fun socket _ => ?_
    refine (TcpWrapper.tryRead_otherwise ..).bind fun answer _ => ?_
    dsimp only
    split
    · exact .ok rfl
    · exact .ok rfl
  · refine (unwrap_ends _).bind fun socket _ => ?_
    refine (TcpWrapper.tryRead_otherwise ..).bind fun answer _ => ?_
    dsimp only
    split
    · exact .ok rfl
    · exact .ok rfl

def Connected (node next : Node) : Prop :=
  next.successor = node.successor ∧ next.predecessor = node.predecessor

theorem pollPduUdp_ends (node : Node) : Ends Other
    (fun x => x.2.state = node.state ∧ Connected node x.2) node.pollPduUdp := by
  refine (UdpWrapper.tryRead_otherwise ..).bind fun wrapper _ => ?_
  dsimp only
  split
  · exact .ok ⟨rfl, rfl, rfl⟩
  · exact .ok ⟨rfl, rfl, rfl⟩

/-! ## Rounds without a close -/

def Anchored (node : Node) : Prop :=
  node.successor = none → node.isLast = true ∧ node.predecessor = none

def Serving (node : Node) : Prop :=
  node.Anchored ∧ (node.state = .q6 ∨ node.parked = true)

theorem inMyRange_of_isLast (last : node.isLast = true) (ssn : RString) :
    node.inMyRange ssn = true := by
  simp only [isLast, decide_eq_true_eq] at last
  rw [inMyRange, last.1, last.2, Bool.and_eq_true, decide_eq_true_eq, decide_eq_true_eq]
  exact ⟨UInt8.zero_le, UInt8.le_iff_toNat_le.mpr (Nat.le_of_lt_succ (UInt8.toNat_lt _))⟩

theorem Anchored.forward_ends (anchored : node.Anchored) {ssn : RString}
    (others : node.inMyRange ssn ≠ true) (pdu : PDU) :
    Ends Other (fun next => Kept node next ∧ next.hashRange = node.hashRange)
      (node.forward pdu) := by
  refine Node.forward_ends node (Option.isSome_iff_ne_none.mpr fun unset => ?_) pdu
  exact others (inMyRange_of_isLast (anchored unset).1 ssn)

theorem handlePdu_serving (serving : node.Serving) (pdu : PDU) (source : Source) :
    Ends Other (fun next => next.Serving ∧ next.hashRange = node.hashRange)
      (node.handlePdu pdu source) := by
  obtain ⟨anchored, state⟩ := serving
  cases key : pdu.key with
  | some ssn =>
      rw [handlePdu_of_key key]
      split
      · cases pdu with
        | valInsert pdu => exact .ok ⟨⟨anchored, Or.inl rfl⟩, rfl⟩
        | valRemove pdu => exact .ok ⟨⟨anchored, Or.inl rfl⟩, rfl⟩
        | valLookup pdu => exact .ok ⟨⟨anchored, Or.inl rfl⟩, rfl⟩
        | _ => cases key
      · rename_i others
        refine ((anchored.forward_ends others pdu).mono (fun _ other => other) ?_).map
        rintro next ⟨kept, range⟩
        refine ⟨⟨?_, Or.inl rfl⟩, range⟩
        intro unset
        have before := anchored (kept.successor.symm.trans unset)
        refine ⟨?_, kept.predecessor.trans before.2⟩
        have same : next.settled.hashRange = node.hashRange := range
        rw [isLast, same]
        exact before.1
  | none =>
      cases pdu with
      | netJoin pdu => exact .ok ⟨⟨anchored, Or.inr rfl⟩, rfl⟩
      | netNewRange pdu => exact .ok ⟨⟨anchored, Or.inr rfl⟩, rfl⟩
      | netLeaving pdu => exact .ok ⟨⟨anchored, Or.inr rfl⟩, rfl⟩
      | netCloseConnection pdu =>
          cases source with
          | predecessor sender => exact .ok ⟨⟨anchored, Or.inr rfl⟩, rfl⟩
          | udp sender => exact .error (by decide)
          | successor sender => exact .error (by decide)
      | valInsert pdu => cases key
      | valRemove pdu => cases key
      | valLookup pdu => cases key
      | _ => exact .ok ⟨⟨anchored, state⟩, rfl⟩

theorem handlePdus_serving (serving : node.Serving) (pdus : List (PDU × Source)) :
    Ends Other (fun next => next.Serving ∧ next.hashRange = node.hashRange)
      (node.handlePdus pdus) := by
  refine Ends.foldlM (P := fun next => next.Serving ∧ next.hashRange = node.hashRange)
    ?_ pdus node ⟨serving, rfl⟩
  rintro next x ⟨serving, range⟩
  refine (handlePdu_serving serving x.1 x.2).mono (fun _ other => other) ?_
  rintro last ⟨serving, same⟩
  exact ⟨serving, same.trans range⟩

/-! ## Rounds with a close -/

theorem owns_append {more : List (PDU × Source)} :
    node.owns (pdus ++ more) = true ↔ node.owns pdus = true ∧ node.owns more = true := by
  rw [owns, List.all_append, Bool.and_eq_true]
  rfl

theorem owns_congr (same : next.hashRange = node.hashRange) (pdus : List (PDU × Source)) :
    next.owns pdus = node.owns pdus := by
  have range : next.inMyRange = node.inMyRange := by
    funext ssn
    rw [inMyRange, inMyRange, same]
  rw [owns, owns, range]

theorem delivered_withSockets (events : List Token) : ∀ sockets : Node,
    delivered events (node.withSockets sockets) = delivered events sockets := by
  induction events with
  | nil =>
      intro sockets
      rfl
  | cons event events ih =>
      intro sockets
      rw [delivered, delivered, collect_withSockets]
      cases sockets.collect event with
      | error e => rfl
      | ok found => exact congrArg (found.1 ++ ·) (ih found.2)

theorem closesOrderly_withSockets (events : List Token) : ∀ sockets : Node,
    node.hashRange = sockets.hashRange →
      closesOrderly events (node.withSockets sockets) = closesOrderly events sockets := by
  induction events with
  | nil =>
      intro sockets _
      rfl
  | cons event events ih =>
      intro sockets same
      rw [closesOrderly, closesOrderly, collect_withSockets]
      cases collected : sockets.collect event with
      | error e => rfl
      | ok found =>
          obtain ⟨pdus, read⟩ := found
          have later := ih read (same.trans (collect_hashRange collected).symm)
          have range : (node.withSockets sockets).hashRange = sockets.hashRange := same
          change (if _ then (node.withSockets sockets).owns
            (pdus ++ delivered events (node.withSockets read)) && leavesLast
              (pdus ++ delivered events (node.withSockets read))
            else closesOrderly events (node.withSockets read)) = _
          rw [delivered_withSockets, owns_congr range, later]
          rfl

/-- Without a successor the node handles requests for its own keys. -/
theorem handlePdu_left {pdu : PDU} {leaves : Bool} (waits : leaves = true → node.state = .q16)
    (own : pdu.key.all node.inMyRange = true) (source : Source) :
    Ends Other (fun next => next.hashRange = node.hashRange ∧
      (leavesAfter leaves (pdu, source) = true → next.state = .q16))
      (node.handlePdu pdu source) := by
  cases key : pdu.key with
  | some ssn =>
      rw [key] at own
      rw [handlePdu_of_key key, if_pos (by exact own)]
      cases pdu with
      | valInsert pdu => exact .ok ⟨rfl, nofun⟩
      | valRemove pdu => exact .ok ⟨rfl, nofun⟩
      | valLookup pdu => exact .ok ⟨rfl, nofun⟩
      | _ => cases key
  | none =>
      cases pdu with
      | netJoin pdu => exact .ok ⟨rfl, nofun⟩
      | netNewRange pdu => exact .ok ⟨rfl, nofun⟩
      | netLeaving pdu => exact .ok ⟨rfl, fun _ => rfl⟩
      | netCloseConnection pdu =>
          cases source with
          | predecessor sender => exact .ok ⟨rfl, nofun⟩
          | udp sender => exact .error (by decide)
          | successor sender => exact .error (by decide)
      | valInsert pdu => cases key
      | valRemove pdu => cases key
      | valLookup pdu => cases key
      | _ => exact .ok ⟨rfl, waits⟩

theorem handlePdus_keep {P : Node → Prop} (outcome : Ends Other P (node.handlePdus pdus)) :
    Ends Other (fun next => P next ∧ next.withSockets node = next) (node.handlePdus pdus) := by
  cases handled : node.handlePdus pdus with
  | error e =>
      rw [handled] at outcome
      exact .error outcome.failure
  | ok next =>
      rw [handled] at outcome
      exact .ok ⟨outcome.value, handlePdus_sockets handled⟩

theorem handlePdus_left : ∀ {pdus : List (PDU × Source)} {node : Node} {leaves : Bool},
    (leaves = true → node.state = .q16) → node.owns pdus = true →
      Ends Other (fun next => next.hashRange = node.hashRange ∧
        (pdus.foldl leavesAfter leaves = true → next.state = .q16)) (node.handlePdus pdus) := by
  intro pdus
  induction pdus with
  | nil => exact fun waits _ => .ok ⟨rfl, waits⟩
  | cons x pdus ih =>
      intro node leaves waits own
      obtain ⟨first, rest⟩ := Bool.and_eq_true_iff.mp own
      rw [handlePdus, List.foldlM_cons]
      refine (handlePdu_left waits first x.2).bind ?_
      rintro next ⟨same, waits⟩
      refine (ih waits ((owns_congr same pdus).trans rest)).mono (fun _ other => other) ?_
      rintro last ⟨range, waits⟩
      exact ⟨range.trans same, waits⟩

theorem owns_emit (effects : List Effect) : (node.emit effects).owns pdus = node.owns pdus := rfl

theorem delivered_emit (events : List Token) (effects : List Effect) :
    delivered events (node.emit effects) = delivered events node := by
  have same : (node.emit effects).withSockets node = node.emit effects := rfl
  rw [← same, delivered_withSockets]

/-- What is left of a round after the close: PDUs that are read already, and more events. -/
theorem handleEvents_left : ∀ {events : List Token} {pdus : List (PDU × Source)} {node : Node}
    (leaves : Bool), node.successor = none → (leaves = true → node.state = .q16) →
      node.owns (pdus ++ delivered events node) = true →
        Ends Other (fun next =>
          (pdus ++ delivered events node).foldl leavesAfter leaves = true → next.state = .q16)
          (node.handlePdus pdus >>= fun next => events.foldlM handleEvent next) := by
  intro events
  induction events with
  | nil =>
      intro pdus node leaves _ waits own
      rw [delivered, List.append_nil] at own ⊢
      exact (handlePdus_left waits own).bind fun next holds => .ok holds.2
  | cons event events ih =>
      intro pdus node leaves unset waits own
      obtain ⟨first, rest⟩ := owns_append.mp own
      refine (handlePdus_keep (handlePdus_left waits first)).bind ?_
      rintro next ⟨⟨same, waits⟩, sockets⟩
      have later : delivered (event :: events) node = delivered (event :: events) next := by
        rw [← sockets, delivered_withSockets]
      have unset_next : next.successor = none := by
        rw [← sockets]
        exact unset
      have reads := collect_ends next event
      rw [later] at rest ⊢
      rw [List.foldlM_cons]
      cases collected : next.collect event with
      | error e =>
          rw [collected] at reads
          rw [handleEvent_error collected]
          exact .error reads.failure
      | ok found =>
          obtain ⟨more, read⟩ := found
          have handled := handleEvent_read collected
          generalize next.givenUp read = effects at handled
          have delivers : delivered (event :: events) next =
              more ++ delivered events (read.emit effects) := by
            rw [delivered, collected, delivered_emit]
          have gone : (read.emit effects).successor = none := by
            rcases collect_fd collected with gone | kept
            · exact gone
            · rw [unset_next] at kept
              exact Option.map_eq_none_iff.mp kept
          have waits_read : pdus.foldl leavesAfter leaves = true →
              (read.emit effects).state = .q16 := by
            rw [emit, ← collect_sockets collected]
            exact waits
          have own_read : (read.emit effects).owns
              (more ++ delivered events (read.emit effects)) = true := by
            rw [← delivers, owns_emit, owns_congr ((collect_hashRange collected).trans same)]
            exact rest
          rw [handled, delivers]
          refine (ih _ gone waits_read own_read).mono (fun _ other => other) ?_
          intro last waits_last leaves_last
          rw [List.foldl_append] at leaves_last
          exact waits_last leaves_last

theorem emit_serving (serving : node.Serving) (collected : node.collect event = .ok (pdus, read))
    (open_still : ¬ (node.successor.isSome && read.successor.isNone) = true)
    (keeps : node.predecessor = none → read.predecessor = none) (effects : List Effect) :
    (read.emit effects).Serving := by
  obtain ⟨anchored, state⟩ := serving
  have sockets := collect_sockets collected
  have range := collect_hashRange collected
  refine ⟨?_, ?_⟩
  · intro unset
    have before : node.successor = none := by
      by_contra set
      refine open_still (Bool.and_eq_true_iff.mpr ⟨?_, ?_⟩)
      · exact Option.isSome_iff_ne_none.mpr set
      · exact Option.isNone_iff_eq_none.mpr unset
    obtain ⟨last, alone⟩ := anchored before
    refine ⟨?_, keeps alone⟩
    have same : (read.emit effects).hashRange = node.hashRange := range
    rw [isLast, same]
    exact last
  · rw [← sockets]
    exact state

/-- A round ends in `Q6`, or it has parked a PDU, and `NET_LEAVING` without a successor. -/
theorem handleEvents_orderly : ∀ {events : List Token} {node : Node}, node.Serving →
    closesOrderly events node = true →
      Ends Other (fun next => next.Serving ∨ next.state = .q16)
        (events.foldlM handleEvent node) := by
  intro events
  induction events with
  | nil => exact fun serving _ => .ok (Or.inl serving)
  | cons event events ih =>
      intro node serving orderly
      rw [closesOrderly] at orderly
      have reads := collect_ends node event
      rw [List.foldlM_cons]
      cases collected : node.collect event with
      | error e =>
          rw [collected] at reads
          rw [handleEvent_error collected]
          exact .error reads.failure
      | ok found =>
          obtain ⟨pdus, read⟩ := found
          rw [collected] at orderly reads
          dsimp only at orderly
          have range := collect_hashRange collected
          have handled := handleEvent_read collected
          generalize node.givenUp read = effects at handled
          rw [handled]
          split at orderly
          · rename_i closes
            obtain ⟨-, gone⟩ := Bool.and_eq_true_iff.mp closes
            obtain ⟨own, last⟩ := Bool.and_eq_true_iff.mp orderly
            have delivers : delivered events (read.emit effects) = delivered events read :=
              delivered_emit events effects
            have own_read : (read.emit effects).owns
                (pdus ++ delivered events (read.emit effects)) = true := by
              rw [delivers, owns_emit, owns_congr range]
              exact own
            have unset : (read.emit effects).successor = none := Option.isNone_iff_eq_none.mp gone
            refine (handleEvents_left false unset nofun own_read).mono
              (fun _ other => other) fun next waits => Or.inr (waits ?_)
            rw [delivers]
            exact last
          · rename_i open_still
            have serving_read := emit_serving serving collected open_still reads.value effects
            refine (handlePdus_keep (handlePdus_serving serving_read pdus)).bind ?_
            rintro next ⟨⟨serving_next, same⟩, sockets⟩
            have kept : next.withSockets read = next := sockets
            refine ih serving_next ?_
            rw [← kept, closesOrderly_withSockets events read same]
            exact orderly

/-! ## Nodes -/

def Sound (waits : Bool) (node : Node) : Prop :=
  match node.state with
  | .q1 | .q2 | .q3 | .q4 => node.successor = none ∧ node.predecessor = none
  | .q5 => waits = true → node.successor.isSome = true
  | .q6 | .q12 | .q15 => node.Anchored
  | .q9 => False
  | .q14 => node.successor.isSome = true
  | .q17 => if waits then node.successor.isSome = true else node.Anchored
  | _ => True

theorem Sound.congr {waits : Bool} (sound : node.Sound waits) (state : next.state = node.state)
    (range : next.hashRange = node.hashRange)
    (successor : next.successor = none ↔ node.successor = none)
    (predecessor : next.predecessor = none ↔ node.predecessor = none) : next.Sound waits := by
  simp only [Sound, Anchored, isLast, Option.isSome_iff_ne_none, Ne] at sound ⊢
  rw [state, range, successor, predecessor]
  exact sound

theorem Sound.of_isSome {waits : Bool} (set : node.successor.isSome) (state : node.state = .q6) :
    node.Sound waits := by
  rw [Sound, state]
  intro unset
  rw [unset] at set
  cases set

theorem Sound.of_serving (serving : node.Serving ∨ node.state = .q16) : node.Sound false := by
  rcases serving with ⟨anchored, state⟩ | state
  · simp only [parked, Bool.or_eq_true, decide_eq_true_eq] at state
    rcases state with state | ((state | state) | state) | state <;> rw [Sound, state]
    · exact anchored
    · exact anchored
    · exact anchored
    · trivial
    · exact anchored
  · rw [Sound, state]
    trivial

theorem q6_sound (state : node.state = .q6) (sound : node.Sound false)
    (orderly : closesOrderly events node = true) (interrupt : Bool) :
    Ends Other (Sound false) (node.q6 env events interrupt) := by
  rw [Sound, state] at sound
  have alive : (node.sendAlive env).withSockets node = node.sendAlive env ∧
      (node.sendAlive env).hashRange = node.hashRange ∧
        (node.sendAlive env).state = node.state := by
    unfold sendAlive
    split
    · exact ⟨rfl, rfl, rfl⟩
    · exact ⟨rfl, rfl, rfl⟩
  obtain ⟨sockets, range, same⟩ := alive
  have serving : (node.sendAlive env).Serving := by
    refine ⟨?_, Or.inl (same.trans state)⟩
    rw [Anchored, isLast, range, ← sockets]
    exact sound
  have closes : closesOrderly events (node.sendAlive env) = true := by
    rw [← sockets, closesOrderly_withSockets events node range]
    exact orderly
  refine (handleEvents_orderly serving closes).bind fun next serving => .ok ?_
  unfold checkClose
  split
  · trivial
  · exact Sound.of_serving serving

end Node

/-! ## Members -/

def Member.Sound (member : Member) : Prop := member.node.Sound member.waits

/-- A node that is told to connect to itself is the last one. -/
def Node.staysAlone (node : Node) : Bool :=
  match node.state, node.lastPdu with
  | .q16, some (.netLeaving pdu) => !decide (node.leftAlone pdu) || node.isLast
  | _, _ => true

namespace Member

variable {env : Env} {member : Member} {events : List Token}

/-- The step panics for another reason than a missing successor, or is not possible, or keeps
the node sound. -/
def Keeps (step : Except String (Option Member)) : Prop :=
  Ends Other (fun next => ∀ member ∈ next, member.Sound) step

theorem keeps_none : Keeps (.ok none) := by
  refine .ok ?_
  rintro _ ⟨⟩

theorem keeps_running (busy : member.waits = false) {next : Except String Node}
    (sound : Ends Other (Node.Sound false) next) :
    Keeps (do return some { member with node := ← next }) := by
  refine sound.bind fun node sound => .ok ?_
  rintro _ ⟨⟩
  rw [Member.Sound, busy]
  exact sound

theorem keeps_waiting {next : Except String Node} (sound : Ends Other (Node.Sound true) next) :
    Keeps (do return some { member with node := ← next, waits := true }) := by
  refine sound.bind fun node sound => .ok ?_
  rintro _ ⟨⟩
  exact sound

theorem advance_keeps (sound : member.Sound) (alone : member.node.staysAlone = true) :
    Keeps (member.advance env) := by
  have others : ∀ e, Other e → Other e := fun _ other => other
  unfold advance
  dsimp only
  split
  · exact keeps_none
  · rename_i free
    have busy : member.waits = false := by
      simp only [Bool.or_eq_true, not_or, Bool.not_eq_true] at free
      exact free.1
    rw [Member.Sound, busy, Node.Sound] at sound
    split <;> rename_i state <;> rw [state] at sound
    · exact keeps_running busy (.ok sound)
    · refine keeps_waiting (.ok ?_)
      rw [Node.Sound, state]
      exact sound
    · have same : member.node.q3Ask.state = .q3 := state
      refine keeps_waiting (.ok ?_)
      rw [Node.Sound, same]
      exact sound
    · exact keeps_running busy (.ok fun _ => ⟨rfl, sound.2⟩)
    · refine keeps_waiting ((Node.q5Connect_ends env _).mono others ?_)
      rintro next ⟨-, same, set⟩
      rw [Node.Sound, same, state]
      exact fun _ => set
    · exact keeps_none
    · refine keeps_waiting ((Node.q7Join_ends _).mono others fun next same => ?_)
      rw [Node.Sound, same, state]
      trivial
    · refine keeps_waiting (.ok ?_)
      rw [Node.Sound, state]
      trivial
    · exact sound.elim
    · refine keeps_running busy (.ok ?_)
      unfold Node.q10
      split
      · rw [Node.Sound, state]
        trivial
      · trivial
    · refine keeps_waiting ((Node.q11Ask_ends _).bind fun x same => .ok ?_)
      rw [Node.Sound, same, state]
      trivial
    · refine keeps_running busy ((Node.q12_ends _).mono others ?_)
      rintro next ⟨kept, -, waits | ⟨elected | passing, set⟩⟩
      · rw [Node.Sound, waits]
        exact nofun
      · rw [Node.Sound, elected]
        trivial
      · rw [Node.Sound, passing]
        exact (congrArg Option.isSome kept.successor).trans set
    · refine keeps_running busy ((Node.q13_ends env _).mono others ?_)
      rintro next ⟨-, serves, set⟩
      exact Node.Sound.of_isSome set serves
    · refine keeps_running busy ((Node.q14_ends _ sound).mono others ?_)
      rintro next ⟨kept, -, serves⟩
      exact Node.Sound.of_isSome ((congrArg Option.isSome kept.successor).trans sound) serves
    · refine keeps_running busy ((Node.q15_ends _).mono others ?_)
      rintro next ⟨kept, serves, connected⟩
      rw [Node.Sound, serves]
      intro unset
      have before : member.node.successor = none := kept.successor.symm.trans unset
      have gone := (sound before).2
      rw [before, gone] at connected
      rcases connected with set | set <;> cases set
    · refine keeps_running busy ((Node.q16_ends env _).mono others ?_)
      rintro next ⟨-, serves, set | ⟨range, gone, pdu, parked, itself⟩⟩
      · exact Node.Sound.of_isSome set serves
      · rw [Node.Sound, serves]
        intro _
        refine ⟨?_, gone⟩
        rw [Node.staysAlone, state, parked] at alone
        have last : member.node.isLast = true := by simpa [itself] using alone
        rw [Node.isLast, range]
        exact last
    · obtain ⟨-, same, successor, range, gone⟩ := Node.q17Disconnect_keeps member.node
      rw [if_neg nofun] at sound
      split
      · rename_i last
        refine keeps_running busy (.ok fun _ => ⟨?_, gone⟩)
        rw [← last, Node.isLast, Node.isLast]
        exact congrArg (fun range => decide (range.1 = 0 ∧ range.2 = 255)) range
      · rename_i more
        refine keeps_waiting (.ok ?_)
        rw [Node.Sound, same, state]
        dsimp only
        rw [if_pos rfl, successor]
        exact Option.isSome_iff_ne_none.mpr fun unset => more (sound unset).1
    · refine keeps_running busy ((Node.q18_ends _).mono others fun next same => ?_)
      rw [Node.Sound, same, state]
      trivial

theorem accept_keeps {state : State}
    (sound : ∀ next, Node.Timeless member.node next ∧ next.hashRange = member.node.hashRange ∧
      next.successor = member.node.successor ∧ next.predecessor.isSome →
        Node.Sound false { next with state := state }) :
    Keeps (member.accept env state) := by
  unfold accept
  split
  · exact keeps_none
  · refine (Node.acceptPredecessor_ends env _).bind fun next accepted => .ok ?_
    rintro _ ⟨⟩
    exact sound next accepted

theorem await_keeps {poll : Except String (Option Message × Node)}
    {received : Node → PDU → Except String Node} {P : Node → Prop} (waits : member.waits = true)
    (polls : Ends Other (fun x => P x.2) poll)
    (idle : ∀ node, P node → node.Sound true)
    (receives : ∀ node pdu, P node → Ends Other (Node.Sound false) (received node pdu)) :
    Keeps (member.await poll received) := by
  refine polls.bind ?_
  rintro ⟨message, node⟩ holds
  cases message with
  | none =>
      refine .ok ?_
      rintro _ ⟨⟩
      rw [Member.Sound, waits]
      exact idle node holds
  | some message =>
      refine (receives node message.1 holds).bind fun next sound => .ok ?_
      rintro _ ⟨⟩
      exact sound

theorem resume_keeps (sound : member.Sound) : Keeps (member.resume env) := by
  unfold resume
  dsimp only
  split
  · exact keeps_none
  · rename_i busy
    have waits : member.waits = true := by
      simpa using busy
    rw [Member.Sound, waits, Node.Sound] at sound
    split <;> rename_i state
    · rw [state] at sound
      refine await_keeps (P := fun node => node.state = _ ∧ Node.Connected member.node node) waits
        (Node.pollPduUdp_ends _) ?_ ?_
      · rintro node ⟨same, successor, predecessor⟩
        rw [Node.Sound, same, state, successor, predecessor]
        exact sound
      · rintro node pdu ⟨-, successor, predecessor⟩
        refine (Node.q2Received_ends node pdu).mono (fun _ other => other) ?_
        rintro next ⟨asks, same_successor, same_predecessor⟩
        rw [Node.Sound, asks, same_successor, same_predecessor, successor, predecessor]
        exact sound
    · rw [state] at sound
      refine await_keeps (P := fun node => node.state = _ ∧ Node.Connected member.node node) waits
        (Node.pollPduUdp_ends _) ?_ ?_
      · rintro node ⟨same, successor, predecessor⟩
        rw [Node.Sound, same, state, successor, predecessor]
        exact sound
      · rintro node pdu ⟨-, successor, predecessor⟩
        refine (Node.q3Received_ends node pdu).mono (fun _ other => other) ?_
        rintro next ⟨founds | joins, same_successor, same_predecessor⟩
        · rw [Node.Sound, founds, same_successor, same_predecessor, successor, predecessor]
          exact sound
        · rw [Node.Sound, joins]
          trivial
    · rw [state] at sound
      refine accept_keeps fun next accepted => Node.Sound.of_isSome ?_ rfl
      exact (congrArg Option.isSome accepted.2.2.1).trans (sound rfl)
    · exact accept_keeps fun next _ => trivial
    · refine await_keeps (P := fun node => node.state = _) waits (Node.pollPdu_ends _ false)
        (fun node same => ?_) fun node pdu _ => ?_
      · rw [Node.Sound, same, state]
        trivial
      · refine (Node.q8Received_ends env node pdu).mono (fun _ other => other) ?_
        rintro next ⟨serves, set⟩
        exact Node.Sound.of_isSome set serves
    · refine await_keeps (P := fun node => node.state = _) waits (Node.pollPdu_ends _ _)
        (fun node same => ?_) fun node pdu _ => ?_
      · rw [Node.Sound, same, state]
        trivial
      · refine (Node.q11Received_ends node pdu).mono (fun _ other => other) fun next goes => ?_
        rw [Node.Sound, goes]
        trivial
    · rw [state] at sound
      refine accept_keeps fun next accepted => Node.Sound.of_isSome ?_ rfl
      exact (congrArg Option.isSome accepted.2.2.1).trans sound
    · exact keeps_none

theorem round_keeps (sound : member.Sound)
    (orderly : Node.closesOrderly events member.node = true) : Keeps (member.round env events) := by
  unfold round
  split
  · exact keeps_none
  · rename_i free
    simp only [Bool.or_eq_true, not_or, Bool.not_eq_true, ne_eq, decide_eq_true_eq,
      Decidable.not_not] at free
    obtain ⟨⟨busy, -⟩, state⟩ := free
    rw [Member.Sound, busy] at sound
    exact keeps_running busy (Node.q6_sound state sound orderly false)

theorem receive_sound (sound : member.Sound) (fd : ℕ) (arrival : Node.Arrival) :
    (member.receive fd arrival).Sound :=
  Node.Sound.congr sound rfl rfl Option.map_eq_none_iff Option.map_eq_none_iff

end Member

/-! ## The network -/

namespace Net

variable {trackerAddr : Addr} {net next : Net}

def Sound (net : Net) : Prop := ∀ member ∈ net.members, member.Sound

theorem Sound.map {step : Member → Member} (sound : net.Sound)
    (keeps : ∀ member, member.Sound → (step member).Sound) :
    Sound { net with members := net.members.map step } := by
  intro member mem
  obtain ⟨before, old, rfl⟩ := List.mem_map.mp mem
  exact keeps before (sound before old)

theorem carry_sound (sender : Member) (sound : net.Sound) (effect : Effect) :
    (carry sender net effect).Sound := by
  cases effect with
  | connect fd addr =>
      refine Sound.map sound fun member sound => ?_
      split
      · exact sound
      · exact sound
  | udp pdu receiver => exact sound
  | tcp fd pdu => exact sound
  | accept fd => exact sound
  | shutdown fd => exact sound
  | close fd => exact sound

theorem update_sound (sound : net.Sound) {i : ℕ} {member next : Member} (kept : next.Sound) :
    (net.update i member next).Sound := by
  have placed : Sound { net with members := net.members.set i next } := by
    intro other mem
    rcases List.mem_or_eq_of_mem_set mem with old | rfl
    · exact sound other old
    · exact kept
  unfold update
  generalize next.node.effects.drop member.node.effects.length = effects
  generalize { net with members := net.members.set i next } = start at placed
  induction effects generalizing start with
  | nil => exact placed
  | cons effect effects ih => exact ih _ (carry_sound next placed effect)

theorem deliver_sound (sound : net.Sound) (packet : Packet) : (net.deliver packet).Sound := by
  cases packet with
  | bytes fd burst => exact sound.map fun member sound => member.receive_sound sound fd _
  | fin fd => exact sound.map fun member sound => member.receive_sound sound fd _
  | datagram receiver datagram =>
      refine sound.map fun member sound => ?_
      split
      · exact sound
      · exact sound

/-- The condition on a step: a round reads the successor's close with its `NET_LEAVING`, and
only the last node gives up both its neighbours. -/
def orderly (net : Net) : Action → Bool
  | .advance i => net.members[i]?.all fun member => member.node.staysAlone
  | .round i _ events => net.members[i]?.all fun member => Node.closesOrderly events member.node
  | _ => true

def Keeps (step : Except String (Option Net)) : Prop :=
  Ends Other (fun next => ∀ net ∈ next, net.Sound) step

theorem stepMember_keeps (sound : net.Sound) {i : ℕ}
    {step : Member → Except String (Option Member)}
    (keeps : ∀ member, net.members[i]? = some member → member.Sound → Member.Keeps (step member)) :
    Keeps (net.stepMember i step) := by
  unfold stepMember
  split
  · refine .ok ?_
    rintro _ ⟨⟩
  · rename_i member found
    have member_sound := sound member (List.mem_of_getElem? found)
    refine (keeps member found member_sound).bind fun next kept => ?_
    split
    · refine .ok ?_
      rintro _ ⟨⟩
    · rename_i next
      refine .ok ?_
      rintro _ ⟨⟩
      exact update_sound sound (kept next rfl)

theorem answer_sound (sound : net.Sound) {i : ℕ} {state : State} {pdu : Member → PDU}
    (answered : net.answer i state pdu = some next) : next.Sound := by
  unfold answer at answered
  split at answered
  · cases answered
  · split at answered
    · cases answered
      exact sound
    · cases answered

theorem act_keeps (sound : net.Sound) (action : Action) (holds : net.orderly action = true) :
    Keeps (net.act action) := by
  cases action with
  | start address udpPort listenPort =>
      refine .ok fun next started => ?_
      split at started
      · cases started
      · cases started
        intro member mem
        rcases List.mem_append.mp mem with old | new
        · exact sound member old
        · rw [List.mem_singleton.mp new]
          exact ⟨rfl, rfl⟩
  | advance i =>
      refine stepMember_keeps sound fun member found sound => member.advance_keeps sound ?_
      rw [orderly, found] at holds
      exact holds
  | resume i => exact stepMember_keeps sound fun member _ sound => member.resume_keeps sound
  | round i now events =>
      refine stepMember_keeps sound fun member found sound => member.round_keeps sound ?_
      rw [orderly, found] at holds
      exact holds
  | interrupt i =>
      refine stepMember_keeps sound fun member _ sound => .ok ?_
      rintro _ ⟨⟩
      exact sound
  | answerStun i => exact .ok fun next answered => answer_sound sound answered
  | answerNode i named =>
      cases named with
      | none =>
          refine .ok fun next answered => ?_
          split at answered
          · cases answered
          · exact answer_sound sound answered
      | some j =>
          refine .ok fun next answered => ?_
          split at answered
          · cases answered
          · split at answered
            · exact answer_sound sound answered
            · cases answered
  | query client receiver query =>
      refine .ok ?_
      rintro _ ⟨⟩
      exact sound
  | deliver k =>
      refine .ok fun next delivered => ?_
      obtain ⟨packet, -, rfl⟩ := Option.map_eq_some_iff.mp delivered
      have taken : Sound { net with transit := net.transit.eraseIdx k } := sound
      exact deliver_sound taken packet
  | split k n =>
      refine .ok fun next cut => ?_
      split at cut
      · split at cut
        · cases cut
          exact sound
        · cases cut
      · cases cut
  | lose k =>
      refine .ok fun next lost => ?_
      split at lost
      · cases lost
        exact sound
      · cases lost

theorem Reaches.sound
    (reached : Reaches (fun net action => net.orderly action) (Net.empty trackerAddr) net) :
    net.Sound := by
  induction reached with
  | start => exact List.forall_mem_nil _
  | act _ holds acted ih =>
      have kept := act_keeps ih _ holds
      rw [acted] at kept
      exact kept.value _ rfl

/-- In such a run no node panics because it has no successor to forward to. -/
theorem successor_is_set
    (reached : Reaches (fun net action => net.orderly action) (Net.empty trackerAddr) net)
    {action : Action} (holds : net.orderly action) : net.act action ≠ .error missingSuccessor := by
  intro failed
  have kept := act_keeps reached.sound action holds
  rw [failed] at kept
  exact kept.failure rfl

/-! ## A request behind a `NET_LEAVING` -/

def run (allowed : Net → Action → Bool) : List Action → Net → Option Net
  | [], net => some net
  | action :: actions, net =>
      if allowed net action then
        match net.act action with
        | .ok (some next) => run allowed actions next
        | _ => none
      else none

theorem run_reaches {allowed : Net → Action → Bool} {Allowed : Net → Action → Prop} {start : Net}
    (allows : ∀ net action, allowed net action = true → Allowed net action) :
    ∀ {actions : List Action} {net last : Net}, Reaches Allowed start net →
      run allowed actions net = some last → Reaches Allowed start last := by
  intro actions
  induction actions with
  | nil =>
      intro net last reached ran
      cases ran
      exact reached
  | cons action actions ih =>
      intro net last reached ran
      rw [run] at ran
      split at ran
      · rename_i holds
        split at ran
        · rename_i next acted
          exact ih (reached.act (allows net action holds) acted) ran
        · cases ran
      · cases ran

def boot (i : ℕ) (address : UInt32) (listenPort : UInt16) (named : Option ℕ) : List Action :=
  [.start address 101 listenPort, .advance i, .deliver 0, .advance i, .answerStun i, .deliver 0,
    .resume i, .advance i, .deliver 0, .answerNode i named, .deliver 0, .resume i]

/-- Two nodes join the first one, each at its place behind it, and the second of them leaves.
Its `NET_LEAVING` and its close reach the first node together, and so does a client's request
for a key of the other node.  The first round of each node tells the tracker that it is
alive. -/
def thirdLeaves : List Action := List.flatten [
  boot 0 1 201 none, [.advance 0],
  boot 1 2 202 (some 0),
  [.advance 1, .deliver 0, .round 0 100 [.udp], .deliver 0, .advance 0, .advance 0, .resume 1,
    .advance 1, .deliver 0, .resume 1, .resume 0],
  boot 2 3 203 (some 0),
  [.advance 2, .deliver 0, .round 0 100 [.udp], .advance 0, .advance 0,
    .deliver 0, .round 1 100 [.predecessor], .deliver 0, .advance 1, .advance 1,
    .deliver 0, .round 0 100 [.predecessor], .advance 0, .advance 0,
    .deliver 0, .round 1 100 [.predecessor], .advance 1,
    .resume 2, .advance 2, .deliver 2, .resume 2, .resume 1],
  [.interrupt 2, .round 2 100 [], .deliver 4, .advance 2, .advance 2,
    .deliver 4, .round 0 100 [.successor], .advance 0, .deliver 4, .resume 2, .advance 2,
    .deliver 6, .deliver 6,
    .query ⟨5, 5⟩ ⟨1, 101⟩ (.insert (List.replicate 12 '0') [] []), .deliver 6]]

theorem successor_is_set_thirdLeaves : ∃ net,
    run orderly thirdLeaves (Net.empty ⟨9, 9⟩) = some net ∧
      net.act (.round 0 100 [.successor]) ≠ .error missingSuccessor := by
  have runs : ((run orderly thirdLeaves (Net.empty ⟨9, 9⟩)).any fun net =>
      net.orderly (.round 0 100 [.successor])) = true := by decide +kernel
  obtain ⟨net, ran, holds⟩ := (Option.any_eq_true ..).mp runs
  exact ⟨net, ran, successor_is_set (run_reaches (fun _ _ holds => holds) .start ran) holds⟩

/-- The node handles the request in the round in which it reads the close. -/
theorem request_misses_successor : ¬ ∀ (trackerAddr : Addr) (net : Net),
    Reaches (fun _ _ => True) (Net.empty trackerAddr) net →
      ∀ action, net.act action ≠ .error missingSuccessor := by
  intro safe
  have runs : ((run (fun _ _ => true) thirdLeaves (Net.empty ⟨9, 9⟩)).any fun net =>
      match net.act (.round 0 100 [.successor, .udp]) with
      | .error e => e == missingSuccessor
      | .ok _ => false) = true := by decide +kernel
  obtain ⟨net, ran, panics⟩ := (Option.any_eq_true ..).mp runs
  have reached := run_reaches (fun _ _ _ => trivial) .start ran
  have fine := safe ⟨9, 9⟩ net reached (.round 0 100 [.successor, .udp])
  split at panics
  · rename_i e failed
    rw [failed, eq_of_beq panics] at fine
    exact fine rfl
  · cases panics

end Net

end DhtRing.TestNode

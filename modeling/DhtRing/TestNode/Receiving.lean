import DhtRing.TestNode.Encoding
import DhtRing.TestNode.Wrapper

/-!
# Reading from sockets

What one call of `try_read` does to a wrapper, and what many do.  On a connection the PDUs
do not depend on the pieces in which they arrive, unless a piece ends right behind a name.
A burst that fills the buffer is answered like a closed connection.  On a UDP socket the
bytes that one datagram leaves over stand in front of the next.
-/

set_option autoImplicit false

namespace DhtRing.TestNode

open Framing

/-! ## One call -/

section

variable {wrapper wrapper' : TcpWrapper} {socket socket' : TcpStream} {closed : Bool}

def TcpWrapper.filled (wrapper : TcpWrapper) (socket : TcpStream) : List UInt8 :=
  wrapper.buffer ++ socket.pending.take (bufferSize - wrapper.buffer.length)

def TcpWrapper.ReadsNothing (wrapper : TcpWrapper) (socket : TcpStream) : Prop :=
  socket.closed = true ∨ bufferSize ≤ wrapper.buffer.length + socket.pending.length

instance : Decidable (wrapper.ReadsNothing socket) := inferInstanceAs (Decidable (_ ∨ _))

theorem readLoop_filled (wrapper : TcpWrapper) (socket : TcpStream) :
    ∃ socket', readLoop (socket.pending.length + 1) wrapper.buffer socket =
        (decide (wrapper.ReadsNothing socket), wrapper.filled socket, socket') ∧
      socket'.pending = socket.pending.drop (bufferSize - wrapper.buffer.length) ∧
      socket' = { socket with bursts := socket'.bursts } := by
  by_cases room : wrapper.buffer.length + socket.pending.length < bufferSize
  · refine ⟨{ socket with bursts := [] }, ?_, ?_, rfl⟩
    · rw [readLoop_of_room room (Nat.lt_succ_self _), TcpWrapper.filled,
        List.take_of_length_le (by omega)]
      congr 1
      rw [Bool.eq_iff_iff, decide_eq_true_iff, TcpWrapper.ReadsNothing]
      exact (or_iff_left (Nat.not_le_of_lt room)).symm
    · rw [List.drop_of_length_le (by omega)]
      rfl
  · have full := Nat.le_of_not_lt room
    obtain ⟨last, reads, rest⟩ := readLoop_of_full full (Nat.lt_succ_self _)
    refine ⟨last, reads.trans ?_, rest⟩
    have nothing : wrapper.ReadsNothing socket := Or.inr full
    rw [decide_eq_true nothing]
    rfl

theorem TcpWrapper.tryRead_eq (wrapper : TcpWrapper) (socket : TcpStream) :
    ∃ socket', wrapper.tryRead socket =
        (feed parsePdu ([], []) (wrapper.filled socket)).map (fun found =>
          (decide (wrapper.ReadsNothing socket),
            ⟨wrapper.incomingQueue ++ found.1.map fun pdu => (pdu, socket.peerAddr), found.2⟩,
            socket')) ∧
      socket'.pending = socket.pending.drop (bufferSize - wrapper.buffer.length) ∧
      socket' = { socket with bursts := socket'.bursts } := by
  obtain ⟨socket', reads, left, same⟩ := readLoop_filled wrapper socket
  have peer : socket'.peerAddr = socket.peerAddr := by rw [same]
  refine ⟨socket', ?_, left, same⟩
  rw [TcpWrapper.tryRead, reads, feed]
  dsimp only
  rw [List.nil_append, peer]
  cases drain parsePdu (wrapper.filled socket).length (wrapper.filled socket) <;> rfl

def TcpWrapper.Panics (wrapper : TcpWrapper) (socket : TcpStream) : Prop :=
  ∃ e, feed parsePdu ([], []) (wrapper.filled socket) = .error e

theorem TcpWrapper.tryRead_ok
    (answer : wrapper.tryRead socket = .ok (closed, wrapper', socket')) :
    ∃ found, feed parsePdu ([], []) (wrapper.filled socket) = .ok found ∧
      closed = decide (wrapper.ReadsNothing socket) ∧ wrapper'.buffer = found.2 ∧
      socket'.pending = socket.pending.drop (bufferSize - wrapper.buffer.length) ∧
      socket' = { socket with bursts := socket'.bursts } := by
  obtain ⟨last, eq, left, same⟩ := wrapper.tryRead_eq socket
  rw [eq] at answer
  cases found : feed parsePdu ([], []) (wrapper.filled socket) with
  | error e =>
      rw [found] at answer
      cases answer
  | ok found' =>
      rw [found] at answer
      cases answer
      exact ⟨found', rfl, rfl, rfl, left, same⟩

/-- The answer is that the connection is closed when it is, and when the buffer is full. -/
theorem TcpWrapper.tryRead_closed
    (answer : wrapper.tryRead socket = .ok (closed, wrapper', socket')) :
    closed = true ↔ wrapper.ReadsNothing socket := by
  obtain ⟨found, -, rfl, -⟩ := tryRead_ok answer
  exact decide_eq_true_iff

theorem TcpWrapper.tryRead_socket
    (answer : wrapper.tryRead socket = .ok (closed, wrapper', socket')) :
    socket' = { socket with bursts := socket'.bursts } := by
  obtain ⟨found, -, -, -, -, same⟩ := tryRead_ok answer
  exact same

/-- What fits into the buffer is read, and leaves no more in it than it took. -/
theorem TcpWrapper.tryRead_room (answer : wrapper.tryRead socket = .ok (closed, wrapper', socket'))
    (room : wrapper.buffer.length + socket.pending.length < bufferSize) :
    wrapper'.buffer.length + socket'.pending.length < bufferSize := by
  obtain ⟨found, feeds, -, buffer, left, -⟩ := tryRead_ok answer
  have none_left : socket'.pending = [] := by
    rw [left]
    exact List.drop_of_length_le (by omega)
  have shorter : found.2.length ≤ (wrapper.filled socket).length := by
    rw [feed, List.nil_append] at feeds
    cases drained : drain parsePdu (wrapper.filled socket).length (wrapper.filled socket) with
    | error e =>
        rw [drained] at feeds
        cases feeds
    | ok more =>
        rw [drained] at feeds
        cases feeds
        exact drain_length_le drained
  have filled : (wrapper.filled socket).length =
      wrapper.buffer.length + socket.pending.length := by
    rw [TcpWrapper.filled, List.length_append, List.take_of_length_le (by omega)]
  rw [none_left, buffer]
  simp only [List.length_nil]
  omega

theorem TcpWrapper.tryRead_ok_iff :
    (∃ closed wrapper' socket', wrapper.tryRead socket = .ok (closed, wrapper', socket')) ↔
      ¬ wrapper.Panics socket := by
  obtain ⟨last, eq, -⟩ := wrapper.tryRead_eq socket
  rw [eq, TcpWrapper.Panics]
  cases feed parsePdu ([], []) (wrapper.filled socket) with
  | error e => simp [Except.map]
  | ok found => simp [Except.map]

theorem TcpWrapper.tryRead_of_room
    (room : wrapper.buffer.length + socket.pending.length < bufferSize) :
    ∃ socket', wrapper.tryRead socket =
      (feed parsePdu ([], wrapper.buffer) socket.pending).map fun found => (socket.closed,
        ⟨wrapper.incomingQueue ++ found.1.map fun pdu => (pdu, socket.peerAddr), found.2⟩,
        socket') := by
  obtain ⟨last, eq, -⟩ := wrapper.tryRead_eq socket
  refine ⟨last, eq.trans ?_⟩
  have answer : decide (wrapper.ReadsNothing socket) = socket.closed := by
    rw [Bool.eq_iff_iff, decide_eq_true_iff]
    exact or_iff_left (Nat.not_le_of_lt room)
  have all : wrapper.filled socket = wrapper.buffer ++ socket.pending := by
    rw [TcpWrapper.filled, List.take_of_length_le (by omega)]
  rw [answer, all, feed, feed, List.nil_append]

end

/-! ## A stream in pieces -/

/-- One call of `try_read` after the other, with the connection as each finds it. -/
def TcpWrapper.readAll (wrapper : TcpWrapper) (calls : List TcpStream) :
    Except String TcpWrapper :=
  calls.foldlM (fun wrapper socket => (wrapper.tryRead socket).map fun answer => answer.2.1) wrapper

/-- At any time fewer than `BUFFER_SIZE` bytes are in the buffer. -/
def TcpWrapper.Roomy (wrapper : TcpWrapper) : List TcpStream → Prop
  | [] => True
  | socket :: calls => wrapper.buffer.length + socket.pending.length < bufferSize ∧
      match wrapper.tryRead socket with
      | .error _ => True
      | .ok (_, wrapper', _) => wrapper'.Roomy calls

def received (calls : List TcpStream) : List UInt8 := calls.flatMap TcpStream.pending

/-- A call reads up to the end of the name of a PDU with texts, and no further. -/
def EndsBehindName (pdus : List PDU) (calls : List TcpStream) : Prop :=
  ∃ (before after : List TcpStream) (first : List PDU) (pdu : PDU) (later : List PDU) (cut : ℕ),
    calls = before ++ after ∧ pdus = first ++ pdu :: later ∧ pdu.nameEnd = some cut ∧
      received before = first.flatMap PDU.toBytes ++ pdu.toBytes.take cut

/-- All calls return, and these PDUs are in the queue. -/
def Delivers (calls : List TcpStream) (pdus : List PDU) : Prop :=
  ∃ wrapper, TcpWrapper.new.readAll calls = .ok wrapper ∧
    wrapper.incomingQueue.map Prod.fst = pdus ∧ wrapper.buffer = []

section

variable {calls : List TcpStream} {pdus : List PDU}

theorem readAll_eq_foldlM {wrapper : TcpWrapper} (room : wrapper.Roomy calls) :
    (wrapper.readAll calls).map (fun wrapper =>
        (wrapper.incomingQueue.map Prod.fst, wrapper.buffer)) =
      (calls.map TcpStream.pending).foldlM (feed parsePdu)
        (wrapper.incomingQueue.map Prod.fst, wrapper.buffer) := by
  induction calls generalizing wrapper with
  | nil => rfl
  | cons socket calls ih =>
      obtain ⟨fits, later⟩ := room
      obtain ⟨last, eq⟩ := TcpWrapper.tryRead_of_room fits
      rw [eq, feed] at later
      rw [TcpWrapper.readAll, List.foldlM_cons, List.map_cons, List.foldlM_cons, eq, feed, feed]
      cases parsed : drain parsePdu (wrapper.buffer ++ socket.pending).length
        (wrapper.buffer ++ socket.pending) with
      | error e => rfl
      | ok found =>
          rw [parsed] at later
          let next : TcpWrapper :=
            ⟨wrapper.incomingQueue ++ found.1.map fun pdu => (pdu, socket.peerAddr), found.2⟩
          have roomy : next.Roomy calls := later
          have queue : next.incomingQueue.map Prod.fst =
              wrapper.incomingQueue.map Prod.fst ++ found.1 := by
            simp [next, Function.comp_def]
          have rest := ih roomy
          rw [queue] at rest
          exact rest

theorem received_eq_flatten : received calls = (calls.map TcpStream.pending).flatten :=
  List.flatMap_def ..

/-- The parser fails at the end of a call exactly where the call ends behind a name. -/
theorem clear_iff (encodable : ∀ pdu ∈ pdus, pdu.Encodable)
    (stream : received calls = pdus.flatMap PDU.toBytes) :
    Clear parsePdu PDU.wire PDU.Parsed (calls.map TcpStream.pending) ↔
      ¬ EndsBehindName pdus calls := by
  have parsed : ∀ first : List PDU, first ⊆ pdus → ∀ pdu ∈ first.map PDU.asParsed, pdu.Parsed := by
    intro first sub pdu mem
    obtain ⟨raw, raw_mem, rfl⟩ := List.mem_map.mp mem
    exact (encodable raw (sub raw_mem)).asParsed
  have wires : ∀ first : List PDU, first ⊆ pdus →
      (first.map PDU.asParsed).flatMap PDU.wire = first.flatMap PDU.toBytes :=
    fun first sub => flatMap_wire_asParsed fun pdu mem => encodable pdu (sub mem)
  constructor
  · rintro clear ⟨before, after, first, pdu, later, cut, rfl, rfl, named, ends⟩
    have here : pdu.Encodable := encodable pdu (by simp)
    have fits : pdu.asParsed.Fits := here.asParsed.2
    obtain ⟨e, fails⟩ := parsePdu_take_nameEnd fits ((pdu.nameEnd_asParsed).trans named)
    rw [here.wire_asParsed] at fails
    have sub : first ⊆ first ++ pdu :: later := List.subset_append_left ..
    refine clear (before.map TcpStream.pending) (after.map TcpStream.pending) List.map_append
      (first.map PDU.asParsed) (pdu.toBytes.take cut) (parsed first sub) ?_ e fails
    rw [← received_eq_flatten, ends, wires first sub]
  · intro none_ends before after split ys rest valid flat e fails
    apply none_ends
    obtain ⟨before', after', rfl, rfl, rfl⟩ := List.map_eq_append_iff.mp split
    rw [received, List.flatMap_append] at stream
    rw [← received_eq_flatten, received] at flat
    rw [flat, List.append_assoc, ← wires pdus (List.Subset.refl _)] at stream
    obtain ⟨zs, eq, tail⟩ :=
      parsePdu_frames.of_prefix valid (parsed pdus (List.Subset.refl _)) stream
    obtain ⟨first, later, rfl, rfl, rfl⟩ := List.map_eq_append_iff.mp eq
    cases later with
    | nil =>
        rw [List.map_nil, List.flatMap_nil] at tail
        rw [(List.append_eq_nil_iff.mp tail).1] at fails
        cases fails
    | cons pdu later =>
        have here : pdu.Encodable := encodable pdu (by simp)
        rw [List.map_cons, List.flatMap_cons] at tail
        obtain ⟨cut, named, rest_eq⟩ := nameEnd_of_error here.asParsed.2 fails tail
        refine ⟨before', after', first, pdu, later, cut, rfl, rfl,
          (pdu.nameEnd_asParsed).symm.trans named, ?_⟩
        rw [received, flat, rest_eq, here.wire_asParsed,
          wires first (List.subset_append_left ..)]

theorem delivers_iff {found : List PDU} (encodable : ∀ pdu ∈ pdus, pdu.Encodable)
    (stream : received calls = pdus.flatMap PDU.toBytes)
    (room : TcpWrapper.new.Roomy calls) :
    Delivers calls found ↔ ¬ EndsBehindName pdus calls ∧ found = pdus.map PDU.asParsed := by
  rw [← clear_iff encodable stream]
  have parsed : ∀ pdu ∈ pdus.map PDU.asParsed, pdu.Parsed := by
    intro pdu mem
    obtain ⟨raw, raw_mem, rfl⟩ := List.mem_map.mp mem
    exact (encodable raw raw_mem).asParsed
  have waits : Stuck parsePdu [] := fun pdu used found => by cases found
  have flat : (calls.map TcpStream.pending).flatten =
      (pdus.map PDU.asParsed).flatMap PDU.wire ++ [] := by
    rw [← received_eq_flatten, stream, flatMap_wire_asParsed encodable, List.append_nil]
  have reads := readAll_eq_foldlM room
  rw [show TcpWrapper.new.incomingQueue.map Prod.fst = [] from rfl,
    show TcpWrapper.new.buffer = [] from rfl] at reads
  rcases parsePdu_frames.foldlM_feed (calls.map TcpStream.pending) parsed waits flat with
    ⟨all, clear⟩ | ⟨⟨e, fails⟩, unclear⟩
  · rw [all] at reads
    cases read : TcpWrapper.new.readAll calls with
    | error e =>
        rw [read] at reads
        cases reads
    | ok wrapper =>
        rw [read] at reads
        obtain ⟨queue, buffer⟩ := Prod.mk.inj (Except.ok.inj reads)
        constructor
        · rintro ⟨wrapper', read', rfl, -⟩
          obtain rfl : wrapper = wrapper' := Except.ok.inj (read.symm.trans read')
          exact ⟨clear, queue⟩
        · rintro ⟨-, rfl⟩
          exact ⟨wrapper, read, queue, buffer⟩
  · refine iff_of_false ?_ fun delivered => unclear delivered.1
    rintro ⟨wrapper, read, -, -⟩
    rw [read, fails] at reads
    cases reads

/-- The queue holds the PDUs of the stream if and only if no call ends behind a name and
there is no `VAL_LOOKUP_RESPONSE`; that one comes with another type. -/
theorem segmentation_iff (encodable : ∀ pdu ∈ pdus, pdu.Encodable)
    (stream : received calls = pdus.flatMap PDU.toBytes)
    (room : TcpWrapper.new.Roomy calls) :
    (Delivers calls pdus ↔ ¬ EndsBehindName pdus calls ∧ ∀ pdu ∈ pdus, pdu.code ≠ 103) ∧
      (Delivers calls (pdus.map PDU.asParsed) ↔ ¬ EndsBehindName pdus calls) := by
  have same : pdus = pdus.map PDU.asParsed ↔ ∀ pdu ∈ pdus, pdu.code ≠ 103 := by
    have pointwise := List.map_inj_left (f := PDU.asParsed) (g := id) (l := pdus)
    rw [List.map_id] at pointwise
    rw [eq_comm, pointwise]
    exact forall₂_congr fun pdu mem => (encodable pdu mem).asParsed_eq_iff
  refine ⟨?_, ?_⟩
  · rw [delivers_iff encodable stream room, same]
  · rw [delivers_iff encodable stream room, and_iff_left rfl]

def arrives (burst : Burst) : TcpStream := ⟨0, ⟨0, 0⟩, [burst], false⟩

def leavingPdus : List PDU :=
  [.netNewRange ⟨6, 128, 255⟩,
    .valInsert ⟨100, List.replicate 12 '0', 1, ['n'], 1, ['e']⟩,
    .netLeaving ⟨7, 2130706433, 5000⟩]

/-- It is cut in the range, in the key, in front of the name and in the address. -/
def leavingPieces : List TcpStream :=
  [arrives ⟨[6, 128], by decide⟩,
    arrives ⟨[255, 100, 48, 48, 48], by decide⟩,
    arrives ⟨[48, 48, 48, 48, 48, 48, 48, 48, 48, 1], by decide⟩,
    arrives ⟨[110, 1, 101, 7, 127], by decide⟩,
    arrives ⟨[0, 0, 1, 19, 136], by decide⟩]

theorem segmentation_iff_fivePieces :
    Delivers leavingPieces leavingPdus ∧ ¬ EndsBehindName leavingPdus leavingPieces := by
  have encodable : ∀ pdu ∈ leavingPdus, pdu.Encodable := by
    intro pdu mem
    simp only [leavingPdus, List.mem_cons, List.not_mem_nil, or_false] at mem
    rcases mem with rfl | rfl | rfl
    · exact ⟨rfl, trivial⟩
    · exact ⟨rfl, by decide, by decide, by decide⟩
    · exact ⟨rfl, trivial⟩
  have room : TcpWrapper.new.Roomy leavingPieces :=
    ⟨by decide, by decide, by decide, by decide, by decide, trivial⟩
  have delivered : Delivers leavingPieces leavingPdus := ⟨_, rfl, rfl, rfl⟩
  exact ⟨delivered, ((segmentation_iff encodable rfl room).1.mp delivered).1⟩

/-- A `VAL_INSERT` without name and email, of which the last byte comes later. -/
theorem segmentation_matters :
    ¬ ∀ (pdus : List PDU) (calls : List TcpStream), (∀ pdu ∈ pdus, pdu.Encodable) →
      received calls = pdus.flatMap PDU.toBytes → TcpWrapper.new.Roomy calls →
        Delivers calls pdus := by
  intro claim
  have insert : (PDU.valInsert ⟨100, List.replicate 12 '0', 0, [], 0, []⟩).Encodable :=
    ⟨rfl, by decide, by decide, by decide⟩
  have encodable : ∀ pdu ∈ [PDU.valInsert ⟨100, List.replicate 12 '0', 0, [], 0, []⟩],
      pdu.Encodable := by
    intro pdu mem
    obtain rfl := List.mem_singleton.mp mem
    exact insert
  obtain ⟨wrapper, read, -⟩ := claim [.valInsert ⟨100, List.replicate 12 '0', 0, [], 0, []⟩]
    [arrives ⟨100 :: List.replicate 12 48 ++ [0], by decide⟩, arrives ⟨[0], by decide⟩]
    encodable rfl ⟨by decide, trivial⟩
  cases read

end

/-! ## Datagrams -/

def Datagram.Carries (datagram : Datagram) (pdus : List PDU) : Prop :=
  (∀ pdu ∈ pdus, pdu.Parsed) ∧ datagram.bytes = pdus.flatMap PDU.wire ∧
    datagram.bytes.length ≤ bufferSize

/-- The datagram is empty or starts like a PDU, and fits into the buffer. -/
def Datagram.Plausible (datagram : Datagram) : Prop :=
  datagram.bytes.length ≤ bufferSize ∧
    (datagram.bytes = [] ∨ ∃ code ∈ knownTypes, datagram.bytes.head? = some code)

/-- Behind the earlier ones the datagram puts just these PDUs into the queue, with its own
sender. -/
def Isolated (earlier : List Datagram) (datagram : Datagram) (pdus : List PDU) : Prop :=
  ∃ wrapper wrapper' : UdpWrapper, UdpWrapper.new.tryRead earlier = .ok wrapper ∧
    wrapper.receive datagram = .ok wrapper' ∧
    wrapper'.incomingQueue = wrapper.incomingQueue ++ pdus.map fun pdu => (pdu, datagram.sender)

def LeavesNothing (earlier : List Datagram) : Prop :=
  ∃ wrapper : UdpWrapper, UdpWrapper.new.tryRead earlier = .ok wrapper ∧ wrapper.buffer = []

section

variable {wrapper wrapper' : UdpWrapper} {datagram : Datagram} {earlier : List Datagram}
  {pdus : List PDU}

theorem UdpWrapper.receive_eq (wrapper : UdpWrapper) (datagram : Datagram) :
    wrapper.receive datagram =
      (feed parsePdu ([], wrapper.buffer)
        (datagram.bytes.take (bufferSize - wrapper.buffer.length))).map fun found =>
          ⟨wrapper.incomingQueue ++ found.1.map fun pdu => (pdu, datagram.sender), found.2⟩ := by
  rw [UdpWrapper.receive, feed]
  cases drain parsePdu (wrapper.buffer ++
      datagram.bytes.take (bufferSize - wrapper.buffer.length)).length (wrapper.buffer ++
        datagram.bytes.take (bufferSize - wrapper.buffer.length)) <;> rfl

theorem UdpWrapper.receive_ok (answer : wrapper.receive datagram = .ok wrapper') :
    ∃ found : List PDU, (∀ pdu ∈ found, pdu.Parsed) ∧
      wrapper.buffer ++ datagram.bytes.take (bufferSize - wrapper.buffer.length) =
        found.flatMap PDU.wire ++ wrapper'.buffer ∧
      parsePdu wrapper'.buffer = .ok none ∧
      wrapper'.incomingQueue =
        wrapper.incomingQueue ++ found.map fun pdu => (pdu, datagram.sender) := by
  rw [UdpWrapper.receive_eq] at answer
  cases fed : feed parsePdu ([], wrapper.buffer)
      (datagram.bytes.take (bufferSize - wrapper.buffer.length)) with
  | error e =>
      rw [fed] at answer
      cases answer
  | ok found =>
      rw [fed] at answer
      cases answer
      obtain ⟨found, rest⟩ := found
      obtain ⟨pdus, rfl, valid, split, waits⟩ := parsePdu_frames.of_feed fed
      exact ⟨found, valid, split, waits, rfl⟩

/-- Behind an empty buffer a datagram of whole PDUs leaves an empty buffer. -/
theorem UdpWrapper.receive_of_carries (empty : wrapper.buffer = [])
    (carries : datagram.Carries pdus) :
    wrapper.receive datagram =
      .ok ⟨wrapper.incomingQueue ++ pdus.map fun pdu => (pdu, datagram.sender), []⟩ := by
  obtain ⟨valid, bytes, short⟩ := carries
  have stuck : Stuck parsePdu [] := fun pdu used found => by cases found
  have split : [] ++ datagram.bytes.take (bufferSize - ([] : List UInt8).length) =
      pdus.flatMap PDU.wire ++ [] := by
    rw [List.nil_append, List.append_nil, List.length_nil, Nat.sub_zero,
      List.take_of_length_le short, bytes]
  have reads : feed parsePdu ([], []) _ = _ := parsePdu_frames.feed_eq valid stuck split
  rw [UdpWrapper.receive_eq, empty, reads]
  rfl

theorem UdpWrapper.tryRead_append (wrapper : UdpWrapper) (first later : List Datagram) :
    wrapper.tryRead (first ++ later) =
      wrapper.tryRead first >>= fun wrapper => wrapper.tryRead later :=
  List.foldlM_append ..

theorem UdpWrapper.tryRead_waits (read : UdpWrapper.new.tryRead earlier = .ok wrapper) :
    parsePdu wrapper.buffer = .ok none := by
  rcases List.eq_nil_or_concat' earlier with rfl | ⟨before, last, rfl⟩
  · cases read
    rfl
  · rw [UdpWrapper.tryRead_append] at read
    cases first : UdpWrapper.new.tryRead before with
    | error e =>
        rw [first] at read
        cases read
    | ok middle =>
        rw [first, ok_bind, UdpWrapper.tryRead, List.foldlM_cons] at read
        cases answer : middle.receive last with
        | error e =>
            rw [answer] at read
            cases read
        | ok next =>
            rw [answer] at read
            cases read
            obtain ⟨-, -, -, waits, -⟩ := UdpWrapper.receive_ok answer
            exact waits

theorem leavesNothing_of_carries (whole : ∀ datagram ∈ earlier, ∃ pdus, datagram.Carries pdus) :
    LeavesNothing earlier := by
  induction earlier using List.reverseRecOn with
  | nil => exact ⟨UdpWrapper.new, rfl, rfl⟩
  | append_singleton earlier last ih =>
      obtain ⟨wrapper, read, empty⟩ := ih fun d mem => whole d (List.mem_append_left _ mem)
      obtain ⟨pdus, carries⟩ := whole last (by simp)
      refine ⟨⟨wrapper.incomingQueue ++ pdus.map fun pdu => (pdu, last.sender), []⟩, ?_, rfl⟩
      rw [UdpWrapper.tryRead_append, read, ok_bind, UdpWrapper.tryRead, List.foldlM_cons,
        UdpWrapper.receive_of_carries empty carries]
      rfl

theorem isolated_of_leavesNothing (empty : LeavesNothing earlier)
    (carries : datagram.Carries pdus) : Isolated earlier datagram pdus := by
  obtain ⟨wrapper, read, empty⟩ := empty
  exact ⟨wrapper, _, read, UdpWrapper.receive_of_carries empty carries, rfl⟩

/-- Every datagram of whole PDUs is read as such if and only if nothing is left over from
the earlier ones.  It is so when these consist of whole PDUs. -/
theorem datagrams_isolated_iff (earlier : List Datagram) :
    ((∀ datagram pdus, datagram.Carries pdus → Isolated earlier datagram pdus) ↔
        LeavesNothing earlier) ∧
      ((∀ datagram ∈ earlier, ∃ pdus, datagram.Carries pdus) →
        ∀ datagram pdus, datagram.Carries pdus → Isolated earlier datagram pdus) := by
  have enough : LeavesNothing earlier →
      ∀ datagram pdus, datagram.Carries pdus → Isolated earlier datagram pdus :=
    fun empty datagram pdus carries => isolated_of_leavesNothing empty carries
  refine ⟨⟨?_, enough⟩, fun whole => enough (leavesNothing_of_carries whole)⟩
  intro isolated
  -- A `NET_ALIVE` behind bytes that are no PDU yet cannot be what is found.
  have alive : ∀ pdu ∈ [PDU.netAlive ⟨0⟩], pdu.Parsed := by
    intro pdu mem
    obtain rfl := List.mem_singleton.mp mem
    exact ⟨rfl, trivial⟩
  obtain ⟨wrapper, wrapper', read, answer, queue⟩ :=
    isolated ⟨⟨0, 0⟩, [0]⟩ [.netAlive ⟨0⟩] ⟨alive, rfl, by decide⟩
  refine ⟨wrapper, read, ?_⟩
  have waits := UdpWrapper.tryRead_waits read
  obtain ⟨found, valid, split, -, queue'⟩ := UdpWrapper.receive_ok answer
  have found_eq : found = [.netAlive ⟨0⟩] := by
    have tails := List.append_cancel_left (queue'.symm.trans queue)
    have pdus := congrArg (List.map Prod.fst) tails
    simpa [Function.comp_def] using pdus
  subst found_eq
  cases buffer : wrapper.buffer with
  | nil => rfl
  | cons byte rest =>
      rw [buffer] at split waits
      obtain rfl : byte = 0 := (List.cons.inj split).1
      have found := parsePdu_whole (.netAlive ⟨0⟩) rest ⟨rfl, trivial⟩
      rw [show (PDU.netAlive ⟨0⟩).wire ++ rest = 0 :: rest from rfl, waits] at found
      cases found

/-- The first byte of a `NET_JOIN`, and a `NET_ALIVE` from somebody else. -/
theorem datagrams_not_isolated :
    ¬ ∀ (earlier : List Datagram) (datagram : Datagram) (pdus : List PDU),
      (∀ datagram ∈ earlier, datagram.Plausible) → datagram.Carries pdus →
        Isolated earlier datagram pdus := by
  intro claim
  have known : ∀ datagram ∈ [(⟨⟨1, 1⟩, [3]⟩ : Datagram)], datagram.Plausible := by
    intro datagram mem
    obtain rfl := List.mem_singleton.mp mem
    exact ⟨by decide, Or.inr ⟨3, by decide, rfl⟩⟩
  have alive : ∀ pdu ∈ [PDU.netAlive ⟨0⟩], pdu.Parsed := by
    intro pdu mem
    obtain rfl := List.mem_singleton.mp mem
    exact ⟨rfl, trivial⟩
  obtain ⟨wrapper, wrapper', read, answer, queue⟩ :=
    claim [⟨⟨1, 1⟩, [3]⟩] ⟨⟨2, 2⟩, [0]⟩ [.netAlive ⟨0⟩] known ⟨alive, rfl, by decide⟩
  cases read
  cases answer
  cases queue

end

end DhtRing.TestNode

import DhtRing.TestNode.Rounds

/-!
# A connection that looks closed

`try_read` takes `read` on an empty slice for the end of the stream.  So a burst that fills
the buffer costs a node its successor, and nothing else does while the peer stays.
-/

set_option autoImplicit false

namespace DhtRing.TestNode

/-- `try_read` reports a close only when the peer has closed the connection, and a round of
`q6` gives up a successor only then. -/
structure ReportsOnlyRealCloses (wrapper : TcpWrapper) (socket : TcpStream) : Prop where
  tryRead : ∀ wrapper' socket', wrapper.tryRead socket = .ok (true, wrapper', socket') →
    socket.closed = true
  q6 : ∀ (env : Env) (node next : Node) (events : List Token) (interrupt : Bool),
    node.successorWrapper = wrapper → node.successor = some socket → socket.closed = false →
    node.q6 env events interrupt = .ok next → next.successor.isSome

namespace Node

variable {node next : Node} {event : Token}

/-- The successor is there, and its bytes fit into the buffer if they can be parsed. -/
def Steady (node : Node) : Prop :=
  ∃ socket, node.successor = some socket ∧ socket.closed = false ∧
    (node.successorWrapper.buffer.length + socket.pending.length < bufferSize ∨
      node.successorWrapper.Panics socket)

theorem Steady.congr (steady : node.Steady) (successor : next.successor = node.successor)
    (wrapper : next.successorWrapper = node.successorWrapper) : next.Steady := by
  rw [Steady, successor, wrapper]
  exact steady

theorem Steady.handleAll (steady : node.Steady) (source : Addr → Source) (queue : List Message) :
    Ends (fun _ => True) Steady (node.handleAll source queue) := by
  rw [handleAll_eq]
  cases handled : node.handlePdus (queue.map fun x => (x.1, source x.2)) with
  | error e => exact .error trivial
  | ok next =>
      have same := handlePdus_sockets handled
      exact .ok (steady.congr (by rw [← same]; rfl) (by rw [← same]; rfl))

theorem Steady.handleEvent (steady : node.Steady) (event : Token) :
    Ends (fun _ => True) Steady (node.handleEvent event) := by
  cases event with
  | udp =>
      rw [Node.handleEvent]
      cases node.udpWrapper.tryRead node.udpSocket.datagrams with
      | error e => exact .error trivial
      | ok wrapper =>
          have steady' : Steady { node with
              udpSocket := { node.udpSocket with datagrams := [] }
              udpWrapper := { wrapper with incomingQueue := [] } } := steady.congr rfl rfl
          exact steady'.handleAll ..
  | predecessor =>
      rw [Node.handleEvent]
      rcases Option.eq_none_or_eq_some node.predecessor with unset | ⟨socket, set⟩
      · rw [unset]
        exact .ok steady
      · rw [set]
        dsimp only
        cases node.predecessorWrapper.tryRead socket with
        | error e => exact .error trivial
        | ok answer =>
            have steady' : Steady { node with
                predecessor := some answer.2.2
                predecessorWrapper := { answer.2.1 with incomingQueue := [] } } :=
              steady.congr rfl rfl
            exact steady'.handleAll ..
  | successor =>
      obtain ⟨socket, set, stays, fits⟩ := steady
      rw [Node.handleEvent, set]
      dsimp only
      cases found : node.successorWrapper.tryRead socket with
      | error e => exact .error trivial
      | ok answer =>
          obtain ⟨closed, wrapper, socket'⟩ := answer
          have room : node.successorWrapper.buffer.length + socket.pending.length < bufferSize := by
            rcases fits with room | panics
            · exact room
            · exact absurd panics (TcpWrapper.tryRead_ok_iff.mp ⟨_, _, _, found⟩)
          have open_ : closed = false := by
            by_contra gone
            rcases (TcpWrapper.tryRead_closed found).mp (eq_true_of_ne_false gone) with yes | full
            · rw [stays] at yes
              cases yes
            · exact absurd room (Nat.not_lt.mpr full)
          subst open_
          have stays' : socket'.closed = false := by
            rw [TcpWrapper.tryRead_socket found]
            exact stays
          have left := TcpWrapper.tryRead_room found room
          have steady' : Steady { node with
              successor := some socket'
              successorWrapper := { wrapper with incomingQueue := [] } } :=
            ⟨socket', rfl, stays', Or.inl left⟩
          exact steady'.handleAll ..

theorem Steady.q6 (steady : node.Steady) {env : Env} {events : List Token} {interrupt : Bool}
    (ran : node.q6 env events interrupt = .ok next) : next.successor.isSome := by
  have alive : (node.sendAlive env).Steady := by
    unfold sendAlive
    split
    · exact steady.congr rfl rfl
    · exact steady
  have events_steady := Ends.foldlM (E := fun _ => True)
    (fun (node : Node) event steady => Steady.handleEvent steady event) events _ alive
  rw [Node.q6] at ran
  cases handled : events.foldlM Node.handleEvent (node.sendAlive env) with
  | error e =>
      rw [handled] at ran
      cases ran
  | ok last =>
      rw [handled] at ran events_steady
      obtain ⟨socket, set, -⟩ := events_steady.value
      rw [← Except.ok.inj ran]
      have kept : ∀ node : Node, node.checkClose.successor = node.successor := by
        intro node
        unfold checkClose
        split <;> rfl
      rw [kept]
      exact Option.isSome_iff_exists.mpr ⟨socket, set⟩

end Node

/-- A close is reported only when it is real, if and only if the bytes leave room in the
buffer, or cannot be parsed. -/
theorem reportsOnlyRealCloses_iff (wrapper : TcpWrapper) (socket : TcpStream) :
    ReportsOnlyRealCloses wrapper socket ↔
      socket.closed = true ∨ wrapper.buffer.length + socket.pending.length < bufferSize ∨
        wrapper.Panics socket := by
  constructor
  · rintro ⟨real, -⟩
    by_contra others
    simp only [not_or] at others
    obtain ⟨stays, full, parses⟩ := others
    obtain ⟨closed, wrapper', socket', answer⟩ := TcpWrapper.tryRead_ok_iff.mpr parses
    have nothing : wrapper.ReadsNothing socket := Or.inr (Nat.le_of_not_lt full)
    have reported := (TcpWrapper.tryRead_closed answer).mpr nothing
    rw [reported] at answer
    exact stays (real wrapper' socket' answer)
  · intro holds
    refine ⟨?_, ?_⟩
    · intro wrapper' socket' answer
      rcases holds with closed | room | panics
      · exact closed
      · rcases (TcpWrapper.tryRead_closed answer).mp rfl with closed | full
        · exact closed
        · exact absurd room (Nat.not_lt.mpr full)
      · exact absurd panics (TcpWrapper.tryRead_ok_iff.mp ⟨_, _, _, answer⟩)
    · rintro env node next events interrupt rfl set stays ran
      refine Node.Steady.q6 ⟨socket, set, stays, ?_⟩ ran
      rcases holds with closed | fits
      · rw [stays] at closed
        cases closed
      · exact fits

/-- An entry of 16 bytes. -/
def transferred : PDU := .valInsert ⟨100, List.replicate 12 '0', 1, ['n'], 0, []⟩

def transfer (n : ℕ) (entries : n ≠ 0) : TcpStream where
  fd := 0
  peerAddr := ⟨1, 4000⟩
  bursts := [⟨(List.replicate n transferred).flatMap PDU.wire,
    fun none => transferred.wire_ne_nil
      (List.flatMap_eq_nil_iff.mp none transferred (List.mem_replicate.mpr ⟨entries, rfl⟩))⟩]
  closed := false

theorem transfer_pending {n : ℕ} (entries : n ≠ 0) :
    (transfer n entries).pending = (List.replicate n transferred).flatMap PDU.wire :=
  List.append_nil _

theorem transfer_length {n : ℕ} (entries : n ≠ 0) :
    (transfer n entries).pending.length = n * 16 := by
  have one : transferred.wire.length = 16 := by decide
  rw [transfer_pending, List.length_flatMap, List.map_replicate, List.sum_replicate, one]
  rfl

/-- The buffer takes the first entries of a long transfer, and none of them in part. -/
theorem transfer_filled {n : ℕ} (entries : n ≠ 0) (many : 1600 ≤ n) :
    ∃ k, TcpWrapper.new.filled (transfer n entries) =
      (List.replicate k transferred).flatMap PDU.wire := by
  obtain ⟨more, rfl⟩ := Nat.exists_eq_add_of_le many
  refine ⟨1600, ?_⟩
  have length : ((List.replicate 1600 transferred).flatMap PDU.wire).length = bufferSize := by
    rw [← transfer_pending (by decide), transfer_length]
    rfl
  have room : bufferSize - TcpWrapper.new.buffer.length = bufferSize := rfl
  rw [TcpWrapper.filled, transfer_pending, List.replicate_add, List.flatMap_append, room]
  exact List.take_left' length

theorem transfer_parses {n : ℕ} (entries : n ≠ 0) (many : 1600 ≤ n) :
    ¬ TcpWrapper.new.Panics (transfer n entries) := by
  obtain ⟨k, filled⟩ := transfer_filled entries many
  have valid : ∀ pdu ∈ List.replicate k transferred, pdu.Parsed := by
    intro pdu inside
    obtain rfl := List.eq_of_mem_replicate inside
    exact ⟨rfl, by decide, by decide, by decide⟩
  have stuck : Framing.Stuck parsePdu [] := by
    intro pdu used found
    cases found
  rintro ⟨e, failed⟩
  have split : [] ++ (List.replicate k transferred).flatMap PDU.wire =
      (List.replicate k transferred).flatMap PDU.wire ++ [] := (List.append_nil _).symm
  rw [filled, parsePdu_frames.feed_eq valid stuck split] at failed
  cases failed

/-- The peer has sent 25616 bytes and is still there: one entry more than the buffer takes. -/
theorem transfer_reported : ¬ ReportsOnlyRealCloses TcpWrapper.new (transfer 1601 (by decide)) := by
  rintro ⟨real, -⟩
  obtain ⟨closed, wrapper', socket', answer⟩ :=
    TcpWrapper.tryRead_ok_iff.mpr (transfer_parses (by decide : 1601 ≠ 0) (by decide))
  have full : TcpWrapper.new.ReadsNothing (transfer 1601 (by decide)) := by
    refine Or.inr ?_
    rw [transfer_length]
    decide
  rw [(TcpWrapper.tryRead_closed answer).mpr full] at answer
  cases real wrapper' socket' answer

end DhtRing.TestNode

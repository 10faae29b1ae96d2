import DhtRing.Lib.Ends
import DhtRing.TestNode.Receiving

/-!
# Draining the buffer

`try_read` once more, with the array of `BUFFER_SIZE` bytes and the count of those that are
filled: `read` writes behind them, and the `while` loop moves the bytes behind a PDU to the
front.  A panic is an error.  Only the parser panics, and each turn of the loop leaves fewer
bytes, so the loop does what draining a list of bytes does.
-/

set_option autoImplicit false

namespace DhtRing.TestNode

open Framing

/-! ## The loops with the array -/

/-- Where `try_read` may panic: in the parser, for a range outside the array, and for a
difference below zero.  That `peer_addr` or `read` fails is left out. -/
inductive Panic where
  | parse (message : String)
  | range
  | underflow
deriving DecidableEq

def Panic.OfParser (panic : Panic) : Prop := ∃ message, panic = .parse message

/-- `copy_within(first..last, dest)`. -/
def copyWithin {n : ℕ} (array : Vector UInt8 n) (first last dest : ℕ) :
    Except Panic (Vector UInt8 n) :=
  if inside : first ≤ last ∧ last ≤ n ∧ dest ≤ n - (last - first) then
    .ok ⟨(array.toList.take dest ++ (array.toList.drop first).take (last - first) ++
      array.toList.drop (dest + (last - first))).toArray, by simp; omega⟩
  else .error .range

def writeAt {n : ℕ} (array : Vector UInt8 n) (first : ℕ) (bytes : List UInt8)
    (inside : first + bytes.length ≤ n) : Vector UInt8 n :=
  ⟨(array.toList.take first ++ bytes ++ array.toList.drop (first + bytes.length)).toArray,
    by simp; omega⟩

structure ArrayWrapper where
  incomingQueue : List Message
  buffer : Vector UInt8 bufferSize
  bufferFill : ℕ
  inside : bufferFill ≤ bufferSize

namespace ArrayWrapper

/-- `&self.buffer[..self.buffer_fill]`. -/
def filled (wrapper : ArrayWrapper) : List UInt8 := wrapper.buffer.toList.take wrapper.bufferFill

def receive (wrapper : ArrayWrapper) (bytes : List UInt8) : Except Panic ArrayWrapper :=
  if inside : wrapper.bufferFill + bytes.length ≤ bufferSize then
    .ok { wrapper with
      buffer := writeAt wrapper.buffer wrapper.bufferFill bytes inside
      bufferFill := wrapper.bufferFill + bytes.length
      inside := inside }
  else .error .range

def turn (wrapper : ArrayWrapper) (sender : Addr) : Except Panic (Option ArrayWrapper) :=
  match parsePdu wrapper.filled with
  | .error message => .error (.parse message)
  | .ok none => .ok none
  | .ok (some (pdu, used)) => do
      let buffer ← copyWithin wrapper.buffer used wrapper.bufferFill 0
      if used ≤ wrapper.bufferFill then
        return some
          { incomingQueue := wrapper.incomingQueue ++ [(pdu, sender)]
            buffer := buffer
            bufferFill := wrapper.bufferFill - used
            inside := Nat.le_trans (Nat.sub_le ..) wrapper.inside }
      else throw .underflow

end ArrayWrapper

/-! ## One turn -/

section

variable {n first last : ℕ} {bytes : List UInt8}

theorem take_copyWithin (array : Vector UInt8 n) (inside : first ≤ last) (fits : last ≤ n) :
    ∃ array', copyWithin array first last 0 = .ok array' ∧
      array'.toList.take (last - first) = (array.toList.take last).drop first := by
  have room : first ≤ last ∧ last ≤ n ∧ 0 ≤ n - (last - first) := ⟨inside, fits, Nat.zero_le _⟩
  have front : ((array.toList.drop first).take (last - first)).length = last - first := by
    rw [List.length_take, List.length_drop, Vector.length_toList]
    omega
  refine ⟨_, dif_pos room, ?_⟩
  rw [Vector.toList_mk, List.take_zero, List.nil_append, List.take_left' front, List.drop_take]

theorem take_writeAt (array : Vector UInt8 n) (inside : first + bytes.length ≤ n) :
    (writeAt array first bytes inside).toList.take (first + bytes.length) =
      array.toList.take first ++ bytes := by
  have front : (array.toList.take first ++ bytes).length = first + bytes.length := by
    rw [List.length_append, List.length_take, Vector.length_toList]
    omega
  rw [writeAt, Vector.toList_mk, List.take_left' front]

theorem TcpStream.length_of_read {socket socket' : TcpStream} {n : ℕ} {bytes : List UInt8}
    (read : socket.read n = some (bytes, socket')) : bytes.length ≤ n := by
  rw [TcpStream.read] at read
  split at read
  · cases read
    exact Nat.zero_le _
  · split at read
    · split at read
      · cases read
        exact Nat.zero_le _
      · cases read
    · cases read
      exact List.length_take_le ..

end

namespace ArrayWrapper

variable {wrapper wrapper' : ArrayWrapper} {sender : Addr}

@[simp] theorem length_filled (wrapper : ArrayWrapper) :
    wrapper.filled.length = wrapper.bufferFill := by
  rw [filled, List.length_take, Vector.length_toList]
  exact Nat.min_eq_left wrapper.inside

theorem turn_cases (wrapper : ArrayWrapper) (sender : Addr) :
    (∃ message, parsePdu wrapper.filled = .error message ∧
        wrapper.turn sender = .error (.parse message)) ∨
      (parsePdu wrapper.filled = .ok none ∧ wrapper.turn sender = .ok none) ∨
      ∃ pdu used next, parsePdu wrapper.filled = .ok (some (pdu, used)) ∧
        wrapper.turn sender = .ok (some next) ∧
        next.incomingQueue = wrapper.incomingQueue ++ [(pdu, sender)] ∧
        next.filled = wrapper.filled.drop used ∧ next.bufferFill < wrapper.bufferFill := by
  cases parsed : parsePdu wrapper.filled with
  | error message =>
      refine Or.inl ⟨message, rfl, ?_⟩
      rw [turn, parsed]
  | ok result =>
      rcases result with _ | ⟨pdu, used⟩
      · refine Or.inr (Or.inl ⟨rfl, ?_⟩)
        rw [turn, parsed]
      · obtain ⟨some_used, enough, -⟩ := parsePdu_frames.extend parsed
        rw [length_filled] at enough
        obtain ⟨buffer, copied, front⟩ := take_copyWithin wrapper.buffer enough wrapper.inside
        refine Or.inr (Or.inr ⟨pdu, used, ⟨wrapper.incomingQueue ++ [(pdu, sender)], buffer,
          wrapper.bufferFill - used, Nat.le_trans (Nat.sub_le ..) wrapper.inside⟩, rfl, ?_, rfl, front,
          Nat.sub_lt (Nat.lt_of_lt_of_le some_used enough) some_used⟩)
        rw [turn, parsed]
        dsimp only
        rw [copied]
        exact if_pos enough

theorem turn_some (turned : wrapper.turn sender = .ok (some wrapper')) :
    ∃ pdu used, parsePdu wrapper.filled = .ok (some (pdu, used)) ∧
      wrapper'.incomingQueue = wrapper.incomingQueue ++ [(pdu, sender)] ∧
      wrapper'.filled = wrapper.filled.drop used ∧ wrapper'.bufferFill < wrapper.bufferFill := by
  rcases wrapper.turn_cases sender with
    ⟨message, -, turn⟩ | ⟨-, turn⟩ | ⟨pdu, used, next, parsed, turn, queue, filled, shorter⟩
  · rw [turn] at turned
    cases turned
  · rw [turn] at turned
    cases turned
  · rw [turn] at turned
    cases turned
    exact ⟨pdu, used, parsed, queue, filled, shorter⟩

theorem turn_shorter (turned : wrapper.turn sender = .ok (some wrapper')) :
    wrapper'.bufferFill < wrapper.bufferFill := by
  obtain ⟨pdu, used, -, -, -, shorter⟩ := turn_some turned
  exact shorter

/-- `while let Some((pdu, used)) = parse_pdu(..)`. -/
def drainLoop (wrapper : ArrayWrapper) (sender : Addr) : Except Panic ArrayWrapper :=
  match _turned : wrapper.turn sender with
  | .error panic => .error panic
  | .ok none => .ok wrapper
  | .ok (some next) => next.drainLoop sender
termination_by wrapper.bufferFill
decreasing_by exact turn_shorter _turned

def readLoop : ℕ → ArrayWrapper → TcpStream → Except Panic (Bool × ArrayWrapper × TcpStream)
  | 0, wrapper, socket => .ok (false, wrapper, socket)
  | fuel + 1, wrapper, socket =>
      match socket.read (bufferSize - wrapper.bufferFill) with
      | none => .ok (false, wrapper, socket)
      | some ([], socket) => .ok (true, wrapper, socket)
      | some (bytes, socket) => do readLoop fuel (← wrapper.receive bytes) socket

def tcpTryRead (wrapper : ArrayWrapper) (socket : TcpStream) :
    Except Panic (Bool × ArrayWrapper × TcpStream) := do
  let (closed, wrapper, socket) ← wrapper.readLoop (socket.pending.length + 1) socket
  let wrapper ← wrapper.drainLoop socket.peerAddr
  return (closed, wrapper, socket)

def udpReceive (wrapper : ArrayWrapper) (datagram : Datagram) : Except Panic ArrayWrapper := do
  let wrapper ← wrapper.receive (datagram.bytes.take (bufferSize - wrapper.bufferFill))
  wrapper.drainLoop datagram.sender

def udpTryRead (wrapper : ArrayWrapper) (datagrams : List Datagram) : Except Panic ArrayWrapper :=
  datagrams.foldlM udpReceive wrapper

theorem drainLoop_eq (wrapper : ArrayWrapper) (sender : Addr) :
    wrapper.drainLoop sender = match wrapper.turn sender with
      | .error panic => .error panic
      | .ok none => .ok wrapper
      | .ok (some next) => next.drainLoop sender := by
  rw [drainLoop]
  split
  · rename_i panic turn
    rw [turn]
  · rename_i turn
    rw [turn]
  · rename_i next turn
    rw [turn]

def tcpReadAll (wrapper : ArrayWrapper) (calls : List TcpStream) : Except Panic ArrayWrapper :=
  calls.foldlM (fun wrapper socket => (wrapper.tcpTryRead socket).map fun answer => answer.2.1)
    wrapper

/-! ## The loop, turn by turn -/

inductive Turns (sender : Addr) (wrapper : ArrayWrapper) : ℕ → ArrayWrapper → Prop where
  | zero : Turns sender wrapper 0 wrapper
  | succ {n : ℕ} {before after : ArrayWrapper} : Turns sender wrapper n before →
      before.turn sender = .ok (some after) → Turns sender wrapper (n + 1) after

theorem Turns.cons {next : ArrayWrapper} {n : ℕ} (turned : wrapper.turn sender = .ok (some next))
    (turns : Turns sender next n wrapper') : Turns sender wrapper (n + 1) wrapper' := by
  induction turns with
  | zero => exact .succ .zero turned
  | succ _ last ih => exact .succ ih last

theorem Turns.add_le {n : ℕ} (turns : Turns sender wrapper n wrapper') :
    n + wrapper'.bufferFill ≤ wrapper.bufferFill := by
  induction turns with
  | zero => exact Nat.le_of_eq (Nat.zero_add _)
  | succ _ turned ih =>
      have shorter := turn_shorter turned
      omega

/-- No turn leaves the array or takes more bytes than there are. -/
theorem turn_ne_panic (wrapper : ArrayWrapper) (sender : Addr) :
    wrapper.turn sender ≠ .error .underflow ∧ wrapper.turn sender ≠ .error .range := by
  rcases wrapper.turn_cases sender with
    ⟨message, -, turn⟩ | ⟨-, turn⟩ | ⟨pdu, used, next, -, turn, -⟩
  all_goals
    rw [turn]
    exact ⟨by simp, by simp⟩

theorem exists_turns (wrapper : ArrayWrapper) (sender : Addr) :
    ∃ n last, Turns sender wrapper n last ∧
      ((parsePdu last.filled = .ok none ∧ last.turn sender = .ok none ∧
          wrapper.drainLoop sender = .ok last) ∨
        ∃ message, parsePdu last.filled = .error message ∧
          wrapper.drainLoop sender = .error (.parse message)) := by
  induction fill : wrapper.bufferFill using Nat.strongRecOn generalizing wrapper with
  | _ fill ih =>
      rcases wrapper.turn_cases sender with
        ⟨message, fails, turn⟩ | ⟨waits, turn⟩ | ⟨pdu, used, next, -, turn, -, -, shorter⟩
      · exact ⟨0, wrapper, .zero, Or.inr ⟨message, fails, by rw [drainLoop_eq, turn]⟩⟩
      · exact ⟨0, wrapper, .zero, Or.inl ⟨waits, turn, by rw [drainLoop_eq, turn]⟩⟩
      · obtain ⟨n, last, turns, ends⟩ := ih next.bufferFill (fill ▸ shorter) next rfl
        refine ⟨n + 1, last, turns.cons turn, ?_⟩
        rwa [drainLoop_eq, turn]

/-- With more bytes behind the others, the loop takes the same turns. -/
theorem Turns.extend {n : ℕ} (turns : Turns sender wrapper n wrapper') {longer : ArrayWrapper}
    {more : List UInt8} (queue : longer.incomingQueue = wrapper.incomingQueue)
    (filled : longer.filled = wrapper.filled ++ more) :
    ∃ longer', Turns sender longer n longer' ∧ longer'.incomingQueue = wrapper'.incomingQueue ∧
      longer'.filled = wrapper'.filled ++ more := by
  induction turns with
  | zero => exact ⟨longer, .zero, queue, filled⟩
  | succ _ turned ih =>
      obtain ⟨before, turns, queue₁, filled₁⟩ := ih
      obtain ⟨pdu, used, parsed, queue₂, filled₂, -⟩ := turn_some turned
      obtain ⟨-, enough, whatever⟩ := parsePdu_frames.extend parsed
      have parsed' := whatever more
      rw [← filled₁] at parsed'
      rcases before.turn_cases sender with
        ⟨message, fails, -⟩ | ⟨waits, -⟩ | ⟨pdu', used', next, parsed'', turn, queue', filled', -⟩
      · cases parsed'.symm.trans fails
      · cases parsed'.symm.trans waits
      · cases parsed'.symm.trans parsed''
        refine ⟨next, turns.succ turn, by rw [queue', queue₁, queue₂], ?_⟩
        rw [filled', filled₁, filled₂, List.drop_append_of_le_length enough]

theorem Turns.queue {n : ℕ} (turns : Turns sender wrapper n wrapper') :
    wrapper.incomingQueue <+: wrapper'.incomingQueue := by
  induction turns with
  | zero => exact List.prefix_rfl
  | succ _ turned ih =>
      obtain ⟨pdu, used, -, queue, -⟩ := turn_some turned
      rw [queue]
      exact ih.trans (List.prefix_append _ _)

/-! ## Arrays and lists of bytes -/

/-- The array as the list of the bytes that are filled. -/
def toTcp (wrapper : ArrayWrapper) : TcpWrapper := ⟨wrapper.incomingQueue, wrapper.filled⟩

def toUdp (wrapper : ArrayWrapper) : UdpWrapper := ⟨wrapper.incomingQueue, wrapper.filled⟩

/-- The loop on the array is the one on the list. -/
theorem drainLoop_cases {fuel : ℕ} (wrapper : ArrayWrapper) (sender : Addr)
    (enough : wrapper.bufferFill ≤ fuel) :
    (∃ last pdus, wrapper.drainLoop sender = .ok last ∧
        drain parsePdu fuel wrapper.filled = .ok (pdus, last.filled) ∧
        last.incomingQueue = wrapper.incomingQueue ++ pdus.map fun pdu => (pdu, sender)) ∨
      ∃ message, wrapper.drainLoop sender = .error (.parse message) ∧
        drain parsePdu fuel wrapper.filled = .error message := by
  induction fuel generalizing wrapper with
  | zero =>
      have empty : wrapper.filled = [] := by
        rw [← List.length_eq_zero_iff, length_filled]
        exact Nat.le_zero.mp enough
      rcases wrapper.turn_cases sender with
        ⟨message, parsed, -⟩ | ⟨-, turn⟩ | ⟨pdu, used, next, parsed, -⟩
      · rw [empty] at parsed
        cases parsed
      · exact Or.inl ⟨wrapper, [], by rw [drainLoop_eq, turn], rfl, (List.append_nil _).symm⟩
      · rw [empty] at parsed
        cases parsed
  | succ fuel ih =>
      rw [drainLoop_eq, drain]
      rcases wrapper.turn_cases sender with
        ⟨message, parsed, turn⟩ | ⟨parsed, turn⟩ |
          ⟨pdu, used, next, parsed, turn, queue, filled, shorter⟩
      · rw [turn, parsed]
        exact Or.inr ⟨message, rfl, rfl⟩
      · rw [turn, parsed]
        exact Or.inl ⟨wrapper, [], rfl, rfl, (List.append_nil _).symm⟩
      · rw [turn, parsed]
        dsimp only
        rw [← filled]
        rcases ih next (by omega) with
          ⟨last, pdus, drained, list, later⟩ | ⟨message, drained, list⟩
        · refine Or.inl ⟨last, pdu :: pdus, drained, by rw [list]; rfl, ?_⟩
          rw [later, queue, List.append_assoc]
          rfl
        · exact Or.inr ⟨message, drained, by rw [list]; rfl⟩

theorem receive_of_fits {bytes : List UInt8}
    (fits : wrapper.bufferFill + bytes.length ≤ bufferSize) :
    ∃ wrapper', wrapper.receive bytes = .ok wrapper' ∧
      wrapper'.incomingQueue = wrapper.incomingQueue ∧ wrapper'.filled = wrapper.filled ++ bytes :=
  ⟨_, dif_pos fits, rfl, take_writeAt wrapper.buffer fits⟩

theorem readLoop_eq (fuel : ℕ) (wrapper : ArrayWrapper) (socket : TcpStream) :
    ∃ wrapper', wrapper'.incomingQueue = wrapper.incomingQueue ∧
      wrapper.readLoop fuel socket = .ok ((TestNode.readLoop fuel wrapper.filled socket).1, wrapper',
        (TestNode.readLoop fuel wrapper.filled socket).2.2) ∧
      wrapper'.filled = (TestNode.readLoop fuel wrapper.filled socket).2.1 := by
  induction fuel generalizing wrapper socket with
  | zero => exact ⟨wrapper, rfl, rfl, rfl⟩
  | succ fuel ih =>
      rw [readLoop, TestNode.readLoop, length_filled]
      cases read : socket.read (bufferSize - wrapper.bufferFill) with
      | none => exact ⟨wrapper, rfl, rfl, rfl⟩
      | some result =>
          obtain ⟨bytes, socket'⟩ := result
          cases bytes with
          | nil => exact ⟨wrapper, rfl, rfl, rfl⟩
          | cons byte bytes =>
              have fits : wrapper.bufferFill + (byte :: bytes).length ≤ bufferSize := by
                have short := TcpStream.length_of_read read
                have := wrapper.inside
                omega
              obtain ⟨next, received, queue, filled⟩ := receive_of_fits fits
              obtain ⟨wrapper', queue', reads, filled'⟩ := ih next socket'
              dsimp only
              rw [received, ← filled]
              exact ⟨wrapper', queue'.trans queue, reads, filled'⟩

theorem exists_read (wrapper : ArrayWrapper) (socket : TcpStream) :
    ∃ (closed : Bool) (wrapper' : ArrayWrapper) (socket' : TcpStream),
      wrapper.tcpTryRead socket =
        (wrapper'.drainLoop socket'.peerAddr).map (fun last => (closed, last, socket')) ∧
      wrapper'.incomingQueue = wrapper.incomingQueue ∧
      TestNode.readLoop (socket.pending.length + 1) wrapper.filled socket =
        (closed, wrapper'.filled, socket') := by
  obtain ⟨wrapper', queue, reads, filled⟩ := readLoop_eq (socket.pending.length + 1) wrapper socket
  rw [tcpTryRead, reads]
  generalize TestNode.readLoop (socket.pending.length + 1) wrapper.filled socket = read at filled
  obtain ⟨closed, buffer, socket'⟩ := read
  dsimp only at filled
  subst filled
  refine ⟨closed, wrapper', socket', ?_, queue, rfl⟩
  change (wrapper'.drainLoop socket'.peerAddr >>= fun last => pure (closed, last, socket')) = _
  cases wrapper'.drainLoop socket'.peerAddr with
  | error panic => rfl
  | ok last => rfl

/-- `TcpWrapper::try_read` on the array is `try_read` on the list. -/
theorem tcpTryRead_eq (wrapper : ArrayWrapper) (socket : TcpStream) :
    (wrapper.tcpTryRead socket).map (fun answer => (answer.1, answer.2.1.toTcp, answer.2.2)) =
      (wrapper.toTcp.tryRead socket).mapError Panic.parse := by
  obtain ⟨closed, wrapper', socket', drains, queue, reads⟩ := wrapper.exists_read socket
  rw [drains]
  unfold TcpWrapper.tryRead
  simp only [toTcp, reads]
  rcases wrapper'.drainLoop_cases socket'.peerAddr (Nat.le_of_eq (length_filled _).symm) with
    ⟨last, pdus, array, list, later⟩ | ⟨message, array, list⟩
  · rw [array, list]
    simp [Except.map, Except.mapError, later, queue]
  · rw [array, list]
    rfl

theorem exists_received (wrapper : ArrayWrapper) (datagram : Datagram) :
    ∃ wrapper' : ArrayWrapper, wrapper.udpReceive datagram = wrapper'.drainLoop datagram.sender ∧
      wrapper'.incomingQueue = wrapper.incomingQueue ∧
      wrapper'.filled = wrapper.filled ++ datagram.bytes.take (bufferSize - wrapper.bufferFill) := by
  have fits : wrapper.bufferFill + (datagram.bytes.take (bufferSize - wrapper.bufferFill)).length ≤
      bufferSize := by
    have := wrapper.inside
    rw [List.length_take]
    omega
  obtain ⟨wrapper', received, queue, filled⟩ := receive_of_fits fits
  refine ⟨wrapper', ?_, queue, filled⟩
  rw [udpReceive, received]
  rfl

/-- A round of `UdpWrapper::try_read` on the array is one on the list. -/
theorem udpReceive_eq (wrapper : ArrayWrapper) (datagram : Datagram) :
    (wrapper.udpReceive datagram).map toUdp =
      (wrapper.toUdp.receive datagram).mapError Panic.parse := by
  obtain ⟨wrapper', received, queue, filled⟩ := wrapper.exists_received datagram
  rw [received, UdpWrapper.receive, toUdp]
  dsimp only
  rw [length_filled, ← filled]
  rcases wrapper'.drainLoop_cases datagram.sender (Nat.le_of_eq (length_filled _).symm) with
    ⟨last, pdus, array, list, later⟩ | ⟨message, array, list⟩
  · rw [array, list]
    simp [Except.map, Except.mapError, toUdp, later, queue]
  · rw [array, list]
    rfl

theorem udpTryRead_eq (wrapper : ArrayWrapper) (datagrams : List Datagram) :
    (wrapper.udpTryRead datagrams).map toUdp =
      (wrapper.toUdp.tryRead datagrams).mapError Panic.parse := by
  induction datagrams generalizing wrapper with
  | nil => rfl
  | cons datagram datagrams ih =>
      have round := wrapper.udpReceive_eq datagram
      rw [udpTryRead, UdpWrapper.tryRead, List.foldlM_cons, List.foldlM_cons]
      cases array : wrapper.udpReceive datagram with
      | error panic =>
          cases list : wrapper.toUdp.receive datagram with
          | error message =>
              rw [array, list] at round
              cases round
              rfl
          | ok next =>
              rw [array, list] at round
              cases round
      | ok next =>
          cases list : wrapper.toUdp.receive datagram with
          | error message =>
              rw [array, list] at round
              cases round
          | ok next' =>
              rw [array, list] at round
              cases round
              exact ih next

/-! ## What `try_read` leaves alone -/

theorem drainLoop_ends (wrapper : ArrayWrapper) (sender : Addr) :
    Ends Panic.OfParser (fun last => wrapper.incomingQueue <+: last.incomingQueue)
      (wrapper.drainLoop sender) := by
  obtain ⟨n, last, turns, ⟨-, -, drained⟩ | ⟨message, -, drained⟩⟩ := wrapper.exists_turns sender
  · rw [drained]
    exact .ok turns.queue
  · rw [drained]
    exact .error ⟨message, rfl⟩

theorem tcpTryRead_ends (wrapper : ArrayWrapper) (socket : TcpStream) :
    Ends Panic.OfParser (fun answer => wrapper.incomingQueue <+: answer.2.1.incomingQueue)
      (wrapper.tcpTryRead socket) := by
  obtain ⟨closed, next, socket', drains, queue, -⟩ := wrapper.exists_read socket
  rw [drains, ← queue]
  exact Ends.map (next.drainLoop_ends socket'.peerAddr)

theorem udpReceive_ends (wrapper : ArrayWrapper) (datagram : Datagram) :
    Ends Panic.OfParser (fun next => wrapper.incomingQueue <+: next.incomingQueue)
      (wrapper.udpReceive datagram) := by
  obtain ⟨next, drains, queue, -⟩ := wrapper.exists_received datagram
  rw [drains, ← queue]
  exact next.drainLoop_ends datagram.sender

theorem tcpReadAll_ends (wrapper : ArrayWrapper) (calls : List TcpStream) :
    Ends Panic.OfParser (fun last => wrapper.incomingQueue <+: last.incomingQueue)
      (wrapper.tcpReadAll calls) := by
  refine Ends.foldlM (fun before socket kept => ?_) calls wrapper List.prefix_rfl
  have call : Ends Panic.OfParser (fun next => before.incomingQueue <+: next.incomingQueue)
      ((before.tcpTryRead socket).map fun answer => answer.2.1) :=
    Ends.map (before.tcpTryRead_ends socket)
  exact call.mono (fun _ parses => parses) fun _ later => kept.trans later

theorem udpTryRead_ends (wrapper : ArrayWrapper) (datagrams : List Datagram) :
    Ends Panic.OfParser (fun last => wrapper.incomingQueue <+: last.incomingQueue)
      (wrapper.udpTryRead datagrams) := by
  refine Ends.foldlM (fun before datagram kept => ?_) datagrams wrapper List.prefix_rfl
  exact (before.udpReceive_ends datagram).mono (fun _ parses => parses)
    fun _ later => kept.trans later

/-! ## Draining is safe -/

/-- A PDU at the front is there whatever follows.  So the loop never takes more bytes than are
filled, ends unless the parser panics, and has queued the same PDUs when more bytes arrive;
and `try_read` only adds to the queue. -/
theorem drainLoop_wellFounded :
    (∀ code ∈ knownTypes, ∀ (rest more : List UInt8) (pdu : PDU) (used : ℕ),
      parsePdu (code :: rest) = .ok (some (pdu, used)) →
        1 ≤ used ∧ used ≤ (code :: rest).length ∧
          parsePdu ((code :: rest) ++ more) = .ok (some (pdu, used))) ∧
    (∀ (wrapper : ArrayWrapper) (sender : Addr),
      (∀ n before, Turns sender wrapper n before →
        n + before.bufferFill ≤ wrapper.bufferFill ∧
          before.turn sender ≠ .error .underflow ∧ before.turn sender ≠ .error .range) ∧
      ((∀ n before, Turns sender wrapper n before →
          ∀ message, parsePdu before.filled ≠ .error message) →
        ∃ n last, Turns sender wrapper n last ∧ last.turn sender = .ok none ∧
          wrapper.drainLoop sender = .ok last) ∧
      ∀ (longer : ArrayWrapper) (more : List UInt8), longer.incomingQueue = wrapper.incomingQueue →
        longer.filled = wrapper.filled ++ more → ∀ n before, Turns sender wrapper n before →
          ∃ before', Turns sender longer n before' ∧
            before'.incomingQueue = before.incomingQueue ∧
            before'.filled = before.filled ++ more) ∧
    (∀ (wrapper : ArrayWrapper) (calls : List TcpStream),
      (∀ panic, wrapper.tcpReadAll calls = .error panic → ∃ message, panic = .parse message) ∧
      ∀ wrapper', wrapper.tcpReadAll calls = .ok wrapper' →
        wrapper.incomingQueue <+: wrapper'.incomingQueue) ∧
    ∀ (wrapper : ArrayWrapper) (datagrams : List Datagram),
      (∀ panic, wrapper.udpTryRead datagrams = .error panic → ∃ message, panic = .parse message) ∧
      ∀ wrapper', wrapper.udpTryRead datagrams = .ok wrapper' →
        wrapper.incomingQueue <+: wrapper'.incomingQueue := by
  refine ⟨?_, fun wrapper sender => ⟨?_, ?_, ?_⟩, fun wrapper calls => ⟨?_, ?_⟩,
    fun wrapper datagrams => ⟨?_, ?_⟩⟩
  · intro code _ rest more pdu used parsed
    obtain ⟨some_used, enough, whatever⟩ := parsePdu_frames.extend parsed
    exact ⟨some_used, enough, whatever more⟩
  · intro n before turns
    exact ⟨turns.add_le, before.turn_ne_panic sender⟩
  · intro parses
    obtain ⟨n, last, turns, ⟨-, done, drained⟩ | ⟨message, fails, -⟩⟩ := wrapper.exists_turns sender
    · exact ⟨n, last, turns, done, drained⟩
    · exact absurd fails (parses n last turns message)
  · intro longer more queue filled n before turns
    exact turns.extend queue filled
  · intro panic ran
    exact (ran ▸ wrapper.tcpReadAll_ends calls).failure
  · intro wrapper' ran
    exact (ran ▸ wrapper.tcpReadAll_ends calls).value
  · intro panic ran
    exact (ran ▸ wrapper.udpTryRead_ends datagrams).failure
  · intro wrapper' ran
    exact (ran ▸ wrapper.udpTryRead_ends datagrams).value

end ArrayWrapper

end DhtRing.TestNode

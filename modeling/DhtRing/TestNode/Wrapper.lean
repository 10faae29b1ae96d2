import DhtRing.Lib.Framing
import DhtRing.TestNode.Pdu

/-!
# Socket wrappers of the Rust node

`TcpWrapper` and `UdpWrapper`: bytes are read into a buffer of fixed size, and the complete
PDUs at its front go to a queue.  Of the array, `buffer` is the part that is filled.  The
errors of `read` and `recv_from` other than `WouldBlock` are left out.
-/

set_option autoImplicit false

namespace DhtRing.TestNode

def bufferSize : ℕ := 25600

abbrev Message := PDU × Addr

/-! ## TCP -/

abbrev Burst := { bytes : List UInt8 // bytes ≠ [] }

/-- A connection with the bytes that have arrived on it.  `closed` says that the peer has
closed it behind them. -/
structure TcpStream where
  fd : ℕ
  peerAddr : Addr
  bursts : List Burst
  closed : Bool
deriving DecidableEq

def TcpStream.pending (socket : TcpStream) : List UInt8 := socket.bursts.flatMap Subtype.val

def Burst.drop (burst : Burst) (n : ℕ) : List Burst :=
  if left : burst.val.drop n = [] then [] else [⟨burst.val.drop n, left⟩]

/-- `read` into a slice of `n` bytes, and no answer for `WouldBlock`.  It reads no bytes when
the peer has closed the connection, and when the slice is empty; a socket on which nothing
more waits may answer `WouldBlock` to an empty slice instead. -/
def TcpStream.read (socket : TcpStream) (n : ℕ) : Option (List UInt8 × TcpStream) :=
  if n = 0 then some ([], socket)
  else
    match socket.bursts with
    | [] => if socket.closed then some ([], socket) else none
    | burst :: bursts =>
        some (burst.val.take n, { socket with bursts := burst.drop n ++ bursts })

structure TcpWrapper where
  incomingQueue : List Message
  buffer : List UInt8
deriving DecidableEq

def TcpWrapper.new : TcpWrapper := ⟨[], []⟩

/-- The loop that reads until the socket would block.  Each round but the last takes a byte
off the socket. -/
def readLoop : ℕ → List UInt8 → TcpStream → Bool × List UInt8 × TcpStream
  | 0, buffer, socket => (false, buffer, socket)
  | fuel + 1, buffer, socket =>
      match socket.read (bufferSize - buffer.length) with
      | none => (false, buffer, socket)
      | some ([], socket) => (true, buffer, socket)
      | some (bytes, socket) => readLoop fuel (buffer ++ bytes) socket

/-- `try_read`: whether the connection is taken to be closed, and the PDUs that are complete
now. -/
def TcpWrapper.tryRead (wrapper : TcpWrapper) (socket : TcpStream) :
    Except String (Bool × TcpWrapper × TcpStream) := do
  let (closed, buffer, socket) := readLoop (socket.pending.length + 1) wrapper.buffer socket
  let (pdus, buffer) ← Framing.drain parsePdu buffer.length buffer
  return (closed,
    ⟨wrapper.incomingQueue ++ pdus.map fun pdu => (pdu, socket.peerAddr), buffer⟩, socket)

/-! ## UDP -/

structure Datagram where
  sender : Addr
  bytes : List UInt8
deriving DecidableEq

structure UdpWrapper where
  incomingQueue : List Message
  buffer : List UInt8
deriving DecidableEq

def UdpWrapper.new : UdpWrapper := ⟨[], []⟩

/-- One round of the loop of `try_read`: `recv_from` cuts a datagram to the free part of the
buffer. -/
def UdpWrapper.receive (wrapper : UdpWrapper) (datagram : Datagram) :
    Except String UdpWrapper := do
  let buffer := wrapper.buffer ++ datagram.bytes.take (bufferSize - wrapper.buffer.length)
  let (pdus, buffer) ← Framing.drain parsePdu buffer.length buffer
  return ⟨wrapper.incomingQueue ++ pdus.map fun pdu => (pdu, datagram.sender), buffer⟩

def UdpWrapper.tryRead (wrapper : UdpWrapper) (datagrams : List Datagram) :
    Except String UdpWrapper :=
  datagrams.foldlM UdpWrapper.receive wrapper

/-! ## The loop of `try_read` -/

section

variable {socket : TcpStream} {buffer : List UInt8} {n fuel : ℕ}

theorem Burst.pending_drop (burst : Burst) (n : ℕ) :
    (burst.drop n).flatMap Subtype.val = burst.val.drop n := by
  rw [Burst.drop]
  split
  · rename_i left
    rw [left, List.flatMap_nil]
  · rw [List.flatMap_singleton]

theorem TcpStream.read_of_pending (open_slice : n ≠ 0) (some_left : socket.pending ≠ []) :
    ∃ bytes socket', socket.read n = some (bytes, socket') ∧ bytes ≠ [] ∧ bytes.length ≤ n ∧
      socket.pending = bytes ++ socket'.pending ∧
      socket' = { socket with bursts := socket'.bursts } := by
  obtain ⟨fd, peerAddr, bursts, closed⟩ := socket
  cases bursts with
  | nil => exact absurd rfl some_left
  | cons burst bursts =>
      refine ⟨burst.val.take n, ⟨fd, peerAddr, burst.drop n ++ bursts, closed⟩, ?_, ?_,
        List.length_take_le .., ?_, rfl⟩
      · rw [TcpStream.read, if_neg open_slice]
      · rw [Ne, List.take_eq_nil_iff]
        rintro (none | none)
        · exact open_slice none
        · exact burst.property none
      · rw [TcpStream.pending, TcpStream.pending, List.flatMap_cons, List.flatMap_append,
          burst.pending_drop, ← List.append_assoc, List.take_append_drop]

theorem TcpStream.bursts_of_pending (none_left : socket.pending = []) : socket.bursts = [] := by
  obtain ⟨fd, peerAddr, bursts, closed⟩ := socket
  cases bursts with
  | nil => rfl
  | cons burst bursts =>
      rw [TcpStream.pending, List.flatMap_cons] at none_left
      exact absurd (List.append_eq_nil_iff.mp none_left).1 burst.property

theorem readLoop_of_room (room : buffer.length + socket.pending.length < bufferSize)
    (enough : socket.pending.length < fuel) :
    readLoop fuel buffer socket =
      (socket.closed, buffer ++ socket.pending, { socket with bursts := [] }) := by
  induction fuel generalizing buffer socket with
  | zero => exact absurd enough (Nat.not_lt_zero _)
  | succ fuel ih =>
      have open_slice : bufferSize - buffer.length ≠ 0 := by omega
      by_cases none_left : socket.pending = []
      · have no_bursts := TcpStream.bursts_of_pending none_left
        rw [readLoop, TcpStream.read, if_neg open_slice, no_bursts, none_left]
        obtain ⟨fd, peerAddr, bursts, closed⟩ := socket
        dsimp only at no_bursts
        subst no_bursts
        cases closed <;> simp
      · obtain ⟨bytes, socket', read, some_bytes, -, split, same⟩ :=
          TcpStream.read_of_pending open_slice none_left
        have pos : 0 < bytes.length := List.length_pos_iff.mpr some_bytes
        have lengths := congrArg List.length split
        rw [List.length_append] at lengths
        rw [readLoop, read]
        cases bytes with
        | nil => exact absurd rfl some_bytes
        | cons byte bytes =>
            dsimp only
            rw [ih (by rw [List.length_append]; omega) (by omega), split, List.append_assoc, same]

/-- The bytes do not fit: the buffer is filled, and then nothing can be read. -/
theorem readLoop_of_full (full : bufferSize ≤ buffer.length + socket.pending.length)
    (enough : socket.pending.length < fuel) :
    ∃ socket', readLoop fuel buffer socket =
        (true, buffer ++ socket.pending.take (bufferSize - buffer.length), socket') ∧
      socket'.pending = socket.pending.drop (bufferSize - buffer.length) ∧
      socket' = { socket with bursts := socket'.bursts } := by
  induction fuel generalizing buffer socket with
  | zero => exact absurd enough (Nat.not_lt_zero _)
  | succ fuel ih =>
      by_cases slice : bufferSize - buffer.length = 0
      · refine ⟨socket, ?_, ?_, rfl⟩
        · rw [readLoop, TcpStream.read, if_pos slice, slice, List.take_zero, List.append_nil]
        · rw [slice, List.drop_zero]
      · have some_left : socket.pending ≠ [] := by
          intro none_left
          rw [none_left, List.length_nil] at full
          omega
        obtain ⟨bytes, socket', read, some_bytes, short, split, same⟩ :=
          TcpStream.read_of_pending slice some_left
        have pos : 0 < bytes.length := List.length_pos_iff.mpr some_bytes
        have lengths := congrArg List.length split
        rw [List.length_append] at lengths
        have left : bufferSize - (buffer ++ bytes).length =
            bufferSize - buffer.length - bytes.length := by
          rw [List.length_append]
          omega
        have full' : bufferSize ≤ (buffer ++ bytes).length + socket'.pending.length := by
          rw [List.length_append]
          omega
        obtain ⟨last, reads, rest, same'⟩ := ih full' (by omega)
        refine ⟨last, ?_, ?_, by rw [same', same]⟩
        · rw [readLoop, read]
          cases bytes with
          | nil => exact absurd rfl some_bytes
          | cons byte bytes =>
              dsimp only
              rw [reads, split, left, List.take_append, List.append_assoc,
                List.take_of_length_le short]
        · rw [rest, split, left, List.drop_append, List.drop_of_length_le short, List.nil_append]

end

end DhtRing.TestNode

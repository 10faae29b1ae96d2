import DhtRing.Pdu
import Mathlib.Algebra.GroupWithZero.Nat

/-!
# PDUs of the Rust node

`pdu.rs` and `parse_pdu`: fifteen kinds of PDU, how they are written and how they are
parsed from the bytes received so far.  A panic is an error with its message, up to the
values printed in it.
-/

set_option autoImplicit false

namespace DhtRing.TestNode

/-! ## Strings and integers -/

/-- A `String` as its chars. -/
abbrev RString := List Char

/-- `String::len`: the bytes of its UTF-8. -/
def len (s : RString) : ℕ := (s.map Char.utf8Size).sum

/-- `x as u8` of each char. -/
def toLatin1 (s : RString) : List UInt8 := s.map Char.toUInt8

def ofLatin1 (bytes : List UInt8) : RString := bytes.map Char.ofUInt8

def beBytes16 (word : UInt16) : List UInt8 :=
  [UInt8.ofNat (word.toNat / 256), UInt8.ofNat word.toNat]

def beBytes32 (word : UInt32) : List UInt8 :=
  [UInt8.ofNat (word.toNat / 16777216), UInt8.ofNat (word.toNat / 65536),
    UInt8.ofNat (word.toNat / 256), UInt8.ofNat word.toNat]

/-- `split_at` panics when there are fewer than `mid` bytes. -/
def splitAt (input : List UInt8) (mid : ℕ) : Except String (List UInt8 × List UInt8) :=
  if mid ≤ input.length then .ok (input.take mid, input.drop mid)
  else .error "assertion failed: mid <= self.len()"

def readBeU8 (input : List UInt8) : Except String (UInt8 × List UInt8) := do
  match ← splitAt input 1 with
  | ([a], rest) => return (a, rest)
  | _ => throw "called `Result::unwrap()` on an `Err` value"

def readBeU16 (input : List UInt8) : Except String (UInt16 × List UInt8) := do
  match ← splitAt input 2 with
  | ([a, b], rest) => return (UInt16.ofNat (256 * a.toNat + b.toNat), rest)
  | _ => throw "called `Result::unwrap()` on an `Err` value"

def readBeU32 (input : List UInt8) : Except String (UInt32 × List UInt8) := do
  match ← splitAt input 4 with
  | ([a, b, c, d], rest) =>
      return (UInt32.ofNat
        (16777216 * a.toNat + 65536 * b.toNat + 256 * c.toNat + d.toNat), rest)
  | _ => throw "called `Result::unwrap()` on an `Err` value"

/-! ## The PDUs -/

structure NetAlivePdu where
  pduType : UInt8
deriving DecidableEq

structure NetGetNodePdu where
  pduType : UInt8
deriving DecidableEq

structure NetGetNodeResponsePdu where
  pduType : UInt8
  address : UInt32
  port : UInt16
deriving DecidableEq

structure NetJoinPdu where
  pduType : UInt8
  srcAddress : UInt32
  srcPort : UInt16
  maxSpan : UInt8
  maxAddress : UInt32
  maxPort : UInt16
deriving DecidableEq

structure NetJoinResponsePdu where
  pduType : UInt8
  nextAddress : UInt32
  nextPort : UInt16
  rangeStart : UInt8
  rangeEnd : UInt8
deriving DecidableEq

structure NetCloseConnectionPdu where
  pduType : UInt8
deriving DecidableEq

structure NetNewRangePdu where
  pduType : UInt8
  rangeStart : UInt8
  rangeEnd : UInt8
deriving DecidableEq

structure NetNewRangeResponsePdu where
  pduType : UInt8
deriving DecidableEq

structure NetLeavingPdu where
  pduType : UInt8
  newAddress : UInt32
  newPort : UInt16
deriving DecidableEq

structure ValInsertPdu where
  pduType : UInt8
  ssn : RString
  nameLength : UInt8
  name : RString
  emailLength : UInt8
  email : RString
deriving DecidableEq

structure ValRemovePdu where
  pduType : UInt8
  ssn : RString
deriving DecidableEq

structure ValLookupPdu where
  pduType : UInt8
  ssn : RString
  senderAddress : UInt32
  senderPort : UInt16
deriving DecidableEq

structure ValLookupResponsePdu where
  pduType : UInt8
  ssn : RString
  nameLength : UInt8
  name : RString
  emailLength : UInt8
  email : RString
deriving DecidableEq

structure StunLookupPdu where
  pduType : UInt8
deriving DecidableEq

structure StunResponsePdu where
  pduType : UInt8
  address : UInt32
deriving DecidableEq

inductive PDU where
  | netAlive (pdu : NetAlivePdu)
  | netGetNode (pdu : NetGetNodePdu)
  | netGetNodeResponse (pdu : NetGetNodeResponsePdu)
  | netJoin (pdu : NetJoinPdu)
  | netJoinResponse (pdu : NetJoinResponsePdu)
  | netCloseConnection (pdu : NetCloseConnectionPdu)
  | netNewRange (pdu : NetNewRangePdu)
  | netNewRangeResponse (pdu : NetNewRangeResponsePdu)
  | netLeaving (pdu : NetLeavingPdu)
  | valInsert (pdu : ValInsertPdu)
  | valRemove (pdu : ValRemovePdu)
  | valLookup (pdu : ValLookupPdu)
  | valLookupResponse (pdu : ValLookupResponsePdu)
  | stunLookup (pdu : StunLookupPdu)
  | stunResponse (pdu : StunResponsePdu)
deriving DecidableEq

/-! ## Constructors -/

def NetAlivePdu.new : NetAlivePdu := ⟨0⟩

def NetGetNodePdu.new : NetGetNodePdu := ⟨1⟩

def NetGetNodeResponsePdu.new (address : UInt32) (port : UInt16) : NetGetNodeResponsePdu :=
  ⟨2, address, port⟩

def NetJoinPdu.new (srcAddress : UInt32) (srcPort : UInt16) (maxSpan : UInt8) (maxAddress : UInt32)
    (maxPort : UInt16) : NetJoinPdu :=
  ⟨3, srcAddress, srcPort, maxSpan, maxAddress, maxPort⟩

def NetJoinResponsePdu.new (nextAddress : UInt32) (nextPort : UInt16)
    (rangeStart rangeEnd : UInt8) :
    NetJoinResponsePdu :=
  ⟨4, nextAddress, nextPort, rangeStart, rangeEnd⟩

def NetCloseConnectionPdu.new : NetCloseConnectionPdu := ⟨5⟩

def NetNewRangePdu.new (rangeStart rangeEnd : UInt8) : NetNewRangePdu := ⟨6, rangeStart, rangeEnd⟩

def NetLeavingPdu.new (newAddress : UInt32) (newPort : UInt16) : NetLeavingPdu :=
  ⟨7, newAddress, newPort⟩

def NetNewRangeResponsePdu.new : NetNewRangeResponsePdu := ⟨8⟩

/-- The lengths are those of the UTF-8, cut to a byte. -/
def ValInsertPdu.new (ssn name email : RString) : ValInsertPdu :=
  ⟨100, ssn, UInt8.ofNat (len name), name, UInt8.ofNat (len email), email⟩

def ValRemovePdu.new (ssn : RString) : ValRemovePdu := ⟨101, ssn⟩

def ValLookupPdu.new (ssn : RString) (senderAddress : UInt32) (senderPort : UInt16) :
    ValLookupPdu :=
  ⟨102, ssn, senderAddress, senderPort⟩

def ValLookupResponsePdu.new (ssn name email : RString) : ValLookupResponsePdu :=
  ⟨103, ssn, UInt8.ofNat (len name), name, UInt8.ofNat (len email), email⟩

def StunLookupPdu.new : StunLookupPdu := ⟨200⟩

def StunResponsePdu.new (address : UInt32) : StunResponsePdu := ⟨201, address⟩

/-! ## Writing -/

def textPduBytes (pduType : UInt8) (ssn : RString) (nameLength : UInt8) (name : RString)
    (emailLength : UInt8) (email : RString) : List UInt8 :=
  pduType :: (toLatin1 (ssn.take ssnLength) ++ nameLength :: (toLatin1 name ++
    emailLength :: toLatin1 email))

def PDU.toBytes : PDU → List UInt8
  | .netAlive pdu => [pdu.pduType]
  | .netGetNode pdu => [pdu.pduType]
  | .netGetNodeResponse pdu => pdu.pduType :: (beBytes32 pdu.address ++ beBytes16 pdu.port)
  | .netJoin pdu =>
      pdu.pduType :: (beBytes32 pdu.srcAddress ++ (beBytes16 pdu.srcPort ++ pdu.maxSpan ::
        (beBytes32 pdu.maxAddress ++ beBytes16 pdu.maxPort)))
  | .netJoinResponse pdu =>
      pdu.pduType :: (beBytes32 pdu.nextAddress ++ (beBytes16 pdu.nextPort ++
        [pdu.rangeStart, pdu.rangeEnd]))
  | .netCloseConnection pdu => [pdu.pduType]
  | .netNewRange pdu => [pdu.pduType, pdu.rangeStart, pdu.rangeEnd]
  | .netNewRangeResponse pdu => [pdu.pduType]
  | .netLeaving pdu => pdu.pduType :: (beBytes32 pdu.newAddress ++ beBytes16 pdu.newPort)
  | .valInsert pdu =>
      textPduBytes pdu.pduType pdu.ssn pdu.nameLength pdu.name pdu.emailLength pdu.email
  | .valRemove pdu => pdu.pduType :: toLatin1 (pdu.ssn.take ssnLength)
  | .valLookup pdu =>
      pdu.pduType :: (toLatin1 (pdu.ssn.take ssnLength) ++
        (beBytes32 pdu.senderAddress ++ beBytes16 pdu.senderPort))
  | .valLookupResponse pdu =>
      textPduBytes pdu.pduType pdu.ssn pdu.nameLength pdu.name pdu.emailLength pdu.email
  | .stunLookup pdu => [pdu.pduType]
  | .stunResponse pdu => pdu.pduType :: beBytes32 pdu.address

/-! ## Parsing -/

/-- `try_parse` of a PDU of `size` bytes: `fields` reads them.  It gives no PDU while
bytes are missing. -/
def tryParseSized {α : Type} (size : ℕ) (fields : List UInt8 → Except String α)
    (buffer : List UInt8) : Except String (Option (α × ℕ)) := do
  if buffer.length < size then return none
  let pdu ← fields buffer
  return some (pdu, size)

def NetAlivePdu.tryParse : List UInt8 → Except String (Option (NetAlivePdu × ℕ)) :=
  tryParseSized 1 fun buffer => do
    let (pduType, _) ← readBeU8 buffer
    return ⟨pduType⟩

def NetGetNodePdu.tryParse : List UInt8 → Except String (Option (NetGetNodePdu × ℕ)) :=
  tryParseSized 1 fun buffer => do
    let (pduType, _) ← readBeU8 buffer
    return ⟨pduType⟩

def NetGetNodeResponsePdu.tryParse :
    List UInt8 → Except String (Option (NetGetNodeResponsePdu × ℕ)) :=
  tryParseSized 7 fun buffer => do
    let (pduType, buffer) ← readBeU8 buffer
    let (address, buffer) ← readBeU32 buffer
    let (port, _) ← readBeU16 buffer
    return ⟨pduType, address, port⟩

def NetJoinPdu.tryParse : List UInt8 → Except String (Option (NetJoinPdu × ℕ)) :=
  tryParseSized 14 fun buffer => do
    let (pduType, buffer) ← readBeU8 buffer
    let (srcAddress, buffer) ← readBeU32 buffer
    let (srcPort, buffer) ← readBeU16 buffer
    let (maxSpan, buffer) ← readBeU8 buffer
    let (maxAddress, buffer) ← readBeU32 buffer
    let (maxPort, _) ← readBeU16 buffer
    return ⟨pduType, srcAddress, srcPort, maxSpan, maxAddress, maxPort⟩

def NetJoinResponsePdu.tryParse : List UInt8 → Except String (Option (NetJoinResponsePdu × ℕ)) :=
  tryParseSized 9 fun buffer => do
    let (pduType, buffer) ← readBeU8 buffer
    let (nextAddress, buffer) ← readBeU32 buffer
    let (nextPort, buffer) ← readBeU16 buffer
    let (rangeStart, buffer) ← readBeU8 buffer
    let (rangeEnd, _) ← readBeU8 buffer
    return ⟨pduType, nextAddress, nextPort, rangeStart, rangeEnd⟩

def NetCloseConnectionPdu.tryParse :
    List UInt8 → Except String (Option (NetCloseConnectionPdu × ℕ)) :=
  tryParseSized 1 fun buffer => do
    let (pduType, _) ← readBeU8 buffer
    return ⟨pduType⟩

def NetNewRangePdu.tryParse : List UInt8 → Except String (Option (NetNewRangePdu × ℕ)) :=
  tryParseSized 3 fun buffer => do
    let (pduType, buffer) ← readBeU8 buffer
    let (rangeStart, buffer) ← readBeU8 buffer
    let (rangeEnd, _) ← readBeU8 buffer
    return ⟨pduType, rangeStart, rangeEnd⟩

def NetNewRangeResponsePdu.tryParse :
    List UInt8 → Except String (Option (NetNewRangeResponsePdu × ℕ)) :=
  tryParseSized 1 fun buffer => do
    let (pduType, _) ← readBeU8 buffer
    return ⟨pduType⟩

def NetLeavingPdu.tryParse : List UInt8 → Except String (Option (NetLeavingPdu × ℕ)) :=
  tryParseSized 7 fun buffer => do
    let (pduType, buffer) ← readBeU8 buffer
    let (newAddress, buffer) ← readBeU32 buffer
    let (newPort, _) ← readBeU16 buffer
    return ⟨pduType, newAddress, newPort⟩

def StunLookupPdu.tryParse : List UInt8 → Except String (Option (StunLookupPdu × ℕ)) :=
  tryParseSized 1 fun buffer => do
    let (pduType, _) ← readBeU8 buffer
    return ⟨pduType⟩

def StunResponsePdu.tryParse : List UInt8 → Except String (Option (StunResponsePdu × ℕ)) :=
  tryParseSized 5 fun buffer => do
    let (pduType, buffer) ← readBeU8 buffer
    let (address, _) ← readBeU32 buffer
    return ⟨pduType, address⟩

def ValRemovePdu.tryParse : List UInt8 → Except String (Option (ValRemovePdu × ℕ)) :=
  tryParseSized (1 + ssnLength) fun buffer => do
    let (pduType, buffer) ← readBeU8 buffer
    return ⟨pduType, ofLatin1 (buffer.take ssnLength)⟩

def ValLookupPdu.tryParse : List UInt8 → Except String (Option (ValLookupPdu × ℕ)) :=
  tryParseSized (1 + ssnLength + 4 + 2) fun buffer => do
    let (pduType, buffer) ← readBeU8 buffer
    let (ssn, buffer) ← splitAt buffer ssnLength
    let (senderAddress, buffer) ← readBeU32 buffer
    let (senderPort, _) ← readBeU16 buffer
    return ⟨pduType, ofLatin1 ssn, senderAddress, senderPort⟩

/-- The email length is read before it is known that its byte is there. -/
def ValInsertPdu.tryParse (buffer : List UInt8) : Except String (Option (ValInsertPdu × ℕ)) := do
  if buffer.length < 1 + ssnLength + 1 then return none
  let (pduType, buffer) ← readBeU8 buffer
  let (ssn, buffer) ← splitAt buffer ssnLength
  let (nameLength, buffer) ← readBeU8 buffer
  if buffer.length < nameLength.toNat then return none
  let (name, buffer) ← splitAt buffer nameLength.toNat
  let (emailLength, buffer) ← readBeU8 buffer
  if buffer.length < emailLength.toNat then return none
  let email := buffer.take emailLength.toNat
  return some (⟨pduType, ofLatin1 ssn, nameLength, ofLatin1 name, emailLength, ofLatin1 email⟩,
    1 + ssnLength + 1 + nameLength.toNat + 1 + emailLength.toNat)

/-- The type of the result is that of a `VAL_LOOKUP`. -/
def ValLookupResponsePdu.tryParse (buffer : List UInt8) :
    Except String (Option (ValLookupResponsePdu × ℕ)) := do
  match ← ValInsertPdu.tryParse buffer with
  | none => return none
  | some (pdu, size) =>
      return some (⟨102, pdu.ssn, pdu.nameLength, pdu.name, pdu.emailLength, pdu.email⟩, size)

def intoPdu {α : Type} (kind : α → PDU) (parsed : Except String (Option (α × ℕ))) :
    Except String (Option (PDU × ℕ)) := do
  match ← parsed with
  | none => return none
  | some (pdu, size) => return some (kind pdu, size)

/-- `parse_pdu` with `parse_net_pdu`, `parse_val_pdu` and `parse_stun_pdu`. -/
def parsePdu (buffer : List UInt8) : Except String (Option (PDU × ℕ)) :=
  match buffer with
  | [] => return none
  | code :: _ =>
      match code with
      | 0 => intoPdu .netAlive (NetAlivePdu.tryParse buffer)
      | 1 => intoPdu .netGetNode (NetGetNodePdu.tryParse buffer)
      | 2 => intoPdu .netGetNodeResponse (NetGetNodeResponsePdu.tryParse buffer)
      | 3 => intoPdu .netJoin (NetJoinPdu.tryParse buffer)
      | 4 => intoPdu .netJoinResponse (NetJoinResponsePdu.tryParse buffer)
      | 5 => intoPdu .netCloseConnection (NetCloseConnectionPdu.tryParse buffer)
      | 6 => intoPdu .netNewRange (NetNewRangePdu.tryParse buffer)
      | 7 => intoPdu .netLeaving (NetLeavingPdu.tryParse buffer)
      | 8 => intoPdu .netNewRangeResponse (NetNewRangeResponsePdu.tryParse buffer)
      | 100 => intoPdu .valInsert (ValInsertPdu.tryParse buffer)
      | 101 => intoPdu .valRemove (ValRemovePdu.tryParse buffer)
      | 102 => intoPdu .valLookup (ValLookupPdu.tryParse buffer)
      | 103 => intoPdu .valLookupResponse (ValLookupResponsePdu.tryParse buffer)
      | 200 => intoPdu .stunLookup (StunLookupPdu.tryParse buffer)
      | 201 => intoPdu .stunResponse (StunResponsePdu.tryParse buffer)
      | _ => throw "Got invalid PDU"

end DhtRing.TestNode

import DhtRing.Wire
import DhtRing.TestNode.Encoding

/-!
# Wire formats of the two nodes

The node in C builds a PDU with texts in a buffer that it has allocated, the Rust node in
a vector.  Both read the same fields from these bytes.  What the Rust node relays are the
bytes that it has read, except for the type of a `VAL_LOOKUP_RESPONSE`.
-/

set_option autoImplicit false

namespace DhtRing.TestNode

/-! ## The send buffers of the node in C -/

def copyTo (buffer : List UInt8) (offset : ℕ) (bytes : List UInt8) : List UInt8 :=
  buffer.take offset ++ (bytes ++ buffer.drop (offset + bytes.length))

/-- Field after field, `fresh` is what `malloc` gives. -/
def fillSendBuffer (type : UInt8) (ssn : Ssn) (pair : ValuePair) (fresh : List UInt8) :
    List UInt8 :=
  let nameLength := UInt8.ofNat pair.name.val.length
  let emailLength := UInt8.ofNat pair.email.val.length
  let sendBuffer := copyTo fresh 0 [type]
  let sendBuffer := copyTo sendBuffer 1 ssn.toList
  let sendOffset := 1 + ssnLength
  let sendBuffer := copyTo sendBuffer sendOffset [nameLength]
  let sendBuffer := copyTo sendBuffer (sendOffset + 1) (pair.name.val.take nameLength.toNat)
  let sendOffset := sendOffset + 1 + nameLength.toNat
  let sendBuffer := copyTo sendBuffer sendOffset [emailLength]
  copyTo sendBuffer (sendOffset + 1) (pair.email.val.take emailLength.toNat)

def sendBufferSize (pair : ValuePair) : ℕ :=
  1 + ssnLength + 1 + pair.name.val.length + 1 + pair.email.val.length

def sendInsertPduBuffer (ssn : Ssn) (pair : ValuePair)
    (fresh : Vector UInt8 (sendBufferSize pair)) :
    List UInt8 :=
  fillSendBuffer 100 ssn pair fresh.toList

def sendLookupResponsePduBuffer (ssn : Ssn) (pair : ValuePair)
    (fresh : Vector UInt8 (sendBufferSize pair)) : List UInt8 :=
  fillSendBuffer 103 ssn pair fresh.toList

/-- A buffer into which `received` has come, with whatever lies behind it. -/
def receiveBuffer (received : List UInt8) (stale : ℕ → UInt8) (i : ℕ) : UInt8 :=
  received.getD i (stale i)

theorem copyTo_append {written rest bytes : List UInt8} {offset : ℕ}
    (here : written.length = offset) :
    copyTo (written ++ rest) offset bytes = (written ++ bytes) ++ rest.drop bytes.length := by
  rw [copyTo, List.take_left' here, List.append_assoc, List.drop_append, here,
    List.drop_of_length_le (by omega), List.nil_append, Nat.add_sub_cancel_left]

theorem toNat_textLength (text : Text) : (UInt8.ofNat text.val.length).toNat = text.val.length := by
  rw [UInt8.toNat_ofNat']
  exact Nat.mod_eq_of_lt (Nat.lt_succ_of_le text.property)

theorem fillSendBuffer_eq (type : UInt8) (ssn : Ssn) (pair : ValuePair) {fresh : List UInt8}
    (size : fresh.length = sendBufferSize pair) :
    fillSendBuffer type ssn pair fresh =
      type :: (ssn.toList ++ (textBytes pair.name ++ textBytes pair.email)) := by
  have key : ssn.toList.length = ssnLength := Vector.length_toList
  have start : copyTo fresh 0 [type] = [type] ++ fresh.drop 1 := copyTo_append List.length_nil
  rw [fillSendBuffer, toNat_textLength, toNat_textLength, List.take_length, List.take_length, start,
    copyTo_append (show [type].length = 1 from rfl), copyTo_append (by simp [key, Nat.add_comm]),
    copyTo_append (by simp [key, Nat.add_comm]), copyTo_append (by simp [key]; omega),
    copyTo_append (by simp [key]; omega)]
  have full : fresh.length ≤ 1 + ssn.toList.length + 1 + pair.name.val.length + 1 +
      pair.email.val.length := by
    rw [size, sendBufferSize, key]
  simp [textBytes, List.drop_drop, key] at full ⊢
  omega

/-! ## Both nodes read the same -/

def valInsertPduOf (ssn : Ssn) (pair : ValuePair) : ValInsertPdu :=
  ⟨100, ofLatin1 ssn.toList, UInt8.ofNat pair.name.val.length, ofLatin1 pair.name.val,
    UInt8.ofNat pair.email.val.length, ofLatin1 pair.email.val⟩

def valLookupResponsePduOf (ssn : Ssn) (pair : ValuePair) : ValLookupResponsePdu :=
  ⟨102, ofLatin1 ssn.toList, UInt8.ofNat pair.name.val.length, ofLatin1 pair.name.val,
    UInt8.ofNat pair.email.val.length, ofLatin1 pair.email.val⟩

section

variable (ssn : Ssn) (pair : ValuePair)

theorem ssnFits_ssn : SsnFits (ofLatin1 ssn.toList) := ssnFits_ofLatin1 Vector.length_toList

theorem textFits_text (text : Text) :
    TextFits (UInt8.ofNat text.val.length) (ofLatin1 text.val) :=
  textFits_ofLatin1 (toNat_textLength text).symm

theorem valInsertPduOf_fits : (PDU.valInsert (valInsertPduOf ssn pair)).Fits :=
  ⟨ssnFits_ssn ssn, textFits_text pair.name, textFits_text pair.email⟩

theorem valInsertPduOf_bytes :
    (PDU.valInsert (valInsertPduOf ssn pair)).toBytes = (Pdu.valInsert ssn pair).bytes := by
  simp [PDU.toBytes, textPduBytes, valInsertPduOf, toLatin1_take (ssnFits_ssn ssn), Pdu.bytes,
    Pdu.type, textBytes]

theorem valLookupResponsePduOf_wire :
    (PDU.valLookupResponse (valLookupResponsePduOf ssn pair)).wire =
      (Pdu.valLookupResponse ssn pair).bytes := by
  simp [PDU.wire, PDU.code, PDU.toBytes, textPduBytes, valLookupResponsePduOf,
    toLatin1_take (ssnFits_ssn ssn), Pdu.bytes, Pdu.type, textBytes]

theorem sendInsertPduBuffer_eq (fresh : Vector UInt8 (sendBufferSize pair)) :
    sendInsertPduBuffer ssn pair fresh = (Pdu.valInsert ssn pair).bytes :=
  fillSendBuffer_eq 100 ssn pair Vector.length_toList

theorem sendLookupResponsePduBuffer_eq (fresh : Vector UInt8 (sendBufferSize pair)) :
    sendLookupResponsePduBuffer ssn pair fresh = (Pdu.valLookupResponse ssn pair).bytes :=
  fillSendBuffer_eq 103 ssn pair Vector.length_toList

theorem bytesAt_receiveBuffer (before bytes rest : List UInt8) (stale : ℕ → UInt8) :
    bytesAt (receiveBuffer (before ++ (bytes ++ rest)) stale) before.length bytes.length = bytes := by
  apply List.ext_getElem
  · exact length_bytesAt
  · intro j inside inside'
    rw [getElem_bytesAt, receiveBuffer, List.getD_eq_getElem?_getD,
      List.getElem?_append_right (Nat.le_add_right ..), Nat.add_sub_cancel_left,
      List.getElem?_append_left inside', List.getElem?_eq_getElem inside', Option.getD_some]

theorem parse_sendInsertPduBuffer (fresh : Vector UInt8 (sendBufferSize pair)) (rest : List UInt8) :
    ValInsertPdu.tryParse (sendInsertPduBuffer ssn pair fresh ++ rest) =
      .ok (some (valInsertPduOf ssn pair,
        15 + pair.name.val.length + pair.email.val.length)) := by
  rw [sendInsertPduBuffer_eq, ← valInsertPduOf_bytes,
    ValInsertPdu.parses.whole _ rest (valInsertPduOf_fits ssn pair), valInsertPduOf_bytes,
    Pdu.length_bytes]
  rfl

theorem parse_sendLookupResponsePduBuffer (fresh : Vector UInt8 (sendBufferSize pair))
    (rest : List UInt8) :
    ValLookupResponsePdu.tryParse (sendLookupResponsePduBuffer ssn pair fresh ++ rest) =
      .ok (some (valLookupResponsePduOf ssn pair,
        15 + pair.name.val.length + pair.email.val.length)) := by
  have length : (PDU.valInsert (valLookupResponsePduOf ssn pair).asInsert).toBytes.length =
      15 + pair.name.val.length + pair.email.val.length := by
    rw [← ValLookupResponsePdu.wire_eq, valLookupResponsePduOf_wire, Pdu.length_bytes]
    rfl
  rw [sendLookupResponsePduBuffer_eq, ← valLookupResponsePduOf_wire, ValLookupResponsePdu.wire_eq,
    ValLookupResponsePdu.tryParse_eq,
    ValInsertPdu.parses.whole (valLookupResponsePduOf ssn pair).asInsert rest
      (valInsertPduOf_fits ssn pair), length]
  rfl

/-- The node in C reads back what the Rust node relays. -/
theorem handleValInsert_toBytes (rest : List UInt8) (stale : ℕ → UInt8) :
    handleValInsert (receiveBuffer ((PDU.valInsert (valInsertPduOf ssn pair)).toBytes ++ rest) stale)
        ((PDU.valInsert (valInsertPduOf ssn pair)).toBytes ++ rest).length =
      some (ssn, pair, 15 + pair.name.val.length + pair.email.val.length) := by
  rw [valInsertPduOf_bytes]
  apply handleValInsert_of_bytesAt
  · have found := bytesAt_receiveBuffer [100] (ssn.toList ++ (textBytes pair.name ++
      textBytes pair.email)) rest stale
    refine Eq.trans ?_ found
    congr 1
    simp only [List.length_append, Vector.length_toList, textBytes, List.length_cons]
  · rw [List.length_append, Pdu.length_bytes, Pdu.size]
    omega

/-- The two nodes write and read an entry alike. -/
theorem wireFormats_agree (fresh : Vector UInt8 (sendBufferSize pair)) (rest : List UInt8)
    (stale : ℕ → UInt8) :
    ValInsertPdu.tryParse (sendInsertPduBuffer ssn pair fresh ++ rest) =
        .ok (some (valInsertPduOf ssn pair, 15 + pair.name.val.length + pair.email.val.length)) ∧
      (PDU.valInsert (valInsertPduOf ssn pair)).toBytes = sendInsertPduBuffer ssn pair fresh ∧
      handleValInsert (receiveBuffer (sendInsertPduBuffer ssn pair fresh ++ rest) stale)
          (sendInsertPduBuffer ssn pair fresh ++ rest).length =
        some (ssn, pair, 15 + pair.name.val.length + pair.email.val.length) ∧
      ValLookupResponsePdu.tryParse (sendLookupResponsePduBuffer ssn pair fresh ++ rest) =
        .ok (some (valLookupResponsePduOf ssn pair,
          15 + pair.name.val.length + pair.email.val.length)) := by
  have same : (PDU.valInsert (valInsertPduOf ssn pair)).toBytes =
      sendInsertPduBuffer ssn pair fresh := by
    rw [valInsertPduOf_bytes, sendInsertPduBuffer_eq]
  refine ⟨parse_sendInsertPduBuffer ssn pair fresh rest, same, ?_,
    parse_sendLookupResponsePduBuffer ssn pair fresh rest⟩
  rw [← same]
  exact handleValInsert_toBytes ssn pair rest stale

end

/-! ## What is relayed -/

/-- A parsed PDU is written as it was read, unless it is a `VAL_LOOKUP_RESPONSE`. -/
theorem toBytes_eq_take_iff {buffer : List UInt8} {pdu : PDU} {used : ℕ}
    (parsed : parsePdu buffer = .ok (some (pdu, used))) :
    pdu.toBytes = buffer.take used ↔ buffer.head? ≠ some 103 := by
  obtain ⟨⟨type, -⟩, rfl, rest, rfl⟩ := parsePdu_sound buffer pdu used parsed
  have head : (pdu.wire ++ rest).head? = some pdu.code := rfl
  rw [List.take_left, head, pdu.toBytes_eq, type, PDU.wire, PDU.parsedType]
  by_cases response : pdu.code = 103
  · simp [response]
  · simp [response]

theorem toBytes_eq_take_iff_leaving :
    (PDU.netLeaving ⟨7, 2130706433, 5000⟩).toBytes = [7, 127, 0, 0, 1, 19, 136, 0].take 7 ↔
      ([7, 127, 0, 0, 1, 19, 136, 0] : List UInt8).head? ≠ some 103 :=
  toBytes_eq_take_iff (parsePdu_whole (.netLeaving ⟨7, 2130706433, 5000⟩) [0] ⟨rfl, trivial⟩)

/-- An empty answer for the key of twelve zeros. -/
theorem lookupResponse_altered :
    ¬ ∀ (code : UInt8) (rest : List UInt8) (pdu : PDU) (used : ℕ), code ∈ knownTypes →
      parsePdu (code :: rest) = .ok (some (pdu, used)) →
        pdu.toBytes = (code :: rest).take used := by
  intro claim
  have parsed := parsePdu_whole (.valLookupResponse
    ⟨102, List.replicate 12 '0', 0, [], 0, []⟩) [] ⟨rfl, by decide, by decide, by decide⟩
  have same := claim 103 _ _ _ (by decide) parsed
  exact absurd same (by decide)

end DhtRing.TestNode

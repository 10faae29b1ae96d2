import DhtRing.Lib.Framing
import DhtRing.TestNode.Pdu

/-!
# Encoding and parsing

What each `try_parse` gives, as the bytes that stand at the front of the buffer.  The
parser frames a stream of PDUs.  It fails only right behind the name of a PDU with texts,
where it reads the length of the email.
-/

set_option autoImplicit false

namespace DhtRing.TestNode

open Framing

section

variable {α β : Type} (x : α)

@[simp] theorem ok_bind (f : α → Except String β) : (Except.ok x >>= f) = f x := rfl

end

/-! ## Strings and integers -/

def Latin1 (s : RString) : Prop := ∀ c ∈ s, c.toNat < 256

instance (s : RString) : Decidable (Latin1 s) :=
  List.decidableBAll (fun c : Char => c.toNat < 256) s

theorem toUInt8_ofUInt8 (byte : UInt8) : (Char.ofUInt8 byte).toUInt8 = byte :=
  UInt8.toUInt8_toUInt32 byte

theorem ofUInt8_toUInt8 {c : Char} (small : c.toNat < 256) : Char.ofUInt8 c.toUInt8 = c := by
  apply Char.ext
  rw [← UInt32.toNat_inj]
  change c.val.toUInt8.toUInt32.toNat = c.toNat
  rw [UInt8.toNat_toUInt32, UInt32.toNat_toUInt8]
  exact Nat.mod_eq_of_lt small

@[simp] theorem toLatin1_ofLatin1 (bytes : List UInt8) : toLatin1 (ofLatin1 bytes) = bytes := by
  induction bytes with
  | nil => rfl
  | cons byte bytes ih =>
      change (Char.ofUInt8 byte).toUInt8 :: toLatin1 (ofLatin1 bytes) = _
      rw [toUInt8_ofUInt8, ih]

theorem ofLatin1_toLatin1 {s : RString} (latin : Latin1 s) : ofLatin1 (toLatin1 s) = s := by
  induction s with
  | nil => rfl
  | cons c s ih =>
      change Char.ofUInt8 c.toUInt8 :: ofLatin1 (toLatin1 s) = _
      rw [ofUInt8_toUInt8 (latin c List.mem_cons_self),
        ih fun d mem => latin d (List.mem_cons_of_mem _ mem)]

@[simp] theorem length_toLatin1 (s : RString) : (toLatin1 s).length = s.length := List.length_map _

@[simp] theorem length_ofLatin1 (bytes : List UInt8) : (ofLatin1 bytes).length = bytes.length :=
  List.length_map _

theorem latin1_ofLatin1 (bytes : List UInt8) : Latin1 (ofLatin1 bytes) := by
  intro c mem
  obtain ⟨byte, -, rfl⟩ := List.mem_map.mp mem
  change byte.toUInt32.toNat < 256
  rw [UInt8.toNat_toUInt32]
  exact byte.toNat_lt

@[simp] theorem length_beBytes16 (word : UInt16) : (beBytes16 word).length = 2 := rfl

@[simp] theorem length_beBytes32 (word : UInt32) : (beBytes32 word).length = 4 := rfl

theorem splitAt_append {bytes rest : List UInt8} {mid : ℕ} (length : bytes.length = mid) :
    splitAt (bytes ++ rest) mid = .ok (bytes, rest) := by
  subst length
  simp [splitAt]

@[simp] theorem readBeU8_cons (byte : UInt8) (rest : List UInt8) :
    readBeU8 (byte :: rest) = .ok (byte, rest) := by
  rw [readBeU8, show byte :: rest = [byte] ++ rest from rfl,
    splitAt_append (show [byte].length = 1 from rfl)]
  rfl

@[simp] theorem readBeU16_append (word : UInt16) (rest : List UInt8) :
    readBeU16 (beBytes16 word ++ rest) = .ok (word, rest) := by
  have back : UInt16.ofNat (256 * (UInt8.ofNat (word.toNat / 256)).toNat +
      (UInt8.ofNat word.toNat).toNat) = word := by
    have := word.toNat_lt
    rw [← UInt16.toNat_inj, UInt16.toNat_ofNat', UInt8.toNat_ofNat', UInt8.toNat_ofNat']
    omega
  rw [readBeU16, splitAt_append (length_beBytes16 word)]
  exact congrArg (fun value => Except.ok (value, rest)) back

@[simp] theorem readBeU32_append (word : UInt32) (rest : List UInt8) :
    readBeU32 (beBytes32 word ++ rest) = .ok (word, rest) := by
  have back : UInt32.ofNat (16777216 * (UInt8.ofNat (word.toNat / 16777216)).toNat +
      65536 * (UInt8.ofNat (word.toNat / 65536)).toNat +
      256 * (UInt8.ofNat (word.toNat / 256)).toNat + (UInt8.ofNat word.toNat).toNat) = word := by
    have := word.toNat_lt
    rw [← UInt32.toNat_inj, UInt32.toNat_ofNat', UInt8.toNat_ofNat', UInt8.toNat_ofNat',
      UInt8.toNat_ofNat', UInt8.toNat_ofNat']
    omega
  rw [readBeU32, splitAt_append (length_beBytes32 word)]
  exact congrArg (fun value => Except.ok (value, rest)) back

section

variable {buffer : List UInt8} {n : ℕ}

theorem exists_byte (enough : n + 1 ≤ buffer.length) :
    ∃ byte rest, buffer = byte :: rest ∧ n ≤ rest.length := by
  cases buffer with
  | nil => cases enough
  | cons byte rest => exact ⟨byte, rest, rfl, Nat.le_of_succ_le_succ enough⟩

theorem exists_beBytes16 (enough : n + 2 ≤ buffer.length) :
    ∃ word rest, buffer = beBytes16 word ++ rest ∧ n ≤ rest.length := by
  obtain ⟨a, rest₁, rfl, enough₁⟩ := exists_byte enough
  obtain ⟨b, rest, rfl, enough₂⟩ := exists_byte enough₁
  have := a.toNat_lt
  have := b.toNat_lt
  have value : (UInt16.ofNat (256 * a.toNat + b.toNat)).toNat = 256 * a.toNat + b.toNat := by
    rw [UInt16.toNat_ofNat']
    omega
  refine ⟨UInt16.ofNat (256 * a.toNat + b.toNat), rest, ?_, enough₂⟩
  rw [beBytes16, value]
  refine List.cons_eq_cons.mpr ⟨?_, List.cons_eq_cons.mpr ⟨?_, rfl⟩⟩
  all_goals
    rw [← UInt8.toNat_inj, UInt8.toNat_ofNat']
    omega

theorem exists_beBytes32 (enough : n + 4 ≤ buffer.length) :
    ∃ word rest, buffer = beBytes32 word ++ rest ∧ n ≤ rest.length := by
  obtain ⟨a, rest₁, rfl, enough₁⟩ := exists_byte enough
  obtain ⟨b, rest₂, rfl, enough₂⟩ := exists_byte enough₁
  obtain ⟨c, rest₃, rfl, enough₃⟩ := exists_byte enough₂
  obtain ⟨d, rest, rfl, enough₄⟩ := exists_byte enough₃
  have := a.toNat_lt
  have := b.toNat_lt
  have := c.toNat_lt
  have := d.toNat_lt
  have value : (UInt32.ofNat
      (16777216 * a.toNat + 65536 * b.toNat + 256 * c.toNat + d.toNat)).toNat =
        16777216 * a.toNat + 65536 * b.toNat + 256 * c.toNat + d.toNat := by
    rw [UInt32.toNat_ofNat']
    omega
  refine ⟨UInt32.ofNat (16777216 * a.toNat + 65536 * b.toNat + 256 * c.toNat + d.toNat), rest,
    ?_, enough₄⟩
  rw [beBytes32, value]
  refine List.cons_eq_cons.mpr ⟨?_, List.cons_eq_cons.mpr ⟨?_, List.cons_eq_cons.mpr ⟨?_,
    List.cons_eq_cons.mpr ⟨?_, rfl⟩⟩⟩⟩
  all_goals
    rw [← UInt8.toNat_inj, UInt8.toNat_ofNat']
    omega

theorem exists_bytes {m : ℕ} (enough : n + m ≤ buffer.length) :
    ∃ bytes rest, buffer = bytes ++ rest ∧ bytes.length = m ∧ n ≤ rest.length := by
  refine ⟨buffer.take m, buffer.drop m, (List.take_append_drop m buffer).symm, ?_, ?_⟩
  · rw [List.length_take]
    omega
  · rw [List.length_drop]
    omega

end

/-! ## One kind of PDU -/

/-- What a `try_parse` does: it takes the bytes of `wire` off the front, waits while some
are missing, and does not fail. -/
structure Parses {α : Type} (parse : List UInt8 → Except String (Option (α × ℕ)))
    (wire : α → List UInt8) (Valid : α → Prop) : Prop where
  whole : ∀ x rest, Valid x → parse (wire x ++ rest) = .ok (some (x, (wire x).length))
  sound : ∀ buffer x used, parse buffer = .ok (some (x, used)) →
    Valid x ∧ used = (wire x).length ∧ ∃ rest, buffer = wire x ++ rest

def Total {α : Type} (parse : List UInt8 → Except String (Option (α × ℕ))) : Prop :=
  ∀ buffer e, parse buffer ≠ .error e

section

variable {α : Type} {size : ℕ} {fields : List UInt8 → Except String α} {wire : α → List UInt8}
  {Valid : α → Prop}

theorem tryParseSized_parses (length : ∀ x, Valid x → (wire x).length = size)
    (reads : ∀ x rest, Valid x → fields (wire x ++ rest) = .ok x)
    (covers : ∀ buffer : List UInt8, size ≤ buffer.length →
      ∃ x rest, Valid x ∧ buffer = wire x ++ rest) :
    Parses (tryParseSized size fields) wire Valid ∧ Total (tryParseSized size fields) := by
  have whole : ∀ x rest, Valid x →
      tryParseSized size fields (wire x ++ rest) = .ok (some (x, size)) := by
    intro x rest valid
    have enough : ¬ (wire x ++ rest).length < size := by
      rw [List.length_append, length x valid]
      omega
    rw [tryParseSized, if_neg enough, reads x rest valid]
    rfl
  refine ⟨⟨?_, ?_⟩, ?_⟩
  · intro x rest valid
    rw [whole x rest valid, length x valid]
  · intro buffer x used found
    by_cases short : buffer.length < size
    · rw [tryParseSized, if_pos short] at found
      cases found
    · obtain ⟨y, rest, valid, rfl⟩ := covers buffer (Nat.le_of_not_lt short)
      rw [whole y rest valid] at found
      cases found
      exact ⟨valid, (length x valid).symm, rest, rfl⟩
  · intro buffer e failed
    by_cases short : buffer.length < size
    · rw [tryParseSized, if_pos short] at failed
      cases failed
    · obtain ⟨y, rest, valid, rfl⟩ := covers buffer (Nat.le_of_not_lt short)
      rw [whole y rest valid] at failed
      cases failed

end

/-! ## The fields of a PDU -/

def SsnFits (ssn : RString) : Prop := ssn.length = ssnLength ∧ Latin1 ssn

def TextFits (length : UInt8) (text : RString) : Prop := text.length = length.toNat ∧ Latin1 text

instance (ssn : RString) : Decidable (SsnFits ssn) :=
  inferInstanceAs (Decidable (_ ∧ _))

instance (length : UInt8) (text : RString) : Decidable (TextFits length text) :=
  inferInstanceAs (Decidable (_ ∧ _))

def PDU.Fits : PDU → Prop
  | .valInsert pdu =>
      SsnFits pdu.ssn ∧ TextFits pdu.nameLength pdu.name ∧ TextFits pdu.emailLength pdu.email
  | .valRemove pdu => SsnFits pdu.ssn
  | .valLookup pdu => SsnFits pdu.ssn
  | .valLookupResponse pdu =>
      SsnFits pdu.ssn ∧ TextFits pdu.nameLength pdu.name ∧ TextFits pdu.emailLength pdu.email
  | _ => True

/-- The type byte of each kind. -/
def PDU.code : PDU → UInt8
  | .netAlive _ => 0
  | .netGetNode _ => 1
  | .netGetNodeResponse _ => 2
  | .netJoin _ => 3
  | .netJoinResponse _ => 4
  | .netCloseConnection _ => 5
  | .netNewRange _ => 6
  | .netLeaving _ => 7
  | .netNewRangeResponse _ => 8
  | .valInsert _ => 100
  | .valRemove _ => 101
  | .valLookup _ => 102
  | .valLookupResponse _ => 103
  | .stunLookup _ => 200
  | .stunResponse _ => 201

def PDU.pduType : PDU → UInt8
  | .netAlive pdu => pdu.pduType
  | .netGetNode pdu => pdu.pduType
  | .netGetNodeResponse pdu => pdu.pduType
  | .netJoin pdu => pdu.pduType
  | .netJoinResponse pdu => pdu.pduType
  | .netCloseConnection pdu => pdu.pduType
  | .netNewRange pdu => pdu.pduType
  | .netLeaving pdu => pdu.pduType
  | .netNewRangeResponse pdu => pdu.pduType
  | .valInsert pdu => pdu.pduType
  | .valRemove pdu => pdu.pduType
  | .valLookup pdu => pdu.pduType
  | .valLookupResponse pdu => pdu.pduType
  | .stunLookup pdu => pdu.pduType
  | .stunResponse pdu => pdu.pduType

/-- The type that `try_parse` gives its PDU. -/
def PDU.parsedType (pdu : PDU) : UInt8 := if pdu.code = 103 then 102 else pdu.code

/-- The bytes that are parsed as this PDU. -/
def PDU.wire (pdu : PDU) : List UInt8 := pdu.code :: pdu.toBytes.tail

/-- What `parse_pdu` gives. -/
def PDU.Parsed (pdu : PDU) : Prop := pdu.pduType = pdu.parsedType ∧ pdu.Fits

theorem PDU.toBytes_eq (pdu : PDU) : pdu.toBytes = pdu.pduType :: pdu.toBytes.tail := by
  cases pdu <;> rfl

theorem PDU.wire_eq_toBytes {pdu : PDU} (type : pdu.pduType = pdu.code) :
    pdu.wire = pdu.toBytes := by
  rw [pdu.toBytes_eq, type, PDU.wire]

theorem toLatin1_take {ssn : RString} (fits : SsnFits ssn) :
    toLatin1 (ssn.take ssnLength) = toLatin1 ssn := by
  rw [List.take_of_length_le (Nat.le_of_eq fits.1)]

theorem length_toLatin1_take {ssn : RString} (fits : SsnFits ssn) :
    (toLatin1 (ssn.take ssnLength)).length = ssnLength := by
  rw [toLatin1_take fits, length_toLatin1, fits.1]

theorem ssnFits_ofLatin1 {bytes : List UInt8} (length : bytes.length = ssnLength) :
    SsnFits (ofLatin1 bytes) :=
  ⟨(length_ofLatin1 bytes).trans length, latin1_ofLatin1 bytes⟩

theorem textFits_ofLatin1 {bytes : List UInt8} {length : UInt8}
    (eq : bytes.length = length.toNat) : TextFits length (ofLatin1 bytes) :=
  ⟨(length_ofLatin1 bytes).trans eq, latin1_ofLatin1 bytes⟩

/-! ## The kinds of fixed size -/

theorem oneByte_parses {α : Type} (make : UInt8 → α) (type : α → UInt8)
    (eta : ∀ x, make (type x) = x) (back : ∀ byte, type (make byte) = byte) :
    Parses (tryParseSized 1 fun buffer => do
        let (pduType, _) ← readBeU8 buffer
        return make pduType) (fun x => [type x]) (fun _ => True) ∧
      Total (tryParseSized 1 fun buffer => do
        let (pduType, _) ← readBeU8 buffer
        return make pduType) := by
  apply tryParseSized_parses
  · intro x _
    rfl
  · intro x rest _
    simp [eta]
  · intro buffer enough
    obtain ⟨pduType, rest, rfl, -⟩ := exists_byte enough
    exact ⟨make pduType, rest, trivial, by rw [back]; rfl⟩

theorem NetAlivePdu.parses :
    Parses NetAlivePdu.tryParse (fun pdu => (PDU.netAlive pdu).toBytes) (fun _ => True) ∧
      Total NetAlivePdu.tryParse :=
  oneByte_parses NetAlivePdu.mk NetAlivePdu.pduType (fun _ => rfl) fun _ => rfl

theorem NetGetNodePdu.parses :
    Parses NetGetNodePdu.tryParse (fun pdu => (PDU.netGetNode pdu).toBytes) (fun _ => True) ∧
      Total NetGetNodePdu.tryParse :=
  oneByte_parses NetGetNodePdu.mk NetGetNodePdu.pduType (fun _ => rfl) fun _ => rfl

theorem NetGetNodeResponsePdu.parses :
    Parses NetGetNodeResponsePdu.tryParse (fun pdu => (PDU.netGetNodeResponse pdu).toBytes)
        (fun _ => True) ∧
      Total NetGetNodeResponsePdu.tryParse := by
  apply tryParseSized_parses
  · intro pdu _
    rfl
  · intro pdu rest _
    simp [PDU.toBytes]
  · intro buffer enough
    obtain ⟨pduType, rest₁, rfl, enough₁⟩ := exists_byte enough
    obtain ⟨address, rest₂, rfl, enough₂⟩ := exists_beBytes32 enough₁
    obtain ⟨port, rest, rfl, -⟩ := exists_beBytes16 enough₂
    exact ⟨⟨pduType, address, port⟩, rest, trivial, rfl⟩

theorem NetJoinPdu.parses :
    Parses NetJoinPdu.tryParse (fun pdu => (PDU.netJoin pdu).toBytes) (fun _ => True) ∧
      Total NetJoinPdu.tryParse := by
  apply tryParseSized_parses
  · intro pdu _
    rfl
  · intro pdu rest _
    simp [PDU.toBytes]
  · intro buffer enough
    obtain ⟨pduType, rest₁, rfl, enough₁⟩ := exists_byte enough
    obtain ⟨srcAddress, rest₂, rfl, enough₂⟩ := exists_beBytes32 enough₁
    obtain ⟨srcPort, rest₃, rfl, enough₃⟩ := exists_beBytes16 enough₂
    obtain ⟨maxSpan, rest₄, rfl, enough₄⟩ := exists_byte enough₃
    obtain ⟨maxAddress, rest₅, rfl, enough₅⟩ := exists_beBytes32 enough₄
    obtain ⟨maxPort, rest, rfl, -⟩ := exists_beBytes16 enough₅
    exact ⟨⟨pduType, srcAddress, srcPort, maxSpan, maxAddress, maxPort⟩, rest, trivial, rfl⟩

theorem NetJoinResponsePdu.parses :
    Parses NetJoinResponsePdu.tryParse (fun pdu => (PDU.netJoinResponse pdu).toBytes)
        (fun _ => True) ∧
      Total NetJoinResponsePdu.tryParse := by
  apply tryParseSized_parses
  · intro pdu _
    rfl
  · intro pdu rest _
    simp [PDU.toBytes]
  · intro buffer enough
    obtain ⟨pduType, rest₁, rfl, enough₁⟩ := exists_byte enough
    obtain ⟨nextAddress, rest₂, rfl, enough₂⟩ := exists_beBytes32 enough₁
    obtain ⟨nextPort, rest₃, rfl, enough₃⟩ := exists_beBytes16 enough₂
    obtain ⟨rangeStart, rest₄, rfl, enough₄⟩ := exists_byte enough₃
    obtain ⟨rangeEnd, rest, rfl, -⟩ := exists_byte enough₄
    exact ⟨⟨pduType, nextAddress, nextPort, rangeStart, rangeEnd⟩, rest, trivial, rfl⟩

theorem NetCloseConnectionPdu.parses :
    Parses NetCloseConnectionPdu.tryParse (fun pdu => (PDU.netCloseConnection pdu).toBytes)
        (fun _ => True) ∧
      Total NetCloseConnectionPdu.tryParse :=
  oneByte_parses NetCloseConnectionPdu.mk NetCloseConnectionPdu.pduType (fun _ => rfl) fun _ => rfl

theorem NetNewRangePdu.parses :
    Parses NetNewRangePdu.tryParse (fun pdu => (PDU.netNewRange pdu).toBytes) (fun _ => True) ∧
      Total NetNewRangePdu.tryParse := by
  apply tryParseSized_parses
  · intro pdu _
    rfl
  · intro pdu rest _
    simp [PDU.toBytes]
  · intro buffer enough
    obtain ⟨pduType, rest₁, rfl, enough₁⟩ := exists_byte enough
    obtain ⟨rangeStart, rest₂, rfl, enough₂⟩ := exists_byte enough₁
    obtain ⟨rangeEnd, rest, rfl, -⟩ := exists_byte enough₂
    exact ⟨⟨pduType, rangeStart, rangeEnd⟩, rest, trivial, rfl⟩

theorem NetNewRangeResponsePdu.parses :
    Parses NetNewRangeResponsePdu.tryParse (fun pdu => (PDU.netNewRangeResponse pdu).toBytes)
        (fun _ => True) ∧
      Total NetNewRangeResponsePdu.tryParse :=
  oneByte_parses NetNewRangeResponsePdu.mk NetNewRangeResponsePdu.pduType (fun _ => rfl) fun _ => rfl

theorem NetLeavingPdu.parses :
    Parses NetLeavingPdu.tryParse (fun pdu => (PDU.netLeaving pdu).toBytes) (fun _ => True) ∧
      Total NetLeavingPdu.tryParse := by
  apply tryParseSized_parses
  · intro pdu _
    rfl
  · intro pdu rest _
    simp [PDU.toBytes]
  · intro buffer enough
    obtain ⟨pduType, rest₁, rfl, enough₁⟩ := exists_byte enough
    obtain ⟨newAddress, rest₂, rfl, enough₂⟩ := exists_beBytes32 enough₁
    obtain ⟨newPort, rest, rfl, -⟩ := exists_beBytes16 enough₂
    exact ⟨⟨pduType, newAddress, newPort⟩, rest, trivial, rfl⟩

theorem StunLookupPdu.parses :
    Parses StunLookupPdu.tryParse (fun pdu => (PDU.stunLookup pdu).toBytes) (fun _ => True) ∧
      Total StunLookupPdu.tryParse :=
  oneByte_parses StunLookupPdu.mk StunLookupPdu.pduType (fun _ => rfl) fun _ => rfl

theorem StunResponsePdu.parses :
    Parses StunResponsePdu.tryParse (fun pdu => (PDU.stunResponse pdu).toBytes) (fun _ => True) ∧
      Total StunResponsePdu.tryParse := by
  apply tryParseSized_parses
  · intro pdu _
    rfl
  · intro pdu rest _
    simp [PDU.toBytes]
  · intro buffer enough
    obtain ⟨pduType, rest₁, rfl, enough₁⟩ := exists_byte enough
    obtain ⟨address, rest, rfl, -⟩ := exists_beBytes32 enough₁
    exact ⟨⟨pduType, address⟩, rest, trivial, rfl⟩

theorem ValRemovePdu.parses :
    Parses ValRemovePdu.tryParse (fun pdu => (PDU.valRemove pdu).toBytes)
        (fun pdu => SsnFits pdu.ssn) ∧
      Total ValRemovePdu.tryParse := by
  apply tryParseSized_parses
  · intro pdu fits
    rw [PDU.toBytes, List.length_cons, length_toLatin1_take fits, Nat.add_comm]
  · intro pdu rest fits
    have taken : (toLatin1 pdu.ssn ++ rest).take ssnLength = toLatin1 pdu.ssn :=
      List.take_left' ((length_toLatin1 _).trans fits.1)
    simp [PDU.toBytes, toLatin1_take fits, taken, ofLatin1_toLatin1 fits.2]
  · intro buffer enough
    rw [Nat.add_comm] at enough
    obtain ⟨pduType, rest₁, rfl, enough₁⟩ := exists_byte enough
    obtain ⟨ssn, rest, rfl, length, -⟩ := exists_bytes ((Nat.zero_add _).trans_le enough₁)
    have fits := ssnFits_ofLatin1 length
    refine ⟨⟨pduType, ofLatin1 ssn⟩, rest, fits, ?_⟩
    rw [PDU.toBytes, toLatin1_take fits, toLatin1_ofLatin1]
    rfl

theorem ValLookupPdu.parses :
    Parses ValLookupPdu.tryParse (fun pdu => (PDU.valLookup pdu).toBytes)
        (fun pdu => SsnFits pdu.ssn) ∧
      Total ValLookupPdu.tryParse := by
  apply tryParseSized_parses
  · intro pdu fits
    rw [PDU.toBytes, List.length_cons, List.length_append, length_toLatin1_take fits]
    rfl
  · intro pdu rest fits
    simp [PDU.toBytes, toLatin1_take fits, splitAt_append ((length_toLatin1 _).trans fits.1),
      ofLatin1_toLatin1 fits.2]
  · intro buffer enough
    obtain ⟨pduType, rest₁, rfl, enough₁⟩ :=
      exists_byte (show ssnLength + 4 + 2 + 1 ≤ buffer.length by omega)
    obtain ⟨ssn, rest₂, rfl, length, enough₂⟩ :=
      exists_bytes (show 2 + 4 + ssnLength ≤ rest₁.length by omega)
    obtain ⟨senderAddress, rest₃, rfl, enough₃⟩ := exists_beBytes32 enough₂
    obtain ⟨senderPort, rest, rfl, -⟩ := exists_beBytes16 enough₃
    have fits := ssnFits_ofLatin1 length
    refine ⟨⟨pduType, ofLatin1 ssn, senderAddress, senderPort⟩, rest, fits, ?_⟩
    simp [PDU.toBytes, toLatin1_take fits]

/-! ## The kinds with texts -/

/-- The name has to be there, the byte behind it is read without a look. -/
theorem ValInsertPdu.tryParse_eq (pduType nameLength : UInt8) {ssn : List UInt8}
    (rest : List UInt8) (length : ssn.length = ssnLength) :
    ValInsertPdu.tryParse (pduType :: (ssn ++ nameLength :: rest)) =
      if rest.length < nameLength.toNat then .ok none
      else match rest.drop nameLength.toNat with
        | [] => .error "assertion failed: mid <= self.len()"
        | emailLength :: more =>
            if more.length < emailLength.toNat then .ok none
            else .ok (some (⟨pduType, ofLatin1 ssn, nameLength,
              ofLatin1 (rest.take nameLength.toNat), emailLength,
              ofLatin1 (more.take emailLength.toNat)⟩,
              1 + ssnLength + 1 + nameLength.toNat + 1 + emailLength.toNat)) := by
  have enough : ¬ (pduType :: (ssn ++ nameLength :: rest)).length < 1 + ssnLength + 1 := by
    rw [List.length_cons, List.length_append, length, List.length_cons]
    omega
  rw [ValInsertPdu.tryParse, if_neg enough]
  simp only [readBeU8_cons, ok_bind, splitAt_append length]
  split
  · rfl
  · rename_i named
    rw [splitAt, if_pos (Nat.le_of_not_lt named)]
    simp only [ok_bind]
    cases rest.drop nameLength.toNat with
    | nil => rfl
    | cons emailLength more =>
        simp only [readBeU8_cons, ok_bind]
        split
        · rfl
        · rfl

/-- The parser is behind the name and looks for the length of the email. -/
def BehindName (buffer : List UInt8) : Prop :=
  ∃ (pduType nameLength : UInt8) (ssn name : List UInt8), ssn.length = ssnLength ∧
    name.length = nameLength.toNat ∧ buffer = pduType :: (ssn ++ nameLength :: name)

theorem ValInsertPdu.tryParse_cases (buffer : List UInt8) :
    ValInsertPdu.tryParse buffer = .ok none ∧ ¬ BehindName buffer ∨
      (∃ e, ValInsertPdu.tryParse buffer = .error e) ∧ BehindName buffer ∨
      ∃ pdu rest, (PDU.valInsert pdu).Fits ∧ buffer = (PDU.valInsert pdu).toBytes ++ rest ∧
        ValInsertPdu.tryParse buffer = .ok (some (pdu, (PDU.valInsert pdu).toBytes.length)) ∧
        ¬ BehindName buffer := by
  by_cases short : buffer.length < 1 + ssnLength + 1
  · left
    rw [ValInsertPdu.tryParse, if_pos short]
    refine ⟨rfl, ?_⟩
    rintro ⟨pduType, nameLength, ssn, name, ssn_length, -, rfl⟩
    rw [List.length_cons, List.length_append, List.length_cons, ssn_length] at short
    omega
  · obtain ⟨pduType, rest₁, rfl, enough₁⟩ :=
      exists_byte (show ssnLength + 1 + 0 + 1 ≤ buffer.length by omega)
    obtain ⟨ssn, rest₂, rfl, length, enough₂⟩ :=
      exists_bytes (show 1 + ssnLength ≤ rest₁.length by omega)
    obtain ⟨nameLength, rest, rfl, -⟩ := exists_byte (show 0 + 1 ≤ rest₂.length by omega)
    have behind : BehindName (pduType :: (ssn ++ nameLength :: rest)) ↔
        rest.length = nameLength.toNat := by
      constructor
      · rintro ⟨type', nameLength', ssn', name', length', name_length, eq⟩
        obtain ⟨-, eq⟩ := List.cons.inj eq
        obtain ⟨-, eq⟩ := List.append_inj eq (length.trans length'.symm)
        obtain ⟨rfl, rfl⟩ := List.cons.inj eq
        exact name_length
      · intro name_length
        exact ⟨pduType, nameLength, ssn, rest, length, name_length, rfl⟩
    rw [behind, ValInsertPdu.tryParse_eq pduType nameLength rest length]
    by_cases named : rest.length < nameLength.toNat
    · left
      rw [if_pos named]
      exact ⟨rfl, Nat.ne_of_lt named⟩
    · rw [if_neg named]
      obtain ⟨name, rest₃, rfl, name_length, -⟩ :=
        exists_bytes (show 0 + nameLength.toNat ≤ rest.length by omega)
      rw [List.drop_left' name_length, List.take_left' name_length, List.length_append,
        name_length]
      cases rest₃ with
      | nil =>
          right
          left
          exact ⟨⟨_, rfl⟩, rfl⟩
      | cons emailLength more =>
          dsimp only
          by_cases mailed : more.length < emailLength.toNat
          · left
            rw [if_pos mailed, List.length_cons]
            exact ⟨rfl, by omega⟩
          · right
            right
            rw [if_neg mailed]
            obtain ⟨email, rest₄, rfl, email_length, -⟩ :=
              exists_bytes (show 0 + emailLength.toNat ≤ more.length by omega)
            rw [List.take_left' email_length]
            have fits := ssnFits_ofLatin1 length
            refine ⟨⟨pduType, ofLatin1 ssn, nameLength, ofLatin1 name, emailLength,
              ofLatin1 email⟩, rest₄, ⟨fits, textFits_ofLatin1 name_length,
                textFits_ofLatin1 email_length⟩, ?_, ?_, ?_⟩
            · simp [PDU.toBytes, textPduBytes, toLatin1_take fits]
            · simp only [PDU.toBytes, textPduBytes, List.length_cons, List.length_append,
                length_toLatin1_take fits, length_toLatin1, length_ofLatin1, name_length,
                email_length]
              congr 3
              omega
            · rw [List.length_cons]
              omega

theorem ValInsertPdu.parses :
    Parses ValInsertPdu.tryParse (fun pdu => (PDU.valInsert pdu).toBytes)
      (fun pdu => (PDU.valInsert pdu).Fits) := by
  constructor
  · rintro ⟨pduType, ssn, nameLength, name, emailLength, email⟩ rest ⟨fits, ⟨name_length, name_latin⟩,
      email_length, email_latin⟩
    have bytes : (PDU.valInsert ⟨pduType, ssn, nameLength, name, emailLength, email⟩).toBytes ++
        rest = pduType :: (toLatin1 ssn ++ nameLength :: (toLatin1 name ++
          emailLength :: (toLatin1 email ++ rest))) := by
      simp [PDU.toBytes, textPduBytes, toLatin1_take fits]
    have named : (toLatin1 name).length = nameLength.toNat :=
      (length_toLatin1 name).trans name_length
    have mailed : (toLatin1 email).length = emailLength.toNat :=
      (length_toLatin1 email).trans email_length
    rw [bytes, ValInsertPdu.tryParse_eq pduType nameLength _ ((length_toLatin1 _).trans fits.1),
      if_neg (by rw [List.length_append, named]; omega), List.drop_left' named,
      List.take_left' named]
    dsimp only
    rw [if_neg (by rw [List.length_append, mailed]; omega), List.take_left' mailed,
      ofLatin1_toLatin1 fits.2, ofLatin1_toLatin1 name_latin, ofLatin1_toLatin1 email_latin]
    simp only [PDU.toBytes, textPduBytes, List.length_cons, List.length_append,
      length_toLatin1_take fits, named, mailed]
    congr 3
    omega
  · intro buffer pdu used found
    rcases ValInsertPdu.tryParse_cases buffer with ⟨waits, -⟩ | ⟨⟨e, fails⟩, -⟩ |
      ⟨pdu', rest, fits, front, parsed, -⟩
    · rw [waits] at found
      cases found
    · rw [fails] at found
      cases found
    · rw [parsed] at found
      cases found
      exact ⟨fits, rfl, rest, front⟩

theorem ValInsertPdu.tryParse_error (buffer : List UInt8) :
    (∃ e, ValInsertPdu.tryParse buffer = .error e) ↔ BehindName buffer := by
  rcases ValInsertPdu.tryParse_cases buffer with ⟨waits, front⟩ | ⟨⟨e, fails⟩, behind⟩ |
    ⟨pdu, rest, -, -, parsed, front⟩
  · simp [waits, front]
  · simp [fails, behind]
  · simp [parsed, front]

/-! ## All kinds -/

section

variable {α : Type} {parse : List UInt8 → Except String (Option (α × ℕ))} {kind : α → PDU}
  {buffer : List UInt8} {pdu : PDU} {used : ℕ}

theorem intoPdu_eq_some (found : intoPdu kind (parse buffer) = .ok (some (pdu, used))) :
    ∃ x, pdu = kind x ∧ parse buffer = .ok (some (x, used)) := by
  cases parsed : parse buffer with
  | error e =>
      rw [parsed] at found
      cases found
  | ok result =>
      rw [parsed] at found
      cases result with
      | none => cases found
      | some result =>
          cases found
          exact ⟨result.1, rfl, rfl⟩

theorem intoPdu_error : (∃ e, intoPdu kind (parse buffer) = .error e) ↔
    ∃ e, parse buffer = .error e := by
  cases parsed : parse buffer with
  | error e => exact iff_of_true ⟨e, rfl⟩ ⟨e, rfl⟩
  | ok result =>
      cases result with
      | none => simp [intoPdu, pure, Except.pure]
      | some result => simp [intoPdu, pure, Except.pure]

/-- The front of the buffer is the PDU, if the types agree. -/
theorem Parses.into_sound {Valid : α → Prop} {code : UInt8} {rest : List UInt8}
    (parses : Parses parse (fun x => (kind x).toBytes) Valid)
    (fits : ∀ x, Valid x → (kind x).Fits) (type : ∀ x, (kind x).parsedType = (kind x).code)
    (same : ∀ x, (kind x).code = code)
    (found : intoPdu kind (parse (code :: rest)) = .ok (some (pdu, used))) :
    pdu.Parsed ∧ used = pdu.wire.length ∧ ∃ rest', code :: rest = pdu.wire ++ rest' := by
  obtain ⟨x, rfl, parsed⟩ := intoPdu_eq_some found
  obtain ⟨valid, length, rest', front⟩ := parses.sound _ x used parsed
  have front' := front
  rw [(kind x).toBytes_eq] at front
  have head : code = (kind x).pduType := (List.cons.inj front).1
  have wire := PDU.wire_eq_toBytes (head.symm.trans (same x).symm)
  rw [wire]
  refine ⟨⟨?_, fits x valid⟩, length, rest', front'⟩
  rw [type, same, head]

theorem Parses.into_whole {Valid : α → Prop} {x : α} {rest : List UInt8}
    (parses : Parses parse (fun x => (kind x).toBytes) Valid) (valid : Valid x)
    (type : (kind x).pduType = (kind x).code) :
    intoPdu kind (parse ((kind x).wire ++ rest)) =
      .ok (some (kind x, (kind x).wire.length)) := by
  rw [PDU.wire_eq_toBytes type, parses.whole x rest valid]
  rfl

theorem ValLookupResponsePdu.tryParse_eq (buffer : List UInt8) :
    ValLookupResponsePdu.tryParse buffer =
      match ValInsertPdu.tryParse buffer with
      | .error e => .error e
      | .ok none => .ok none
      | .ok (some (pdu, size)) => .ok (some (⟨102, pdu.ssn, pdu.nameLength, pdu.name,
          pdu.emailLength, pdu.email⟩, size)) := by
  rw [ValLookupResponsePdu.tryParse]
  rcases ValInsertPdu.tryParse buffer with e | _ | ⟨pdu, size⟩ <;> rfl

def ValLookupResponsePdu.asInsert (pdu : ValLookupResponsePdu) : ValInsertPdu :=
  ⟨103, pdu.ssn, pdu.nameLength, pdu.name, pdu.emailLength, pdu.email⟩

theorem ValLookupResponsePdu.wire_eq (pdu : ValLookupResponsePdu) :
    (PDU.valLookupResponse pdu).wire = (PDU.valInsert pdu.asInsert).toBytes := rfl

theorem valLookupResponse_whole {pdu : ValLookupResponsePdu} {rest : List UInt8}
    (parsed : (PDU.valLookupResponse pdu).Parsed) :
    intoPdu .valLookupResponse
        (ValLookupResponsePdu.tryParse ((PDU.valLookupResponse pdu).wire ++ rest)) =
      .ok (some (.valLookupResponse pdu, (PDU.valLookupResponse pdu).wire.length)) := by
  obtain ⟨type, fits⟩ := parsed
  rw [pdu.wire_eq, ValLookupResponsePdu.tryParse_eq, ValInsertPdu.parses.whole pdu.asInsert rest fits]
  change pdu.pduType = 102 at type
  cases pdu
  subst type
  rfl

theorem valLookupResponse_sound {rest : List UInt8}
    (found : intoPdu .valLookupResponse (ValLookupResponsePdu.tryParse (103 :: rest)) =
      .ok (some (pdu, used))) :
    pdu.Parsed ∧ used = pdu.wire.length ∧ ∃ rest', 103 :: rest = pdu.wire ++ rest' := by
  obtain ⟨x, rfl, parsed⟩ := intoPdu_eq_some found
  rw [ValLookupResponsePdu.tryParse_eq] at parsed
  cases inserted : ValInsertPdu.tryParse (103 :: rest) with
  | error e =>
      rw [inserted] at parsed
      cases parsed
  | ok result =>
      rw [inserted] at parsed
      cases result with
      | none => cases parsed
      | some result =>
          obtain ⟨insert, size⟩ := result
          cases parsed
          obtain ⟨fits, length, rest', front⟩ := ValInsertPdu.parses.sound _ insert _ inserted
          have head : insert.pduType = 103 := (List.cons.inj front).1.symm
          have wire : (PDU.valLookupResponse ⟨102, insert.ssn, insert.nameLength, insert.name,
              insert.emailLength, insert.email⟩).wire = (PDU.valInsert insert).toBytes := by
            rw [PDU.toBytes_eq (.valInsert insert)]
            change _ = insert.pduType :: _
            rw [head]
            rfl
          rw [wire]
          exact ⟨⟨rfl, fits⟩, length, rest', front⟩

end

def knownTypes : List UInt8 := [0, 1, 2, 3, 4, 5, 6, 7, 8, 100, 101, 102, 103, 200, 201]

theorem parsePdu_whole (pdu : PDU) (rest : List UInt8) (parsed : pdu.Parsed) :
    parsePdu (pdu.wire ++ rest) = .ok (some (pdu, pdu.wire.length)) := by
  cases pdu with
  | netAlive pdu => exact NetAlivePdu.parses.1.into_whole trivial parsed.1
  | netGetNode pdu => exact NetGetNodePdu.parses.1.into_whole trivial parsed.1
  | netGetNodeResponse pdu => exact NetGetNodeResponsePdu.parses.1.into_whole trivial parsed.1
  | netJoin pdu => exact NetJoinPdu.parses.1.into_whole trivial parsed.1
  | netJoinResponse pdu => exact NetJoinResponsePdu.parses.1.into_whole trivial parsed.1
  | netCloseConnection pdu => exact NetCloseConnectionPdu.parses.1.into_whole trivial parsed.1
  | netNewRange pdu => exact NetNewRangePdu.parses.1.into_whole trivial parsed.1
  | netNewRangeResponse pdu => exact NetNewRangeResponsePdu.parses.1.into_whole trivial parsed.1
  | netLeaving pdu => exact NetLeavingPdu.parses.1.into_whole trivial parsed.1
  | valInsert pdu => exact ValInsertPdu.parses.into_whole parsed.2 parsed.1
  | valRemove pdu => exact ValRemovePdu.parses.1.into_whole parsed.2 parsed.1
  | valLookup pdu => exact ValLookupPdu.parses.1.into_whole parsed.2 parsed.1
  | valLookupResponse pdu => exact valLookupResponse_whole parsed
  | stunLookup pdu => exact StunLookupPdu.parses.1.into_whole trivial parsed.1
  | stunResponse pdu => exact StunResponsePdu.parses.1.into_whole trivial parsed.1

theorem parsePdu_sound (buffer : List UInt8) (pdu : PDU) (used : ℕ)
    (found : parsePdu buffer = .ok (some (pdu, used))) :
    pdu.Parsed ∧ used = pdu.wire.length ∧ ∃ rest, buffer = pdu.wire ++ rest := by
  unfold parsePdu at found
  split at found
  · cases found
  · rename_i code rest
    split at found
    · exact NetAlivePdu.parses.1.into_sound (fun _ _ => trivial) (fun _ => rfl) (fun _ => rfl) found
    · exact NetGetNodePdu.parses.1.into_sound (fun _ _ => trivial) (fun _ => rfl) (fun _ => rfl) found
    · exact NetGetNodeResponsePdu.parses.1.into_sound (fun _ _ => trivial) (fun _ => rfl)
        (fun _ => rfl) found
    · exact NetJoinPdu.parses.1.into_sound (fun _ _ => trivial) (fun _ => rfl) (fun _ => rfl) found
    · exact NetJoinResponsePdu.parses.1.into_sound (fun _ _ => trivial) (fun _ => rfl)
        (fun _ => rfl) found
    · exact NetCloseConnectionPdu.parses.1.into_sound (fun _ _ => trivial) (fun _ => rfl)
        (fun _ => rfl) found
    · exact NetNewRangePdu.parses.1.into_sound (fun _ _ => trivial) (fun _ => rfl) (fun _ => rfl) found
    · exact NetLeavingPdu.parses.1.into_sound (fun _ _ => trivial) (fun _ => rfl) (fun _ => rfl) found
    · exact NetNewRangeResponsePdu.parses.1.into_sound (fun _ _ => trivial) (fun _ => rfl)
        (fun _ => rfl) found
    · exact ValInsertPdu.parses.into_sound (fun _ fits => fits) (fun _ => rfl) (fun _ => rfl) found
    · exact ValRemovePdu.parses.1.into_sound (fun _ fits => fits) (fun _ => rfl) (fun _ => rfl) found
    · exact ValLookupPdu.parses.1.into_sound (fun _ fits => fits) (fun _ => rfl) (fun _ => rfl) found
    · exact valLookupResponse_sound found
    · exact StunLookupPdu.parses.1.into_sound (fun _ _ => trivial) (fun _ => rfl) (fun _ => rfl) found
    · exact StunResponsePdu.parses.1.into_sound (fun _ _ => trivial) (fun _ => rfl) (fun _ => rfl) found
    · cases found

theorem PDU.wire_ne_nil (pdu : PDU) : pdu.wire ≠ [] := List.cons_ne_nil _ _

theorem parsePdu_frames : Frames parsePdu PDU.wire PDU.Parsed where
  nil := rfl
  nonempty pdu _ := pdu.wire_ne_nil
  whole := parsePdu_whole
  sound := parsePdu_sound

theorem not_error_of_total {α : Type} {parse : List UInt8 → Except String (Option (α × ℕ))}
    (total : Total parse) (kind : α → PDU) (buffer : List UInt8) :
    ¬ ∃ e, intoPdu kind (parse buffer) = .error e := by
  rw [intoPdu_error]
  rintro ⟨e, fails⟩
  exact total buffer e fails

/-- With a known type, it fails only behind the name of a PDU with texts. -/
theorem parsePdu_error {code : UInt8} (known : code ∈ knownTypes) (rest : List UInt8) :
    (∃ e, parsePdu (code :: rest) = .error e) ↔
      (code = 100 ∨ code = 103) ∧ BehindName (code :: rest) := by
  have response : (∃ e, ValLookupResponsePdu.tryParse (103 :: rest) = .error e) ↔
      BehindName (103 :: rest) := by
    rw [← ValInsertPdu.tryParse_error, ValLookupResponsePdu.tryParse_eq]
    rcases ValInsertPdu.tryParse (103 :: rest) with e | _ | ⟨pdu, size⟩ <;> simp
  simp only [knownTypes, List.mem_cons, List.not_mem_nil, or_false] at known
  rcases known with rfl | rfl | rfl | rfl | rfl | rfl | rfl | rfl | rfl | rfl | rfl | rfl | rfl |
    rfl | rfl
  · exact iff_of_false (not_error_of_total NetAlivePdu.parses.2 _ _) (by simp)
  · exact iff_of_false (not_error_of_total NetGetNodePdu.parses.2 _ _) (by simp)
  · exact iff_of_false (not_error_of_total NetGetNodeResponsePdu.parses.2 _ _) (by simp)
  · exact iff_of_false (not_error_of_total NetJoinPdu.parses.2 _ _) (by simp)
  · exact iff_of_false (not_error_of_total NetJoinResponsePdu.parses.2 _ _) (by simp)
  · exact iff_of_false (not_error_of_total NetCloseConnectionPdu.parses.2 _ _) (by simp)
  · exact iff_of_false (not_error_of_total NetNewRangePdu.parses.2 _ _) (by simp)
  · exact iff_of_false (not_error_of_total NetLeavingPdu.parses.2 _ _) (by simp)
  · exact iff_of_false (not_error_of_total NetNewRangeResponsePdu.parses.2 _ _) (by simp)
  · change (∃ e, intoPdu _ (ValInsertPdu.tryParse (100 :: rest)) = .error e) ↔ _
    rw [intoPdu_error, ValInsertPdu.tryParse_error]
    simp
  · exact iff_of_false (not_error_of_total ValRemovePdu.parses.2 _ _) (by simp)
  · exact iff_of_false (not_error_of_total ValLookupPdu.parses.2 _ _) (by simp)
  · change (∃ e, intoPdu _ (ValLookupResponsePdu.tryParse (103 :: rest)) = .error e) ↔ _
    rw [intoPdu_error, response]
    simp
  · exact iff_of_false (not_error_of_total StunLookupPdu.parses.2 _ _) (by simp)
  · exact iff_of_false (not_error_of_total StunResponsePdu.parses.2 _ _) (by simp)

/-! ## What a sender writes -/

/-- Type and texts are those that the bytes stand for. -/
def PDU.Encodable (pdu : PDU) : Prop := pdu.pduType = pdu.code ∧ pdu.Fits

def PDU.asParsed : PDU → PDU
  | .valLookupResponse pdu => .valLookupResponse { pdu with pduType := 102 }
  | pdu => pdu

def PDU.nameEnd : PDU → Option ℕ
  | .valInsert pdu => some (1 + ssnLength + 1 + pdu.nameLength.toNat)
  | .valLookupResponse pdu => some (1 + ssnLength + 1 + pdu.nameLength.toNat)
  | _ => none

section

variable {pdu : PDU}

theorem PDU.Encodable.asParsed (encodable : pdu.Encodable) : pdu.asParsed.Parsed := by
  obtain ⟨type, fits⟩ := encodable
  cases pdu with
  | valLookupResponse pdu => exact ⟨rfl, fits⟩
  | _ => exact ⟨type, fits⟩

theorem PDU.Encodable.wire_asParsed (encodable : pdu.Encodable) :
    pdu.asParsed.wire = pdu.toBytes := by
  rw [← PDU.wire_eq_toBytes encodable.1]
  cases pdu <;> rfl

theorem PDU.Encodable.asParsed_eq_iff (encodable : pdu.Encodable) :
    pdu.asParsed = pdu ↔ pdu.code ≠ 103 := by
  cases pdu with
  | valLookupResponse pdu =>
      refine iff_of_false ?_ (not_not_intro rfl)
      intro same
      have type : pdu.pduType = 103 := encodable.1
      have type' : (102 : UInt8) = pdu.pduType := congrArg PDU.pduType same
      rw [type] at type'
      exact absurd type' (by decide)
  | _ => exact iff_of_true rfl (by simp [PDU.code])

@[simp] theorem PDU.nameEnd_asParsed (pdu : PDU) : pdu.asParsed.nameEnd = pdu.nameEnd := by
  cases pdu <;> rfl

theorem flatMap_wire_asParsed {pdus : List PDU} (encodable : ∀ pdu ∈ pdus, pdu.Encodable) :
    (pdus.map PDU.asParsed).flatMap PDU.wire = pdus.flatMap PDU.toBytes := by
  rw [List.flatMap_map]
  exact List.flatMap_congr fun pdu mem => (encodable pdu mem).wire_asParsed

theorem PDU.code_mem_knownTypes (pdu : PDU) : pdu.code ∈ knownTypes := by
  cases pdu <;> simp [PDU.code, knownTypes]

theorem PDU.wire_of_nameEnd {cut : ℕ} (fits : pdu.Fits) (named : pdu.nameEnd = some cut) :
    (pdu.code = 100 ∨ pdu.code = 103) ∧ ∃ (nameLength : UInt8) (ssn name email : List UInt8),
      ssn.length = ssnLength ∧ name.length = nameLength.toNat ∧
        cut = 1 + ssnLength + 1 + nameLength.toNat ∧ email ≠ [] ∧
        pdu.wire = (pdu.code :: (ssn ++ nameLength :: name)) ++ email := by
  cases pdu with
  | valInsert pdu =>
      obtain ⟨ssn_fits, name_fits, -⟩ := fits
      cases named
      refine ⟨Or.inl rfl, pdu.nameLength, _, _, _, length_toLatin1_take ssn_fits,
        (length_toLatin1 _).trans name_fits.1, rfl, List.cons_ne_nil pdu.emailLength
          (toLatin1 pdu.email), ?_⟩
      simp [PDU.wire, PDU.toBytes, textPduBytes]
  | valLookupResponse pdu =>
      obtain ⟨ssn_fits, name_fits, -⟩ := fits
      cases named
      refine ⟨Or.inr rfl, pdu.nameLength, _, _, _, length_toLatin1_take ssn_fits,
        (length_toLatin1 _).trans name_fits.1, rfl, List.cons_ne_nil pdu.emailLength
          (toLatin1 pdu.email), ?_⟩
      simp [PDU.wire, PDU.toBytes, textPduBytes]
  | _ => cases named

theorem PDU.nameEnd_of_code (texts : pdu.code = 100 ∨ pdu.code = 103) :
    ∃ cut, pdu.nameEnd = some cut := by
  cases pdu with
  | valInsert pdu => exact ⟨_, rfl⟩
  | valLookupResponse pdu => exact ⟨_, rfl⟩
  | _ => exact absurd texts (by simp [PDU.code])

theorem parsePdu_take_nameEnd {cut : ℕ} (fits : pdu.Fits) (named : pdu.nameEnd = some cut) :
    ∃ e, parsePdu (pdu.wire.take cut) = .error e := by
  obtain ⟨texts, nameLength, ssn, name, email, ssn_length, name_length, rfl, -, wire⟩ :=
    PDU.wire_of_nameEnd fits named
  have front : pdu.wire.take (1 + ssnLength + 1 + nameLength.toNat) =
      pdu.code :: (ssn ++ nameLength :: name) := by
    rw [wire]
    apply List.take_left'
    rw [List.length_cons, List.length_append, List.length_cons, ssn_length, name_length]
    omega
  rw [front]
  apply (parsePdu_error pdu.code_mem_knownTypes _).mpr
  exact ⟨texts, pdu.code, nameLength, ssn, name, ssn_length, name_length, rfl⟩

theorem nameEnd_of_error {buffer more rest : List UInt8} {e : String} (fits : pdu.Fits)
    (fails : parsePdu buffer = .error e) (inside : buffer ++ more = pdu.wire ++ rest) :
    ∃ cut, pdu.nameEnd = some cut ∧ buffer = pdu.wire.take cut := by
  cases buffer with
  | nil => cases fails
  | cons code tail =>
      obtain rfl : code = pdu.code := (List.cons.inj inside).1
      obtain ⟨texts, behind⟩ := (parsePdu_error pdu.code_mem_knownTypes _).mp ⟨e, fails⟩
      obtain ⟨cut, named⟩ := PDU.nameEnd_of_code texts
      obtain ⟨-, nameLength, ssn, name, email, ssn_length, name_length, rfl, -, wire⟩ :=
        PDU.wire_of_nameEnd fits named
      obtain ⟨pduType', nameLength', ssn', name', ssn_length', name_length', eq⟩ := behind
      refine ⟨_, named, ?_⟩
      obtain ⟨rfl, rfl⟩ := List.cons.inj eq
      rw [wire, List.append_assoc, List.cons_append, List.cons_append] at inside
      have behind_type := (List.cons.inj inside).2
      rw [List.append_assoc, List.append_assoc] at behind_type
      obtain ⟨rfl, behind_ssn⟩ :=
        List.append_inj behind_type (ssn_length'.trans ssn_length.symm)
      obtain ⟨rfl, behind_length⟩ := List.cons.inj behind_ssn
      obtain ⟨rfl, -⟩ := List.append_inj behind_length (name_length'.trans name_length.symm)
      rw [wire]
      symm
      apply List.take_left'
      rw [List.length_cons, List.length_append, List.length_cons, ssn_length, name_length]
      omega

end

end DhtRing.TestNode

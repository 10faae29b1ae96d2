import DhtRing.TestNode.Encoding

/-!
# Parsing what was built

The PDUs that the fifteen `new` build, written and parsed again.  The lengths of a name and
an email are counted in bytes of UTF-8, and each char is written as one byte.
-/

set_option autoImplicit false

namespace DhtRing.TestNode

/-! ## What is built -/

def ShortText (text : RString) : Prop := text.length ≤ 255 ∧ Latin1 text

inductive PDU.New : PDU → Prop
  | netAlive : New (.netAlive .new)
  | netGetNode : New (.netGetNode .new)
  | netGetNodeResponse (address : UInt32) (port : UInt16) :
      New (.netGetNodeResponse (.new address port))
  | netJoin (srcAddress : UInt32) (srcPort : UInt16) (maxSpan : UInt8) (maxAddress : UInt32)
      (maxPort : UInt16) : New (.netJoin (.new srcAddress srcPort maxSpan maxAddress maxPort))
  | netJoinResponse (nextAddress : UInt32) (nextPort : UInt16) (rangeStart rangeEnd : UInt8) :
      New (.netJoinResponse (.new nextAddress nextPort rangeStart rangeEnd))
  | netCloseConnection : New (.netCloseConnection .new)
  | netNewRange (rangeStart rangeEnd : UInt8) : New (.netNewRange (.new rangeStart rangeEnd))
  | netLeaving (newAddress : UInt32) (newPort : UInt16) : New (.netLeaving (.new newAddress newPort))
  | netNewRangeResponse : New (.netNewRangeResponse .new)
  | valInsert (ssn name email : RString) (key : SsnFits ssn) (named : ShortText name)
      (mailed : ShortText email) : New (.valInsert (.new ssn name email))
  | valRemove (ssn : RString) (key : SsnFits ssn) : New (.valRemove (.new ssn))
  | valLookup (ssn : RString) (senderAddress : UInt32) (senderPort : UInt16) (key : SsnFits ssn) :
      New (.valLookup (.new ssn senderAddress senderPort))
  | valLookupResponse (ssn name email : RString) (key : SsnFits ssn) (named : ShortText name)
      (mailed : ShortText email) : New (.valLookupResponse (.new ssn name email))
  | stunLookup : New (.stunLookup .new)
  | stunResponse (address : UInt32) : New (.stunResponse (.new address))

/-- The kind and the fields that are given to `new`, and the type: all but the two lengths. -/
def PDU.given : PDU → PDU
  | .valInsert pdu => .valInsert { pdu with nameLength := 0, emailLength := 0 }
  | .valLookupResponse pdu => .valLookupResponse { pdu with nameLength := 0, emailLength := 0 }
  | pdu => pdu

/-- The PDU is parsed from its bytes, whatever follows them. -/
def PDU.ReadBack (pdu : PDU) : Prop :=
  ∀ rest : List UInt8, ∃ parsed used, parsePdu (pdu.toBytes ++ rest) = .ok (some (parsed, used)) ∧
    parsed.given = pdu.given ∧ used = pdu.toBytes.length

def AsciiChars (text : RString) : Prop := ∀ c ∈ text, c.toNat < 128

def PDU.Plain : PDU → Prop
  | .valInsert pdu => AsciiChars pdu.name ∧ AsciiChars pdu.email
  | .valLookupResponse _ => False
  | _ => True

/-! ## Lengths -/

theorem utf8Size_latin1 {c : Char} (latin : c.toNat < 256) :
    c.utf8Size = if 128 ≤ c.toNat then 2 else 1 := by
  have value : c.val.toNat = c.toNat := rfl
  rw [Char.utf8Size]
  by_cases high : 128 ≤ c.toNat
  · rw [if_pos high, if_neg, if_pos]
    · rw [UInt32.le_iff_toNat_le, value]
      exact (Nat.le_of_lt latin).trans (by decide)
    · rw [UInt32.le_iff_toNat_le, value]
      exact Nat.not_le_of_lt high
  · rw [if_neg high, if_pos]
    rw [UInt32.le_iff_toNat_le, value]
    exact Nat.le_of_lt_succ (Nat.lt_of_not_le high)

/-- Each char above ASCII counts twice. -/
theorem len_latin1 {text : RString} (latin : Latin1 text) :
    len text = text.length + text.countP fun c => 128 ≤ c.toNat := by
  induction text with
  | nil => rfl
  | cons c text ih =>
      have rest := ih fun d mem => latin d (List.mem_cons_of_mem _ mem)
      rw [len] at rest ⊢
      rw [List.map_cons, List.sum_cons, rest, utf8Size_latin1 (latin c List.mem_cons_self),
        List.length_cons, List.countP_cons]
      by_cases high : 128 ≤ c.toNat
      · simp only [high, if_true, decide_true]
        omega
      · simp only [high, if_false, decide_false, Bool.false_eq_true]
        omega

/-- The length byte of a text is the number of its chars only if these are ASCII. -/
theorem lengthByte_iff {text : RString} (short : ShortText text) :
    (UInt8.ofNat (len text)).toNat = text.length ↔ AsciiChars text := by
  have some_high := List.countP_le_length (p := fun c : Char => decide (128 ≤ c.toNat)) (l := text)
  have bound := short.1
  rw [UInt8.toNat_ofNat', len_latin1 short.2]
  have none_high : (text.length + text.countP fun c => decide (128 ≤ c.toNat)) % 2 ^ 8 =
      text.length ↔ (text.countP fun c => decide (128 ≤ c.toNat)) = 0 := by
    omega
  rw [none_high, List.countP_eq_zero]
  simp [AsciiChars]

theorem textFits_iff {text : RString} (short : ShortText text) :
    TextFits (UInt8.ofNat (len text)) text ↔ AsciiChars text := by
  rw [TextFits, eq_comm, lengthByte_iff short]
  exact and_iff_left short.2

/-! ## Back again -/

section

variable {pdu : PDU}

theorem PDU.Encodable.readBack (encodable : pdu.Encodable) (response : pdu.code ≠ 103) :
    pdu.ReadBack := by
  intro rest
  have parsed := parsePdu_whole pdu rest ⟨by rw [encodable.1, parsedType, if_neg response],
    encodable.2⟩
  rw [wire_eq_toBytes encodable.1] at parsed
  exact ⟨pdu, _, parsed, rfl, rfl⟩

theorem valInsert_front {pdu parsed : ValInsertPdu} {rest rest' : List UInt8}
    (valid : (PDU.valInsert parsed).Parsed)
    (ssn : parsed.ssn = pdu.ssn) (name : parsed.name = pdu.name) (email : parsed.email = pdu.email)
    (front : (PDU.valInsert pdu).toBytes ++ rest = (PDU.valInsert parsed).wire ++ rest') :
    TextFits pdu.nameLength pdu.name ∧ TextFits pdu.emailLength pdu.email ∧ rest = rest' := by
  obtain ⟨pduType, ssn', nameLength, name', emailLength, email'⟩ := parsed
  obtain ⟨-, -, name_fits, email_fits⟩ := valid
  dsimp only at ssn name email name_fits email_fits
  subst ssn name email
  simp only [PDU.toBytes, PDU.wire, PDU.code, textPduBytes, List.tail_cons, List.cons_append,
    List.append_assoc] at front
  obtain ⟨names, behind⟩ := List.cons.inj (List.append_cancel_left (List.cons.inj front).2)
  obtain ⟨emails, last⟩ := List.cons.inj (List.append_cancel_left behind)
  rw [names, emails]
  exact ⟨name_fits, email_fits, List.append_cancel_left last⟩

theorem valInsert_of_readBack {pdu : ValInsertPdu} (back : (PDU.valInsert pdu).ReadBack) :
    TextFits pdu.nameLength pdu.name ∧ TextFits pdu.emailLength pdu.email := by
  obtain ⟨parsed, used, found, same, -⟩ := back []
  obtain ⟨valid, -, rest, front⟩ := parsePdu_sound _ parsed used found
  cases parsed with
  | valInsert parsed =>
      obtain ⟨-, ssn, -, name, -, email⟩ := ValInsertPdu.mk.inj (PDU.valInsert.inj same)
      obtain ⟨names, emails, -⟩ := valInsert_front valid ssn name email front
      exact ⟨names, emails⟩
  | _ => cases same

/-- A PDU from `new` is read back exactly when its texts are ASCII and it is no
`VAL_LOOKUP_RESPONSE`. -/
theorem PDU.readBack_iff (new : pdu.New) : pdu.ReadBack ↔ pdu.Plain := by
  cases new with
  | valInsert ssn name email key named mailed =>
      have fits : (AsciiChars name ∧ AsciiChars email) ↔
          TextFits (UInt8.ofNat (len name)) name ∧ TextFits (UInt8.ofNat (len email)) email := by
        rw [textFits_iff named, textFits_iff mailed]
      change _ ↔ AsciiChars name ∧ AsciiChars email
      rw [fits]
      constructor
      · exact fun back => valInsert_of_readBack back
      · exact fun texts => PDU.Encodable.readBack ⟨rfl, key, texts⟩ (by simp [PDU.code])
  | valLookupResponse ssn name email key named mailed =>
      refine iff_of_false (fun back => ?_) not_false
      obtain ⟨parsed, used, found, same, -⟩ := back []
      obtain ⟨⟨type, -⟩, -⟩ := parsePdu_sound _ parsed used found
      -- the type is that of a `VAL_LOOKUP`
      cases parsed with
      | valLookupResponse parsed =>
          have types : parsed.pduType = 103 := congrArg PDU.pduType same
          have types' : parsed.pduType = 102 := type
          rw [types] at types'
          exact absurd types' (by decide)
      | _ => cases same
  | valRemove ssn key => exact iff_of_true (PDU.Encodable.readBack ⟨rfl, key⟩ (by simp [PDU.code])) trivial
  | valLookup ssn senderAddress senderPort key =>
      exact iff_of_true (PDU.Encodable.readBack ⟨rfl, key⟩ (by simp [PDU.code])) trivial
  | _ => exact iff_of_true (PDU.Encodable.readBack ⟨rfl, trivial⟩ (by simp [PDU.code])) trivial

end

def insertNamed (name : RString) : PDU := .valInsert (.new (List.replicate 12 '1') name [])

theorem insertNamed_new {name : RString} (short : ShortText name) : (insertNamed name).New :=
  .valInsert _ name [] (by decide) short ⟨Nat.zero_le _, by simp [Latin1]⟩

theorem readBack_iff_insertNamed : (insertNamed ['A']).New ∧ (insertNamed ['A']).ReadBack := by
  have new : (insertNamed ['A']).New := insertNamed_new ⟨by decide, by decide⟩
  refine ⟨new, (PDU.readBack_iff new).mpr ⟨?_, ?_⟩⟩
  · intro c mem
    rw [List.mem_singleton.mp mem]
    decide
  · intro c mem
    cases mem

/-- A name of one char that UTF-8 writes in two bytes. -/
theorem insert_not_readBack : ¬ ∀ pdu : PDU, pdu.New → pdu.ReadBack := by
  intro claim
  have new : (insertNamed [Char.ofNat 233]).New := insertNamed_new ⟨by decide, by decide⟩
  have back := claim _ new
  have fits := (valInsert_of_readBack back).1
  exact absurd fits (by decide)

end DhtRing.TestNode

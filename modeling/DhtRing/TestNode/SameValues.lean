import Mathlib.Data.List.Infix
import Mathlib.Data.List.Induction
import DhtRing.TableCalls
import DhtRing.TestNode.Node
import DhtRing.TestNode.WireFormats

/-!
# Values in the two nodes

The same inserts and removes on the table of the node in C and on the vector of the Rust
node.  The table replaces an entry, the vector keeps them all and is searched from the
front.  So the nodes agree on a key when its first and its last insert are the same.
-/

set_option autoImplicit false

namespace DhtRing.TestNode

/-! ## The hash -/

theorem toUInt8_mod_256 (word : UInt32) : (word % 256).toUInt8 = word.toUInt8 := by
  rw [← UInt8.toNat_inj, UInt32.toNat_toUInt8, UInt32.toNat_toUInt8, UInt32.toNat_mod]
  exact Nat.mod_mod_of_dvd _ (dvd_refl 256)

theorem toUInt8_round {first second : UInt32} {a b : UInt32} (same : first.toUInt8 = second.toUInt8)
    (chars : a.toUInt8 = b.toUInt8) :
    ((first <<< 5) + first + a).toUInt8 = ((second <<< 5) + second + b).toUInt8 := by
  have shift : ∀ word : UInt32, (word <<< 5).toNat = word.toNat * 32 % 2 ^ 32 := by
    intro word
    rw [UInt32.toNat_shiftLeft, Nat.shiftLeft_eq]
    rfl
  rw [← UInt8.toNat_inj, UInt32.toNat_toUInt8, UInt32.toNat_toUInt8] at same chars ⊢
  simp only [UInt32.toNat_add, shift]
  omega

/-- The last byte of the hash sees only the last byte of each char. -/
theorem toUInt8_foldl {char char' : UInt8 → UInt32}
    (chars : ∀ byte, (char byte).toUInt8 = (char' byte).toUInt8) (bytes : List UInt8)
    {first second : UInt32} (same : first.toUInt8 = second.toUInt8) :
    (bytes.foldl (fun (hash : UInt32) byte => (hash <<< 5) + hash + char byte) first).toUInt8 =
      (bytes.foldl (fun (hash : UInt32) byte => (hash <<< 5) + hash + char' byte)
        second).toUInt8 := by
  induction bytes generalizing first second with
  | nil => exact same
  | cons byte bytes ih => exact ih (toUInt8_round same (chars byte))

theorem toUInt8_widen (char : UInt8) : (widen char).toUInt8 = (Char.ofUInt8 char).val.toUInt8 := by
  have unsigned : (Char.ofUInt8 char).val.toUInt8 = char := toUInt8_ofUInt8 char
  rw [unsigned, ← UInt8.toBitVec_inj]
  change ((char.toBitVec.signExtend 32).setWidth 8) = char.toBitVec
  apply BitVec.eq_of_getLsbD_eq
  intro i inside
  have wide : i < 32 := by omega
  simp only [BitVec.getLsbD_setWidth, BitVec.getLsbD_signExtend, inside, wide, decide_true,
    Bool.true_and, if_true]

theorem hashSsn_ofLatin1 (ssn : Ssn) : hashSsn (ofLatin1 ssn.toList) = DhtRing.hashSsn ssn := by
  rw [hashSsn, DhtRing.hashSsn, digest, toUInt8_mod_256, toUInt8_mod_256]
  rw [ofLatin1, List.foldl_map]
  exact toUInt8_foldl (fun byte => (toUInt8_widen byte).symm) ssn.toList rfl

theorem inMyRange_eq_checkRange {node : Node} {selfData : SelfData}
    (range : node.hashRange = (selfData.rangeStart, selfData.rangeEnd)) (ssn : Ssn) :
    node.inMyRange (ofLatin1 ssn.toList) = checkRange selfData ssn := by
  rw [Node.inMyRange, hashSsn_ofLatin1, range, checkRange]

/-! ## Inserts and removes -/

inductive Update where
  | insert (ssn : Ssn) (pair : ValuePair)
  | remove (ssn : Ssn)

def Update.key : Update → Ssn
  | .insert ssn _ => ssn
  | .remove ssn => ssn

/-- The handlers of the node in C, and nothing when they do not return. -/
def Update.onC (selfData : SelfData) (update : Update) : Option SelfData :=
  let outcome := match update with
    | .insert ssn pair => handleHtInsert selfData ssn pair
    | .remove ssn => handleHtRemove selfData ssn
  if outcome.ctl = .run then some outcome.selfData else none

def Update.onRust (node : Node) : Update → Except String Node
  | .insert ssn pair => node.handleValInsert (valInsertPduOf ssn pair)
  | .remove ssn => node.handleValRemove (ValRemovePdu.new (ofLatin1 ssn.toList))

def runC (selfData : SelfData) (updates : List Update) : Option SelfData :=
  updates.foldlM Update.onC selfData

def runRust (node : Node) (updates : List Update) : Except String Node :=
  updates.foldlM Update.onRust node

/-- The entries of a key since its last remove, the oldest first. -/
def insertsSince (key : Ssn) (updates : List Update) : List ValuePair :=
  updates.foldl (fun inserts update => match update with
    | .insert ssn pair => if ssn = key then inserts ++ [pair] else inserts
    | .remove ssn => if ssn = key then [] else inserts) []

def storedKeys (updates : List Update) : List Ssn :=
  updates.foldl (fun keys update => match update with
    | .insert ssn _ => if ssn ∈ keys then keys else keys ++ [ssn]
    | .remove ssn => keys.erase ssn) []

/-- At any time the key array has room for the keys. -/
def HasRoomThroughout (updates : List Update) : Prop :=
  ∀ before after, updates = before ++ after → (storedKeys before).length ≤ maxSize

def Ascii (text : Text) : Prop := ∀ byte ∈ text.val, byte < 128

structure Update.Admissible (rangeStart rangeEnd : UInt8) (update : Update) : Prop where
  nonzero : Nonzero update.key
  range : rangeStart ≤ DhtRing.hashSsn update.key ∧ DhtRing.hashSsn update.key ≤ rangeEnd
  ascii : ∀ ssn pair, update = .insert ssn pair → Ascii pair.name ∧ Ascii pair.email

/-- Both nodes have the key or neither has, and what the node in C answers to a
`VAL_LOOKUP` the Rust node answers with the same bytes. -/
def Agree (selfData : SelfData) (node : Node) (key : Ssn) : Prop :=
  ((selfData.value key).isSome ↔ ∃ entry ∈ node.values, entry.ssn = ofLatin1 key.toList) ∧
    ∀ (sender : Addr) (pdu : Pdu),
      .udp sender pdu ∈ (handleHtLookup selfData key sender).effects →
        ∃ response : PDU, response.toBytes = pdu.bytes ∧
          node.handleValLookup
              (ValLookupPdu.new (ofLatin1 key.toList) sender.address sender.port) =
            .ok (node.emit [.udp response sender])

def AgreeAfter (selfData : SelfData) (node : Node) (updates : List Update) : Prop :=
  ∃ selfData' node', runC selfData updates = some selfData' ∧ runRust node updates = .ok node' ∧
    ∀ key, Agree selfData' node' key

section

variable {selfData : SelfData} {node : Node} {updates : List Update} {update : Update} {key : Ssn}

theorem ofLatin1_inj {first second : Ssn} :
    ofLatin1 first.toList = ofLatin1 second.toList ↔ first = second := by
  constructor
  · intro same
    have bytes := congrArg toLatin1 same
    rw [toLatin1_ofLatin1, toLatin1_ofLatin1] at bytes
    exact Vector.toList_inj.mp bytes
  · rintro rfl
    rfl

theorem hasRoomThroughout_snoc :
    HasRoomThroughout (updates ++ [update]) ↔
      HasRoomThroughout updates ∧ (storedKeys (updates ++ [update])).length ≤ maxSize := by
  constructor
  · intro room
    refine ⟨fun before after split => ?_, room _ [] (List.append_nil _).symm⟩
    exact room before (after ++ [update]) (by rw [split, List.append_assoc])
  · rintro ⟨room, last⟩ before after split
    rcases List.eq_nil_or_concat after with rfl | ⟨after, final, rfl⟩
    · rw [List.append_nil] at split
      rw [← split]
      exact last
    · rw [List.concat_eq_append, ← List.append_assoc] at split
      exact room before after (List.append_inj' split rfl).1

theorem insertsSince_snoc :
    insertsSince key (updates ++ [update]) = match update with
      | .insert ssn pair =>
          if ssn = key then insertsSince key updates ++ [pair] else insertsSince key updates
      | .remove ssn => if ssn = key then [] else insertsSince key updates := by
  rw [insertsSince, List.foldl_append]
  rfl

theorem storedKeys_snoc :
    storedKeys (updates ++ [update]) = match update with
      | .insert ssn _ =>
          if ssn ∈ storedKeys updates then storedKeys updates else storedKeys updates ++ [ssn]
      | .remove ssn => (storedKeys updates).erase ssn := by
  rw [storedKeys, List.foldl_append]
  rfl

/-! ## The node in C -/

/-- The node in C holds the last insert of each key. -/
structure HoldsLast (rangeStart rangeEnd : UInt8) (updates : List Update) (selfData : SelfData) :
    Prop where
  stores : Stores selfData (storedKeys updates)
  range : selfData.rangeStart = rangeStart ∧ selfData.rangeEnd = rangeEnd
  last : ∀ key, selfData.value key = (insertsSince key updates).getLast?

variable {rangeStart rangeEnd : UInt8}

theorem HoldsLast.inRange (holds : HoldsLast rangeStart rangeEnd updates selfData)
    (admissible : update.Admissible rangeStart rangeEnd) :
    checkRange selfData update.key = true := by
  rw [checkRange, holds.range.1, holds.range.2, decide_eq_true admissible.range.1,
    decide_eq_true admissible.range.2]
  rfl

theorem HoldsLast.insert {ssn : Ssn} {pair : ValuePair}
    (holds : HoldsLast rangeStart rangeEnd updates selfData)
    (admissible : (Update.insert ssn pair).Admissible rangeStart rangeEnd)
    (room : ssn ∈ storedKeys updates ∨ (storedKeys updates).length < maxSize) :
    ∃ selfData', (Update.insert ssn pair).onC selfData = some selfData' ∧
      HoldsLast rangeStart rangeEnd (updates ++ [.insert ssn pair]) selfData' := by
  have nonzero : Nonzero ssn := admissible.nonzero
  have in_range := holds.inRange admissible
  change checkRange selfData ssn = true at in_range
  obtain ⟨ht, ssns, run, stores, values⟩ :=
    handleHtInsert_spec holds.stores nonzero pair in_range room
  refine ⟨selfData.withStore ht ssns, ?_, ?_, holds.range, ?_⟩
  · simp only [Update.onC]
    rw [run]
    exact if_pos rfl
  · rw [storedKeys_snoc]
    dsimp only
    exact stores
  · intro key
    rw [values, insertsSince_snoc]
    dsimp only
    by_cases same : key = ssn
    · rw [if_pos same, if_pos same.symm, List.getLast?_concat]
    · rw [if_neg same, if_neg (Ne.symm same), holds.last]

theorem HoldsLast.insert_full {ssn : Ssn} {pair : ValuePair}
    (holds : HoldsLast rangeStart rangeEnd updates selfData)
    (admissible : (Update.insert ssn pair).Admissible rangeStart rangeEnd)
    (absent : ssn ∉ storedKeys updates) (full : ¬ (storedKeys updates).length < maxSize) :
    (Update.insert ssn pair).onC selfData = none := by
  obtain ⟨ht, table, table_holds⟩ := holds.stores
  have in_range := holds.inRange admissible
  change checkRange selfData ssn = true at in_range
  have run := handleHtInsert_absent holds.stores.mirrored table in_range
    (table_holds.resident_eq_none absent admissible.nonzero) pair
  rw [if_neg full] at run
  simp only [Update.onC]
  rw [run]
  exact if_neg (by simp)

theorem HoldsLast.remove {ssn : Ssn} (holds : HoldsLast rangeStart rangeEnd updates selfData)
    (admissible : (Update.remove ssn).Admissible rangeStart rangeEnd) :
    ∃ selfData', (Update.remove ssn).onC selfData = some selfData' ∧
      HoldsLast rangeStart rangeEnd (updates ++ [.remove ssn]) selfData' := by
  have nonzero : Nonzero ssn := admissible.nonzero
  have in_range := holds.inRange admissible
  change checkRange selfData ssn = true at in_range
  obtain ⟨ht, ssns, run, stores, values⟩ := handleHtRemove_spec holds.stores nonzero in_range
  refine ⟨selfData.withStore ht ssns, ?_, ?_, holds.range, ?_⟩
  · simp only [Update.onC]
    rw [run]
    exact if_pos rfl
  · rw [storedKeys_snoc]
    dsimp only
    exact stores
  · intro key
    rw [values, insertsSince_snoc]
    dsimp only
    by_cases same : key = ssn
    · rw [if_pos same, if_pos same.symm, List.getLast?_nil]
    · rw [if_neg same, if_neg (Ne.symm same), holds.last]

theorem runC_eq (empty : selfData.hashTable = some htCreate)
    (range : selfData.rangeStart = rangeStart ∧ selfData.rangeEnd = rangeEnd)
    (admissible : ∀ update ∈ updates, update.Admissible rangeStart rangeEnd) :
    (HasRoomThroughout updates ∧ ∃ selfData', runC selfData updates = some selfData' ∧
        HoldsLast rangeStart rangeEnd updates selfData') ∨
      ¬ HasRoomThroughout updates ∧ runC selfData updates = none := by
  induction updates using List.reverseRecOn with
  | nil =>
      left
      refine ⟨?_, selfData, rfl, ⟨htCreate, empty, holds_htCreate _⟩, range, ?_⟩
      · intro before after split
        obtain ⟨rfl, -⟩ := List.append_eq_nil_iff.mp split.symm
        exact Nat.zero_le _
      · intro key
        rw [SelfData.value, empty]
        rfl
  | append_singleton updates update ih =>
      have here := admissible update (by simp)
      have step : runC selfData (updates ++ [update]) =
          runC selfData updates >>= fun selfData => update.onC selfData := by
        rw [runC, List.foldlM_append]
        simp [runC]
      rw [hasRoomThroughout_snoc, step]
      rcases ih fun other mem => admissible other (List.mem_append_left _ mem) with
        ⟨room, selfData', run, holds⟩ | ⟨no_room, run⟩
      · rw [run]
        change (_ ∧ ∃ after, update.onC selfData' = some after ∧ _) ∨
          _ ∧ update.onC selfData' = none
        have so_far : (storedKeys updates).length ≤ maxSize := room updates [] (by simp)
        cases update with
        | insert ssn pair =>
            by_cases present : ssn ∈ storedKeys updates
            · left
              refine ⟨⟨room, ?_⟩, holds.insert here (Or.inl present)⟩
              rw [storedKeys_snoc]
              dsimp only
              rw [if_pos present]
              exact so_far
            · by_cases space : (storedKeys updates).length < maxSize
              · left
                refine ⟨⟨room, ?_⟩, holds.insert here (Or.inr space)⟩
                rw [storedKeys_snoc]
                dsimp only
                rw [if_neg present, List.length_append]
                exact space
              · right
                refine ⟨?_, holds.insert_full here present space⟩
                rintro ⟨-, fits⟩
                rw [storedKeys_snoc] at fits
                dsimp only at fits
                rw [if_neg present, List.length_append] at fits
                exact space fits
        | remove ssn =>
            left
            refine ⟨⟨room, ?_⟩, holds.remove here⟩
            rw [storedKeys_snoc]
            exact (List.length_erase_le ..).trans so_far
      · right
        rw [run]
        exact ⟨fun room => no_room room.1, rfl⟩

/-! ## The Rust node -/

def entryOf (ssn : Ssn) (pair : ValuePair) : Entry :=
  ⟨ofLatin1 ssn.toList, ofLatin1 pair.name.val, ofLatin1 pair.email.val⟩

def Node.entriesOf (node : Node) (key : Ssn) : List Entry :=
  node.values.filter fun entry => entry.ssn = ofLatin1 key.toList

/-- The Rust node holds all inserts of each key. -/
structure HoldsAll (rangeStart rangeEnd : UInt8) (updates : List Update) (node : Node) : Prop where
  range : node.hashRange = (rangeStart, rangeEnd)
  all : ∀ key, node.entriesOf key = (insertsSince key updates).map (entryOf key)

theorem HoldsAll.inRange (holds : HoldsAll rangeStart rangeEnd updates node)
    (admissible : update.Admissible rangeStart rangeEnd) :
    node.inMyRange (ofLatin1 update.key.toList) = true := by
  rw [Node.inMyRange, hashSsn_ofLatin1, holds.range, decide_eq_true admissible.range.1,
    decide_eq_true admissible.range.2]
  rfl

theorem HoldsAll.insert {ssn : Ssn} {pair : ValuePair}
    (holds : HoldsAll rangeStart rangeEnd updates node)
    (admissible : (Update.insert ssn pair).Admissible rangeStart rangeEnd) :
    ∃ node', (Update.insert ssn pair).onRust node = .ok node' ∧
      HoldsAll rangeStart rangeEnd (updates ++ [.insert ssn pair]) node' := by
  have in_range := holds.inRange admissible
  refine ⟨{ node with values := node.values ++ [entryOf ssn pair] }, if_pos in_range,
    holds.range, ?_⟩
  intro key
  have old := holds.all key
  rw [Node.entriesOf] at old
  rw [Node.entriesOf, List.filter_append, old, insertsSince_snoc]
  dsimp only
  by_cases same : ssn = key
  · subst same
    rw [if_pos rfl, List.map_append]
    simp [entryOf]
  · rw [if_neg same]
    have other : ofLatin1 ssn.toList ≠ ofLatin1 key.toList := fun eq => same (ofLatin1_inj.mp eq)
    simp [entryOf, other]

theorem HoldsAll.remove {ssn : Ssn} (holds : HoldsAll rangeStart rangeEnd updates node)
    (admissible : (Update.remove ssn).Admissible rangeStart rangeEnd) :
    ∃ node', (Update.remove ssn).onRust node = .ok node' ∧
      HoldsAll rangeStart rangeEnd (updates ++ [.remove ssn]) node' := by
  have in_range := holds.inRange admissible
  refine ⟨{ node with values := node.values.filter fun x => x.ssn ≠ ofLatin1 ssn.toList },
    if_pos in_range, holds.range, ?_⟩
  intro key
  have old := holds.all key
  rw [Node.entriesOf] at old
  rw [Node.entriesOf, insertsSince_snoc]
  dsimp only
  rw [List.filter_filter]
  by_cases same : ssn = key
  · subst same
    rw [if_pos rfl, List.map_nil, List.filter_eq_nil_iff]
    intro entry _
    simp
  · rw [if_neg same, ← old]
    apply List.filter_congr
    intro entry _
    have other : ofLatin1 key.toList ≠ ofLatin1 ssn.toList :=
      fun eq => same (ofLatin1_inj.mp eq).symm
    by_cases here : entry.ssn = ofLatin1 key.toList
    · simp [here, other]
    · simp [here]

theorem runRust_eq (empty : node.values = []) (range : node.hashRange = (rangeStart, rangeEnd))
    (admissible : ∀ update ∈ updates, update.Admissible rangeStart rangeEnd) :
    ∃ node', runRust node updates = .ok node' ∧ HoldsAll rangeStart rangeEnd updates node' := by
  induction updates using List.reverseRecOn with
  | nil =>
      refine ⟨node, rfl, range, ?_⟩
      intro key
      rw [Node.entriesOf, empty]
      rfl
  | append_singleton updates update ih =>
      have here := admissible update (by simp)
      obtain ⟨node', run, holds⟩ := ih fun other mem => admissible other (List.mem_append_left _ mem)
      have step : runRust node (updates ++ [update]) = update.onRust node' := by
        rw [runRust, List.foldlM_append]
        change (runRust node updates >>= _) = _
        rw [run]
        simp
      rw [step]
      cases update with
      | insert ssn pair => exact holds.insert here
      | remove ssn => exact holds.remove here

/-! ## What the nodes answer -/

theorem len_ofLatin1 {text : Text} (ascii : Ascii text) :
    len (ofLatin1 text.val) = text.val.length := by
  have sizes : ∀ bytes : List UInt8, (∀ byte ∈ bytes, byte < 128) →
      len (ofLatin1 bytes) = bytes.length := by
    intro bytes
    induction bytes with
    | nil => intro _; rfl
    | cons byte bytes ih =>
        intro small
        have one : (Char.ofUInt8 byte).utf8Size = 1 := by
          have below := UInt8.lt_iff_toNat_lt.mp (small byte List.mem_cons_self)
          rw [Char.utf8Size, if_pos]
          rw [UInt32.le_iff_toNat_le]
          change byte.toUInt32.toNat ≤ 127
          rw [UInt8.toNat_toUInt32]
          exact Nat.le_of_lt_succ below
        have rest := ih fun other mem => small other (List.mem_cons_of_mem _ mem)
        rw [len, ofLatin1] at rest ⊢
        rw [List.map_cons, List.map_cons, List.sum_cons, rest, one, List.length_cons,
          Nat.add_comm]
  exact sizes text.val ascii

theorem lookupResponse_bytes {ssn : Ssn} {pair : ValuePair} (name : Ascii pair.name)
    (email : Ascii pair.email) :
    (PDU.valLookupResponse (ValLookupResponsePdu.new (entryOf ssn pair).ssn (entryOf ssn pair).name
      (entryOf ssn pair).email)).toBytes = (Pdu.valLookupResponse ssn pair).bytes := by
  simp [PDU.toBytes, textPduBytes, ValLookupResponsePdu.new, entryOf,
    toLatin1_take (ssnFits_ssn ssn), len_ofLatin1 name, len_ofLatin1 email, Pdu.bytes, Pdu.type,
    textBytes]

theorem textBytes_append_inj {first second : Text} {rest rest' : List UInt8}
    (same : textBytes first ++ rest = textBytes second ++ rest') :
    first = second ∧ rest = rest' := by
  rw [textBytes, textBytes, List.cons_append, List.cons_append] at same
  obtain ⟨length, tail⟩ := List.cons.inj same
  have lengths := congrArg UInt8.toNat length
  rw [toNat_textLength, toNat_textLength] at lengths
  obtain ⟨bytes, rest_eq⟩ := List.append_inj tail lengths
  exact ⟨Subtype.ext bytes, rest_eq⟩

theorem valLookupResponse_bytes_inj {ssn : Ssn} {first second : ValuePair} :
    (Pdu.valLookupResponse ssn first).bytes = (Pdu.valLookupResponse ssn second).bytes ↔
      first = second := by
  constructor
  · intro same
    have texts := List.append_cancel_left (List.cons.inj same).2
    obtain ⟨name, email⟩ := textBytes_append_inj texts
    have email_eq := (textBytes_append_inj (congrArg (· ++ []) email)).1
    obtain ⟨name₁, email₁⟩ := first
    obtain ⟨name₂, email₂⟩ := second
    cases name
    cases email_eq
    rfl
  · rintro rfl
    rfl

theorem mem_of_mem_insertsSince {pair : ValuePair} (mem : pair ∈ insertsSince key updates) :
    .insert key pair ∈ updates := by
  induction updates using List.reverseRecOn with
  | nil => cases mem
  | append_singleton updates update ih =>
      rw [insertsSince_snoc] at mem
      cases update with
      | insert ssn pair' =>
          dsimp only at mem
          split at mem
          · rename_i same
            rcases List.mem_append.mp mem with old | new
            · exact List.mem_append_left _ (ih old)
            · rw [List.mem_singleton.mp new, same]
              simp
          · exact List.mem_append_left _ (ih mem)
      | remove ssn =>
          dsimp only at mem
          split at mem
          · cases mem
          · exact List.mem_append_left _ (ih mem)

/-- A key that is not stored gets no answer from the node in C. -/
theorem no_answer {sender receiver : Addr} {pdu : Pdu}
    (stores : Stores selfData (storedKeys updates))
    (absent : selfData.value key = none) :
    .udp receiver pdu ∉ (handleHtLookup selfData key sender).effects := by
  by_cases in_range : checkRange selfData key = true
  · rw [handleHtLookup_spec stores key sender in_range, absent]
    simp
  · rw [handleHtLookup, if_neg in_range, sendOrExit]
    cases selfData.fd .successor with
    | none => simp
    | some fd => simp

theorem agree_iff (holdsC : HoldsLast rangeStart rangeEnd updates selfData)
    (holdsRust : HoldsAll rangeStart rangeEnd updates node)
    (admissible : ∀ update ∈ updates, update.Admissible rangeStart rangeEnd) :
    Agree selfData node key ↔
      (insertsSince key updates).head? = (insertsSince key updates).getLast? := by
  have last := holdsC.last key
  have all := holdsRust.all key
  have stored : (∃ entry ∈ node.values, entry.ssn = ofLatin1 key.toList) ↔
      insertsSince key updates ≠ [] := by
    rw [← not_iff_not, not_not, ← List.map_eq_nil_iff (f := entryOf key), ← all, Node.entriesOf,
      List.filter_eq_nil_iff]
    simp
  cases inserts : insertsSince key updates with
  | nil =>
      rw [inserts, List.getLast?_nil] at last
      refine iff_of_true ⟨?_, ?_⟩ rfl
      · rw [stored, inserts, last]
        simp
      · intro sender pdu mem
        exact absurd mem (no_answer holdsC.stores last)
  | cons first rest =>
      rw [inserts] at last all
      have mem_first : .insert key first ∈ updates :=
        mem_of_mem_insertsSince (by rw [inserts]; exact List.mem_cons_self)
      have here := admissible _ mem_first
      have in_range := holdsC.inRange here
      change checkRange selfData key = true at in_range
      have in_range' := holdsRust.inRange here
      change node.inMyRange (ofLatin1 key.toList) = true at in_range'
      obtain ⟨name, email⟩ := here.ascii key first rfl
      have found : node.lookupResponse (ofLatin1 key.toList) =
          ValLookupResponsePdu.new (entryOf key first).ssn (entryOf key first).name
            (entryOf key first).email := by
        have listed : node.values.find? (fun entry => entry.ssn = ofLatin1 key.toList) =
            some (entryOf key first) := by
          rw [← List.head?_filter]
          change (node.entriesOf key).head? = _
          rw [all]
          rfl
        rw [Node.lookupResponse, listed]
      have answer : ∀ sender : Addr,
          node.handleValLookup
              (ValLookupPdu.new (ofLatin1 key.toList) sender.address sender.port) =
            .ok (node.emit [.udp (.valLookupResponse
              (node.lookupResponse (ofLatin1 key.toList))) sender]) :=
        fun sender => if_pos in_range'
      obtain ⟨final, final_eq⟩ : ∃ final, (first :: rest).getLast? = some final :=
        ⟨_, List.getLast?_eq_some_getLast (List.cons_ne_nil _ _)⟩
      rw [final_eq] at last
      have answerC := fun sender => handleHtLookup_spec holdsC.stores key sender in_range
      simp only [last] at answerC
      rw [List.head?_cons, final_eq, Option.some_inj, ← valLookupResponse_bytes_inj]
      constructor
      · rintro ⟨-, answers⟩
        obtain ⟨response, bytes, run⟩ := answers ⟨0, 0⟩ (.valLookupResponse key final) (by
          rw [answerC]
          exact List.mem_singleton_self _)
        rw [answer] at run
        have effects := congrArg Node.effects (Except.ok.inj run)
        have same := List.append_cancel_left effects
        cases same
        rw [← bytes, found]
        exact (lookupResponse_bytes name email).symm
      · intro same
        refine ⟨?_, ?_⟩
        · rw [stored, inserts, last]
          simp
        · intro sender pdu mem
          rw [answerC] at mem
          cases List.mem_singleton.mp mem
          refine ⟨_, ?_, answer sender⟩
          rw [found, lookupResponse_bytes name email, same]

theorem AgreeAfter.conditions (emptyC : selfData.hashTable = some htCreate)
    (emptyRust : node.values = [])
    (range : node.hashRange = (selfData.rangeStart, selfData.rangeEnd))
    (admissible : ∀ update ∈ updates, update.Admissible selfData.rangeStart selfData.rangeEnd)
    (agrees : AgreeAfter selfData node updates) :
    HasRoomThroughout updates ∧
      ∀ key, (insertsSince key updates).head? = (insertsSince key updates).getLast? := by
  obtain ⟨selfData', node', runC_some, runRust_ok, agree⟩ := agrees
  obtain ⟨node₁, run_node₁, holdsRust⟩ := runRust_eq emptyRust range admissible
  cases runRust_ok.symm.trans run_node₁
  rcases runC_eq emptyC ⟨rfl, rfl⟩ admissible with ⟨room, selfData₁, run_selfData₁, holdsC⟩ |
    ⟨-, runC_none⟩
  · cases runC_some.symm.trans run_selfData₁
    exact ⟨room, fun key => (agree_iff holdsC holdsRust admissible).mp (agree key)⟩
  · rw [runC_none] at runC_some
    cases runC_some

/-- The nodes agree after updates that always find room, if the first and the last insert of
each key since its last remove are the same, and only then. -/
theorem agreeAfter_iff (emptyC : selfData.hashTable = some htCreate) (emptyRust : node.values = [])
    (range : node.hashRange = (selfData.rangeStart, selfData.rangeEnd))
    (admissible : ∀ update ∈ updates,
      update.Admissible selfData.rangeStart selfData.rangeEnd) :
    AgreeAfter selfData node updates ↔ HasRoomThroughout updates ∧
      ∀ key, (insertsSince key updates).head? = (insertsSince key updates).getLast? := by
  refine ⟨AgreeAfter.conditions emptyC emptyRust range admissible, ?_⟩
  rintro ⟨room, same⟩
  obtain ⟨node', run_node', holdsRust⟩ := runRust_eq emptyRust range admissible
  rcases runC_eq emptyC ⟨rfl, rfl⟩ admissible with ⟨-, selfData', run_selfData', holdsC⟩ |
    ⟨no_room, -⟩
  · exact ⟨selfData', node', run_selfData', run_node',
      fun key => (agree_iff holdsC holdsRust admissible).mpr (same key)⟩
  · exact absurd room no_room

end

/-! ## An entry is replaced -/

def loneRustNode : Node := (Node.new ⟨0, 7777⟩ 5001 5002).q4

def namedEntry (initial : UInt8) : Update :=
  .insert (Vector.replicate 12 49) ⟨⟨[initial], by simp⟩, noText⟩

theorem namedEntry_admissible {initial : UInt8} (ascii : initial < 128) :
    (namedEntry initial).Admissible 0 255 where
  nonzero := by
    change Nonzero (Vector.replicate 12 49)
    decide +kernel
  range := ⟨UInt8.zero_le, UInt8.le_iff_toNat_le.mpr (Nat.le_of_lt_succ (UInt8.toNat_lt _))⟩
  ascii := by
    intro ssn pair same
    cases same
    refine ⟨?_, ?_⟩
    · intro byte mem
      cases List.mem_singleton.mp mem
      exact ascii
    · intro byte mem
      cases mem

/-- Two keys, of which one is removed and then inserted with another name. -/
def renames : List Update :=
  [namedEntry 65, .insert (Vector.replicate 12 50) ⟨noText, noText⟩,
    .remove (Vector.replicate 12 49), namedEntry 66]

theorem renames_admissible : ∀ update ∈ renames, update.Admissible 0 255 := by
  have range (key : Ssn) : (0 : UInt8) ≤ DhtRing.hashSsn key ∧ DhtRing.hashSsn key ≤ 255 :=
    ⟨UInt8.zero_le, UInt8.le_iff_toNat_le.mpr (Nat.le_of_lt_succ (UInt8.toNat_lt _))⟩
  intro update mem
  simp only [renames, List.mem_cons, List.not_mem_nil, or_false] at mem
  rcases mem with rfl | rfl | rfl | rfl
  · exact namedEntry_admissible (by decide)
  · refine ⟨?_, range _, ?_⟩
    · change Nonzero (Vector.replicate 12 50)
      decide +kernel
    · rintro ssn pair ⟨⟩
      exact ⟨List.forall_mem_nil _, List.forall_mem_nil _⟩
  · refine ⟨?_, range _, ?_⟩
    · change Nonzero (Vector.replicate 12 49)
      decide +kernel
    · rintro ssn pair ⟨⟩
  · exact namedEntry_admissible (by decide)

theorem agreeAfter_iff_loneNode : AgreeAfter loneNode loneRustNode renames := by
  refine (agreeAfter_iff rfl rfl rfl renames_admissible).mpr ⟨?_, fun key => ?_⟩
  · intro before after split
    have all : ∀ before ∈ renames.inits, (storedKeys before).length ≤ maxSize := by decide +kernel
    exact all before ((List.mem_inits ..).mpr ⟨after, split.symm⟩)
  · by_cases first : Vector.replicate 12 49 = key
    · subst first
      decide +kernel
    · by_cases second : Vector.replicate 12 50 = key
      · subst second
        decide +kernel
      · simp [insertsSince, renames, namedEntry, first, second]

/-- The same key with another name: the node in C answers the second, the Rust node the
first. -/
theorem nodes_disagree : ¬ ∀ (selfData : SelfData) (node : Node) (updates : List Update),
    selfData.hashTable = some htCreate → node.values = [] →
      node.hashRange = (selfData.rangeStart, selfData.rangeEnd) →
        (∀ update ∈ updates, update.Admissible selfData.rangeStart selfData.rangeEnd) →
          AgreeAfter selfData node updates := by
  intro claim
  have admissible : ∀ update ∈ [namedEntry 65, namedEntry 66], update.Admissible 0 255 := by
    intro update mem
    rcases List.mem_pair.mp mem with rfl | rfl
    · exact namedEntry_admissible (by decide)
    · exact namedEntry_admissible (by decide)
  have agrees := claim loneNode loneRustNode [namedEntry 65, namedEntry 66] rfl rfl rfl admissible
  have same := (AgreeAfter.conditions rfl rfl rfl admissible agrees).2 (Vector.replicate 12 49)
  exact absurd same (by decide)

end DhtRing.TestNode

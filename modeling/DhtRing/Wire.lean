import Mathlib.Data.List.OfFn
import DhtRing.Pdu

/-!
# PDUs as bytes

The structs of `resources/pdu.h` as they lie in memory, and the loop of
`poll_for_incoming_data` over the bytes that one `recv` has put into its buffer.  Of
the buffer, `buffer i` is the byte at index `i`, received or not.
-/

set_option autoImplicit false

namespace DhtRing

/-! ## Encoding -/

/-- A `uint16_t` in memory, lowest byte first. -/
def word16 (word : UInt16) : List UInt8 :=
  [UInt8.ofNat word.toNat, UInt8.ofNat (word.toNat / 256)]

def word32 (word : UInt32) : List UInt8 :=
  [UInt8.ofNat word.toNat, UInt8.ofNat (word.toNat / 256), UInt8.ofNat (word.toNat / 65536),
    UInt8.ofNat (word.toNat / 16777216)]

def Addr.bytes (addr : Addr) : List UInt8 := word32 addr.address ++ word16 addr.port

def textBytes (text : Text) : List UInt8 := UInt8.ofNat text.val.length :: text.val

def Pdu.bytes (pdu : Pdu) : List UInt8 :=
  pdu.type ::
    match pdu with
    | .netJoin src maxSpan max => src.bytes ++ maxSpan :: max.bytes
    | .netJoinResponse next rangeStart rangeEnd => next.bytes ++ [rangeStart, rangeEnd]
    | .netCloseConnection => []
    | .netNewRange rangeStart rangeEnd => [rangeStart, rangeEnd]
    | .netLeaving new => new.bytes
    | .netNewRangeResponse => []
    | .valInsert ssn pair => ssn.toList ++ (textBytes pair.name ++ textBytes pair.email)
    | .valRemove ssn => ssn.toList
    | .valLookup ssn sender => ssn.toList ++ sender.bytes
    | .valLookupResponse ssn pair => ssn.toList ++ (textBytes pair.name ++ textBytes pair.email)

def Pdu.size : Pdu → ℕ
  | .netJoin _ _ _ => 14
  | .netJoinResponse _ _ _ => 9
  | .netCloseConnection => 1
  | .netNewRange _ _ => 3
  | .netLeaving _ => 7
  | .netNewRangeResponse => 1
  | .valInsert _ pair => 15 + pair.name.val.length + pair.email.val.length
  | .valRemove _ => 13
  | .valLookup _ _ => 19
  | .valLookupResponse _ pair => 15 + pair.name.val.length + pair.email.val.length

theorem Pdu.length_bytes (pdu : Pdu) : pdu.bytes.length = pdu.size := by
  cases pdu <;>
    simp [Pdu.bytes, Pdu.size, Addr.bytes, word16, word32, textBytes, ssnLength] <;> omega

def encodeAll (pdus : List Pdu) : List UInt8 := pdus.flatMap Pdu.bytes

def Pdu.accepted : Pdu → Bool
  | .netJoinResponse _ _ _ | .netNewRangeResponse | .valLookupResponse _ _ => false
  | _ => true

/-! ## Reading -/

def bytesAt (buffer : ℕ → UInt8) (start count : ℕ) : List UInt8 :=
  (List.range count).map fun j => buffer (start + j)

def readWord16 (buffer : ℕ → UInt8) (start : ℕ) : UInt16 :=
  UInt16.ofNat ((buffer start).toNat + 256 * (buffer (start + 1)).toNat)

def readWord32 (buffer : ℕ → UInt8) (start : ℕ) : UInt32 :=
  UInt32.ofNat ((buffer start).toNat + 256 * (buffer (start + 1)).toNat +
    65536 * (buffer (start + 2)).toNat + 16777216 * (buffer (start + 3)).toNat)

def readAddr (buffer : ℕ → UInt8) (start : ℕ) : Addr :=
  ⟨readWord32 buffer start, readWord16 buffer (start + 4)⟩

def readSsn (buffer : ℕ → UInt8) (start : ℕ) : Ssn := Vector.ofFn fun j => buffer (start + j)

def readText (buffer : ℕ → UInt8) (start : ℕ) (length : UInt8) : Text :=
  ⟨bytesAt buffer start length.toNat, by
    rw [bytesAt, List.length_map, List.length_range]
    exact Nat.le_of_lt_succ length.toNat_lt⟩

/-- `handle_val_insert` up to the call of `handle_ht_insert`: the entry and the size of
the PDU; no answer for -1.  The email length may be read behind the last byte received. -/
def handleValInsert (buffer : ℕ → UInt8) (bytesReceived : ℕ) : Option (Ssn × ValuePair × ℕ) :=
  if bytesReceived < 1 + ssnLength + 1 then none
  else
    let nameLength := buffer 13
    if bytesReceived < 14 + nameLength.toNat then none
    else
      let emailLength := buffer (14 + nameLength.toNat)
      if bytesReceived < 15 + nameLength.toNat + emailLength.toNat then none
      else some (readSsn buffer 1,
        ⟨readText buffer 14 nameLength, readText buffer (15 + nameLength.toNat) emailLength⟩,
        15 + nameLength.toNat + emailLength.toNat)

/-- The `switch` of the loop at `offset`: the PDU for the handler and its size.  Only a
`VAL_INSERT` is compared with the number of bytes received. -/
def nextPdu (buffer : ℕ → UInt8) (bytesReceived offset : ℕ) : Option (Pdu × ℕ) :=
  match buffer offset with
  | 100 =>
      (handleValInsert (fun i => buffer (offset + i)) (bytesReceived - offset)).map
        fun entry => (.valInsert entry.1 entry.2.1, entry.2.2)
  | 102 => some (.valLookup (readSsn buffer (offset + 1)) (readAddr buffer (offset + 13)), 19)
  | 101 => some (.valRemove (readSsn buffer (offset + 1)), 13)
  | 3 =>
      some (.netJoin (readAddr buffer (offset + 1)) (buffer (offset + 7))
        (readAddr buffer (offset + 8)), 14)
  | 6 => some (.netNewRange (buffer (offset + 1)) (buffer (offset + 2)), 3)
  | 7 => some (.netLeaving (readAddr buffer (offset + 1)), 7)
  | 5 => some (.netCloseConnection, 1)
  | _ => none

/-- The loop from `offset` on: the PDUs that reach a handler.  After a -1 or an unknown
type `offset` is the largest `size_t`, and the loop ends. -/
def pollLoop (buffer : ℕ → UInt8) (bytesReceived : ℕ) : ℕ → ℕ → List Pdu
  | 0, _ => []
  | fuel + 1, offset =>
      if offset < bytesReceived then
        match nextPdu buffer bytesReceived offset with
        | none => []
        | some (pdu, size) => pdu :: pollLoop buffer bytesReceived fuel (offset + size)
      else []

/-- The PDUs that one `recv` brings to the handlers. -/
def pollBuffer (buffer : ℕ → UInt8) (bytesReceived : ℕ) : List Pdu :=
  pollLoop buffer bytesReceived bytesReceived 0

/-! ## What is read back -/

section

variable {buffer buffer' : ℕ → UInt8} {start count : ℕ}

@[simp] theorem length_bytesAt : (bytesAt buffer start count).length = count := by
  rw [bytesAt, List.length_map, List.length_range]

theorem getElem_bytesAt {j : ℕ} (inside : j < (bytesAt buffer start count).length) :
    (bytesAt buffer start count)[j] = buffer (start + j) := by
  simp [bytesAt]

theorem bytesAt_add (first second : ℕ) :
    bytesAt buffer start (first + second) =
      bytesAt buffer start first ++ bytesAt buffer (start + first) second := by
  simp [bytesAt, List.range_add, Function.comp_def, Nat.add_assoc]

theorem bytesAt_succ (count : ℕ) :
    bytesAt buffer start (count + 1) = buffer start :: bytesAt buffer (start + 1) count := by
  rw [Nat.add_comm, bytesAt_add]
  rfl

theorem bytesAt_congr (same : ∀ j < count, buffer (start + j) = buffer' (start + j)) :
    bytesAt buffer start count = bytesAt buffer' start count := by
  refine List.map_congr_left fun j mem => same j ?_
  exact List.mem_range.mp mem

theorem eq_of_bytesAt (same : bytesAt buffer start count = bytesAt buffer' start count) {j : ℕ}
    (inside : j < count) : buffer (start + j) = buffer' (start + j) := by
  have here := congrArg (fun bytes => bytes[j]?) same
  simpa [bytesAt, inside] using here

theorem bytesAt_eq_append {first second : List UInt8} {m n : ℕ} (length : first.length = m)
    (found : bytesAt buffer start (m + n) = first ++ second) :
    bytesAt buffer start m = first ∧ bytesAt buffer (start + m) n = second := by
  rw [bytesAt_add] at found
  exact List.append_inj found (length_bytesAt.trans length.symm)

theorem bytesAt_eq_cons {byte : UInt8} {rest : List UInt8}
    (found : bytesAt buffer start (count + 1) = byte :: rest) :
    buffer start = byte ∧ bytesAt buffer (start + 1) count = rest := by
  rw [bytesAt_succ] at found
  exact List.cons.inj found

theorem word16_readWord16 : word16 (readWord16 buffer start) = bytesAt buffer start 2 := by
  have low := (buffer start).toNat_lt
  have high := (buffer (start + 1)).toNat_lt
  have value : (readWord16 buffer start).toNat =
      (buffer start).toNat + 256 * (buffer (start + 1)).toNat := by
    rw [readWord16, UInt16.toNat_ofNat']
    omega
  simp only [word16, value, bytesAt_succ, Nat.add_assoc, Nat.reduceAdd]
  refine List.cons_eq_cons.mpr ⟨?_, List.cons_eq_cons.mpr ⟨?_, rfl⟩⟩
  · rw [← UInt8.toNat_inj, UInt8.toNat_ofNat']
    omega
  · rw [← UInt8.toNat_inj, UInt8.toNat_ofNat']
    omega

theorem readWord16_of_bytesAt {word : UInt16} (found : bytesAt buffer start 2 = word16 word) :
    readWord16 buffer start = word := by
  obtain ⟨low, found⟩ := bytesAt_eq_cons found
  obtain ⟨high, -⟩ := bytesAt_eq_cons found
  have := word.toNat_lt
  rw [readWord16, low, high, ← UInt16.toNat_inj, UInt16.toNat_ofNat', UInt8.toNat_ofNat',
    UInt8.toNat_ofNat']
  omega

theorem word32_readWord32 : word32 (readWord32 buffer start) = bytesAt buffer start 4 := by
  have first := (buffer start).toNat_lt
  have second := (buffer (start + 1)).toNat_lt
  have third := (buffer (start + 2)).toNat_lt
  have fourth := (buffer (start + 3)).toNat_lt
  have value : (readWord32 buffer start).toNat =
      (buffer start).toNat + 256 * (buffer (start + 1)).toNat +
        65536 * (buffer (start + 2)).toNat + 16777216 * (buffer (start + 3)).toNat := by
    rw [readWord32, UInt32.toNat_ofNat']
    omega
  simp only [word32, value, bytesAt_succ, Nat.add_assoc, Nat.reduceAdd]
  refine List.cons_eq_cons.mpr ⟨?_, List.cons_eq_cons.mpr ⟨?_, List.cons_eq_cons.mpr ⟨?_,
    List.cons_eq_cons.mpr ⟨?_, rfl⟩⟩⟩⟩
  all_goals
    rw [← UInt8.toNat_inj, UInt8.toNat_ofNat']
    omega

theorem readWord32_of_bytesAt {word : UInt32} (found : bytesAt buffer start 4 = word32 word) :
    readWord32 buffer start = word := by
  obtain ⟨first, found⟩ := bytesAt_eq_cons found
  obtain ⟨second, found⟩ := bytesAt_eq_cons found
  obtain ⟨third, found⟩ := bytesAt_eq_cons found
  obtain ⟨fourth, -⟩ := bytesAt_eq_cons found
  have := word.toNat_lt
  rw [readWord32, first, second, third, fourth, ← UInt32.toNat_inj, UInt32.toNat_ofNat',
    UInt8.toNat_ofNat', UInt8.toNat_ofNat', UInt8.toNat_ofNat', UInt8.toNat_ofNat']
  omega

theorem bytes_readAddr : (readAddr buffer start).bytes = bytesAt buffer start 6 := by
  rw [Addr.bytes, readAddr, word32_readWord32, word16_readWord16]
  exact (bytesAt_add 4 2).symm

theorem readAddr_of_bytesAt {addr : Addr} (found : bytesAt buffer start 6 = addr.bytes) :
    readAddr buffer start = addr := by
  obtain ⟨address, port⟩ := bytesAt_eq_append (m := 4) (n := 2) rfl found
  rw [readAddr, readWord32_of_bytesAt address, readWord16_of_bytesAt port]

theorem toList_readSsn : (readSsn buffer start).toList = bytesAt buffer start 12 := by
  rw [readSsn, Vector.toList_ofFn]
  rfl

theorem readSsn_of_bytesAt {ssn : Ssn} (found : bytesAt buffer start 12 = ssn.toList) :
    readSsn buffer start = ssn := by
  rw [← Vector.toList_inj, toList_readSsn, found]

theorem textBytes_readText {length : UInt8} (byte : buffer start = length) :
    textBytes (readText buffer (start + 1) length) = bytesAt buffer start (length.toNat + 1) := by
  rw [bytesAt_succ, byte, textBytes, readText]
  simp

theorem readText_of_bytesAt {text : Text}
    (found : bytesAt buffer start (text.val.length + 1) = textBytes text) :
    (buffer start).toNat = text.val.length ∧
      readText buffer (start + 1) (buffer start) = text := by
  obtain ⟨byte, rest⟩ := bytesAt_eq_cons found
  have length : (buffer start).toNat = text.val.length := by
    rw [byte, UInt8.toNat_ofNat']
    exact Nat.mod_eq_of_lt (Nat.lt_succ_of_le text.property)
  refine ⟨length, Subtype.ext ?_⟩
  change bytesAt buffer (start + 1) (buffer start).toNat = text.val
  rw [length, rest]

theorem bytesAt_shift (offset : ℕ) :
    bytesAt (fun i => buffer (offset + i)) start count = bytesAt buffer (offset + start) count := by
  simp [bytesAt, Nat.add_assoc]

/-! ## One PDU -/

variable {bytesReceived offset size : ℕ} {pdu : Pdu}

/-- `handle_val_insert` hands on an entry whose bytes have all been received. -/
theorem handleValInsert_eq_some {ssn : Ssn} {pair : ValuePair}
    (handled : handleValInsert buffer bytesReceived = some (ssn, pair, size)) :
    size ≤ bytesReceived ∧ 15 ≤ size ∧ bytesAt buffer 1 (size - 1) =
      ssn.toList ++ (textBytes pair.name ++ textBytes pair.email) := by
  simp only [handleValInsert] at handled
  split at handled
  · cases handled
  · split at handled
    · cases handled
    · split at handled
      · cases handled
      · rename_i enough
        cases handled
        refine ⟨by omega, by omega, ?_⟩
        have name := textBytes_readText (rfl : buffer 13 = buffer 13)
        have email := textBytes_readText
          (rfl : buffer (14 + (buffer 13).toNat) = buffer (14 + (buffer 13).toNat))
        rw [show 14 + (buffer 13).toNat + 1 = 15 + (buffer 13).toNat by omega] at email
        rw [toList_readSsn, name, email, show 15 + (buffer 13).toNat +
          (buffer (14 + (buffer 13).toNat)).toNat - 1 = 12 + (((buffer 13).toNat + 1) +
            ((buffer (14 + (buffer 13).toNat)).toNat + 1)) by omega, bytesAt_add, bytesAt_add]
        rw [show 1 + 12 + ((buffer 13).toNat + 1) = 14 + (buffer 13).toNat by omega]

/-- It hands on every entry whose bytes it finds and that have all been received. -/
theorem handleValInsert_of_bytesAt {ssn : Ssn} {pair : ValuePair}
    (found : bytesAt buffer 1 (12 + ((pair.name.val.length + 1) + (pair.email.val.length + 1))) =
      ssn.toList ++ (textBytes pair.name ++ textBytes pair.email))
    (enough : 15 + pair.name.val.length + pair.email.val.length ≤ bytesReceived) :
    handleValInsert buffer bytesReceived =
      some (ssn, pair, 15 + pair.name.val.length + pair.email.val.length) := by
  obtain ⟨key, texts⟩ := bytesAt_eq_append (Vector.length_toList) found
  obtain ⟨name, email⟩ := bytesAt_eq_append (by rw [textBytes, List.length_cons]) texts
  obtain ⟨name_length, name⟩ := readText_of_bytesAt name
  obtain ⟨email_length, email⟩ := readText_of_bytesAt email
  simp only [Nat.reduceAdd] at name_length name email_length email
  have place : 13 + (pair.name.val.length + 1) = 14 + pair.name.val.length := by omega
  rw [place] at email_length email
  rw [show 14 + pair.name.val.length + 1 = 15 + pair.name.val.length by omega] at email
  simp only [handleValInsert, name_length, email_length]
  rw [if_neg (by rw [ssnLength]; omega), if_neg (by omega), if_neg (by omega),
    readSsn_of_bytesAt key, name, email]

/-- What the `switch` hands to a handler lies in the buffer, and a `VAL_INSERT` has been
received as a whole. -/
theorem nextPdu_eq_some (inside : offset < bytesReceived)
    (next : nextPdu buffer bytesReceived offset = some (pdu, size)) :
    pdu.accepted = true ∧ 0 < size ∧ bytesAt buffer offset size = pdu.bytes ∧
      (buffer offset = 100 → offset + size ≤ bytesReceived) := by
  unfold nextPdu at next
  split at next
  · rename_i type
    obtain ⟨⟨ssn, pair, size'⟩, handled, eq⟩ := Option.map_eq_some_iff.mp next
    obtain ⟨rfl, rfl⟩ := Prod.mk.inj eq
    dsimp only
    obtain ⟨le, large, bytes⟩ := handleValInsert_eq_some handled
    refine ⟨rfl, by omega, ?_, fun _ => by omega⟩
    rw [bytesAt_shift] at bytes
    rw [show size' = size' - 1 + 1 by omega, bytesAt_succ, type, bytes]
    rfl
  · rename_i type
    cases next
    refine ⟨rfl, by decide, ?_, fun insert => absurd (type.symm.trans insert) (by decide)⟩
    change _ = 102 :: ((readSsn buffer (offset + 1)).toList ++ (readAddr buffer (offset + 13)).bytes)
    rw [toList_readSsn, bytes_readAddr, ← type]
    exact (bytesAt_succ 18).trans (congrArg _ (bytesAt_add 12 6))
  · rename_i type
    cases next
    refine ⟨rfl, by decide, ?_, fun insert => absurd (type.symm.trans insert) (by decide)⟩
    change _ = 101 :: (readSsn buffer (offset + 1)).toList
    rw [toList_readSsn, ← type]
    exact bytesAt_succ 12
  · rename_i type
    cases next
    refine ⟨rfl, by decide, ?_, fun insert => absurd (type.symm.trans insert) (by decide)⟩
    change _ = 3 :: ((readAddr buffer (offset + 1)).bytes ++
      buffer (offset + 7) :: (readAddr buffer (offset + 8)).bytes)
    rw [bytes_readAddr, bytes_readAddr, ← type]
    exact (bytesAt_succ 13).trans (congrArg _ ((bytesAt_add 6 7).trans
      (congrArg _ (bytesAt_succ 6))))
  · rename_i type
    cases next
    refine ⟨rfl, by decide, ?_, fun insert => absurd (type.symm.trans insert) (by decide)⟩
    change _ = 6 :: [buffer (offset + 1), buffer (offset + 2)]
    rw [← type]
    rfl
  · rename_i type
    cases next
    refine ⟨rfl, by decide, ?_, fun insert => absurd (type.symm.trans insert) (by decide)⟩
    change _ = 7 :: (readAddr buffer (offset + 1)).bytes
    rw [bytes_readAddr, ← type]
    exact bytesAt_succ 6
  · rename_i type
    cases next
    refine ⟨rfl, by decide, ?_, fun insert => absurd (type.symm.trans insert) (by decide)⟩
    change _ = [5]
    rw [← type]
    rfl
  · cases next

theorem nextPdu_of_bytesAt (accepted : pdu.accepted = true)
    (found : bytesAt buffer offset pdu.size = pdu.bytes)
    (enough : offset + pdu.size ≤ bytesReceived) :
    nextPdu buffer bytesReceived offset = some (pdu, pdu.size) := by
  cases pdu with
  | valInsert ssn pair =>
      have whole : bytesAt buffer offset (12 + ((pair.name.val.length + 1) +
          (pair.email.val.length + 1)) + 1) =
          100 :: (ssn.toList ++ (textBytes pair.name ++ textBytes pair.email)) := by
        refine Eq.trans ?_ found
        rw [Pdu.size]
        congr 1
        omega
      obtain ⟨type, rest⟩ := bytesAt_eq_cons whole
      rw [← bytesAt_shift] at rest
      have long : 15 + pair.name.val.length + pair.email.val.length ≤ bytesReceived - offset := by
        rw [Pdu.size] at enough
        omega
      simp only [nextPdu, type, handleValInsert_of_bytesAt rest long]
      rfl
  | valLookup ssn sender =>
      obtain ⟨type, rest⟩ : buffer offset = 102 ∧
          bytesAt buffer (offset + 1) 18 = ssn.toList ++ sender.bytes := bytesAt_eq_cons found
      obtain ⟨key, addr⟩ := bytesAt_eq_append (m := 12) (n := 6) Vector.length_toList rest
      simp only [nextPdu, type, readSsn_of_bytesAt key, readAddr_of_bytesAt addr]
      rfl
  | valRemove ssn =>
      obtain ⟨type, key⟩ : buffer offset = 101 ∧ bytesAt buffer (offset + 1) 12 = ssn.toList :=
        bytesAt_eq_cons found
      simp only [nextPdu, type, readSsn_of_bytesAt key]
      rfl
  | netJoin src maxSpan max =>
      obtain ⟨type, rest⟩ : buffer offset = 3 ∧
          bytesAt buffer (offset + 1) 13 = src.bytes ++ maxSpan :: max.bytes :=
        bytesAt_eq_cons found
      obtain ⟨src', rest⟩ := bytesAt_eq_append (m := 6) (n := 7) rfl rest
      obtain ⟨span, max'⟩ := bytesAt_eq_cons rest
      have max'' := readAddr_of_bytesAt max'
      simp only [Nat.add_assoc, Nat.reduceAdd] at span max''
      simp only [nextPdu, type, readAddr_of_bytesAt src', span, max'']
      rfl
  | netNewRange rangeStart rangeEnd =>
      obtain ⟨type, rest⟩ : buffer offset = 6 ∧
          bytesAt buffer (offset + 1) 2 = [rangeStart, rangeEnd] := bytesAt_eq_cons found
      obtain ⟨first, rest⟩ := bytesAt_eq_cons rest
      obtain ⟨second, -⟩ := bytesAt_eq_cons rest
      simp only [Nat.add_assoc, Nat.reduceAdd] at second
      simp only [nextPdu, type, first, second]
      rfl
  | netLeaving new =>
      obtain ⟨type, addr⟩ : buffer offset = 7 ∧ bytesAt buffer (offset + 1) 6 = new.bytes :=
        bytesAt_eq_cons found
      simp only [nextPdu, type, readAddr_of_bytesAt addr]
      rfl
  | netCloseConnection =>
      obtain ⟨type, -⟩ : buffer offset = 5 ∧ bytesAt buffer (offset + 1) 0 = [] :=
        bytesAt_eq_cons found
      simp only [nextPdu, type]
      rfl
  | netJoinResponse _ _ _ => cases accepted
  | netNewRangeResponse => cases accepted
  | valLookupResponse _ _ => cases accepted

/-- A PDU of fixed size is handed on whatever its bytes are. -/
theorem nextPdu_congr (same : buffer' offset = buffer offset) (fixed : buffer offset ≠ 100)
    (next : nextPdu buffer bytesReceived offset = some (pdu, size)) :
    ∃ pdu', nextPdu buffer' bytesReceived offset = some (pdu', size) := by
  unfold nextPdu at next ⊢
  rw [same]
  split at next
  · rename_i type
    exact absurd type fixed
  · cases next
    exact ⟨_, rfl⟩
  · cases next
    exact ⟨_, rfl⟩
  · cases next
    exact ⟨_, rfl⟩
  · cases next
    exact ⟨_, rfl⟩
  · cases next
    exact ⟨_, rfl⟩
  · cases next
    exact ⟨_, rfl⟩
  · cases next

end

end DhtRing

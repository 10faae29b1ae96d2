import DhtRing.TestNode.SameValues

/-!
# Who owns a key

The two nodes compute the hash of a key from the same 12 bytes: the node in C from its
chars, whether they have a sign or not, the Rust node from the chars of a `String`.  In a
ring of both every key has one owner, and a request that goes round finds it.
-/

set_option autoImplicit false

namespace DhtRing.TestNode

/-! ## The hash with and without sign -/

/-- Whether `char` has a sign, which is up to the implementation. -/
inductive CharSign where
  | signed
  | unsigned

def CharSign.widen : CharSign → UInt8 → UInt32
  | .signed, char => DhtRing.widen char
  | .unsigned, char => char.toUInt32

namespace CharSign

variable (sign : CharSign)

def digest (ssn : List UInt8) : UInt32 :=
  ssn.foldl (fun hash char => ((hash <<< 5) + hash) + sign.widen char) 5381

def hashSsn (ssn : Ssn) : UInt8 := (sign.digest ssn.toList % 256).toUInt8

def checkRange (selfData : SelfData) (ssn : Ssn) : Bool :=
  decide (selfData.rangeStart ≤ sign.hashSsn ssn) && decide (sign.hashSsn ssn ≤ selfData.rangeEnd)

theorem toUInt8_widen (char : UInt8) : (sign.widen char).toUInt8 = char := by
  cases sign with
  | signed => exact (TestNode.toUInt8_widen char).trans (toUInt8_ofUInt8 char)
  | unsigned =>
      rw [widen, ← UInt8.toNat_inj, UInt32.toNat_toUInt8, UInt8.toNat_toUInt32]
      exact Nat.mod_eq_of_lt char.toNat_lt

/-- The last byte of the hash does not see the sign. -/
theorem hashSsn_eq (ssn : Ssn) : sign.hashSsn ssn = DhtRing.hashSsn ssn := by
  rw [hashSsn, DhtRing.hashSsn, toUInt8_mod_256, toUInt8_mod_256]
  have chars : ∀ byte, (sign.widen byte).toUInt8 = (DhtRing.widen byte).toUInt8 := fun byte =>
    (sign.toUInt8_widen byte).trans (signed.toUInt8_widen byte).symm
  exact toUInt8_foldl chars ssn.toList rfl

theorem checkRange_eq (selfData : SelfData) (ssn : Ssn) :
    sign.checkRange selfData ssn = DhtRing.checkRange selfData ssn := by
  rw [checkRange, DhtRing.checkRange, hashSsn_eq]

end CharSign

/-! ## The key of a request -/

def PDU.requestKey : PDU → Option RString
  | .valInsert pdu => some pdu.ssn
  | .valRemove pdu => some pdu.ssn
  | .valLookup pdu => some pdu.ssn
  | _ => none

theorem requestKey_of_parsed {code : UInt8} (request : code ∈ ([100, 101, 102] : List UInt8))
    (ssn : Ssn) (rest : List UInt8) {pdu : PDU} {used : ℕ}
    (parsed : parsePdu (code :: (ssn.toList ++ rest)) = .ok (some (pdu, used))) :
    pdu.requestKey = some (ofLatin1 ssn.toList) := by
  obtain ⟨⟨-, fits⟩, -, behind, front⟩ := parsePdu_sound _ pdu used parsed
  rw [PDU.wire, List.cons_append] at front
  obtain ⟨rfl, tail⟩ := List.cons.inj front
  have key : ∀ {key : RString} (more : List UInt8), SsnFits key →
      ssn.toList ++ rest = toLatin1 (key.take ssnLength) ++ more →
        some key = some (ofLatin1 ssn.toList) := by
    intro key more key_fits eq
    have bytes := (List.append_inj eq
      (Vector.length_toList.trans (length_toLatin1_take key_fits).symm)).1
    rw [bytes, toLatin1_take key_fits, ofLatin1_toLatin1 key_fits.2]
  cases pdu with
  | valInsert pdu =>
      rw [PDU.toBytes, textPduBytes, List.tail_cons, List.append_assoc] at tail
      exact key _ fits.1 tail
  | valRemove pdu => exact key _ fits tail
  | valLookup pdu =>
      rw [PDU.toBytes, List.tail_cons, List.append_assoc] at tail
      exact key _ fits tail
  | _ => exact absurd request (by simp [PDU.code])

/-! ## A ring of both nodes -/

inductive RingNode where
  | c (sign : CharSign) (selfData : SelfData)
  | rust (node : Node)

def RingNode.range : RingNode → UInt8 × UInt8
  | .c _ selfData => (selfData.rangeStart, selfData.rangeEnd)
  | .rust node => node.hashRange

def RingNode.claims (ssn : Ssn) : RingNode → Bool
  | .c sign selfData => sign.checkRange selfData ssn
  | .rust node => node.inMyRange (ofLatin1 ssn.toList)

def Partition (ring : List RingNode) : Prop :=
  ∀ x : UInt8, ∃ owner : ℕ, ∀ i : ℕ,
    (∃ node : RingNode, ring[i]? = some node ∧ node.range.1 ≤ x ∧ x ≤ node.range.2) ↔ i = owner

/-- The node that claims a request when at most `fuel` nodes get it, the one at `i` first. -/
def claimedFrom (ring : List RingNode) (ssn : Ssn) : ℕ → ℕ → Option ℕ
  | 0, _ => none
  | fuel + 1, i =>
      match ring[i]? with
      | none => none
      | some node =>
          if node.claims ssn then some i
          else claimedFrom ring ssn fuel ((i + 1) % ring.length)

theorem RingNode.claims_iff (node : RingNode) (ssn : Ssn) :
    node.claims ssn = true ↔
      node.range.1 ≤ DhtRing.hashSsn ssn ∧ DhtRing.hashSsn ssn ≤ node.range.2 := by
  cases node with
  | c sign selfData =>
      rw [RingNode.claims, sign.checkRange_eq, DhtRing.checkRange, Bool.and_eq_true,
        decide_eq_true_eq, decide_eq_true_eq]
      rfl
  | rust node =>
      rw [RingNode.claims, Node.inMyRange, hashSsn_ofLatin1, Bool.and_eq_true, decide_eq_true_eq,
        decide_eq_true_eq]
      rfl

theorem claimedFrom_eq {ring : List RingNode} {ssn : Ssn} {owner : ℕ}
    (only : ∀ i node, ring[i]? = some node → (node.claims ssn = true ↔ i = owner)) :
    ∀ fuel d i, i < ring.length → (i + d) % ring.length = owner → d < fuel →
      claimedFrom ring ssn fuel i = some owner := by
  intro fuel
  induction fuel with
  | zero => exact fun d i _ _ less => absurd less (Nat.not_lt_zero d)
  | succ fuel ih =>
      intro d i inside distance less
      have node : ring[i]? = some ring[i] := List.getElem?_eq_getElem inside
      simp only [claimedFrom, node]
      by_cases claims : ring[i].claims ssn = true
      · rw [if_pos claims, (only i _ node).mp claims]
      · rw [if_neg claims]
        have away : d ≠ 0 := by
          rintro rfl
          rw [Nat.add_zero, Nat.mod_eq_of_lt inside] at distance
          exact claims ((only i _ node).mpr distance)
        obtain ⟨d, rfl⟩ := Nat.exists_eq_succ_of_ne_zero away
        refine ih d _ (Nat.mod_lt _ (Nat.zero_lt_of_lt inside)) ?_ (by omega)
        rw [Nat.mod_add_mod, Nat.add_assoc, Nat.add_comm 1 d]
        exact distance

/-- The nodes agree on the hash of every key and on whose it is, and in a ring of both a
request is claimed by one node, wherever it starts. -/
theorem one_owner :
    (∀ (sign : CharSign) (ssn : Ssn),
      sign.hashSsn ssn = hashSsn (ofLatin1 ssn.toList) ∧
        ∀ code ∈ ([100, 101, 102] : List UInt8), ∀ rest pdu used,
          parsePdu (code :: (ssn.toList ++ rest)) = .ok (some (pdu, used)) →
            pdu.requestKey = some (ofLatin1 ssn.toList)) ∧
      (∀ (sign : CharSign) (selfData : SelfData) (node : Node) (ssn : Ssn),
        node.hashRange = (selfData.rangeStart, selfData.rangeEnd) →
          sign.checkRange selfData ssn = node.inMyRange (ofLatin1 ssn.toList)) ∧
      ∀ ring : List RingNode, Partition ring → ∀ ssn : Ssn, ∃ owner < ring.length,
        (∀ i node, ring[i]? = some node → (node.claims ssn = true ↔ i = owner)) ∧
          ∀ start < ring.length, claimedFrom ring ssn ring.length start = some owner := by
  refine ⟨?_, ?_, ?_⟩
  · intro sign ssn
    refine ⟨by rw [sign.hashSsn_eq, hashSsn_ofLatin1], ?_⟩
    exact fun code request rest pdu used parsed => requestKey_of_parsed request ssn rest parsed
  · intro sign selfData node ssn range
    rw [sign.checkRange_eq, inMyRange_eq_checkRange range]
  · intro ring partition ssn
    obtain ⟨owner, owns⟩ := partition (DhtRing.hashSsn ssn)
    obtain ⟨node, here, -⟩ := (owns owner).mpr rfl
    obtain ⟨inside, -⟩ := List.getElem?_eq_some_iff.mp here
    have only : ∀ i node, ring[i]? = some node → (node.claims ssn = true ↔ i = owner) := by
      intro i node found
      rw [node.claims_iff, ← owns i]
      constructor
      · exact fun range => ⟨node, found, range⟩
      · rintro ⟨other, found', range⟩
        rw [found] at found'
        cases found'
        exact range
    refine ⟨owner, inside, only, fun start inside' => ?_⟩
    refine claimedFrom_eq only _ ((owner + ring.length - start) % ring.length) start inside' ?_
      (Nat.mod_lt _ (Nat.zero_lt_of_lt inside))
    rw [Nat.add_mod_mod, Nat.add_sub_cancel' (by omega), Nat.add_mod_right,
      Nat.mod_eq_of_lt inside]

def mixedRing : List RingNode :=
  [.c .unsigned { loneNode with rangeEnd := 127 }, .rust { loneRustNode with hashRange := (128, 255) }]

theorem one_owner_mixedRing :
    Partition mixedRing ∧ ∃ owner < 2, ∀ start < 2,
      claimedFrom mixedRing (Vector.replicate 12 49) 2 start = some owner := by
  have partition : Partition mixedRing := by
    intro x
    have small := x.toNat_lt
    refine ⟨if x.toNat ≤ 127 then 0 else 1, fun i => ?_⟩
    match i with
    | 0 =>
        simp [mixedRing, RingNode.range, UInt8.le_iff_toNat_le, show loneNode.rangeStart = 0 from rfl]
    | 1 =>
        simp [mixedRing, RingNode.range, UInt8.le_iff_toNat_le]
        omega
    | i + 2 =>
        simp [mixedRing]
        split <;> omega
  obtain ⟨owner, inside, -, claimed⟩ := one_owner.2.2 mixedRing partition (Vector.replicate 12 49)
  exact ⟨partition, owner, inside, claimed⟩

end DhtRing.TestNode

import DhtRing.Wiring

/-!
# A node that has handed over its range

`shutdown_proceedure` stores -1 in both ends of the range and polls once more.
The ends are bytes, so the range becomes `255..255`, which is not empty.
-/

set_option autoImplicit false

namespace DhtRing

/-- Every PDU of the buffer went to the successor as it was, none was in range,
and the node neither changed nor touched its table. -/
structure Relays (env : Env) (selfData : SelfData) (pdus : List Pdu) : Prop where
  forwarded : (handleBuffer env selfData pdus).effects.map some =
    pdus.map fun pdu => (selfData.fd .successor).map fun fd => .tcp fd pdu
  unchanged : (handleBuffer env selfData pdus).selfData = selfData
  untouched : (handleBuffer env selfData pdus).ctl = .run
  foreign : ∀ pdu ∈ pdus, ∀ ssn, pdu.requestKey = some ssn → checkRange selfData ssn = false

section

variable {env : Env} {selfData : SelfData}

theorem handleBuffer_forward (env : Env) {conn : Conn}
    (successor : selfData.fdsSuccessor = some conn)
    (pdus : List Pdu) (requests : ∀ pdu ∈ pdus, pdu.requestKey.isSome)
    (out : ∀ pdu ∈ pdus, ∀ ssn, pdu.requestKey = some ssn → checkRange selfData ssn = false) :
    handleBuffer env selfData pdus = ⟨selfData, sends (.up conn) pdus, .run⟩ := by
  induction pdus with
  | nil => rfl
  | cons pdu rest ih =>
      obtain ⟨ssn, key⟩ := Option.isSome_iff_exists.mp (requests pdu (by simp))
      have later := ih (fun other mem => requests other (by simp [mem]))
        fun other mem => out other (by simp [mem])
      rw [handleBuffer, dispatch_forward env key (out pdu (by simp) ssn key) successor]
      simp only [Outcome.andThen, later]
      rfl

/-- Without a table and with some range, the buffer is relayed exactly when there
is a successor to relay it to and no key in it is in range. -/
theorem relays_iff (pdus : List Pdu) (requests : ∀ pdu ∈ pdus, pdu.requestKey.isSome) :
    Relays env selfData pdus ↔
      (pdus = [] ∨ selfData.fdsSuccessor ≠ none) ∧
        ∀ pdu ∈ pdus, ∀ ssn, pdu.requestKey = some ssn → checkRange selfData ssn = false := by
  constructor
  · intro relays
    refine ⟨?_, relays.foreign⟩
    cases pdus with
    | nil => exact Or.inl rfl
    | cons pdu rest =>
        refine Or.inr fun no_successor => ?_
        have sent := relays.forwarded
        have missing : (none : Option Effect) ∈ (handleBuffer env selfData (pdu :: rest)).effects.map
            some := by
          rw [sent]
          simp [SelfData.fd, no_successor]
        simp at missing
  · rintro ⟨connected, out⟩
    rcases connected with rfl | has_successor
    · exact ⟨rfl, rfl, rfl, by simp⟩
    · obtain ⟨conn, successor⟩ := Option.ne_none_iff_exists'.mp has_successor
      have run := handleBuffer_forward env successor pdus requests out
      refine ⟨?_, by rw [run], by rw [run], out⟩
      rw [run]
      simp [sends, SelfData.fd, successor]

end

theorem handOver_selfData {selfData : SelfData} (done : (handOver selfData true).ctl = .run) :
    (handOver selfData true).selfData.hashTable = none ∧
      (handOver selfData true).selfData.rangeStart = 255 ∧
      (handOver selfData true).selfData.rangeEnd = 255 ∧
      (handOver selfData true).selfData.fdsSuccessor = selfData.fdsSuccessor := by
  obtain ⟨wiring, freed, ctl, -⟩ := sendAllEntries_wiring selfData selfData.heir
  unfold handOver at done ⊢
  unfold Outcome.andThen at done ⊢
  rcases ctl with run | fault
  · simp only [run, if_true, true_and]
    exact ⟨freed run, congrArg Wiring.fdsSuccessor wiring⟩
  · simp [fault] at done

/-- The one hash that the range of a leaving node still contains. -/
theorem checkRange_last {selfData : SelfData} (start : selfData.rangeStart = 255)
    (stop : selfData.rangeEnd = 255) (ssn : Ssn) :
    checkRange selfData ssn = false ↔ hashSsn ssn ≠ 255 := by
  rw [← Bool.not_eq_true, checkRange_eq_true, start, stop, ne_eq, ← UInt8.toNat_inj]
  have bounded := (hashSsn ssn).toNat_lt
  have last : (255 : UInt8).toNat = 255 := rfl
  omega

/-- In its last poll a node relays every request untouched exactly when its
successor is still connected and no key hashes to 255. -/
theorem handedOver_relays_iff (env : Env) (selfData : SelfData) (pdus : List Pdu)
    (done : (handOver selfData true).ctl = .run)
    (requests : ∀ pdu ∈ pdus, pdu.requestKey.isSome) :
    Relays env (handOver selfData true).selfData pdus ↔
      (pdus = [] ∨ selfData.fdsSuccessor ≠ none) ∧
        ∀ pdu ∈ pdus, ∀ ssn, pdu.requestKey = some ssn → hashSsn ssn ≠ 255 := by
  obtain ⟨-, start, stop, successor⟩ := handOver_selfData done
  rw [relays_iff pdus requests, successor]
  simp only [checkRange_last start stop]

/-! ## A leaving node and a key that it still takes for its own -/

def leavingNode : SelfData :=
  { SelfData.setup ⟨1, 5001⟩ with
    hashTable := some htCreate
    rangeStart := 64
    rangeEnd := 127
    fdsSuccessor := some ⟨⟨1, 5001⟩, ⟨1, 5002⟩, 1⟩
    fdsPredecessor := some ⟨⟨1, 5000⟩, ⟨1, 5001⟩, 0⟩
    successor := ⟨some ⟨⟨1, 5001⟩, ⟨1, 5002⟩, 1⟩, ⟨1, 5002⟩⟩
    predecessor := some ⟨⟨1, 5000⟩, ⟨1, 5001⟩, 0⟩ }

/-- The digits 199001010014, whose hash is 255. -/
def lastKey : Ssn := #v[49, 57, 57, 48, 48, 49, 48, 49, 48, 48, 49, 52]

def firstKey : Ssn := #v[49, 57, 57, 48, 48, 49, 48, 49, 48, 48, 49, 53]

theorem handedOver_relays_firstKey :
    Relays ⟨2, fun _ => true⟩ (handOver leavingNode true).selfData
      [.valLookup firstKey ⟨9, 9000⟩, .valRemove firstKey] := by
  refine (handedOver_relays_iff ⟨2, fun _ => true⟩ leavingNode
    [.valLookup firstKey ⟨9, 9000⟩, .valRemove firstKey] (by decide) (by decide)).mpr
    ⟨Or.inr (by decide), ?_⟩
  intro pdu mem ssn key
  have same : ssn = firstKey := by
    rw [List.mem_cons, List.mem_singleton] at mem
    rcases mem with rfl | rfl <;> exact (Option.some.inj key).symm
  rw [same]
  decide

/-- A lookup of a key with hash 255 is taken for a request on the node's own range
and reads the freed table. -/
theorem handedOver_keeps_lastKey :
    (handOver leavingNode true).ctl = .run ∧
      checkRange (handOver leavingNode true).selfData lastKey = true ∧
      (handleBuffer ⟨2, fun _ => true⟩ (handOver leavingNode true).selfData
        [.valLookup lastKey ⟨9, 9000⟩]).ctl = .fault ∧
      ¬ Relays ⟨2, fun _ => true⟩ (handOver leavingNode true).selfData
        [.valLookup lastKey ⟨9, 9000⟩] := by
  have in_range : checkRange (handOver leavingNode true).selfData lastKey = true := by decide
  refine ⟨by decide, in_range, by decide, fun relays => ?_⟩
  have foreign := relays.foreign (.valLookup lastKey ⟨9, 9000⟩) (by simp) lastKey rfl
  rw [in_range] at foreign
  cases foreign

end DhtRing

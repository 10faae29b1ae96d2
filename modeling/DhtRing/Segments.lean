import DhtRing.Wire

/-!
# Segments of a TCP stream

A TCP link carries PDUs one after another, and each `recv` answers some of the bytes.
The loop of `poll_for_incoming_data` starts anew with every `recv` and keeps nothing of
a PDU that the bytes end in.
-/

set_option autoImplicit false

namespace DhtRing

def bufferSize : ℕ := 25600

/-- One `recv`: its bytes are at the start of the buffer, behind them is anything. -/
structure Recv where
  chunk : List UInt8
  buffer : ℕ → UInt8
  received : bytesAt buffer 0 chunk.length = chunk

def Recv.dispatched (recv : Recv) : List Pdu := pollBuffer recv.buffer recv.chunk.length

structure Cut (stream : List UInt8) (chunks : List (List UInt8)) : Prop where
  flatten : chunks.flatten = stream
  sizes : ∀ chunk ∈ chunks, chunk ≠ [] ∧ chunk.length ≤ bufferSize

/-- The handlers get the same PDUs as when every `recv` answers one PDU, whatever the
buffer holds behind the bytes received. -/
def CutDoesNotMatter (pdus : List Pdu) (chunks : List (List UInt8)) : Prop :=
  ∀ recvs whole : List Recv, recvs.map Recv.chunk = chunks →
    whole.map Recv.chunk = pdus.map Pdu.bytes →
      recvs.flatMap Recv.dispatched = whole.flatMap Recv.dispatched

/-! ## Whole PDUs -/

section

variable {buffer buffer' : ℕ → UInt8} {bytesReceived : ℕ}

theorem length_encodeAll_cons (pdu : Pdu) (pdus : List Pdu) :
    (encodeAll (pdu :: pdus)).length = pdu.size + (encodeAll pdus).length := by
  rw [encodeAll, List.flatMap_cons, List.length_append, Pdu.length_bytes]
  rfl

theorem Pdu.size_pos (pdu : Pdu) : 0 < pdu.size := by
  cases pdu <;> rw [Pdu.size] <;> omega

theorem pollLoop_encodeAll (pdus : List Pdu) :
    ∀ fuel offset, (∀ pdu ∈ pdus, pdu.accepted = true) →
      bytesAt buffer offset (encodeAll pdus).length = encodeAll pdus →
      offset + (encodeAll pdus).length = bytesReceived → (encodeAll pdus).length ≤ fuel →
      pollLoop buffer bytesReceived fuel offset = pdus := by
  induction pdus with
  | nil =>
      intro fuel offset _ _ all _
      have done : ¬ offset < bytesReceived := by simp [encodeAll] at all; omega
      cases fuel with
      | zero => rfl
      | succ fuel => rw [pollLoop, if_neg done]
  | cons pdu pdus ih =>
      intro fuel offset accepted found all enough
      have size := pdu.size_pos
      rw [length_encodeAll_cons] at found all enough
      have split : encodeAll (pdu :: pdus) = pdu.bytes ++ encodeAll pdus := rfl
      rw [split] at found
      obtain ⟨head, tail⟩ := bytesAt_eq_append pdu.length_bytes found
      obtain ⟨fuel, rfl⟩ := Nat.exists_eq_add_of_lt (Nat.lt_of_lt_of_le size (by omega : _ ≤ fuel))
      rw [Nat.zero_add, pollLoop, if_pos (by omega),
        nextPdu_of_bytesAt (accepted pdu List.mem_cons_self) head (by omega)]
      dsimp only
      rw [ih fuel (offset + pdu.size) (fun other mem => accepted other (List.mem_cons_of_mem _ mem))
        tail (by omega) (by omega)]

theorem pollLoop_whole (same : ∀ i < bytesReceived, buffer i = buffer' i)
    (differ : buffer bytesReceived ≠ buffer' bytesReceived) :
    ∀ fuel offset, offset ≤ bytesReceived →
      pollLoop buffer bytesReceived fuel offset = pollLoop buffer' bytesReceived fuel offset →
      ∃ count, offset + count ≤ bytesReceived ∧
        bytesAt buffer offset count = encodeAll (pollLoop buffer bytesReceived fuel offset) := by
  intro fuel
  induction fuel with
  | zero => exact fun offset le _ => ⟨0, le, rfl⟩
  | succ fuel ih =>
      intro offset le agree
      simp only [pollLoop] at agree ⊢
      by_cases inside : offset < bytesReceived
      · simp only [if_pos inside] at agree ⊢
        cases next : nextPdu buffer bytesReceived offset with
        | none => exact ⟨0, le, rfl⟩
        | some found =>
            obtain ⟨pdu, size⟩ := found
            obtain ⟨accepted, pos, bytes, insert⟩ := nextPdu_eq_some inside next
            have length : size = pdu.size := by
              rw [← pdu.length_bytes, ← bytes, length_bytesAt]
            rw [next] at agree
            by_cases whole : offset + size ≤ bytesReceived
            · have bytes' : bytesAt buffer' offset pdu.size = pdu.bytes := by
                rw [← bytes, ← length]
                exact (bytesAt_congr fun j lt => same _ (by omega)).symm
              rw [nextPdu_of_bytesAt accepted bytes' (by omega), ← length] at agree
              obtain ⟨count, le', rest⟩ := ih (offset + size) whole (List.cons.inj agree).2
              refine ⟨size + count, by omega, ?_⟩
              rw [bytesAt_add, bytes, rest]
              rfl
            · -- a byte of the PDU is not received, and the two buffers differ in it
              exfalso
              have fixed : buffer offset ≠ 100 := fun type => whole (insert type)
              obtain ⟨pdu', next'⟩ := nextPdu_congr (same offset inside).symm fixed next
              obtain ⟨-, -, bytes', -⟩ := nextPdu_eq_some inside next'
              rw [next'] at agree
              rw [← (List.cons.inj agree).1, ← bytes] at bytes'
              have here := eq_of_bytesAt bytes' (show bytesReceived - offset < size by omega)
              rw [Nat.add_sub_cancel' le] at here
              exact differ here.symm
      · rw [if_neg inside]
        exact ⟨0, le, rfl⟩

end

/-! ## Chunks -/

def Recv.over (byte : UInt8) (chunk : List UInt8) : Recv where
  chunk := chunk
  buffer := fun i => chunk.getD i byte
  received := by
    refine List.ext_getElem (by simp) fun i inside inside' => ?_
    rw [getElem_bytesAt]
    simp [List.getD, inside']

theorem Recv.dispatched_of_encodeAll {recv : Recv} {pdus : List Pdu}
    (accepted : ∀ pdu ∈ pdus, pdu.accepted = true) (chunk : recv.chunk = encodeAll pdus) :
    recv.dispatched = pdus := by
  have found := recv.received
  rw [chunk] at found
  rw [Recv.dispatched, pollBuffer, chunk]
  exact pollLoop_encodeAll pdus _ 0 accepted found (Nat.zero_add _) le_rfl

theorem flatMap_dispatched (groups : List (List Pdu))
    (accepted : ∀ group ∈ groups, ∀ pdu ∈ group, pdu.accepted = true) :
    ∀ recvs : List Recv, recvs.map Recv.chunk = groups.map encodeAll →
      recvs.flatMap Recv.dispatched = groups.flatten := by
  induction groups with
  | nil =>
      intro recvs eq
      rw [List.map_eq_nil_iff.mp eq]
      rfl
  | cons group groups ih =>
      intro recvs eq
      obtain ⟨recv, rest, rfl, chunk, later⟩ := List.map_eq_cons_iff.mp eq
      rw [List.flatMap_cons, List.flatten_cons,
        Recv.dispatched_of_encodeAll (accepted group List.mem_cons_self) chunk,
        ih (fun other mem => accepted other (List.mem_cons_of_mem _ mem)) rest later]

theorem flatMap_dispatched_single {pdus : List Pdu}
    (accepted : ∀ pdu ∈ pdus, pdu.accepted = true) {whole : List Recv}
    (chunks : whole.map Recv.chunk = pdus.map Pdu.bytes) :
    whole.flatMap Recv.dispatched = pdus := by
  have groups := flatMap_dispatched (pdus.map fun pdu => [pdu]) (by simpa using accepted) whole
    (by
      rw [chunks, List.map_map]
      refine List.map_congr_left fun pdu _ => ?_
      simp [encodeAll])
  rw [groups, ← List.flatMap_def, List.flatMap_singleton']

theorem encodeAll_prefix {chunk : List UInt8}
    (agree : (Recv.over 0 chunk).dispatched = (Recv.over 1 chunk).dispatched) :
    encodeAll (Recv.over 0 chunk).dispatched <+: chunk := by
  have same : ∀ i < chunk.length, (Recv.over 0 chunk).buffer i = (Recv.over 1 chunk).buffer i := by
    intro i inside
    simp [Recv.over, List.getD, inside]
  have differ : (Recv.over 0 chunk).buffer chunk.length ≠ (Recv.over 1 chunk).buffer chunk.length := by
    simp [Recv.over, List.getD]
  obtain ⟨count, le, bytes⟩ := pollLoop_whole same differ chunk.length 0 (Nat.zero_le _) agree
  have split : bytesAt (Recv.over 0 chunk).buffer 0 (count + (chunk.length - count)) =
      _ ++ bytesAt (Recv.over 0 chunk).buffer (0 + count) (chunk.length - count) := bytesAt_add _ _
  rw [Nat.add_sub_cancel' (by omega)] at split
  have received : bytesAt (Recv.over 0 chunk).buffer 0 chunk.length = chunk :=
    (Recv.over 0 chunk).received
  rw [received, bytes] at split
  exact ⟨_, split.symm⟩

/-- When the PDUs that each chunk starts with have as many bytes as the chunks, the
chunks are nothing else. -/
theorem eq_encodeAll_of_prefix (dispatched : List UInt8 → List Pdu) (chunks : List (List UInt8)) :
    (∀ chunk ∈ chunks, encodeAll (dispatched chunk) <+: chunk) →
      (encodeAll (chunks.flatMap dispatched)).length ≤ chunks.flatten.length ∧
        ((encodeAll (chunks.flatMap dispatched)).length = chunks.flatten.length →
          ∀ chunk ∈ chunks, encodeAll (dispatched chunk) = chunk) := by
  induction chunks with
  | nil => exact fun _ => ⟨le_rfl, by simp⟩
  | cons chunk chunks ih =>
      intro prefixes
      obtain ⟨le, all⟩ := ih fun other mem => prefixes other (List.mem_cons_of_mem _ mem)
      have head := prefixes chunk List.mem_cons_self
      have head_le := head.length_le
      have split : encodeAll ((chunk :: chunks).flatMap dispatched) =
          encodeAll (dispatched chunk) ++ encodeAll (chunks.flatMap dispatched) := by
        rw [List.flatMap_cons, encodeAll, List.flatMap_append]
        rfl
      rw [split, List.length_append, List.flatten_cons, List.length_append]
      refine ⟨by omega, fun total other mem => ?_⟩
      rcases List.mem_cons.mp mem with rfl | later
      · exact head.eq_of_length (by omega)
      · exact all (by omega) other later

/-- How a stream of PDUs is cut does not matter exactly when each `recv` answers whole
PDUs. -/
theorem cutDoesNotMatter_iff {pdus : List Pdu} (accepted : ∀ pdu ∈ pdus, pdu.accepted = true)
    {chunks : List (List UInt8)} (cut : Cut (encodeAll pdus) chunks) :
    CutDoesNotMatter pdus chunks ↔
      ∃ groups : List (List Pdu), groups.flatten = pdus ∧ chunks = groups.map encodeAll := by
  constructor
  · intro same
    -- each chunk may have any byte behind it
    have chunk_over : ∀ (byte : UInt8) (list : List (List UInt8)),
        (list.map (Recv.over byte)).map Recv.chunk = list := by
      intro byte list
      rw [List.map_map]
      exact List.map_id' _
    have all : ∀ recvs : List Recv, recvs.map Recv.chunk = chunks →
        recvs.flatMap Recv.dispatched = pdus := by
      intro recvs eq
      rw [same recvs ((pdus.map Pdu.bytes).map (Recv.over 0)) eq (chunk_over 0 _)]
      exact flatMap_dispatched_single accepted (chunk_over 0 _)
    have agree : ∀ chunk ∈ chunks, (Recv.over 0 chunk).dispatched =
        (Recv.over 1 chunk).dispatched := by
      intro chunk mem
      obtain ⟨pre, post, split⟩ := List.append_of_mem mem
      have first := all ((pre ++ chunk :: post).map (Recv.over 0)) (by rw [chunk_over, split])
      have second := all (pre.map (Recv.over 0) ++ Recv.over 1 chunk :: post.map (Recv.over 0)) (by
        rw [List.map_append, List.map_cons, chunk_over, chunk_over, split]
        rfl)
      rw [← second, List.map_append, List.map_cons, List.flatMap_append, List.flatMap_append,
        List.flatMap_cons, List.flatMap_cons] at first
      exact List.append_cancel_right (List.append_cancel_left first)
    have zeros := all (chunks.map (Recv.over 0)) (chunk_over 0 chunks)
    rw [List.flatMap_map] at zeros
    obtain ⟨-, exact_chunks⟩ := eq_encodeAll_of_prefix
      (fun chunk => (Recv.over 0 chunk).dispatched) chunks
      fun chunk mem => encodeAll_prefix (agree chunk mem)
    have whole_chunks := exact_chunks (by rw [zeros, cut.flatten])
    refine ⟨chunks.map fun chunk => (Recv.over 0 chunk).dispatched, zeros, ?_⟩
    rw [List.map_map]
    exact ((List.map_congr_left whole_chunks).trans (List.map_id' _)).symm
  · rintro ⟨groups, rfl, rfl⟩ recvs whole chunks_recvs chunks_whole
    rw [flatMap_dispatched_single accepted chunks_whole]
    refine flatMap_dispatched groups (fun group mem pdu mem' => accepted pdu ?_) recvs chunks_recvs
    exact List.mem_flatten.mpr ⟨group, mem, mem'⟩

def twoAtOnce : List Pdu := [.netNewRange 0 127, .netLeaving ⟨1, 5000⟩]

theorem cutDoesNotMatter_twoAtOnce : CutDoesNotMatter twoAtOnce [encodeAll twoAtOnce] := by
  have cut : Cut (encodeAll twoAtOnce) [encodeAll twoAtOnce] := by
    refine ⟨List.append_nil _, fun chunk mem => ?_⟩
    rw [List.mem_singleton.mp mem]
    decide
  exact (cutDoesNotMatter_iff (by decide) cut).mpr ⟨[twoAtOnce], rfl, rfl⟩

def shortInsert : Pdu :=
  .valInsert (Vector.replicate ssnLength 49) ⟨⟨[], nil_fits⟩, ⟨[], nil_fits⟩⟩

/-- The insert arrives in two parts and is lost. -/
theorem cut_insert_lost : ∃ pdus chunks, (∀ pdu ∈ pdus, pdu.accepted = true) ∧
    Cut (encodeAll pdus) chunks ∧ ¬ CutDoesNotMatter pdus chunks := by
  refine ⟨[shortInsert], [shortInsert.bytes.take 13, shortInsert.bytes.drop 13], by decide,
    ⟨by decide, by decide⟩, fun same => ?_⟩
  have lost := same [.over 0 (shortInsert.bytes.take 13), .over 0 (shortInsert.bytes.drop 13)]
    [.over 0 shortInsert.bytes] rfl rfl
  revert lost
  decide

end DhtRing

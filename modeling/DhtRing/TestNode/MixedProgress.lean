import DhtRing.TestNode.MixedRing
import Mathlib.Data.List.Dedup
import Mathlib.Data.Prod.Lex

/-!
# A ring of both kinds of node comes to rest

However the nodes read and in which pieces, there is an end to it.  And while something
waits some node can read it, as long as the key arrays of the nodes in C have room for the
keys that are inserted.
-/

set_option autoImplicit false

namespace DhtRing.TestNode

open Transition Relay

def insertedKeys (requests : List ClientRequest) : List Ssn :=
  requests.filterMap fun request => match request with
    | .insert ssn _ => some ssn
    | _ => none

section

variable {n : ℕ}

/-- What a node can do without a client. -/
def RingNet.Reading (net : RingNet n) (act : RingAct n) : Prop := act.Reads ∧ net.Allowed act

/-- The key array of each node in C has room for all keys that come in for it. -/
def RoomFor (start : RingNet n) (owner : UInt8 → Fin n) (came : List (Entered n)) : Prop :=
  ∀ i, (start.node i).isRust = false →
    (insertedKeys ((came.filter fun e => owner (DhtRing.hashSsn e.request.key) = i).map
      Entered.request)).dedup.length ≤ maxSize

structure Behind [NeZero n] (start net : RingNet n) (owner : UInt8 → Fin n)
    (q : Queues (Fin n) (Entered n)) (came : List (Entered n)) : Prop where
  run : ∃ turns, Run (Queues.step (ringRouting owner)) (fun _ _ => True) .empty turns q ∧
    entered turns = came
  admissible : ∀ e ∈ came, e.request.Admissible
  tracks : Tracks start net q

end

/-! ## The keys of a node in C -/

theorem nodup_storedKeys (updates : List Update) : (storedKeys updates).Nodup := by
  induction updates using List.reverseRecOn with
  | nil => exact List.nodup_nil
  | append_singleton updates update ih =>
      rw [storedKeys_snoc]
      cases update with
      | insert ssn pair =>
          dsimp only
          split
          · exact ih
          · rename_i absent
            exact List.nodup_append.mpr ⟨ih, List.nodup_singleton _, fun a mem b single same => by
              rw [List.mem_singleton.mp single] at same
              exact absent (same ▸ mem)⟩
      | remove ssn => exact ih.erase _

theorem mem_insertedKeys_of_stored {requests : List ClientRequest} {key : Ssn}
    (stored : key ∈ storedKeys (updates requests)) : key ∈ insertedKeys requests := by
  induction requests using List.reverseRecOn with
  | nil => exact absurd stored List.not_mem_nil
  | append_singleton requests request ih =>
      rw [insertedKeys, List.filterMap_append, List.mem_append]
      rw [updates_append, updates_singleton] at stored
      cases request with
      | insert ssn pair =>
          change key ∈ storedKeys (updates requests ++ [.insert ssn pair]) at stored
          rw [storedKeys_snoc] at stored
          dsimp only at stored
          split at stored
          · exact Or.inl (ih stored)
          · exact (List.mem_append.mp stored).imp ih id
      | remove ssn =>
          change key ∈ storedKeys (updates requests ++ [.remove ssn]) at stored
          rw [storedKeys_snoc] at stored
          exact Or.inl (ih (List.mem_of_mem_erase stored))
      | lookup ssn sender =>
          change key ∈ storedKeys (updates requests ++ []) at stored
          rw [List.append_nil] at stored
          exact Or.inl (ih stored)

theorem storedKeys_length_le {requests all : List ClientRequest}
    (among : ∀ request ∈ requests, request ∈ all) :
    (storedKeys (updates requests)).length ≤ (insertedKeys all).dedup.length := by
  apply List.Subperm.length_le
  apply (nodup_storedKeys _).subperm
  intro key stored
  rw [List.mem_dedup]
  obtain ⟨request, mem, is_key⟩ := List.mem_filterMap.mp (mem_insertedKeys_of_stored stored)
  exact List.mem_filterMap.mpr ⟨request, among request mem, is_key⟩

section

variable {n : ℕ} [NeZero n] {start net net' : RingNet n} {owner : UInt8 → Fin n} {i : Fin n}
  {q : Queues (Fin n) (Entered n)} {came : List (Entered n)}

/-! ## There is an end -/

theorem Behind.admitted (behind : Behind start net owner q came) : Admitted q := by
  obtain ⟨turns, run, same⟩ := behind.run
  intro i e waits
  apply behind.admissible
  rw [← same]
  exact run_mem run i e waits

theorem RingNet.Fresh.behind {acts : List (RingAct n)} (fresh : start.Fresh owner)
    (run : Run RingNet.step RingNet.Allowed start acts net) :
    ∃ q, Behind start net owner q (enteredBy acts) := by
  obtain ⟨admissible, turns, q, ran, same, tracks⟩ := fresh.run run
  exact ⟨q, ⟨turns, ran, same⟩, admissible, tracks⟩

theorem Behind.step {act : RingAct n} (behind : Behind start net owner q came)
    (fresh : start.Fresh owner) (allowed : net.Allowed act) (stepped : net.step act = some net') :
    ∃ acts q', Run (Queues.step (ringRouting owner)) (fun _ _ => True) q acts q' ∧
      Behind start net' owner q' (came ++ enteredBy [act]) := by
  obtain ⟨acts, q', run, entered_eq, tracks⟩ :=
    behind.tracks.step fresh behind.admitted allowed stepped
  obtain ⟨earlier, before, same⟩ := behind.run
  refine ⟨acts, q', run, ⟨earlier ++ acts, before.append run, ?_⟩, ?_, tracks⟩
  · rw [entered_append, same, entered_eq]
  · intro e mem
    rcases List.mem_append.mp mem with old | new
    · exact behind.admissible e old
    · exact admissible_of_enteredBy allowed e new

def toRead (owner : UInt8 → Fin n) (net : RingNet n) (q : Queues (Fin n) (Entered n)) : ℕ ×ₗ ℕ :=
  toLex (q.work (ringRouting owner) stepsTo, net.unread)

theorem Behind.reads {act : RingAct n} (behind : Behind start net owner q came)
    (fresh : start.Fresh owner) (reading : net.Reading act) (stepped : net.step act = some net') :
    ∃ q', toRead owner net' q' < toRead owner net q ∧ Behind start net' owner q' came := by
  obtain ⟨acts, q', progress, none, run, tracks⟩ :=
    behind.tracks.reads fresh behind.admitted reading.1 reading.2 stepped
  obtain ⟨earlier, before, same⟩ := behind.run
  have count := (ringRouting_reaches owner).run run
  rw [none, List.map_nil, List.sum_nil, Nat.add_zero] at count
  refine ⟨q', ?_, ⟨earlier ++ acts, before.append run, ?_⟩, behind.admissible, tracks⟩
  · rw [toRead, toRead, Prod.Lex.toLex_lt_toLex]
    by_cases some_turns : 0 < turns acts
    · left
      dsimp only
      omega
    · have fewer := progress.resolve_left some_turns
      right
      dsimp only
      omega
  · rw [entered_append, same, none, List.append_nil]

theorem Behind.terminates (behind : Behind start net owner q came) (fresh : start.Fresh owner) :
    Terminates RingNet.step RingNet.Reading net := by
  have wf : WellFounded fun m m' : ℕ ×ₗ ℕ => m < m' := wellFounded_lt
  refine terminates_of_measure wf
    (P := fun m net => ∃ q, Behind start net owner q came ∧ toRead owner net q = m) ?_
    ⟨q, behind, rfl⟩
  rintro m net act net' ⟨q, behind, rfl⟩ reading stepped
  obtain ⟨q', less, behind'⟩ := behind.reads fresh reading stepped
  exact ⟨_, less, q', behind', rfl⟩

theorem Behind.reads_run {acts : List (RingAct n)} (behind : Behind start net owner q came)
    (fresh : start.Fresh owner) (run : Run RingNet.step RingNet.Reading net acts net') :
    ∃ q', Behind start net' owner q' came := by
  refine run.invariant (P := fun net => ∃ q, Behind start net owner q came) ⟨q, behind⟩ ?_
  rintro net act net' ⟨q, behind⟩ reading stepped
  obtain ⟨q', -, behind'⟩ := behind.reads fresh reading stepped
  exact ⟨q', behind'⟩

/-! ## Something can be read -/

theorem Behind.fits (behind : Behind start net owner q came) (fresh : start.Fresh owner)
    (room : RoomFor start owner came) (inC : (start.node i).isRust = false) {e : Entered n}
    (waits : e ∈ q.inbox i ∨ e ∈ q.link i) :
    (storedKeys (updates ((q.kept i).map Entered.request))).length ≤ maxSize ∧
      (e.request.within (start.node i).range = true →
        e.request.Fits ((q.kept i).map Entered.request)) := by
  obtain ⟨turns, run, same⟩ := behind.run
  have comes : ∀ e, e ∈ q.inbox i ∨ e ∈ q.link i ∨ e ∈ q.kept i → e ∈ came := by
    intro e waits
    rw [← same]
    exact run_mem run i e waits
  have kept : ∀ request ∈ (q.kept i).map Entered.request, request ∈ (came.filter fun e =>
      owner (DhtRing.hashSsn e.request.key) = i).map Entered.request := by
    intro request mem
    obtain ⟨e, here, rfl⟩ := List.mem_map.mp mem
    have mine : owner (DhtRing.hashSsn e.request.key) = i := (run_onWay run).kept i e here
    exact List.mem_map_of_mem (List.mem_filter.mpr
      ⟨comes e (Or.inr (Or.inr here)), decide_eq_true mine⟩)
  refine ⟨(storedKeys_length_le kept).trans (room i inC), fun mine => ?_⟩
  apply (storedKeys_length_le ?_).trans (room i inC)
  intro request mem
  rcases List.mem_append.mp mem with old | new
  · exact kept request old
  · rw [List.mem_singleton.mp new]
    have here : e ∈ came := comes e (waits.imp_right Or.inl)
    exact List.mem_map_of_mem (List.mem_filter.mpr
      ⟨here, decide_eq_true ((fresh.owner_iff i e.request).mpr mine)⟩)

theorem Behind.admissible_with (behind : Behind start net owner q came) {e : Entered n}
    (waits : e ∈ q.inbox i ∨ e ∈ q.link i) :
    ∀ request ∈ (q.kept i).map Entered.request ++ [e.request], request.Admissible := by
  intro request mem
  rcases List.mem_append.mp mem with old | new
  · obtain ⟨e, kept, rfl⟩ := List.mem_map.mp old
    exact behind.admitted i e (Or.inr (Or.inr kept))
  · rw [List.mem_singleton.mp new]
    exact behind.admitted i e (waits.imp_right Or.inl)

theorem Behind.reads_datagram (behind : Behind start net owner q came) (fresh : start.Fresh owner)
    (room : RoomFor start owner came) (waits : net.datagrams i ≠ []) :
    ∃ act, net.Reading act ∧ (net.step act).isSome := by
  have waiting := behind.tracks.datagrams i
  cases arrived : net.datagrams i with
  | nil => exact absurd arrived waits
  | cons datagram rest =>
      rw [arrived] at waiting
      obtain ⟨e, es, inbox, bytes, left⟩ := List.map_eq_cons_iff.mp waiting.symm
      have first : e ∈ q.inbox i := by
        rw [inbox]
        exact List.mem_cons_self
      have admissible := behind.admitted i e (Or.inl first)
      cases here : net.node i with
      | c sign selfData =>
          obtain ⟨holds, kind, linked⟩ := behind.tracks.known fresh here
          obtain ⟨small, fits⟩ := behind.fits fresh room kind.symm (Or.inl first)
          refine ⟨.recvUdp i (.over 0 e.request.bytes), ⟨trivial, trivial⟩, ?_⟩
          have chunk : (Recv.over 0 e.request.bytes).chunk =
              datagram.bytes.take DhtRing.bufferSize := by
            rw [← bytes, List.take_of_length_le (e.request.length_bytes.trans (by decide))]
            rfl
          rw [RingNet.step, here, arrived]
          dsimp only
          rw [if_pos chunk, Option.isSome_map]
          exact HoldsLast.recvC_isSome holds small rfl admissible
            (fun other => congrArg Prod.fst (linked e.request other)) fits
      | rust node =>
          obtain ⟨⟨holds, ready⟩, -, linked⟩ := behind.tracks.known fresh here
          refine ⟨.eventUdp i 1, ⟨trivial, trivial⟩, ?_⟩
          have carry : ([datagram].map Datagram.bytes) = [e.request].map ClientRequest.bytes := by
            rw [List.map_singleton, List.map_singleton, bytes]
          have all := behind.admissible_with (Or.inl first)
          obtain ⟨next, ran, -⟩ := holds.eventUdp ready carry all
            fun request _ other => congrArg Prod.fst (linked request other)
          have room : 0 < 1 ∧ 1 ≤ (datagram :: rest).length := ⟨Nat.one_pos, by simp⟩
          rw [RingNet.step, here, arrived]
          dsimp only
          rw [if_pos room, Option.isSome_map, ready.datagrams]
          change (eventRust { node with
            udpSocket := { node.udpSocket with datagrams := [datagram] } } .udp).isSome = true
          rw [ran]
          rfl

/-- What has been read does not hold a whole request. -/
theorem Node.Ready.missing {node : Node} (ready : node.Ready) {stream rest : List UInt8}
    {request : ClientRequest}
    (waiting : node.predecessorWrapper.buffer ++ stream = request.bytes ++ rest) :
    ∃ missing, missing ≠ [] ∧ node.predecessorWrapper.buffer ++ missing = request.bytes ∧
      stream = missing ++ rest := by
  have not_whole : ∀ behind, node.predecessorWrapper.buffer ≠ request.bytes ++ behind := by
    intro behind whole
    have parsed := parsePdu_frames.whole request.parsed behind request.parsed_parsed
    rw [request.parsed_wire, ← whole, ready.waits] at parsed
    cases parsed
  rcases List.append_eq_append_iff.mp waiting with ⟨missing, whole, split⟩ | ⟨behind, whole, -⟩
  · refine ⟨missing, ?_, whole.symm, split⟩
    rintro rfl
    rw [List.append_nil] at whole
    exact not_whole [] (by rw [List.append_nil, whole])
  · exact absurd whole (not_whole behind)

theorem Behind.links (behind : Behind start net owner q came) {e : Entered n}
    (waits : e ∈ q.link i) : (net.node i).links = (true, true) := by
  obtain ⟨turns, run, -⟩ := behind.run
  obtain ⟨k, -, before⟩ := (run_onWay run).link i e waits
  have apart : (ringRouting owner).origin e ≠ (ringRouting owner).owner e := before 0 (Nat.zero_le k)
  by_cases here : i = (ringRouting owner).origin e
  · exact behind.tracks.linked i _ (here ▸ apart)
  · exact behind.tracks.linked i _ here

theorem Behind.reads_stream (behind : Behind start net owner q came) (fresh : start.Fresh owner)
    (room : RoomFor start owner came) (waits : q.link i ≠ []) :
    ∃ act, net.Reading act ∧ (net.step act).isSome := by
  have waiting := behind.tracks.stream_requests i
  cases arrived : q.link i with
  | nil => exact absurd arrived waits
  | cons e es =>
      rw [arrived, List.map_cons, List.flatMap_cons] at waiting
      have first : e ∈ q.link i := by
        rw [arrived]
        exact List.mem_cons_self
      have admissible := behind.admitted i e (Or.inr (Or.inl first))
      have links := behind.links first
      cases here : net.node i with
      | c sign selfData =>
          obtain ⟨holds, kind, linked⟩ := behind.tracks.known fresh here
          obtain ⟨small, fits⟩ := behind.fits fresh room kind.symm (Or.inr first)
          rw [here] at waiting links
          refine ⟨.recvTcp i (.over 0 e.request.bytes), ⟨trivial, [e.request], ?_⟩, ?_⟩
          · exact (List.flatMap_singleton _ _).symm
          · have next : selfData.fdsPredecessor.isSome ∧
                (Recv.over 0 e.request.bytes).chunk ≠ [] ∧
                (Recv.over 0 e.request.bytes).chunk.length ≤ DhtRing.bufferSize ∧
                (Recv.over 0 e.request.bytes).chunk <+: net.stream i :=
              ⟨congrArg Prod.snd links, e.request.bytes_ne_nil,
                e.request.length_bytes.trans (by decide), _, waiting.symm⟩
            rw [RingNet.step, here]
            dsimp only
            rw [if_pos next, Option.isSome_map]
            exact HoldsLast.recvC_isSome holds small rfl admissible
              (fun other => congrArg Prod.fst (linked e.request other)) fits
      | rust node =>
          obtain ⟨⟨holds, ready⟩, -, linked⟩ := behind.tracks.known fresh here
          rw [here] at waiting links
          obtain ⟨stream, connected⟩ := Option.isSome_iff_exists.mp (congrArg Prod.snd links)
          obtain ⟨missing, some_missing, whole, split⟩ := ready.missing waiting
          have taken : (net.stream i).take missing.length = missing := by
            rw [split, List.take_left]
          have nonempty : (net.stream i).take missing.length ≠ [] := by
            rw [taken]
            exact some_missing
          refine ⟨.eventTcp i missing.length, ⟨trivial, ?_⟩, ?_⟩
          · have length := congrArg List.length whole
            have bound := e.request.length_bytes
            rw [List.length_append] at length
            change (net.node i).leftOver.length + _ < 25600
            rw [here, taken]
            change node.predecessorWrapper.buffer.length + _ < _
            omega
          · have all := behind.admissible_with (Or.inr first)
            have completes : node.predecessorWrapper.buffer ++
                (⟨(net.stream i).take missing.length, nonempty⟩ : Burst).val = e.request.bytes :=
              (congrArg _ taken).trans whole
            have ran := holds.eventTcp_isSome ready connected completes all
              fun other => congrArg Prod.fst (linked e.request other)
            rw [RingNet.step, here]
            dsimp only
            rw [connected]
            dsimp only
            rw [dif_neg nonempty, Option.isSome_map]
            exact ran

theorem Behind.reads_on (behind : Behind start net owner q came) (fresh : start.Fresh owner)
    (room : RoomFor start owner came) (waits : ¬ net.Quiet) :
    ∃ act, net.Reading act ∧ (net.step act).isSome := by
  by_contra stuck
  apply waits
  intro i
  have no_datagrams : net.datagrams i = [] := by
    by_contra some_wait
    exact stuck (behind.reads_datagram fresh room some_wait)
  have no_link : q.link i = [] := by
    by_contra some_wait
    exact stuck (behind.reads_stream fresh room some_wait)
  have stream := behind.tracks.stream i
  rw [no_link, List.flatMap_nil] at stream
  obtain ⟨nothing, no_bytes⟩ := List.append_eq_nil_iff.mp stream
  exact ⟨no_datagrams, no_bytes, nothing⟩

/-- From any state on, reading ends; and if the key arrays have room, nothing waits where no
node can read any more. -/
theorem ring_comes_to_rest {acts : List (RingAct n)} (fresh : start.Fresh owner)
    (run : Run RingNet.step RingNet.Allowed start acts net) :
    Terminates RingNet.step RingNet.Reading net ∧
      (RoomFor start owner (enteredBy acts) →
        ∀ reads net', Run RingNet.step RingNet.Reading net reads net' →
          (∀ act, net'.Reading act → net'.step act = none) → net'.Quiet) := by
  obtain ⟨q, behind⟩ := fresh.behind run
  refine ⟨behind.terminates fresh, fun room reads net' read stuck => ?_⟩
  obtain ⟨q', behind'⟩ := behind.reads_run fresh read
  by_contra waits
  obtain ⟨act, reading, stepped⟩ := behind'.reads_on fresh room waits
  rw [stuck act reading] at stepped
  cases stepped

end

def waitingPair : RingNet 2 :=
  mixedPair.setDatagrams inC [⟨⟨9, 9⟩, (ClientRequest.insert rustKey storedPair).bytes⟩]

theorem ring_comes_to_rest_waitingPair : Terminates RingNet.step RingNet.Reading waitingPair ∧
    ∀ reads net', Run RingNet.step RingNet.Reading waitingPair reads net' →
      (∀ act, net'.Reading act → net'.step act = none) → net'.Quiet := by
  have allowed : mixedPair.Allowed (.client inC ⟨9, 9⟩ (.insert rustKey storedPair)) :=
    pairCheck_sound mixedPair _ (by decide +kernel)
  have run : Run RingNet.step RingNet.Allowed mixedPair
      [.client inC ⟨9, 9⟩ (.insert rustKey storedPair)] waitingPair := .snoc .nil allowed rfl
  have room : RoomFor mixedPair pairOwner
      (enteredBy [.client inC ⟨9, 9⟩ (.insert rustKey storedPair)]) := by
    intro i _
    revert i
    decide +kernel
  have rests := ring_comes_to_rest mixedPair_fresh run
  exact ⟨rests.1, rests.2 room⟩

end DhtRing.TestNode

import DhtRing.Handover
import DhtRing.Segments
import DhtRing.TestNode.Ownership
import DhtRing.TestNode.Rounds

/-!
# Requests at a node of either kind

A request as it goes over the wire, and what a node in C and a Rust node do with the
requests that one read brings: those for keys of the node are applied in their order and
the others go on to the successor, byte for byte.
-/

set_option autoImplicit false

namespace DhtRing.TestNode

open Framing

/-! ## Requests -/

/-- `htonl` and `htons`: the node in C keeps an address as it stands in the PDU. -/
def networkOrder (addr : Addr) : Addr :=
  ⟨readWord32 (fun i => (beBytes32 addr.address).getD i 0) 0,
    readWord16 (fun i => (beBytes16 addr.port).getD i 0) 0⟩

def sockaddr (addr : Addr) : List UInt8 := beBytes32 addr.address ++ beBytes16 addr.port

inductive ClientRequest where
  | insert (ssn : Ssn) (pair : ValuePair)
  | remove (ssn : Ssn)
  | lookup (ssn : Ssn) (sender : Addr)
deriving DecidableEq

namespace ClientRequest

def key : ClientRequest → Ssn
  | .insert ssn _ => ssn
  | .remove ssn => ssn
  | .lookup ssn _ => ssn

def pdu : ClientRequest → Pdu
  | .insert ssn pair => .valInsert ssn pair
  | .remove ssn => .valRemove ssn
  | .lookup ssn sender => .valLookup ssn (networkOrder sender)

def parsed : ClientRequest → PDU
  | .insert ssn pair => .valInsert (valInsertPduOf ssn pair)
  | .remove ssn => .valRemove (ValRemovePdu.new (ofLatin1 ssn.toList))
  | .lookup ssn sender =>
      .valLookup (ValLookupPdu.new (ofLatin1 ssn.toList) sender.address sender.port)

def bytes (request : ClientRequest) : List UInt8 := request.pdu.bytes

def update : ClientRequest → Option Update
  | .insert ssn pair => some (.insert ssn pair)
  | .remove ssn => some (.remove ssn)
  | .lookup _ _ => none

/-- A key to store is without zero bytes, and the texts are ASCII. -/
def Admissible : ClientRequest → Prop
  | .insert ssn pair => Nonzero ssn ∧ Ascii pair.name ∧ Ascii pair.email
  | .remove ssn => Nonzero ssn
  | .lookup _ _ => True

def within (range : UInt8 × UInt8) (request : ClientRequest) : Bool :=
  decide (range.1 ≤ DhtRing.hashSsn request.key) && decide (DhtRing.hashSsn request.key ≤ range.2)

end ClientRequest

def updates (requests : List ClientRequest) : List Update := requests.filterMap ClientRequest.update

/-! ## Answers -/

abbrev Reply := List UInt8 × List UInt8

def emptyResponse : List UInt8 :=
  (PDU.valLookupResponse (ValLookupResponsePdu.new (List.replicate 12 '0') [] [])).toBytes

/-- The answer to a request behind some updates.  A node in C finds the last insert of the
key and is silent about an absent one, a Rust node finds the first and has an empty answer. -/
def answer (rust : Bool) (before : List Update) : ClientRequest → List Reply
  | .lookup ssn sender =>
      let inserts := insertsSince ssn before
      match if rust then inserts.head? else inserts.getLast? with
      | some pair => [(sockaddr sender, (Pdu.valLookupResponse ssn pair).bytes)]
      | none => if rust then [(sockaddr sender, emptyResponse)] else []
  | _ => []

def answers (rust : Bool) (before : List Update) : List ClientRequest → List Reply
  | [] => []
  | request :: rest =>
      answer rust before request ++ answers rust (before ++ request.update.toList) rest

/-! ## Reading -/

inductive Output where
  | successor (bytes : List UInt8)
  | client (reply : Reply)
deriving DecidableEq

def Output.toSuccessor : Output → List UInt8
  | .successor bytes => bytes
  | .client _ => []

def Output.toClient : Output → Option Reply
  | .successor _ => none
  | .client reply => some reply

def relayed (outputs : List Output) : List UInt8 := outputs.flatMap Output.toSuccessor

def replied (outputs : List Output) : List Reply := outputs.filterMap Output.toClient

def outputC (selfData : SelfData) : DhtRing.Effect → Option Output
  | .tcp fd pdu =>
      if selfData.fdsSuccessor.map Loc.up = some fd then some (.successor pdu.bytes) else none
  | .udp dest pdu => some (.client (dest.bytes, pdu.bytes))
  | _ => none

def outputRust (node : Node) : Effect → Option Output
  | .tcp fd pdu =>
      if node.successor.map TcpStream.fd = some fd then some (.successor pdu.toBytes) else none
  | .udp pdu receiver => some (.client (sockaddr receiver, pdu.toBytes))
  | _ => none

/-- One `recv` of a node in C and the loop over what it has brought.  Nobody connects
meanwhile. -/
def recvC (selfData : SelfData) (recv : Recv) : Option (SelfData × List Output) :=
  let outcome := handleBuffer ⟨0, fun _ => false⟩ selfData recv.dispatched
  if outcome.ctl = .run then
    (outcome.effects.mapM (outputC selfData)).map fun outputs => (outcome.selfData, outputs)
  else none

def eventRust (node : Node) (event : Token) : Option (Node × List Output) :=
  match node.handleEvent event with
  | .error _ => none
  | .ok next =>
      ((next.effects.drop node.effects.length).mapM (outputRust node)).map fun outputs =>
        (next, outputs)

/-! ## The bytes of a request -/

theorem networkOrder_bytes (addr : Addr) : (networkOrder addr).bytes = sockaddr addr := by
  rw [Addr.bytes, networkOrder, sockaddr]
  dsimp only
  rw [word32_readWord32, word16_readWord16]
  rfl

section

variable (request : ClientRequest)

theorem ClientRequest.parsed_toBytes : request.parsed.toBytes = request.bytes := by
  cases request with
  | insert ssn pair => exact valInsertPduOf_bytes ssn pair
  | remove ssn =>
      simp [ClientRequest.parsed, ClientRequest.bytes, ClientRequest.pdu, PDU.toBytes, ValRemovePdu.new,
        toLatin1_take (ssnFits_ssn ssn), Pdu.bytes, Pdu.type]
  | lookup ssn sender =>
      simp [ClientRequest.parsed, ClientRequest.bytes, ClientRequest.pdu, PDU.toBytes, ValLookupPdu.new,
        toLatin1_take (ssnFits_ssn ssn), Pdu.bytes, Pdu.type, networkOrder_bytes, sockaddr]

theorem ClientRequest.parsed_parsed : request.parsed.Parsed := by
  cases request with
  | insert ssn pair => exact ⟨rfl, valInsertPduOf_fits ssn pair⟩
  | remove ssn => exact ⟨rfl, ssnFits_ssn ssn⟩
  | lookup ssn sender => exact ⟨rfl, ssnFits_ssn ssn⟩

theorem ClientRequest.parsed_wire : request.parsed.wire = request.bytes := by
  rw [← ClientRequest.parsed_toBytes]
  cases request with
  | insert ssn pair => exact PDU.wire_eq_toBytes rfl
  | remove ssn => exact PDU.wire_eq_toBytes rfl
  | lookup ssn sender => exact PDU.wire_eq_toBytes rfl

theorem ClientRequest.parsed_key : request.parsed.key = some (ofLatin1 request.key.toList) := by
  cases request <;> rfl

theorem ClientRequest.pdu_accepted : request.pdu.accepted = true := by
  cases request <;> rfl

theorem ClientRequest.pdu_requestKey : request.pdu.requestKey = some request.key := by
  cases request <;> rfl

theorem ClientRequest.bytes_ne_nil : request.bytes ≠ [] := by
  rw [← request.parsed_wire]
  exact PDU.wire_ne_nil _

theorem ClientRequest.length_bytes : request.bytes.length ≤ 525 := by
  rw [ClientRequest.bytes, Pdu.length_bytes]
  cases request with
  | insert ssn pair =>
      have name := pair.name.property
      have email := pair.email.property
      simp only [ClientRequest.pdu, Pdu.size]
      omega
  | remove ssn => simp [ClientRequest.pdu, Pdu.size]
  | lookup ssn sender => simp [ClientRequest.pdu, Pdu.size]

end

theorem ofLatin1_injective : Function.Injective ofLatin1 := by
  intro first second same
  have bytes := congrArg toLatin1 same
  rw [toLatin1_ofLatin1, toLatin1_ofLatin1] at bytes
  exact bytes

theorem ClientRequest.parsed_injective : Function.Injective ClientRequest.parsed := by
  intro first second same
  cases first with
  | insert ssn pair =>
      cases second with
      | insert ssn' pair' =>
          simp only [ClientRequest.parsed, valInsertPduOf, PDU.valInsert.injEq, ValInsertPdu.mk.injEq]
            at same
          obtain ⟨-, key, -, name, -, email⟩ := same
          obtain rfl := ofLatin1_inj.mp key
          obtain ⟨name₁, email₁⟩ := pair
          obtain ⟨name₂, email₂⟩ := pair'
          obtain rfl : name₁ = name₂ := Subtype.ext (ofLatin1_injective name)
          obtain rfl : email₁ = email₂ := Subtype.ext (ofLatin1_injective email)
          rfl
      | remove ssn' => cases same
      | lookup ssn' sender' => cases same
  | remove ssn =>
      cases second with
      | remove ssn' =>
          simp only [ClientRequest.parsed, ValRemovePdu.new, PDU.valRemove.injEq, ValRemovePdu.mk.injEq,
            true_and] at same
          rw [ofLatin1_inj.mp same]
      | insert ssn' pair' => cases same
      | lookup ssn' sender' => cases same
  | lookup ssn sender =>
      cases second with
      | lookup ssn' sender' =>
          simp only [ClientRequest.parsed, ValLookupPdu.new, PDU.valLookup.injEq, ValLookupPdu.mk.injEq,
            true_and] at same
          obtain ⟨key, address, port⟩ := same
          obtain rfl := ofLatin1_inj.mp key
          obtain ⟨address₁, port₁⟩ := sender
          obtain ⟨address₂, port₂⟩ := sender'
          cases address
          cases port
          rfl
      | insert ssn' pair' => cases same
      | remove ssn' => cases same

theorem flatMap_parsed_wire (requests : List ClientRequest) :
    (requests.map ClientRequest.parsed).flatMap PDU.wire = requests.flatMap ClientRequest.bytes := by
  rw [List.flatMap_map]
  exact List.flatMap_congr fun request _ => request.parsed_wire

theorem parsed_of_mem {requests : List ClientRequest} :
    ∀ pdu ∈ requests.map ClientRequest.parsed, pdu.Parsed := by
  intro pdu mem
  obtain ⟨request, -, rfl⟩ := List.mem_map.mp mem
  exact request.parsed_parsed

theorem requests_of_prefix {first whole : List ClientRequest} {rest : List UInt8}
    (same : first.flatMap ClientRequest.bytes ++ rest = whole.flatMap ClientRequest.bytes) :
    ∃ later, whole = first ++ later ∧ rest = later.flatMap ClientRequest.bytes := by
  rw [← flatMap_parsed_wire, ← flatMap_parsed_wire] at same
  obtain ⟨others, parsed, left⟩ := parsePdu_frames.of_prefix parsed_of_mem parsed_of_mem same
  obtain ⟨requests, later, rfl, front, rfl⟩ := List.map_eq_append_iff.mp parsed
  rw [flatMap_parsed_wire] at left
  rw [ClientRequest.parsed_injective.list_map front]
  exact ⟨later, rfl, left⟩

theorem updates_append (first later : List ClientRequest) :
    updates (first ++ later) = updates first ++ updates later :=
  List.filterMap_append

theorem updates_singleton (request : ClientRequest) :
    updates [request] = request.update.toList := by
  cases request <;> rfl

/-! ## What is sent -/

def outputsOf (rust : Bool) (range : UInt8 × UInt8) (before : List Update) :
    List ClientRequest → List Output
  | [] => []
  | request :: rest =>
      if request.within range then
        (answer rust before request).map .client ++
          outputsOf rust range (before ++ request.update.toList) rest
      else .successor request.bytes :: outputsOf rust range before rest

section

variable {rust : Bool} {range : UInt8 × UInt8} {before : List Update}

theorem relayed_append (first later : List Output) :
    relayed (first ++ later) = relayed first ++ relayed later :=
  List.flatMap_append

theorem replied_append (first later : List Output) :
    replied (first ++ later) = replied first ++ replied later :=
  List.filterMap_append

theorem relayed_clients (replies : List Reply) : relayed (replies.map .client) = [] := by
  rw [relayed, List.flatMap_map, List.flatMap_eq_nil_iff]
  exact fun _ _ => rfl

theorem replied_clients (replies : List Reply) : replied (replies.map .client) = replies := by
  rw [replied, List.filterMap_map]
  exact List.filterMap_some

/-- The requests for other nodes go on as they came. -/
theorem relayed_outputsOf (requests : List ClientRequest) :
    relayed (outputsOf rust range before requests) =
      (requests.filter fun request => !request.within range).flatMap ClientRequest.bytes := by
  induction requests generalizing before with
  | nil => rfl
  | cons request rest ih =>
      rw [outputsOf]
      by_cases mine : request.within range = true
      · rw [if_pos mine, relayed_append, relayed_clients, ih, List.nil_append,
          List.filter_cons_of_neg (by simp [mine])]
      · rw [if_neg mine, List.filter_cons_of_pos (by simp [mine]), List.flatMap_cons, ← ih]
        rfl

theorem replied_outputsOf (requests : List ClientRequest) :
    replied (outputsOf rust range before requests) =
      answers rust before (requests.filter (ClientRequest.within range)) := by
  induction requests generalizing before with
  | nil => rfl
  | cons request rest ih =>
      rw [outputsOf]
      by_cases mine : request.within range = true
      · rw [if_pos mine, replied_append, replied_clients, ih, List.filter_cons_of_pos mine, answers]
      · rw [if_neg mine, List.filter_cons_of_neg mine, ← ih]
        rfl

theorem answers_append (first later : List ClientRequest) :
    answers rust before (first ++ later) =
      answers rust before first ++ answers rust (before ++ updates first) later := by
  induction first generalizing before with
  | nil =>
      rw [List.nil_append, answers, List.nil_append, show updates [] = [] from rfl,
        List.append_nil]
  | cons request rest ih =>
      have split : updates (request :: rest) = request.update.toList ++ updates rest := by
        rw [← updates_singleton, ← updates_append, List.singleton_append]
      rw [List.cons_append, answers, answers, ih, split, List.append_assoc, List.append_assoc]

end

/-! ## The node in C -/

section

variable {selfData : SelfData} {range : UInt8 × UInt8} {log : List ClientRequest} {request : ClientRequest}

theorem ClientRequest.Admissible.update (admissible : request.Admissible)
    (mine : request.within range = true) {update : Update}
    (is_update : request.update = some update) :
    update.Admissible range.1 range.2 := by
  have inside := Bool.and_eq_true_iff.mp mine
  cases request with
  | insert ssn pair =>
      cases is_update
      refine ⟨admissible.1, ⟨of_decide_eq_true inside.1, of_decide_eq_true inside.2⟩, ?_⟩
      intro ssn' pair' same
      cases same
      exact admissible.2
  | remove ssn =>
      cases is_update
      refine ⟨admissible, ⟨of_decide_eq_true inside.1, of_decide_eq_true inside.2⟩, ?_⟩
      intro ssn' pair' same
      cases same
  | lookup ssn sender => cases is_update

theorem HoldsLast.checkRange_eq (holds : HoldsLast range.1 range.2 (updates log) selfData) :
    checkRange selfData request.key = request.within range := by
  rw [checkRange, holds.range.1, holds.range.2, ClientRequest.within]

def SameSockets (after before : SelfData) : Prop :=
  after.fdsSuccessor = before.fdsSuccessor ∧ after.fdsPredecessor = before.fdsPredecessor

theorem update_quiet {ssn : Ssn} (in_range : checkRange selfData ssn = true) :
    (∀ pair, (handleHtInsert selfData ssn pair).effects = [] ∧
      SameSockets (handleHtInsert selfData ssn pair).selfData selfData) ∧
    (handleHtRemove selfData ssn).effects = [] ∧
      SameSockets (handleHtRemove selfData ssn).selfData selfData := by
  refine ⟨fun pair => ?_, ?_⟩
  · rw [handleHtInsert, if_pos in_range]
    cases selfData.hashTable with
    | none => exact ⟨rfl, rfl, rfl⟩
    | some ht =>
        dsimp only
        split
        · exact ⟨rfl, rfl, rfl⟩
        · split <;> exact ⟨rfl, rfl, rfl⟩
  · rw [handleHtRemove, if_pos in_range]
    cases selfData.hashTable with
    | none => exact ⟨rfl, rfl, rfl⟩
    | some ht =>
        dsimp only
        split <;> exact ⟨rfl, rfl, rfl⟩

def ClientRequest.Fits (log : List ClientRequest) (request : ClientRequest) : Prop :=
  (storedKeys (updates (log ++ [request]))).length ≤ maxSize

theorem onC_eq_some_iff {update : Update} {outcome : Outcome} {selfData' : SelfData}
    (handler : update.onC selfData = if outcome.ctl = .run then some outcome.selfData else none) :
    update.onC selfData = some selfData' ↔ outcome.ctl = .run ∧ outcome.selfData = selfData' := by
  rw [handler]
  by_cases returns : outcome.ctl = .run
  · simp [returns]
  · simp [returns]

/-- A request for the node: its handler returns if there is room, and only then. -/
theorem HoldsLast.dispatch_mine (holds : HoldsLast range.1 range.2 (updates log) selfData)
    (admissible : request.Admissible) (mine : request.within range = true) (env : DhtRing.Env) :
    ∃ outcome, dispatch env selfData request.pdu = some outcome ∧
      SameSockets outcome.selfData selfData ∧
      (outcome.ctl = .run → HoldsLast range.1 range.2 (updates (log ++ [request])) outcome.selfData ∧
        outcome.effects.mapM (outputC selfData) =
          some ((answer false (updates log) request).map .client)) ∧
      ((storedKeys (updates log)).length ≤ maxSize → request.Fits log → outcome.ctl = .run) := by
  have in_range : checkRange selfData request.key = true := by rw [holds.checkRange_eq, mine]
  have update : ∀ {update : Update}, request.update = some update →
      update.Admissible range.1 range.2 := fun is_update => admissible.update mine is_update
  rw [ClientRequest.Fits, updates_append, updates_singleton]
  cases request with
  | insert ssn pair =>
      obtain ⟨quiet, kept⟩ : (handleHtInsert selfData ssn pair).effects = [] ∧ _ :=
        (update_quiet in_range).1 pair
      have handler : (Update.insert ssn pair).onC selfData =
        if (handleHtInsert selfData ssn pair).ctl = .run then
          some (handleHtInsert selfData ssn pair).selfData else none := rfl
      refine ⟨handleHtInsert selfData ssn pair, rfl, kept, ?_⟩
      by_cases room : ssn ∈ storedKeys (updates log) ∨ (storedKeys (updates log)).length < maxSize
      · obtain ⟨selfData', on, next⟩ := holds.insert (update rfl) room
        obtain ⟨returns, rfl⟩ := (onC_eq_some_iff handler).mp on
        exact ⟨fun _ => ⟨next, by rw [quiet]; rfl⟩, fun _ _ => returns⟩
      · rw [not_or] at room
        have stops := holds.insert_full (update rfl) room.1 room.2
        refine ⟨fun returns => ?_, fun _ fits => ?_⟩
        · rw [(onC_eq_some_iff handler).mpr ⟨returns, rfl⟩] at stops
          cases stops
        · change (storedKeys (updates log ++ [.insert ssn pair])).length ≤ maxSize at fits
          rw [storedKeys_snoc] at fits
          dsimp only at fits
          rw [if_neg room.1, List.length_append] at fits
          exact absurd fits room.2
  | remove ssn =>
      obtain ⟨quiet, kept⟩ : (handleHtRemove selfData ssn).effects = [] ∧ _ :=
        (update_quiet in_range).2
      have handler : (Update.remove ssn).onC selfData =
        if (handleHtRemove selfData ssn).ctl = .run then
          some (handleHtRemove selfData ssn).selfData else none := rfl
      obtain ⟨selfData', on, next⟩ := holds.remove (update rfl)
      obtain ⟨returns, rfl⟩ := (onC_eq_some_iff handler).mp on
      exact ⟨handleHtRemove selfData ssn, rfl, kept, fun _ => ⟨next, by rw [quiet]; rfl⟩,
        fun _ _ => returns⟩
  | lookup ssn sender =>
      have run := handleHtLookup_spec holds.stores ssn (networkOrder sender) in_range
      refine ⟨_, rfl, handleHtLookup_selfData _ ▸ ⟨rfl, rfl⟩, fun _ => ⟨?_, ?_⟩, fun _ _ => by rw [run]⟩
      · change HoldsLast range.1 range.2 (updates log ++ []) _
        rw [run, List.append_nil]
        exact holds
      · rw [run, holds.last]
        simp only [answer, Bool.false_eq_true, if_false]
        cases (insertsSince ssn (updates log)).getLast? with
        | none => rfl
        | some pair => simp [outputC, networkOrder_bytes]

theorem HoldsLast.dispatch_other (holds : HoldsLast range.1 range.2 (updates log) selfData)
    (other : request.within range = false) {conn : Conn}
    (successor : selfData.fdsSuccessor = some conn) (env : DhtRing.Env) :
    dispatch env selfData request.pdu = some ⟨selfData, [.tcp (.up conn) request.pdu], .run⟩ :=
  dispatch_forward env request.pdu_requestKey (by rw [holds.checkRange_eq, other]) successor

theorem HoldsLast.handleBuffer (env : DhtRing.Env) (requests : List ClientRequest) :
    ∀ {log : List ClientRequest} {selfData : SelfData},
      HoldsLast range.1 range.2 (updates log) selfData →
      (∀ request ∈ requests, request.Admissible) →
      (∀ request ∈ requests, request.within range = false → selfData.fdsSuccessor.isSome) →
      (handleBuffer env selfData (requests.map ClientRequest.pdu)).ctl = .run →
        HoldsLast range.1 range.2 (updates (log ++ requests.filter (ClientRequest.within range)))
            (handleBuffer env selfData (requests.map ClientRequest.pdu)).selfData ∧
          SameSockets (handleBuffer env selfData (requests.map ClientRequest.pdu)).selfData
            selfData ∧
          (handleBuffer env selfData (requests.map ClientRequest.pdu)).effects.mapM (outputC selfData) =
            some (outputsOf false range (updates log) requests) := by
  induction requests with
  | nil =>
      intro log selfData holds _ _ _
      rw [List.filter_nil, List.append_nil]
      exact ⟨holds, ⟨rfl, rfl⟩, rfl⟩
  | cons request rest ih =>
      intro log selfData holds admissible linked runs
      have admissible_rest : ∀ other ∈ rest, other.Admissible :=
        fun other mem => admissible other (List.mem_cons_of_mem _ mem)
      have linked_rest : ∀ other ∈ rest, other.within range = false →
          selfData.fdsSuccessor.isSome :=
        fun other mem => linked other (List.mem_cons_of_mem _ mem)
      rw [List.map_cons, DhtRing.handleBuffer] at runs ⊢
      cases mine : request.within range with
      | true =>
          obtain ⟨outcome, run, kept, next, -⟩ :=
            holds.dispatch_mine (admissible request List.mem_cons_self) mine env
          rw [run] at runs ⊢
          dsimp only at runs ⊢
          obtain ⟨after, effects, ctl⟩ := outcome
          cases ctl with
          | run =>
              obtain ⟨holds', sent⟩ := next rfl
              rw [andThen_run] at runs ⊢
              dsimp only at kept holds' sent
              obtain ⟨last, same, rest_sent⟩ := ih holds' admissible_rest
                (by rw [kept.1]; exact linked_rest) runs
              have outputs : outputC after = outputC selfData := by
                funext effect
                unfold outputC
                rw [kept.1]
              rw [List.filter_cons_of_pos mine]
              refine ⟨?_, ⟨same.1.trans kept.1, same.2.trans kept.2⟩, ?_⟩
              · rw [List.append_cons]
                exact last
              · rw [outputs] at rest_sent
                rw [List.mapM_append, sent, rest_sent, outputsOf, if_pos mine, updates_append,
                  updates_singleton]
                rfl
          | accept => cases runs
          | exit message => cases runs
          | fault => cases runs
      | false =>
          obtain ⟨conn, successor⟩ :=
            Option.isSome_iff_exists.mp (linked request List.mem_cons_self mine)
          rw [holds.dispatch_other mine successor env] at runs ⊢
          dsimp only at runs ⊢
          rw [andThen_run] at runs ⊢
          obtain ⟨last, same, rest_sent⟩ := ih holds admissible_rest linked_rest runs
          rw [List.filter_cons_of_neg (by simp [mine])]
          refine ⟨last, same, ?_⟩
          have sent : [DhtRing.Effect.tcp (.up conn) request.pdu].mapM (outputC selfData) =
              some [.successor request.bytes] := by
            simp [outputC, successor, ClientRequest.bytes]
          rw [List.mapM_append, sent, rest_sent, outputsOf, if_neg (by simp [mine])]
          rfl

theorem dispatched_requests {recv : Recv} {requests : List ClientRequest}
    (whole : recv.chunk = requests.flatMap ClientRequest.bytes) :
    recv.dispatched = requests.map ClientRequest.pdu := by
  apply Recv.dispatched_of_encodeAll
  · intro pdu mem
    obtain ⟨request, -, rfl⟩ := List.mem_map.mp mem
    exact request.pdu_accepted
  · rw [whole, encodeAll, List.flatMap_map]
    rfl

theorem HoldsLast.recvC {recv : Recv} {requests : List ClientRequest} {next : SelfData}
    {outputs : List Output} (holds : HoldsLast range.1 range.2 (updates log) selfData)
    (whole : recv.chunk = requests.flatMap ClientRequest.bytes)
    (admissible : ∀ request ∈ requests, request.Admissible)
    (linked : ∀ request ∈ requests, request.within range = false → selfData.fdsSuccessor.isSome)
    (received : recvC selfData recv = some (next, outputs)) :
    HoldsLast range.1 range.2 (updates (log ++ requests.filter (ClientRequest.within range))) next ∧
      SameSockets next selfData ∧
      outputs = outputsOf false range (updates log) requests := by
  rw [TestNode.recvC, dispatched_requests whole] at received
  split at received
  · rename_i returns
    obtain ⟨last, same, sent⟩ := holds.handleBuffer _ requests admissible linked returns
    rw [sent] at received
    cases received
    exact ⟨last, same, rfl⟩
  · cases received

theorem HoldsLast.recvC_isSome {recv : Recv}
    (holds : HoldsLast range.1 range.2 (updates log) selfData)
    (room : (storedKeys (updates log)).length ≤ maxSize) (whole : recv.chunk = request.bytes)
    (admissible : request.Admissible)
    (linked : request.within range = false → selfData.fdsSuccessor.isSome)
    (fits : request.within range = true → request.Fits log) :
    (TestNode.recvC selfData recv).isSome := by
  have single : ∀ other ∈ [request], other = request := fun other mem => List.mem_singleton.mp mem
  have returns : (DhtRing.handleBuffer ⟨0, fun _ => false⟩ selfData
      ([request].map ClientRequest.pdu)).ctl = .run := by
    rw [List.map_singleton, DhtRing.handleBuffer]
    cases mine : request.within range with
    | true =>
        obtain ⟨⟨after, effects, ctl⟩, run, -, -, fits_run⟩ :=
          holds.dispatch_mine admissible mine ⟨0, fun _ => false⟩
        rw [run]
        dsimp only at fits_run ⊢
        rw [fits_run room (fits mine)]
        rfl
    | false =>
        obtain ⟨conn, successor⟩ := Option.isSome_iff_exists.mp (linked mine)
        rw [holds.dispatch_other mine successor]
        rfl
  obtain ⟨-, -, sent⟩ := holds.handleBuffer _ [request]
    (fun other mem => by rw [single other mem]; exact admissible)
    (fun other mem => by rw [single other mem]; exact linked) returns
  have dispatched : recv.dispatched = [request].map ClientRequest.pdu :=
    dispatched_requests (by simp [whole])
  rw [TestNode.recvC, dispatched, if_pos returns, sent]
  rfl

end

/-! ## The Rust node -/

section

variable {node : Node} {range : UInt8 × UInt8} {log : List ClientRequest} {request : ClientRequest}

theorem HoldsAll.inMyRange_eq (holds : HoldsAll range.1 range.2 (updates log) node) :
    node.inMyRange (ofLatin1 request.key.toList) = request.within range := by
  rw [Node.inMyRange, hashSsn_ofLatin1, holds.range, ClientRequest.within]

/-- Which entry the Rust node answers with. -/
theorem HoldsAll.lookupResponse_bytes {key : Ssn}
    (holds : HoldsAll range.1 range.2 (updates log) node)
    (ascii : ∀ pair ∈ insertsSince key (updates log), Ascii pair.name ∧ Ascii pair.email) :
    (PDU.valLookupResponse (node.lookupResponse (ofLatin1 key.toList))).toBytes =
      match (insertsSince key (updates log)).head? with
      | some pair => (Pdu.valLookupResponse key pair).bytes
      | none => emptyResponse := by
  have listed : node.values.find? (fun entry => entry.ssn = ofLatin1 key.toList) =
      ((insertsSince key (updates log)).head?).map (entryOf key) := by
    rw [← List.head?_filter]
    change (node.entriesOf key).head? = _
    rw [holds.all, List.head?_map]
  rw [Node.lookupResponse, listed]
  cases first : (insertsSince key (updates log)).head? with
  | none => rfl
  | some pair =>
      obtain ⟨name, email⟩ := ascii pair (List.mem_of_mem_head? first)
      exact TestNode.lookupResponse_bytes name email

theorem ascii_of_admissible (admissible : ∀ request ∈ log, request.Admissible) {key : Ssn} :
    ∀ pair ∈ insertsSince key (updates log), Ascii pair.name ∧ Ascii pair.email := by
  intro pair mem
  obtain ⟨request, in_log, is_update⟩ := List.mem_filterMap.mp (mem_of_mem_insertsSince mem)
  have known := admissible request in_log
  cases request with
  | insert ssn pair' =>
      cases is_update
      exact known.2
  | remove ssn => cases is_update
  | lookup ssn sender => cases is_update

theorem HoldsAll.served (holds : HoldsAll range.1 range.2 (updates log) node)
    (admissible : ∀ other ∈ log ++ [request], other.Admissible)
    (mine : request.within range = true) :
    HoldsAll range.1 range.2 (updates (log ++ [request])) (node.served request.parsed).settled ∧
      ∃ sent, (node.served request.parsed).settled.effects = node.effects ++ sent ∧
        sent.mapM (outputRust node) =
          some ((answer true (updates log) request).map .client) := by
  have here : request.Admissible := admissible request (by simp)
  have in_range : node.inMyRange (ofLatin1 request.key.toList) = true := by
    rw [holds.inMyRange_eq, mine]
  rw [updates_append, updates_singleton]
  cases request with
  | insert ssn pair =>
      obtain ⟨next, on, next_holds⟩ := holds.insert (here.update mine rfl)
      have same : next = node.served (ClientRequest.insert ssn pair).parsed :=
        (Except.ok.inj ((if_pos in_range).symm.trans on)).symm
      subst same
      exact ⟨⟨next_holds.range, next_holds.all⟩, [], (List.append_nil _).symm, rfl⟩
  | remove ssn =>
      obtain ⟨next, on, next_holds⟩ := holds.remove (here.update mine rfl)
      have same : next = node.served (ClientRequest.remove ssn).parsed :=
        (Except.ok.inj ((if_pos in_range).symm.trans on)).symm
      subst same
      exact ⟨⟨next_holds.range, next_holds.all⟩, [], (List.append_nil _).symm, rfl⟩
  | lookup ssn sender =>
      have ascii : ∀ pair ∈ insertsSince ssn (updates log), Ascii pair.name ∧ Ascii pair.email :=
        ascii_of_admissible fun other mem => admissible other (List.mem_append_left _ mem)
      have bytes := holds.lookupResponse_bytes ascii
      refine ⟨?_, _, rfl, ?_⟩
      · change HoldsAll range.1 range.2 (updates log ++ []) _
        rw [List.append_nil]
        exact ⟨holds.range, holds.all⟩
      · simp only [ValLookupPdu.new, answer, if_true]
        rw [List.mapM_cons, outputRust, bytes]
        cases (insertsSince ssn (updates log)).head? <;> rfl

theorem HoldsAll.handlePdus (requests : List ClientRequest) :
    ∀ {log : List ClientRequest} {node : Node}
    {pdus : List (PDU × Source)}, HoldsAll range.1 range.2 (updates log) node →
      pdus.map Prod.fst = requests.map ClientRequest.parsed →
      (∀ request ∈ log ++ requests, request.Admissible) →
      (∀ request ∈ requests, request.within range = false → node.successor.isSome) →
        ∃ next sent, node.handlePdus pdus = .ok next ∧
          HoldsAll range.1 range.2 (updates (log ++ requests.filter (ClientRequest.within range))) next ∧
          next.effects = node.effects ++ sent ∧
          sent.mapM (outputRust node) = some (outputsOf true range (updates log) requests) := by
  induction requests with
  | nil =>
      intro log node pdus holds same _ _
      rw [List.map_eq_nil_iff.mp same, List.filter_nil, List.append_nil]
      exact ⟨node, [], rfl, holds, (List.append_nil _).symm, rfl⟩
  | cons request rest ih =>
      intro log node pdus holds same admissible linked
      obtain ⟨⟨pdu, source⟩, pdus, rfl, first, later⟩ := List.map_eq_cons_iff.mp same
      obtain rfl : pdu = request.parsed := first
      have linked_rest : ∀ other ∈ rest, other.within range = false → node.successor.isSome :=
        fun other mem => linked other (List.mem_cons_of_mem _ mem)
      rw [Node.handlePdus, List.foldlM_cons, Node.handlePdu_of_key request.parsed_key,
        holds.inMyRange_eq]
      cases mine : request.within range with
      | true =>
          rw [if_pos rfl]
          rw [List.append_cons] at admissible
          obtain ⟨holds', first_sent, emitted, outputs⟩ := holds.served
            (fun other mem => admissible other (List.mem_append_left _ mem)) mine
          have kept : (node.served request.parsed).settled.successor = node.successor := by
            cases request <;> rfl
          have same_outputs : outputRust (node.served request.parsed).settled = outputRust node := by
            funext effect
            unfold outputRust
            rw [kept]
          obtain ⟨next, sent, ran, last, effects, rest_outputs⟩ :=
            ih holds' later admissible (by rw [kept]; exact linked_rest)
          rw [same_outputs, updates_append, updates_singleton] at rest_outputs
          refine ⟨next, first_sent ++ sent, ran, ?_, ?_, ?_⟩
          · rw [List.filter_cons_of_pos mine, List.append_cons]
            exact last
          · rw [effects, emitted, List.append_assoc]
          · rw [List.mapM_append, outputs, rest_outputs, outputsOf, if_pos mine]
            rfl
      | false =>
          rw [if_neg Bool.false_ne_true]
          obtain ⟨socket, set⟩ :=
            Option.isSome_iff_exists.mp (linked request List.mem_cons_self mine)
          rw [Node.forward_of_some set]
          have forwarded : HoldsAll range.1 range.2 (updates log)
              (node.emit [.tcp socket.fd request.parsed]).settled := ⟨holds.range, holds.all⟩
          obtain ⟨next, sent, ran, last, effects, rest_outputs⟩ :=
            ih forwarded later (fun other mem => admissible other (by
              rcases List.mem_append.mp mem with old | new
              · exact List.mem_append_left _ old
              · exact List.mem_append_right _ (List.mem_cons_of_mem _ new))) linked_rest
          have one : [Effect.tcp socket.fd request.parsed].mapM (outputRust node) =
              some [.successor request.bytes] := by
            simp [outputRust, set, request.parsed_toBytes]
          refine ⟨next, .tcp socket.fd request.parsed :: sent, ran, ?_, ?_, ?_⟩
          · rw [List.filter_cons_of_neg (by simp [mine])]
            exact last
          · rw [effects]
            exact List.append_assoc ..
          · rw [← List.singleton_append, List.mapM_append, one,
              show sent.mapM (outputRust node) = _ from rest_outputs, outputsOf,
              if_neg (by simp [mine])]
            rfl

/-- Between two polls: nothing waits in the node but bytes of a PDU that is not complete. -/
structure Node.Ready (node : Node) : Prop where
  udpWrapper : node.udpWrapper = .new
  datagrams : node.udpSocket.datagrams = []
  queue : node.predecessorWrapper.incomingQueue = []
  waits : parsePdu node.predecessorWrapper.buffer = .ok none
  bursts : ∀ stream, node.predecessor = some stream → stream.bursts = []

theorem tryRead_requests {requests : List ClientRequest} :
    ∀ {datagrams : List Datagram} (queue : List Message),
      datagrams.map Datagram.bytes = requests.map ClientRequest.bytes →
        ∃ messages, UdpWrapper.tryRead ⟨queue, []⟩ datagrams = .ok ⟨queue ++ messages, []⟩ ∧
          messages.map Prod.fst = requests.map ClientRequest.parsed := by
  induction requests with
  | nil =>
      intro datagrams queue same
      rw [List.map_eq_nil_iff.mp same]
      exact ⟨[], by rw [List.append_nil]; rfl, rfl⟩
  | cons request rest ih =>
      intro datagrams queue same
      obtain ⟨datagram, datagrams, rfl, bytes, later⟩ := List.map_eq_cons_iff.mp same
      have carries : datagram.Carries [request.parsed] := by
        refine ⟨?_, ?_, ?_⟩
        · intro pdu mem
          rw [List.mem_singleton.mp mem]
          exact request.parsed_parsed
        · rw [bytes, List.flatMap_singleton, request.parsed_wire]
        · rw [bytes]
          exact request.length_bytes.trans (by decide)
      obtain ⟨messages, read, pdus⟩ :=
        ih (queue ++ [(request.parsed, datagram.sender)]) later
      refine ⟨(request.parsed, datagram.sender) :: messages, ?_, by rw [List.map_cons, pdus]; rfl⟩
      rw [UdpWrapper.tryRead, List.foldlM_cons, UdpWrapper.receive_of_carries rfl carries]
      change UdpWrapper.tryRead ⟨queue ++ [(request.parsed, datagram.sender)], []⟩ datagrams = _
      rw [read, List.append_assoc]
      rfl

theorem HoldsAll.eventRust {requests : List ClientRequest} {event : Token} {read : Node}
    {pdus : List (PDU × Source)} (holds : HoldsAll range.1 range.2 (updates log) node)
    (collected : node.collect event = .ok (pdus, read))
    (successor : read.successor = node.successor) (effects : read.effects = node.effects)
    (kept : read.values = node.values ∧ read.hashRange = node.hashRange)
    (same : pdus.map Prod.fst = requests.map ClientRequest.parsed)
    (admissible : ∀ request ∈ log ++ requests, request.Admissible)
    (linked : ∀ request ∈ requests, request.within range = false → node.successor.isSome) :
    ∃ next, TestNode.eventRust node event =
        some (next, outputsOf true range (updates log) requests) ∧
      HoldsAll range.1 range.2 (updates (log ++ requests.filter (ClientRequest.within range))) next ∧
      next.withSockets read = next := by
  have holds_read : HoldsAll range.1 range.2 (updates log) read := by
    refine ⟨kept.2.trans holds.range, fun key => ?_⟩
    rw [Node.entriesOf, kept.1]
    exact holds.all key
  obtain ⟨next, sent, ran, last, emitted, outputs⟩ :=
    holds_read.handlePdus requests same admissible (by rw [successor]; exact linked)
  have same_outputs : outputRust read = outputRust node := by
    funext effect
    unfold outputRust
    rw [successor]
  refine ⟨next, ?_, last, Node.handlePdus_sockets ran⟩
  rw [TestNode.eventRust, Node.handleEvent_eq collected (by rw [successor]), ran]
  dsimp only
  rw [emitted, effects, List.drop_left, ← same_outputs, outputs]
  rfl

theorem HoldsAll.eventUdp {requests : List ClientRequest} {datagrams : List Datagram}
    (holds : HoldsAll range.1 range.2 (updates log) node) (ready : node.Ready)
    (carry : datagrams.map Datagram.bytes = requests.map ClientRequest.bytes)
    (admissible : ∀ request ∈ log ++ requests, request.Admissible)
    (linked : ∀ request ∈ requests, request.within range = false → node.successor.isSome) :
    ∃ next, TestNode.eventRust
          { node with udpSocket := { node.udpSocket with datagrams := datagrams } } .udp =
        some (next, outputsOf true range (updates log) requests) ∧
      HoldsAll range.1 range.2 (updates (log ++ requests.filter (ClientRequest.within range))) next ∧
      next.Ready ∧ next.successor = node.successor ∧ next.predecessor = node.predecessor ∧
      next.predecessorWrapper = node.predecessorWrapper := by
  obtain ⟨messages, read, pdus⟩ := tryRead_requests [] carry
  rw [List.nil_append] at read
  have collected : Node.collect
      { node with udpSocket := { node.udpSocket with datagrams := datagrams } } .udp =
        .ok (messages.map fun x => (x.1, .udp x.2), { node with
          udpSocket := { node.udpSocket with datagrams := [] }
          udpWrapper := .new }) := by
    rw [Node.collect, ready.udpWrapper]
    change (UdpWrapper.tryRead ⟨[], []⟩ datagrams >>= _) = _
    rw [read]
    rfl
  have holds' : HoldsAll range.1 range.2 (updates log)
      { node with udpSocket := { node.udpSocket with datagrams := datagrams } } :=
    ⟨holds.range, holds.all⟩
  obtain ⟨next, ran, last, sockets⟩ := holds'.eventRust collected rfl rfl ⟨rfl, rfl⟩
    (by rw [List.map_map, ← pdus]; rfl) admissible linked
  refine ⟨next, ran, last, ?_, ?_⟩
  · rw [← sockets]
    exact ⟨rfl, rfl, ready.queue, ready.waits, ready.bursts⟩
  · rw [← sockets]
    exact ⟨rfl, rfl, rfl⟩

/-- The poll of a Rust node reports its predecessor.  What comes in are the next bytes of a
stream of requests, and a request of which some bytes are missing waits. -/
theorem HoldsAll.eventTcp {link : List ClientRequest} {stream : TcpStream} {chunk : Burst}
    {rest : List UInt8} {next : Node} {outputs : List Output}
    (holds : HoldsAll range.1 range.2 (updates log) node) (ready : node.Ready)
    (connected : node.predecessor = some stream)
    (room : node.predecessorWrapper.buffer.length + chunk.val.length < bufferSize)
    (split : node.predecessorWrapper.buffer ++ (chunk.val ++ rest) = link.flatMap ClientRequest.bytes)
    (admissible : ∀ request ∈ log ++ link, request.Admissible)
    (linked : ∀ request ∈ link, request.within range = false → node.successor.isSome)
    (ran : TestNode.eventRust
      { node with predecessor := some (Node.arrive stream ⟨[chunk], false⟩) } .predecessor =
        some (next, outputs)) :
    ∃ requests later, link = requests ++ later ∧
      outputs = outputsOf true range (updates log) requests ∧
      HoldsAll range.1 range.2 (updates (log ++ requests.filter (ClientRequest.within range))) next ∧
      next.Ready ∧ next.successor = node.successor ∧ next.predecessor.isSome ∧
      next.predecessorWrapper.buffer ++ rest = later.flatMap ClientRequest.bytes := by
  have no_bursts := ready.bursts stream connected
  have pending : (Node.arrive stream ⟨[chunk], false⟩).pending = chunk.val := by
    rw [TcpStream.pending, Node.arrive, no_bursts]
    exact List.append_nil _
  have fits : node.predecessorWrapper.buffer.length +
      (Node.arrive stream ⟨[chunk], false⟩).pending.length < bufferSize := by
    rw [pending]
    exact room
  obtain ⟨socket, read⟩ := TcpWrapper.tryRead_of_room fits
  rw [pending, ready.queue] at read
  simp only [List.nil_append] at read
  cases fed : feed parsePdu ([], node.predecessorWrapper.buffer) chunk.val with
  | error e =>
      -- the parser panics, and with it the node
      have failed : Node.collect
          { node with predecessor := some (Node.arrive stream ⟨[chunk], false⟩) } .predecessor =
            .error e := by
        simp only [Node.collect]
        rw [read, fed]
        rfl
      rw [TestNode.eventRust, Node.handleEvent_error failed] at ran
      cases ran
  | ok found =>
      obtain ⟨found, waiting⟩ := found
      rw [fed] at read
      obtain ⟨_, rfl, valid, front, waits⟩ := parsePdu_frames.of_feed fed
      have stream_eq : found.flatMap PDU.wire ++ (waiting ++ rest) =
          (link.map ClientRequest.parsed).flatMap PDU.wire := by
        rw [flatMap_parsed_wire, ← split, ← List.append_assoc, ← List.append_assoc, front]
      obtain ⟨others, parsed, left⟩ := parsePdu_frames.of_prefix valid parsed_of_mem stream_eq
      obtain ⟨requests, later, rfl, first, second⟩ := List.map_eq_append_iff.mp parsed
      have collected : Node.collect
          { node with predecessor := some (Node.arrive stream ⟨[chunk], false⟩) } .predecessor =
            .ok ((found.map fun pdu => (pdu, stream.peerAddr)).map fun x => (x.1, .predecessor x.2),
              { node with
                predecessor := some socket
                predecessorWrapper := ⟨[], waiting⟩ }) := by
        simp only [Node.collect]
        rw [read]
        rfl
      have holds' : HoldsAll range.1 range.2 (updates log)
          { node with predecessor := some (Node.arrive stream ⟨[chunk], false⟩) } :=
        ⟨holds.range, holds.all⟩
      have pdus : ((found.map fun pdu => (pdu, stream.peerAddr)).map fun x =>
          (x.1, Source.predecessor x.2)).map Prod.fst = requests.map ClientRequest.parsed := by
        rw [List.map_map, List.map_map, first]
        exact List.map_id' found
      obtain ⟨last, ran', last_holds, sockets⟩ := holds'.eventRust collected rfl rfl ⟨rfl, rfl⟩ pdus
        (fun request mem => admissible request (by
          rw [← List.append_assoc]
          exact List.mem_append_left _ mem))
        (fun request mem => linked request (List.mem_append_left _ mem))
      cases ran.symm.trans ran'
      have empty : socket.bursts = [] := by
        obtain ⟨-, -, -, -, all, -⟩ := TcpWrapper.tryRead_ok read
        apply TcpStream.bursts_of_pending
        rw [all, pending]
        exact List.drop_of_length_le (by omega)
      refine ⟨requests, later, rfl, rfl, last_holds, ?_, ?_⟩
      · rw [← sockets]
        refine ⟨ready.udpWrapper, ready.datagrams, rfl, waits, ?_⟩
        intro other same
        cases same
        exact empty
      · rw [← sockets]
        refine ⟨rfl, rfl, ?_⟩
        change waiting ++ rest = _
        rw [left, ← second, flatMap_parsed_wire]

theorem HoldsAll.eventTcp_isSome {stream : TcpStream} {chunk : Burst}
    (holds : HoldsAll range.1 range.2 (updates log) node) (ready : node.Ready)
    (connected : node.predecessor = some stream)
    (whole : node.predecessorWrapper.buffer ++ chunk.val = request.bytes)
    (admissible : ∀ other ∈ log ++ [request], other.Admissible)
    (linked : request.within range = false → node.successor.isSome) :
    (TestNode.eventRust
      { node with predecessor := some (Node.arrive stream ⟨[chunk], false⟩) }
        .predecessor).isSome := by
  have pending : (Node.arrive stream ⟨[chunk], false⟩).pending = chunk.val := by
    rw [TcpStream.pending, Node.arrive, ready.bursts stream connected]
    exact List.append_nil _
  have fits : node.predecessorWrapper.buffer.length +
      (Node.arrive stream ⟨[chunk], false⟩).pending.length < bufferSize := by
    rw [pending, ← List.length_append, whole]
    exact request.length_bytes.trans_lt (by decide)
  have fed : feed parsePdu ([], node.predecessorWrapper.buffer) chunk.val =
      .ok ([request.parsed], []) := by
    have valid : ∀ pdu ∈ [request.parsed], pdu.Parsed := by
      intro pdu mem
      rw [List.mem_singleton.mp mem]
      exact request.parsed_parsed
    have split : node.predecessorWrapper.buffer ++ chunk.val =
        [request.parsed].flatMap PDU.wire ++ [] := by
      rw [whole, List.flatMap_singleton, request.parsed_wire, List.append_nil]
    have nothing : Stuck parsePdu [] := by
      intro pdu used found
      rw [parsePdu_frames.nil] at found
      cases found
    rw [parsePdu_frames.feed_eq valid nothing split, parsePdu_frames.nil]
    rfl
  obtain ⟨socket, read⟩ := TcpWrapper.tryRead_of_room fits
  rw [pending, ready.queue, fed] at read
  have collected : Node.collect
      { node with predecessor := some (Node.arrive stream ⟨[chunk], false⟩) } .predecessor =
        .ok ([(request.parsed, .predecessor stream.peerAddr)],
          { node with
            predecessor := some socket
            predecessorWrapper := ⟨[], []⟩ }) := by
    simp only [Node.collect]
    rw [read]
    rfl
  have holds' : HoldsAll range.1 range.2 (updates log)
      { node with predecessor := some (Node.arrive stream ⟨[chunk], false⟩) } :=
    ⟨holds.range, holds.all⟩
  have pdus : [(request.parsed, Source.predecessor stream.peerAddr)].map Prod.fst =
      [request].map ClientRequest.parsed := rfl
  obtain ⟨next, ran, -⟩ := holds'.eventRust collected rfl rfl ⟨rfl, rfl⟩ pdus admissible
    (fun other mem => by
      rw [List.mem_singleton.mp mem]
      exact linked)
  rw [ran]
  rfl

end

end DhtRing.TestNode

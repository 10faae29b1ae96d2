import DhtRing.TestNode.Client
import DhtRing.TestNode.MixedProgress

/-!
# A client and the ring

A client sends its commands to one node of a ring, and waits for the answer to each lookup.
Other clients do what they like but leave its keys alone.  Requests overtake each other and
answers come when they come, and still what the client prints is what one store would have
answered.
-/

set_option autoImplicit false

namespace DhtRing.TestNode

open Transition Relay

/-! ## The ring and its client -/

def Reply.to? (receiver : Addr) (reply : Reply) : Option (List UInt8) :=
  if reply.1 = sockaddr receiver then some reply.2 else none

/-- A request of the client at the address `me` that uses the keys `keys`: a lookup with its
address, or an update of one of its keys. -/
def ClientRequest.isOf (me : Addr) (keys : List Ssn) : ClientRequest → Bool
  | .lookup _ sender => decide (sender = me)
  | .insert ssn _ => keys.contains ssn
  | .remove ssn => keys.contains ssn

structure Service (n : ℕ) where
  net : RingNet n
  client : Client
  /-- Answers on their way to the client. -/
  inFlight : List (List UInt8)

inductive ServiceAct (n : ℕ) where
  /-- A node, or another client. -/
  | ring (act : RingAct n)
  | turn
  /-- The `k`-th of the answers arrives. -/
  | arrive (k : ℕ) (sender : Addr)
  | poll

section

variable {n : ℕ}

def newReplies (before after : RingNet n) : List Reply :=
  (List.finRange n).flatMap fun i => (after.replies i).drop (before.replies i).length

namespace Service

def step [NeZero n] (home : Fin n) (service : Service n) : ServiceAct n → Option (Service n)
  | .ring act =>
      (service.net.step act).map fun net =>
        { service with
          net := net
          inFlight := service.inFlight ++
            (newReplies service.net net).filterMap (Reply.to? service.client.myAddress) }
  | .turn =>
      service.client.turn.map fun found =>
        { service with
          client := found.1
          net := match found.2 with
            | some pdu => service.net.setDatagrams home
                (service.net.datagrams home ++ [⟨service.client.myAddress, pdu.toBytes⟩])
            | none => service.net }
  | .arrive k sender =>
      match service.inFlight[k]? with
      | none => none
      | some bytes => some { service with
          client := { service.client with udpSocket := { service.client.udpSocket with
            datagrams := service.client.udpSocket.datagrams ++ [⟨sender, bytes⟩] } }
          inFlight := service.inFlight.eraseIdx k }
  | .poll =>
      if service.client.waits then
        match service.client.poll with
        | .error _ => none
        | .ok client => some { service with client := client }
      else none

/-- Other clients do not use the address of the client and do not change its keys. -/
def Allowed (me : Addr) (keys : List Ssn) (service : Service n) : ServiceAct n → Prop
  | .ring act => service.net.Allowed act ∧
      ∀ i sender request, act = .client i sender request → request.isOf me keys = false
  | _ => True

def keys (service : Service n) : List Ssn :=
  (service.client.left.filterMap (Command.request service.client.myAddress)).map ClientRequest.key

/-- The ring is new, and the client has done nothing. -/
structure Fresh (service : Service n) (owner : UInt8 → Fin n) : Prop where
  net : service.net.Fresh owner
  inFlight : service.inFlight = []
  running : service.client.running = true
  waits : service.client.waits = false
  udpWrapper : service.client.udpWrapper = .new
  datagrams : service.client.udpSocket.datagrams = []
  printed : service.client.printed = []
  plain : ∀ command ∈ service.client.left, command.Plain

/-- Nothing is on its way, and the client waits or is through. -/
def AtRest (service : Service n) : Prop :=
  service.net.Quiet ∧ service.inFlight = [] ∧ service.client.udpSocket.datagrams = [] ∧
    (service.client.waits = true ∨ service.client.left = [])

def rust (service : Service n) (owner : UInt8 → Fin n) (ssn : RString) : Bool :=
  (service.net.node (owner (hashSsn ssn))).isRust

end Service

end

/-! ## Some of the requests -/

section

variable {me other : Addr} {keys : List Ssn} {key : Ssn} {rust : Bool} {before : List Update}

theorem sockaddr_injective : Function.Injective sockaddr := by
  intro first second same
  have address := readBeU32_append first.address (beBytes16 first.port)
  have address' := readBeU32_append second.address (beBytes16 second.port)
  rw [← sockaddr, same] at address
  rw [← sockaddr] at address'
  obtain ⟨eq, rest⟩ := Prod.mk.inj (Except.ok.inj (address.symm.trans address'))
  have port := readBeU16_append first.port []
  rw [List.append_nil, rest, ← List.append_nil (beBytes16 second.port), readBeU16_append] at port
  obtain ⟨eq', -⟩ := Prod.mk.inj (Except.ok.inj port)
  cases first
  cases second
  cases eq
  cases eq'
  rfl

theorem insertsSince_filter {p : ClientRequest → Bool} {requests : List ClientRequest}
    (about : ∀ request ∈ requests, ∀ update, request.update = some update → update.key = key →
      p request = true) :
    insertsSince key (updates (requests.filter p)) = insertsSince key (updates requests) := by
  induction requests using List.reverseRecOn with
  | nil => rfl
  | append_singleton requests request ih =>
      have rest := ih fun other mem => about other (List.mem_append_left _ mem)
      have last := about request (by simp)
      rw [List.filter_append, updates_append, updates_append, updates_singleton]
      cases kept : p request with
      | true =>
          rw [List.filter_cons_of_pos kept, List.filter_nil, updates_singleton]
          cases request with
          | insert ssn pair =>
              change insertsSince key (_ ++ [.insert ssn pair]) = insertsSince key (_ ++ [_])
              rw [insertsSince_snoc, insertsSince_snoc, rest]
          | remove ssn =>
              change insertsSince key (_ ++ [.remove ssn]) = insertsSince key (_ ++ [_])
              rw [insertsSince_snoc, insertsSince_snoc]
              dsimp only
              rw [rest]
          | lookup ssn sender =>
              change insertsSince key (_ ++ []) = insertsSince key (_ ++ [])
              rw [List.append_nil, List.append_nil, rest]
      | false =>
          rw [List.filter_cons_of_neg (by simp [kept]), List.filter_nil]
          change insertsSince key (_ ++ []) = _
          rw [List.append_nil, rest]
          cases request with
          | insert ssn pair =>
              have apart : ssn ≠ key := fun same => by
                rw [last _ rfl same] at kept
                cases kept
              change _ = insertsSince key (_ ++ [.insert ssn pair])
              rw [insertsSince_snoc]
              exact (if_neg apart).symm
          | remove ssn =>
              have apart : ssn ≠ key := fun same => by
                rw [last _ rfl same] at kept
                cases kept
              change _ = insertsSince key (_ ++ [.remove ssn])
              rw [insertsSince_snoc]
              exact (if_neg apart).symm
          | lookup ssn sender =>
              change _ = insertsSince key (_ ++ [])
              rw [List.append_nil]

theorem answer_to_other {request : ClientRequest} (not_lookup : request.isOf me keys = true →
    request.update.isSome) : (answer rust before request).filterMap (Reply.to? me) = [] := by
  cases request with
  | insert ssn pair => rfl
  | remove ssn => rfl
  | lookup ssn sender =>
      have apart : sender ≠ me := by
        intro same
        exact absurd (not_lookup (decide_eq_true same)) Bool.false_ne_true
      have elsewhere : ∀ bytes, Reply.to? me (sockaddr sender, bytes) = none :=
        fun bytes => if_neg fun same => apart (sockaddr_injective same)
      rw [answer_eq]
      cases answerEntry rust before ssn with
      | none => rfl
      | some entry => simp [elsewhere]

theorem answers_to_others {requests : List ClientRequest}
    (not_lookups : ∀ request ∈ requests, request.isOf me keys = true → request.update.isSome) :
    (answers rust before requests).filterMap (Reply.to? me) = [] := by
  induction requests generalizing before with
  | nil => rfl
  | cons request rest ih =>
      rw [answers, List.filterMap_append, answer_to_other (not_lookups request List.mem_cons_self),
        ih fun other mem => not_lookups other (List.mem_cons_of_mem _ mem)]
      rfl

theorem answers_to_lookup {front back : List ClientRequest}
    (in_front : ∀ request ∈ front, request.isOf me keys = true → request.update.isSome)
    (behind : ∀ request ∈ back, request.isOf me keys = true → request.update.isSome) :
    (answers rust before (front ++ .lookup key me :: back)).filterMap (Reply.to? me) =
      (answerEntry rust (before ++ updates front) key).toList.map fun entry =>
        (Pdu.valLookupResponse entry.1 entry.2).bytes := by
  have mine : ∀ bytes, Reply.to? me (sockaddr me, bytes) = some bytes := fun bytes => if_pos rfl
  rw [answers_append, answers, List.filterMap_append, List.filterMap_append,
    answers_to_others in_front, answers_to_others behind, answer_eq, List.nil_append,
    List.append_nil]
  cases answerEntry rust (before ++ updates front) key with
  | none => rfl
  | some entry => simp [mine]

end

/-! ## What the nodes have applied of it -/

section

variable {n : ℕ}

def applied (me : Addr) (keys : List Ssn) (q : Queues (Fin n) (Entered n)) (o : Fin n) :
    List ClientRequest :=
  ((q.kept o).map Entered.request).filter (ClientRequest.isOf me keys)

def forNode (owner : UInt8 → Fin n) (o : Fin n) (issued : List ClientRequest) :
    List ClientRequest :=
  issued.filter fun request => owner (DhtRing.hashSsn request.key) = o

def Settled (owner : UInt8 → Fin n) (me : Addr) (keys : List Ssn) (q : Queues (Fin n) (Entered n))
    (issued : List ClientRequest) : Prop :=
  ∀ o, ∃ waiting, forNode owner o issued = applied me keys q o ++ waiting ∧
    ∀ request ∈ waiting, request.update.isSome

variable [NeZero n] {start net net' : RingNet n} {owner : UInt8 → Fin n} {home o : Fin n}
  {q q' : Queues (Fin n) (Entered n)} {came : List (Entered n)} {me : Addr} {keys : List Ssn}
  {issued before : List ClientRequest} {key : Ssn} {more : Fin n → List ClientRequest}

theorem forNode_eq (sent : (came.filter fun e => e.request.isOf me keys) =
      issued.map fun request => ⟨home, request⟩) :
    ((came.filter ((ringRouting owner).between home o)).filter fun e =>
      e.request.isOf me keys).map Entered.request = forNode owner o issued := by
  have swap : ((came.filter ((ringRouting owner).between home o)).filter fun e =>
      e.request.isOf me keys) = (came.filter fun e => e.request.isOf me keys).filter
        ((ringRouting owner).between home o) := by
    rw [List.filter_filter, List.filter_filter]
    exact List.filter_congr fun e _ => Bool.and_comm _ _
  have same : ∀ request : ClientRequest,
      (ringRouting owner).between home o ⟨home, request⟩ =
        decide (owner (DhtRing.hashSsn request.key) = o) := by
    intro request
    rw [Routing.between, ringRouting]
    simp
  rw [swap, sent, List.filter_map, List.map_map, forNode]
  rw [show (Entered.request ∘ fun request => (⟨home, request⟩ : Entered n)) = id from rfl,
    List.map_id]
  exact List.filter_congr fun request _ => same request

theorem Behind.applied_eq (behind : Behind start net owner q came)
    (sent : (came.filter fun e => e.request.isOf me keys) =
      issued.map fun request => ⟨home, request⟩) :
    (((q.kept o).filter ((ringRouting owner).between home o)).filter fun e =>
      e.request.isOf me keys).map Entered.request = applied me keys q o := by
  obtain ⟨turns, run, same⟩ := behind.run
  rw [applied, List.filter_map, List.filter_filter]
  refine congrArg _ (List.filter_congr fun e mem => ?_)
  cases mine : e.request.isOf me keys with
  | false => rw [Bool.false_and, Function.comp_apply, mine]
  | true =>
      -- the client has sent it to the node `home`
      have in_came : e ∈ came := by
        rw [← same]
        exact run_mem run o e (Or.inr (Or.inr mem))
      have from_home : e ∈ issued.map fun request => ⟨home, request⟩ := by
        rw [← sent]
        exact List.mem_filter.mpr ⟨in_came, mine⟩
      obtain ⟨request, -, rfl⟩ := List.mem_map.mp from_home
      have here : (ringRouting owner).owner ⟨home, request⟩ = o := (run_onWay run).kept o _ mem
      rw [Bool.true_and, Function.comp_apply, mine]
      exact decide_eq_true ⟨rfl, here⟩

/-- The nodes apply the requests of the client in order. -/
theorem Behind.applied_prefix (behind : Behind start net owner q came)
    (sent : (came.filter fun e => e.request.isOf me keys) =
      issued.map fun request => ⟨home, request⟩) (o : Fin n) :
    applied me keys q o <+: forNode owner o issued := by
  obtain ⟨turns, run, same⟩ := behind.run
  have line := run_line run (ringRouting_reaches owner home o)
  rw [same, Queues.line] at line
  rw [← behind.applied_eq sent, ← forNode_eq sent, ← line, List.filter_append, List.map_append]
  exact List.prefix_append _ _

theorem Behind.applied_all (behind : Behind start net owner q came)
    (sent : (came.filter fun e => e.request.isOf me keys) =
      issued.map fun request => ⟨home, request⟩) (quiet : net.Quiet) (o : Fin n) :
    applied me keys q o = forNode owner o issued := by
  obtain ⟨turns, run, same⟩ := behind.run
  have all := run_kept run (ringRouting_reaches owner home o) (behind.tracks.quiet quiet)
  rw [same] at all
  rw [← behind.applied_eq sent, ← forNode_eq sent, all]

theorem Behind.newReplies {came' : List (Entered n)} {acts : List (Relay.Act (Fin n) (Entered n))}
    (behind : Behind start net owner q came) (behind' : Behind start net' owner q' came')
    (run : Run (Queues.step (ringRouting owner)) (fun _ _ => True) q acts q') :
    ∃ more : Fin n → List ClientRequest,
      (∀ o, (q'.kept o).map Entered.request = (q.kept o).map Entered.request ++ more o) ∧
      TestNode.newReplies net net' = (List.finRange n).flatMap fun o =>
        answers (start.node o).isRust (updates ((q.kept o).map Entered.request)) (more o) := by
  have grows : ∀ o, ∃ more, q'.kept o = q.kept o ++ more := fun o => by
    obtain ⟨more, eq⟩ := run_kept_prefix run o
    exact ⟨more, eq.symm⟩
  choose more kept using grows
  have all : ∀ o, (q'.kept o).map Entered.request =
      (q.kept o).map Entered.request ++ (more o).map Entered.request := by
    intro o
    rw [kept, List.map_append]
  refine ⟨fun o => (more o).map Entered.request, all, List.flatMap_congr fun o _ => ?_⟩
  rw [behind'.tracks.replies, behind.tracks.replies, all, answers_append, List.drop_left,
    List.nil_append]

omit [NeZero n] in
theorem applied_append
    (kept : ∀ o, (q'.kept o).map Entered.request = (q.kept o).map Entered.request ++ more o)
    (o : Fin n) : applied me keys q' o =
      applied me keys q o ++ (more o).filter (ClientRequest.isOf me keys) := by
  rw [applied, kept, List.filter_append, applied]

omit [NeZero n] in
theorem Settled.step (settled : Settled owner me keys q issued)
    (kept : ∀ o, (q'.kept o).map Entered.request = (q.kept o).map Entered.request ++ more o)
    (inOrder : ∀ o, applied me keys q' o <+: forNode owner o issued) :
    Settled owner me keys q' issued ∧
      ∀ o, ∀ request ∈ more o, request.isOf me keys = true → request.update.isSome := by
  have split : ∀ o, ∃ rest, forNode owner o issued = applied me keys q' o ++ rest ∧
      ∀ request ∈ (more o).filter (ClientRequest.isOf me keys) ++ rest,
        request.update.isSome := by
    intro o
    obtain ⟨waiting, eq, only⟩ := settled o
    obtain ⟨rest, eq'⟩ := inOrder o
    rw [← eq', applied_append kept, List.append_assoc] at eq
    refine ⟨rest, eq'.symm, ?_⟩
    rw [List.append_cancel_left eq]
    exact only
  refine ⟨fun o => ?_, fun o request mem mine => ?_⟩
  · obtain ⟨rest, eq, only⟩ := split o
    exact ⟨rest, eq, fun request mem => only request (List.mem_append_right _ mem)⟩
  · obtain ⟨rest, -, only⟩ := split o
    exact only request (List.mem_append_left _ (List.mem_filter.mpr ⟨mem, mine⟩))

omit [NeZero n] in
theorem forNode_append (first later : List ClientRequest) :
    forNode owner o (first ++ later) = forNode owner o first ++ forNode owner o later :=
  List.filter_append _ _

omit [NeZero n] in
/-- A lookup that only updates go before: it is still on its way, or its node has applied it
behind all of them. -/
theorem Settled.step_lookup {ssn : Ssn} (settled : Settled owner me keys q before)
    (kept : ∀ o, (q'.kept o).map Entered.request = (q.kept o).map Entered.request ++ more o)
    (inOrder : ∀ o, applied me keys q' o <+: forNode owner o (before ++ [.lookup ssn me])) :
    (Settled owner me keys q' before ∧
      ∀ o, ∀ request ∈ more o, request.isOf me keys = true → request.update.isSome) ∨
    Settled owner me keys q' (before ++ [.lookup ssn me]) ∧
      (∀ o, o ≠ owner (DhtRing.hashSsn ssn) →
        ∀ request ∈ more o, request.isOf me keys = true → request.update.isSome) ∧
      ∃ front back, more (owner (DhtRing.hashSsn ssn)) = front ++ .lookup ssn me :: back ∧
        (∀ request ∈ front, request.isOf me keys = true → request.update.isSome) ∧
        (∀ request ∈ back, request.isOf me keys = true → request.update.isSome) ∧
        applied me keys q (owner (DhtRing.hashSsn ssn)) ++
          front.filter (ClientRequest.isOf me keys) =
            forNode owner (owner (DhtRing.hashSsn ssn)) before := by
  have elsewhere : ∀ o, o ≠ owner (DhtRing.hashSsn ssn) →
      forNode owner o (before ++ [.lookup ssn me]) = forNode owner o before := by
    intro o apart
    have other : ¬ owner (DhtRing.hashSsn (ClientRequest.lookup ssn me).key) = o :=
      fun same => apart same.symm
    rw [forNode_append]
    simp [forNode, other]
  have here : forNode owner (owner (DhtRing.hashSsn ssn)) (before ++ [.lookup ssn me]) =
      forNode owner (owner (DhtRing.hashSsn ssn)) before ++ [.lookup ssn me] := by
    rw [forNode_append]
    simp [forNode, ClientRequest.key]
  -- at the other nodes it is as if there were no lookup
  have others : ∀ o, o ≠ owner (DhtRing.hashSsn ssn) →
      ∃ rest, forNode owner o before = applied me keys q' o ++ rest ∧
        ∀ request ∈ (more o).filter (ClientRequest.isOf me keys) ++ rest,
          request.update.isSome := by
    intro o apart
    obtain ⟨waiting, eq, only⟩ := settled o
    obtain ⟨rest, eq'⟩ := inOrder o
    rw [elsewhere o apart] at eq'
    rw [← eq', applied_append kept, List.append_assoc] at eq
    refine ⟨rest, eq'.symm, ?_⟩
    rw [List.append_cancel_left eq]
    exact only
  have quiet : ∀ o, o ≠ owner (DhtRing.hashSsn ssn) →
      ∀ request ∈ more o, request.isOf me keys = true → request.update.isSome := by
    intro o apart request mem mine
    obtain ⟨rest, -, only⟩ := others o apart
    exact only request (List.mem_append_left _ (List.mem_filter.mpr ⟨mem, mine⟩))
  obtain ⟨waiting, eq, only⟩ := settled (owner (DhtRing.hashSsn ssn))
  obtain ⟨rest, eq'⟩ := inOrder (owner (DhtRing.hashSsn ssn))
  rw [here, eq, applied_append kept, List.append_assoc, List.append_assoc] at eq'
  have items := List.append_cancel_left eq'
  rcases List.eq_nil_or_concat rest with rfl | ⟨rest, last, rfl⟩
  · -- the lookup has been applied
    right
    rw [List.append_nil] at items
    obtain ⟨front, behind, split, front_eq, behind_eq⟩ := List.filter_eq_append_iff.mp items
    obtain ⟨between, back, rfl, not_mine, -, none_mine⟩ := List.filter_eq_cons_iff.mp behind_eq
    have between_eq : between.filter (ClientRequest.isOf me keys) = [] :=
      List.filter_eq_nil_iff.mpr not_mine
    refine ⟨fun o => ?_, quiet, front ++ between, back, ?_, ?_, ?_, ?_⟩
    · by_cases at_owner : o = owner (DhtRing.hashSsn ssn)
      · subst at_owner
        refine ⟨[], ?_, fun request mem => absurd mem List.not_mem_nil⟩
        rw [here, eq, applied_append kept, items, List.append_nil, List.append_assoc]
      · obtain ⟨rest, rest_eq, only⟩ := others o at_owner
        rw [elsewhere o at_owner]
        exact ⟨rest, rest_eq, fun request mem => only request (List.mem_append_right _ mem)⟩
    · rw [split, List.append_assoc]
    · intro request mem mine
      rcases List.mem_append.mp mem with first | later
      · apply only
        rw [← front_eq]
        exact List.mem_filter.mpr ⟨first, mine⟩
      · exact absurd mine (not_mine request later)
    · intro request mem mine
      exact absurd mine (List.filter_eq_nil_iff.mp none_mine request mem)
    · rw [List.filter_append, front_eq, between_eq, List.append_nil, eq]
  · -- it is still behind what has been applied
    left
    rw [List.concat_eq_append, ← List.append_assoc] at items
    obtain ⟨same, -⟩ := List.append_inj' items rfl
    refine ⟨fun o => ?_, fun o request mem mine => ?_⟩
    · by_cases at_owner : o = owner (DhtRing.hashSsn ssn)
      · subst at_owner
        refine ⟨rest, ?_, fun request mem => only request ?_⟩
        · rw [eq, applied_append kept, List.append_assoc, same]
        · rw [← same]
          exact List.mem_append_right _ mem
      · obtain ⟨rest, rest_eq, only⟩ := others o at_owner
        exact ⟨rest, rest_eq, fun request mem => only request (List.mem_append_right _ mem)⟩
    · by_cases at_owner : o = owner (DhtRing.hashSsn ssn)
      · subst at_owner
        apply only
        rw [← same]
        exact List.mem_append_left _ (List.mem_filter.mpr ⟨mem, mine⟩)
      · exact quiet o at_owner request mem mine

end

/-! ## Where the client stands -/

section

variable {n : ℕ}

inductive Stands (start service : Service n) (owner : UInt8 → Fin n)
    (q : Queues (Fin n) (Entered n)) (issued : List ClientRequest) (stored : List Person) : Prop
  | ready
      (settled : Settled owner start.client.myAddress start.keys q issued)
      (waits : service.client.waits = false)
      (nothing : service.inFlight = [] ∧ service.client.udpSocket.datagrams = [])
      (prints : service.client.printed ++
        answersTo (start.rust owner) stored service.client.left =
          answersTo (start.rust owner) [] start.client.left)
  | asked (before : List ClientRequest) (ssn : RString) (plain : PlainSsn ssn)
      (last : issued = before ++ [.lookup (ssnOf ssn) start.client.myAddress])
      (settled : Settled owner start.client.myAddress start.keys q before)
      (waits : service.client.waits = true)
      (nothing : service.inFlight = [] ∧ service.client.udpSocket.datagrams = [])
      (prints : service.client.printed ++
        answersTo (start.rust owner) stored (.lookup ssn :: service.client.left) =
          answersTo (start.rust owner) [] start.client.left)
  | answered (ssn : RString) (plain : PlainSsn ssn)
      (settled : Settled owner start.client.myAddress start.keys q issued)
      (waits : service.client.waits = true)
      (answer : service.inFlight ++ service.client.udpSocket.datagrams.map Datagram.bytes =
        (answerEntry (start.rust owner ssn) (updates issued) (ssnOf ssn)).toList.map fun entry =>
          (Pdu.valLookupResponse entry.1 entry.2).bytes)
      (prints : service.client.printed ++
        answersTo (start.rust owner) stored (.lookup ssn :: service.client.left) =
          answersTo (start.rust owner) [] start.client.left)

/-- What holds of a ring and its client all the time. -/
structure Session [NeZero n] (start service : Service n) (owner : UInt8 → Fin n) (home : Fin n)
    (q : Queues (Fin n) (Entered n)) (came : List (Entered n)) (issued : List ClientRequest)
    (stored : List Person) : Prop where
  behind : Behind start.net service.net owner q came
  sent : (came.filter fun e => e.request.isOf start.client.myAddress start.keys) =
    issued.map fun request => ⟨home, request⟩
  uses : ∀ request ∈ issued, request.key ∈ start.keys
  models : Models stored (updates issued)
  address : service.client.myAddress = start.client.myAddress
  wrapper : service.client.udpWrapper = .new
  left : ∀ command ∈ service.client.left, command ∈ start.client.left
  stands : Stands start service owner q issued stored

variable [NeZero n] {start service service' : Service n} {owner : UInt8 → Fin n} {home : Fin n}
  {q : Queues (Fin n) (Entered n)} {came : List (Entered n)} {issued : List ClientRequest}
  {stored : List Person}

theorem Service.Fresh.session (fresh : start.Fresh owner) (home : Fin n) :
    Session start start owner home .empty [] [] [] where
  behind := by
    refine ⟨⟨[], .nil, rfl⟩, fun e mem => absurd mem List.not_mem_nil, fresh.net.tracks⟩
  sent := rfl
  uses request mem := absurd mem List.not_mem_nil
  models := models_nil
  address := rfl
  wrapper := fresh.udpWrapper
  left _ mem := mem
  stands := by
    refine .ready (fun o => ⟨[], rfl, fun request mem => absurd mem List.not_mem_nil⟩) fresh.waits
      ⟨fresh.inFlight, fresh.datagrams⟩ ?_
    rw [fresh.printed, List.nil_append]

omit [NeZero n] in
theorem flatMap_eq_of_others {β : Type} {f : Fin n → List β} (o : Fin n)
    (others : ∀ i, i ≠ o → f i = []) : (List.finRange n).flatMap f = f o := by
  obtain ⟨first, later, split⟩ := List.append_of_mem (List.mem_finRange o)
  have nodup := List.nodup_finRange n
  rw [split, List.nodup_append, List.nodup_cons] at nodup
  obtain ⟨-, ⟨not_later, -⟩, apart⟩ := nodup
  have none_first : first.flatMap f = [] := by
    rw [List.flatMap_eq_nil_iff]
    intro i mem
    exact others i (apart i mem o List.mem_cons_self)
  have none_later : later.flatMap f = [] := by
    rw [List.flatMap_eq_nil_iff]
    intro i mem
    exact others i fun same => not_later (same ▸ mem)
  rw [split, List.flatMap_append, List.flatMap_cons, none_first, none_later, List.nil_append,
    List.append_nil]

omit [NeZero n] in
theorem answerEntry_of_applied {me : Addr} {keys : List Ssn} {ssn : Ssn} {rust : Bool}
    {before front : List ClientRequest} (uses : ssn ∈ keys)
    (all : applied me keys q (owner (DhtRing.hashSsn ssn)) ++
      front.filter (ClientRequest.isOf me keys) =
        forNode owner (owner (DhtRing.hashSsn ssn)) before) :
    answerEntry rust (updates ((q.kept (owner (DhtRing.hashSsn ssn))).map Entered.request) ++
      updates front) ssn = answerEntry rust (updates before) ssn := by
  have about : ∀ request : ClientRequest, ∀ update, request.update = some update →
      update.key = ssn → request.isOf me keys = true ∧ request.key = ssn := by
    intro request update is_update same
    cases request with
    | insert ssn' pair =>
        cases is_update
        obtain rfl : ssn' = ssn := same
        exact ⟨List.contains_iff_mem.mpr uses, rfl⟩
    | remove ssn' =>
        cases is_update
        obtain rfl : ssn' = ssn := same
        exact ⟨List.contains_iff_mem.mpr uses, rfl⟩
    | lookup ssn' sender => cases is_update
  have here : insertsSince ssn (updates ((q.kept (owner (DhtRing.hashSsn ssn))).map
      Entered.request ++ front)) = insertsSince ssn (updates before) := by
    rw [← insertsSince_filter (p := ClientRequest.isOf me keys) fun request _ update is_update same =>
      (about request update is_update same).1]
    rw [List.filter_append, ← applied, all, forNode]
    apply insertsSince_filter
    intro request _ update is_update same
    rw [(about request update is_update same).2]
    exact decide_eq_true rfl
  rw [← updates_append, answerEntry, answerEntry, here]

theorem Session.ring {act : RingAct n}
    (session : Session start service owner home q came issued stored)
    (fresh : start.Fresh owner)
    (allowed : service.Allowed start.client.myAddress start.keys (.ring act))
    (stepped : service.step home (.ring act) = some service') :
    ∃ q' came', Session start service' owner home q' came' issued stored := by
  obtain ⟨net', moved, rfl⟩ := Option.map_eq_some_iff.mp stepped
  obtain ⟨acts, q', run, behind'⟩ := session.behind.step fresh.net allowed.1 moved
  have others : (enteredBy [act]).filter (fun e =>
      e.request.isOf start.client.myAddress start.keys) = [] := by
    rw [List.filter_eq_nil_iff]
    intro e mem
    cases act with
    | client i sender request =>
        rw [List.mem_singleton.mp mem, allowed.2 i sender request rfl]
        exact Bool.false_ne_true
    | recvUdp i recv => exact absurd mem List.not_mem_nil
    | recvTcp i recv => exact absurd mem List.not_mem_nil
    | eventUdp i k => exact absurd mem List.not_mem_nil
    | eventTcp i k => exact absurd mem List.not_mem_nil
  have sent' : ((came ++ enteredBy [act]).filter fun e =>
      e.request.isOf start.client.myAddress start.keys) =
        issued.map fun request => ⟨home, request⟩ := by
    rw [List.filter_append, others, List.append_nil, session.sent]
  obtain ⟨more, kept, replies⟩ := session.behind.newReplies behind' run
  have inOrder := behind'.applied_prefix sent'
  refine ⟨q', came ++ enteredBy [act], ?_⟩
  -- what comes for the client when the nodes have applied only updates of it
  have silent : (∀ o, ∀ request ∈ more o, request.isOf start.client.myAddress start.keys = true →
      request.update.isSome) →
        (newReplies service.net net').filterMap (Reply.to? service.client.myAddress) = [] := by
    intro only
    rw [replies, List.filterMap_flatMap, List.flatMap_eq_nil_iff, session.address]
    exact fun o _ => answers_to_others (only o)
  have rest : ∀ stands, Session start { service with
      net := net'
      inFlight := service.inFlight ++
        (newReplies service.net net').filterMap (Reply.to? service.client.myAddress) }
      owner home q' (came ++ enteredBy [act]) issued stored := fun stands =>
    ⟨behind', sent', session.uses, session.models, session.address, session.wrapper, session.left,
      stands⟩
  cases session.stands with
  | ready settled waits nothing prints =>
      obtain ⟨settled', only⟩ := settled.step kept inOrder
      refine rest (.ready settled' waits ⟨?_, nothing.2⟩ prints)
      rw [silent only, nothing.1]
      rfl
  | asked before ssn plain last settled waits nothing prints =>
      rw [last] at inOrder
      rcases settled.step_lookup kept inOrder with
        ⟨settled', only⟩ | ⟨settled', others, front, back, here, in_front, behind, all⟩
      · refine rest (.asked before ssn plain last settled' waits ⟨?_, nothing.2⟩ prints)
        rw [silent only, nothing.1]
        rfl
      · have used : ssnOf ssn ∈ start.keys := by
          apply session.uses (.lookup (ssnOf ssn) start.client.myAddress)
          rw [last]
          exact List.mem_append_right _ (List.mem_singleton_self _)
        have same_hash : DhtRing.hashSsn (ssnOf ssn) = hashSsn ssn := by
          rw [← hashSsn_ofLatin1, plain.ofLatin1]
        have same_updates : updates issued = updates before := by
          rw [last, updates_append]
          exact List.append_nil _
        refine rest (.answered ssn plain (last ▸ settled') waits ?_ prints)
        rw [nothing.1, nothing.2, List.nil_append, List.map_nil, List.append_nil, replies,
          List.filterMap_flatMap, session.address,
          flatMap_eq_of_others (owner (DhtRing.hashSsn (ssnOf ssn)))
            fun o apart => answers_to_others (others o apart),
          here, answers_to_lookup in_front behind, answerEntry_of_applied used all,
          same_updates, Service.rust, ← same_hash]
  | answered ssn plain settled waits answer prints =>
      obtain ⟨settled', only⟩ := settled.step kept inOrder
      refine rest (.answered ssn plain settled' waits ?_ prints)
      rw [silent only, List.append_nil]
      exact answer

theorem Session.arrive {k : ℕ} {sender : Addr}
    (session : Session start service owner home q came issued stored)
    (stepped : service.step home (.arrive k sender) = some service') :
    Session start service' owner home q came issued stored := by
  rw [Service.step] at stepped
  cases found : service.inFlight[k]? with
  | none =>
      rw [found] at stepped
      cases stepped
  | some bytes =>
      rw [found] at stepped
      cases stepped
      obtain ⟨inside, here⟩ := List.getElem?_eq_some_iff.mp found
      have some_come : service.inFlight ≠ [] := List.ne_nil_of_length_pos (Nat.zero_lt_of_lt inside)
      have left : Client.left { service.client with
          udpSocket := { service.client.udpSocket with
            datagrams := service.client.udpSocket.datagrams ++ [⟨sender, bytes⟩] } } =
          service.client.left := Client.left_congr rfl rfl rfl
      refine ⟨session.behind, session.sent, session.uses, session.models, session.address,
        session.wrapper, ?_, ?_⟩
      · dsimp only
        rw [left]
        exact session.left
      · cases session.stands with
        | ready settled waits nothing prints => exact absurd nothing.1 some_come
        | asked before ssn plain last settled waits nothing prints => exact absurd nothing.1 some_come
        | answered ssn plain settled waits answer prints =>
            refine .answered ssn plain settled waits ?_ (by dsimp only; rw [left]; exact prints)
            -- there is one answer at most
            have count := congrArg List.length answer
            rw [List.length_append, List.length_map, List.length_map] at count
            have few : (answerEntry (start.rust owner ssn) (updates issued)
                (ssnOf ssn)).toList.length ≤ 1 := by
              cases answerEntry (start.rust owner ssn) (updates issued) (ssnOf ssn) with
              | none => exact Nat.zero_le 1
              | some entry => exact Nat.le_refl 1
            obtain ⟨only, one⟩ := List.length_eq_one_iff.mp
              (show service.inFlight.length = 1 by omega)
            have none_before : service.client.udpSocket.datagrams = [] :=
              List.length_eq_zero_iff.mp (by omega)
            have first : k = 0 := by omega
            rw [one, first] at found
            obtain rfl := Option.some.inj found
            rw [← answer, one, none_before, first]
            rfl

theorem Session.poll (session : Session start service owner home q came issued stored)
    (stepped : service.step home .poll = some service') :
    Session start service' owner home q came issued stored := by
  rw [Service.step] at stepped
  split at stepped
  · have nothing : service.client.udpSocket.datagrams = [] → service' = service := by
      intro nothing
      rw [Client.poll_of_nothing session.wrapper nothing] at stepped
      exact (Option.some.inj stepped).symm
    rename_i waiting
    cases session.stands with
    | ready settled waits none_come prints =>
        rw [nothing none_come.2]
        exact session
    | asked before ssn plain last settled waits none_come prints =>
        rw [nothing none_come.2]
        exact session
    | answered ssn plain settled waits answer prints =>
        cases come : service.client.udpSocket.datagrams with
        | nil =>
            rw [nothing come]
            exact session
        | cons datagram datagrams =>
            rw [come] at answer
            cases entry : answerEntry (start.rust owner ssn) (updates issued) (ssnOf ssn) with
            | none =>
                rw [entry] at answer
                exact absurd (List.append_eq_nil_iff.mp answer).2 (List.cons_ne_nil _ _)
            | some entry' =>
                obtain ⟨key, pair⟩ := entry'
                rw [entry] at answer
                have count := congrArg List.length answer
                rw [List.length_append, List.length_map, List.length_cons] at count
                change service.inFlight.length + (datagrams.length + 1) = 1 at count
                obtain rfl : datagrams = [] := List.length_eq_zero_iff.mp (by omega)
                have none_left : service.inFlight = [] := List.length_eq_zero_iff.mp (by omega)
                rw [none_left, List.nil_append] at answer
                have bytes : datagram.bytes = (Pdu.valLookupResponse key pair).bytes :=
                  (List.cons.inj answer).1
                rw [Client.poll_of_answer session.wrapper come bytes] at stepped
                obtain rfl := Option.some.inj stepped
                have left : Client.left { service.client with
                    udpSocket := { service.client.udpSocket with datagrams := [] }
                    waits := false
                    printed := service.client.printed ++ [personOf key pair] } =
                    service.client.left := Client.left_congr rfl rfl rfl
                refine ⟨session.behind, session.sent, session.uses, session.models, session.address,
                  session.wrapper, ?_, ?_⟩
                · dsimp only
                  rw [left]
                  exact session.left
                · refine .ready settled rfl ⟨none_left, rfl⟩ ?_
                  dsimp only
                  rw [left, ← prints, session.models.answersTo_lookup plain, entry,
                    List.append_assoc]
                  rfl
  · cases stepped

theorem Behind.client {net : RingNet n} (behind : Behind start.net net owner q came)
    {request : ClientRequest} (admissible : request.Admissible) (sender : Addr) :
    Behind start.net
      (net.setDatagrams home (net.datagrams home ++ [⟨sender, request.bytes⟩])) owner
      { q with inbox := Function.update q.inbox home (q.inbox home ++ [⟨home, request⟩]) }
      (came ++ [⟨home, request⟩]) := by
  obtain ⟨turns, run, same⟩ := behind.run
  refine ⟨⟨turns ++ [.enter ⟨home, request⟩], run.snoc trivial rfl, ?_⟩, ?_,
    behind.tracks.client sender request⟩
  · rw [entered_append, same]
    rfl
  · intro e mem
    rcases List.mem_append.mp mem with old | new
    · exact behind.admissible e old
    · rw [List.mem_singleton.mp new]
      exact admissible

theorem Session.sends {after : Client} {command : Command} {request : ClientRequest}
    (session : Session start service owner home q came issued stored) (fresh : start.Fresh owner)
    (same : after.SameButInput service.client) (left : service.client.left = command :: after.left)
    (is_request : command.request start.client.myAddress = some request)
    {stored' : List Person} (models : Models stored' (updates (issued ++ [request])))
    (stands : Stands start ⟨service.net.setDatagrams home (service.net.datagrams home ++
        [⟨service.client.myAddress, request.bytes⟩]), after, service.inFlight⟩ owner
      { q with inbox := Function.update q.inbox home (q.inbox home ++ [⟨home, request⟩]) }
      (issued ++ [request]) stored') :
    Session start ⟨service.net.setDatagrams home (service.net.datagrams home ++
        [⟨service.client.myAddress, request.bytes⟩]), after, service.inFlight⟩ owner home
      { q with inbox := Function.update q.inbox home (q.inbox home ++ [⟨home, request⟩]) }
      (came ++ [⟨home, request⟩]) (issued ++ [request]) stored' := by
  have mem : command ∈ start.client.left := session.left command (by
    rw [left]
    exact List.mem_cons_self)
  have used : request.key ∈ start.keys :=
    List.mem_map_of_mem (List.mem_filterMap.mpr ⟨command, mem, is_request⟩)
  have mine : request.isOf start.client.myAddress start.keys = true := by
    cases command with
    | insert person =>
        cases is_request
        exact List.contains_iff_mem.mpr used
    | remove ssn =>
        cases is_request
        exact List.contains_iff_mem.mpr used
    | lookup ssn =>
        cases is_request
        exact decide_eq_true rfl
    | exit => cases is_request
    | unknown => cases is_request
  refine ⟨session.behind.client ((fresh.plain command mem).admissible is_request) _, ?_, ?_, models,
    same.1.trans session.address, same.2.1.trans session.wrapper, ?_, stands⟩
  · have one : [(⟨home, request⟩ : Entered n)].filter (fun e =>
        e.request.isOf start.client.myAddress start.keys) = [⟨home, request⟩] :=
      List.filter_cons_of_pos mine
    rw [List.filter_append, session.sent, one, List.map_append]
    rfl
  · intro other other_mem
    rcases List.mem_append.mp other_mem with old | new
    · exact session.uses other old
    · rw [List.mem_singleton.mp new]
      exact used
  · intro other later
    apply session.left
    rw [left]
    exact List.mem_cons_of_mem _ later

omit [NeZero n] in
theorem Settled.snoc {me : Addr} {keys : List Ssn} {request : ClientRequest}
    {q' : Queues (Fin n) (Entered n)} (settled : Settled owner me keys q issued)
    (same : q'.kept = q.kept) (update : request.update.isSome) :
    Settled owner me keys q' (issued ++ [request]) := by
  intro o
  obtain ⟨waiting, eq, only⟩ := settled o
  refine ⟨waiting ++ forNode owner o [request], ?_, ?_⟩
  · rw [forNode_append, eq, List.append_assoc, applied, applied, same]
  · intro other mem
    rcases List.mem_append.mp mem with old | new
    · exact only other old
    · rw [List.mem_singleton.mp (List.mem_of_mem_filter new)]
      exact update

theorem Session.turn (session : Session start service owner home q came issued stored)
    (fresh : start.Fresh owner) (stepped : service.step home .turn = some service') :
    ∃ q' came' issued' stored', Session start service' owner home q' came' issued' stored' := by
  obtain ⟨⟨after, sent⟩, turned, rfl⟩ := Option.map_eq_some_iff.mp stepped
  obtain ⟨idle, same, command, rfl, asks, left⟩ := Client.turn_spec turned
  dsimp only
  cases session.stands with
  | asked before ssn plain last settled waits nothing prints =>
      rw [idle] at waits
      cases waits
  | answered ssn plain settled waits answer prints =>
      rw [idle] at waits
      cases waits
  | ready settled waits nothing prints =>
      have nothing' : service.inFlight = [] ∧ after.udpSocket.datagrams = [] := by
        rw [same.2.2.1]
        exact nothing
      -- a command that sends nothing
      have silent : service.client.pdu command = none → after.waits = false →
          answersTo (start.rust owner) stored service.client.left =
            answersTo (start.rust owner) stored after.left →
          (∀ other ∈ after.left, other ∈ start.client.left) →
            Session start ⟨service.net, after, service.inFlight⟩ owner home q came issued stored := by
        intro none idle' answers among
        refine ⟨session.behind, session.sent, session.uses, session.models,
          same.1.trans session.address, same.2.1.trans session.wrapper, among, ?_⟩
        refine .ready settled idle' nothing' ?_
        dsimp only
        rw [same.2.2.2, ← answers]
        exact prints
      rcases left with left | ⟨none_left, none_left', none⟩
      · have plain : command.Plain := fresh.plain command (session.left command (by
          rw [left]
          exact List.mem_cons_self))
        have among : ∀ other ∈ after.left, other ∈ start.client.left := by
          intro other mem
          apply session.left
          rw [left]
          exact List.mem_cons_of_mem _ mem
        have pdu : service.client.pdu command =
            (command.request service.client.myAddress).map ClientRequest.parsed := plain.pdu
        rw [session.address] at pdu
        cases command with
        | exit =>
            exact ⟨q, came, issued, stored, silent rfl asks (by rw [left, answersTo]) among⟩
        | unknown =>
            exact ⟨q, came, issued, stored, silent rfl asks (by rw [left, answersTo]) among⟩
        | insert person =>
            rw [left, answersTo] at prints
            rw [pdu]
            simp only [Command.request, Option.map_some, ClientRequest.parsed_toBytes]
            have models : Models (stored ++ [person])
                (updates (issued ++ [.insert (ssnOf person.ssn) (pairOf person)])) := by
              rw [updates_append]
              exact session.models.insert plain
            refine ⟨_, _, _, _, session.sends fresh same left rfl models ?_⟩
            refine .ready (settled.snoc rfl rfl) asks nothing' ?_
            dsimp only
            rw [same.2.2.2]
            exact prints
        | remove ssn =>
            rw [left, answersTo] at prints
            rw [pdu]
            simp only [Command.request, Option.map_some, ClientRequest.parsed_toBytes]
            have models : Models (stored.filter fun person => person.ssn ≠ ssn)
                (updates (issued ++ [.remove (ssnOf ssn)])) := by
              rw [updates_append]
              exact session.models.remove plain
            refine ⟨_, _, _, _, session.sends fresh same left rfl models ?_⟩
            refine .ready (settled.snoc rfl rfl) asks nothing' ?_
            dsimp only
            rw [same.2.2.2]
            exact prints
        | lookup ssn =>
            rw [left] at prints
            rw [pdu]
            simp only [Command.request, Option.map_some, ClientRequest.parsed_toBytes]
            have models : Models stored
                (updates (issued ++ [.lookup (ssnOf ssn) start.client.myAddress])) := by
              rw [updates_append, updates_singleton]
              exact (List.append_nil (updates issued)).symm ▸ session.models
            refine ⟨_, _, _, _, session.sends fresh same left rfl models ?_⟩
            refine .asked issued ssn plain rfl settled asks nothing' ?_
            dsimp only
            rw [same.2.2.2]
            exact prints
      · rw [none]
        refine ⟨q, came, issued, stored, silent none ?_ (by rw [none_left, none_left']) ?_⟩
        · rw [asks]
          cases command with
          | lookup ssn => cases none
          | insert person => rfl
          | remove ssn => rfl
          | exit => rfl
          | unknown => rfl
        · rw [none_left']
          exact fun other mem => absurd mem List.not_mem_nil

theorem Session.step {act : ServiceAct n}
    (session : Session start service owner home q came issued stored) (fresh : start.Fresh owner)
    (allowed : service.Allowed start.client.myAddress start.keys act)
    (stepped : service.step home act = some service') :
    ∃ q' came' issued' stored', Session start service' owner home q' came' issued' stored' := by
  cases act with
  | ring act =>
      obtain ⟨q', came', session'⟩ := session.ring fresh allowed stepped
      exact ⟨q', came', issued, stored, session'⟩
  | turn => exact session.turn fresh stepped
  | arrive k sender => exact ⟨q, came, issued, stored, session.arrive stepped⟩
  | poll => exact ⟨q, came, issued, stored, session.poll stepped⟩

/-! ## Runs -/

theorem Service.Fresh.run {acts : List (ServiceAct n)} (fresh : start.Fresh owner)
    (run : Run (Service.step home) (Service.Allowed start.client.myAddress start.keys) start acts
      service) :
    ∃ q came issued stored, Session start service owner home q came issued stored := by
  refine run.invariant (P := fun service =>
    ∃ q came issued stored, Session start service owner home q came issued stored)
    ⟨_, _, _, _, fresh.session home⟩ ?_
  rintro service act service' ⟨q, came, issued, stored, session⟩ allowed stepped
  exact session.step fresh allowed stepped

/-- At the end the client has all its answers, or waits for one that does not come. -/
theorem Session.printed_of_rest (session : Session start service owner home q came issued stored)
    (rest : service.AtRest) :
    service.client.printed = answersTo (start.rust owner) [] start.client.left := by
  obtain ⟨quiet, none_left, none_come, through⟩ := rest
  cases session.stands with
  | ready settled waits nothing prints =>
      rcases through with waiting | none_left
      · rw [waits] at waiting
        cases waiting
      · rw [← prints, none_left, answersTo, List.append_nil]
  | asked before ssn plain last settled waits nothing prints =>
      -- the lookup is not on its way any more
      exfalso
      obtain ⟨waiting, eq, -⟩ := settled (owner (DhtRing.hashSsn (ssnOf ssn)))
      have all := session.behind.applied_all session.sent quiet
        (owner (DhtRing.hashSsn (ssnOf ssn)))
      have here : forNode owner (owner (DhtRing.hashSsn (ssnOf ssn)))
          [.lookup (ssnOf ssn) start.client.myAddress] =
            [.lookup (ssnOf ssn) start.client.myAddress] := by
        simp [forNode, ClientRequest.key]
      rw [last, forNode_append, here, eq] at all
      have count := congrArg List.length all
      rw [List.length_append, List.length_append, List.length_singleton] at count
      omega
  | answered ssn plain settled waits answer prints =>
      rw [none_left, none_come] at answer
      have no_entry : answerEntry (start.rust owner ssn) (updates issued) (ssnOf ssn) = none := by
        cases entry : answerEntry (start.rust owner ssn) (updates issued) (ssnOf ssn) with
        | none => rfl
        | some found =>
            rw [entry] at answer
            cases answer
      rw [← prints, session.models.answersTo_lookup plain, no_entry, List.append_nil]

/-- Whatever the nodes and the other clients do, in whatever order requests are handled and
answers come, the client prints what one store would answer to its commands.  When nothing is
on its way any more and the client can do nothing, it has printed all of it: up to the end,
or up to the first lookup that a node in C does not answer. -/
theorem client_sees_one_store {acts : List (ServiceAct n)} (fresh : start.Fresh owner)
    (run : Run (Service.step home) (Service.Allowed start.client.myAddress start.keys) start acts
      service) :
    service.client.printed <+: answersTo (start.rust owner) [] start.client.left ∧
      (service.AtRest →
        service.client.printed = answersTo (start.rust owner) [] start.client.left) := by
  obtain ⟨q, came, issued, stored, session⟩ := fresh.run run
  refine ⟨?_, session.printed_of_rest⟩
  cases session.stands with
  | ready settled waits nothing prints => exact ⟨_, prints⟩
  | asked before ssn plain last settled waits nothing prints => exact ⟨_, prints⟩
  | answered ssn plain settled waits answer prints => exact ⟨_, prints⟩

end

/-- A client at the node in C of the pair: it stores an entry, asks for it, removes it and
asks again. -/
def pairService : Service 2 where
  net := mixedPair
  client := {
    myAddress := ⟨9, 9⟩
    rows := []
    lines := ["insert".toList, "333333333333".toList, "A".toList, " ".toList, "lookup".toList,
      "333333333333".toList, "remove".toList, "333333333333".toList, "lookup".toList,
      "333333333333".toList, "exit".toList]
    udpWrapper := .new
    udpSocket := ⟨⟨9, 9⟩, []⟩
    waits := false
    printed := []
    running := true }
  inFlight := []

def pairSession : List (ServiceAct 2) :=
  [.turn,
    .turn,
    .ring (.recvUdp inC (.over 0 (ClientRequest.insert rustKey storedPair).bytes)),
    .ring (.recvUdp inC (.over 0 (ClientRequest.lookup rustKey ⟨9, 9⟩).bytes)),
    .ring (.eventTcp inRust 100),
    .arrive 0 ⟨2, 5000⟩,
    .poll]

theorem pairService_fresh : pairService.Fresh pairOwner where
  net := mixedPair_fresh
  inFlight := rfl
  running := rfl
  waits := rfl
  udpWrapper := rfl
  datagrams := rfl
  printed := rfl
  plain := by decide +kernel

def sessionCheck (service : Service 2) : ServiceAct 2 → Bool
  | .ring (.client _ _ _) => false
  | .ring act => pairCheck service.net act
  | _ => true

theorem sessionCheck_sound (service : Service 2) (act : ServiceAct 2)
    (passed : sessionCheck service act = true) :
    service.Allowed pairService.client.myAddress pairService.keys act := by
  cases act with
  | ring act =>
      cases act with
      | client i sender request => cases passed
      | recvUdp i recv => exact ⟨trivial, fun _ _ _ other => by cases other⟩
      | recvTcp i recv => cases passed
      | eventUdp i k => exact ⟨trivial, fun _ _ _ other => by cases other⟩
      | eventTcp i k => exact ⟨pairCheck_sound _ _ passed, fun _ _ _ other => by cases other⟩
  | turn => trivial
  | arrive k sender => trivial
  | poll => trivial

theorem client_sees_one_store_pairService : ∃ service,
    execChecked (Service.step inC) sessionCheck pairService pairSession = some service ∧
      service.client.printed <+:
        answersTo (pairService.rust pairOwner) [] pairService.client.left ∧
      (service.AtRest → service.client.printed =
        answersTo (pairService.rust pairOwner) [] pairService.client.left) := by
  have runs : (execChecked (Service.step inC) sessionCheck pairService pairSession).isSome = true := by
    decide +kernel
  obtain ⟨service, executed⟩ := Option.isSome_iff_exists.mp runs
  exact ⟨service, executed, client_sees_one_store pairService_fresh
    (run_of_execChecked sessionCheck_sound executed)⟩

example : (execChecked (Service.step inC) sessionCheck pairService pairSession).map
    (fun service => service.client.printed) = some [⟨"333333333333".toList, ['A'], []⟩] := by
  decide +kernel

example : answersTo (pairService.rust pairOwner) [] pairService.client.left =
    [⟨"333333333333".toList, ['A'], []⟩, noPerson] := by
  decide +kernel

end DhtRing.TestNode

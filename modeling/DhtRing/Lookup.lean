import DhtRing.Handover
import DhtRing.TableCalls
import DhtRing.Election

/-!
# Lookups in a quiet ring

A `VAL_LOOKUP` enters a quiet ring at some node and is passed on from successor to
successor until it reaches the owner of its key, which answers when its table finds
the key.
-/

set_option autoImplicit false

namespace DhtRing

open Transition

/-! ## The ring -/

structure QuietAlone (net : Net) (node : Addr) : Prop where
  serving : (net.node node).pc = .q6
  successor : (net.node node).selfData.fdsSuccessor = none
  predecessor : (net.node node).selfData.fdsPredecessor = none
  others : ∀ a, a ≠ node → (net.node a).pc = .absent ∨ (net.node a).pc = .q7Accept ∨
    (net.node a).pc.ended = true
  quiet : ∀ loc, net.queue loc = []
  backlog : ∀ a, net.backlog a = []

/-- A quiet ring of one or more nodes that share out all hashes. -/
structure LookupRing (net : Net) (first : Addr) (rest : List Addr) : Prop where
  calm : QuietRing net first rest ∨ rest = [] ∧ QuietAlone net first
  partition : ∀ hash : UInt8, ∃! a, a ∈ first :: rest ∧
    (net.node a).selfData.rangeStart ≤ hash ∧ hash ≤ (net.node a).selfData.rangeEnd
  tables : ∀ a ∈ first :: rest, ∃ ht, (net.node a).selfData.hashTable = some ht ∧ ht.Sound

def Net.Owns (net : Net) (members : List Addr) (owner : Addr) (ssn : Ssn) : Prop :=
  owner ∈ members ∧ checkRange (net.node owner).selfData ssn = true

def IsAnswer (stored : Option ValuePair) (ssn : Ssn) (pdu : Pdu) : Prop :=
  match stored with
  | some pair => pdu = .valLookupResponse ssn pair
  | none => ∃ other, pdu = .valLookupResponse other ⟨noText, noText⟩

/-- The request enters at `entry`, is passed on unchanged by the nodes of `way` to
`owner`, and nothing else can happen until all is quiet again. -/
structure Served (net : Net) (members : List Addr) (entry : Addr) (ssn : Ssn) (sender : Addr)
    (way : List Addr) (owner : Addr) (after : Net) : Prop where
  owns : net.Owns members owner ssn
  short : way.length + 1 ≤ members.length
  forced : ∃ entered, net.client entry (.valLookup ssn sender) = some entered ∧
    Forced Net.step (fun _ act => act.internal = true)
      (fun other => other.node = net.node ∧ other.replies = net.replies ∧ ∃ loc, ∀ place,
        other.queue place =
          if place = loc then [⟨.valLookup ssn sender, some net.issued⟩] else [])
      entered (handlings .udp (way ++ [owner])) after
  halted : ∀ act, act.internal = true → after.step act = none
  unchanged : after.node = net.node

section

variable {net : Net} {first : Addr} {rest : List Addr}

theorem LookupRing.still (ring : LookupRing net first rest) : Still net (first :: rest) := by
  rcases ring.calm with calm | ⟨rfl, alone⟩
  · exact calm.still
  · refine ⟨?_, ?_, ?_, alone.backlog⟩
    · intro a mem
      rw [List.mem_singleton.mp mem]
      exact alone.serving
    · intro a outside
      exact alone.others a (by simpa using outside)
    · intro a mem i loc reads _
      rw [List.mem_singleton.mp mem] at reads
      cases i with
      | udp => rfl
      | successor => simp [Proc.reads, alone.successor] at reads
      | predecessor => simp [Proc.reads, alone.predecessor] at reads

theorem LookupRing.quiet (ring : LookupRing net first rest) (loc : Loc) : net.queue loc = [] := by
  rcases ring.calm with calm | ⟨-, alone⟩
  · exact calm.quiet loc
  · exact alone.quiet loc

theorem LookupRing.reader (ring : LookupRing net first rest) {a b : Addr} {i j : FdsIndex}
    {loc : Loc} (mem_a : a ∈ first :: rest) (mem_b : b ∈ first :: rest) (hears : net.hears a i loc)
    (reads : (net.node b).reads b j = some loc) : b = a ∧ j = i := by
  rcases ring.calm with calm | ⟨rfl, alone⟩
  · exact calm.reader mem_a mem_b hears reads
  · rw [List.mem_singleton.mp mem_a] at hears ⊢
    rw [List.mem_singleton.mp mem_b] at reads ⊢
    refine ⟨rfl, ?_⟩
    obtain ⟨-, reads_a⟩ := hears
    cases i <;> simp [Proc.reads, alone.successor, alone.predecessor] at reads_a
    cases j <;> simp [Proc.reads, alone.successor, alone.predecessor] at reads
    rfl

/-- The deliveries of the request are the only steps. -/
theorem LookupRing.only_delivery (ring : LookupRing net first rest) {a : Addr} {i : FdsIndex}
    {loc : Loc} (mem : a ∈ first :: rest) (hears : net.hears a i loc) {ssn : Ssn} {sender : Addr}
    {req : Option ℕ} {act : Act} (internal : act.internal = true) {net' : Net}
    (stepped : (net.setQueue loc [⟨.valLookup ssn sender, req⟩]).step act = some net') :
    act = .deliver a i :=
  ring.still.only_delivery ring.quiet (fun _ mem_b _ reads => ring.reader mem mem_b hears reads)
    (fun _ _ unknown => by cases unknown) internal stepped

/-! ## The way to the owner -/

theorem LookupRing.deliver (ring : LookupRing net first rest) {a : Addr} {i : FdsIndex} {loc : Loc}
    (mem : a ∈ first :: rest) (hears : net.hears a i loc) {msg : Msg} {outcome : Outcome}
    (handled : dispatch net.env (net.node a).selfData msg.pdu = some outcome) :
    (net.setQueue loc [msg]).step (.deliver a i) =
      some ((net.note a msg).commit a .q6 msg.tag outcome) := by
  have polls : ((net.setQueue loc [msg]).node a).pc.polls i = some .q6 := by
    change (net.node a).pc.polls i = _
    rw [ring.still.serving a mem]
    rfl
  have reads : ((net.setQueue loc [msg]).node a).reads a i = some loc := hears.2
  have dispatched : dispatch (net.setQueue loc [msg]).env
      ((net.setQueue loc [msg]).node a).selfData msg.pdu = _ := handled
  have emptied : ((net.setQueue loc [msg]).note a msg).setQueue loc [] = net.note a msg := by
    have restored : Function.update (Function.update net.queue loc [msg]) loc [] = net.queue := by
      simp [← ring.quiet loc]
    unfold Net.note
    split
    · rw [setQueue_node]
      split <;> simp [Net.setQueue, restored]
    · simp [Net.setQueue, restored]
  simp only [Net.step, Net.deliver, polls, reads, setQueue_queue, Function.update_self, dispatched,
    Option.map_some, emptied]

theorem LookupRing.forward (ring : LookupRing net first rest) {a b : Addr} {i : FdsIndex}
    {loc : Loc} (mem : a ∈ first :: rest) (hears : net.hears a i loc) (linked : Linked net a b)
    {ssn : Ssn} (out : checkRange (net.node a).selfData ssn = false) (sender : Addr)
    (req : Option ℕ) :
    ∃ conn, net.hears b .predecessor (.up conn) ∧
      (net.setQueue loc [⟨.valLookup ssn sender, req⟩]).step (.deliver a i) =
        some (net.setQueue (.up conn) [⟨.valLookup ssn sender, req⟩]) := by
  obtain ⟨conn, -, -, -, fds, -, fds_b, is_open, -⟩ := linked
  refine ⟨conn, ⟨by decide, by simp [Proc.reads, fds_b]⟩, ?_⟩
  have idle : ⟨.q6, (net.node a).selfData⟩ = net.node a := by rw [← ring.still.serving a mem]
  have handled : dispatch net.env (net.node a).selfData (.valLookup ssn sender) =
      some ⟨(net.node a).selfData, [.tcp (.up conn) (.valLookup ssn sender)], .run⟩ := by
    simp [dispatch, handleHtLookup, out, sendOrExit, SelfData.fd, fds]
  have unnoted : net.note a ⟨.valLookup ssn sender, req⟩ = net := by
    simp [Net.note, Pdu.requestKey, out]
  have pushed : Net.perform (Msg.tag ⟨.valLookup ssn sender, req⟩) net
      (.tcp (.up conn) (.valLookup ssn sender)) =
      net.setQueue (.up conn) [⟨.valLookup ssn sender, req⟩] := by
    simp [Net.perform, is_open, Net.push, ring.quiet, Msg.tag, Pdu.requestKey]
  rw [ring.deliver mem hears handled, unnoted, Net.commit, performAll_cons, performAll_nil, pushed]
  exact congrArg some (setNode_same idle.symm)

/-- Nodes that do not own the key pass the request on along the ring. -/
theorem LookupRing.carry (ring : LookupRing net first rest) (ssn : Ssn) (sender : Addr)
    (req : Option ℕ) (way : List Addr) (owner : Addr) :
    ∀ (i : FdsIndex) (loc : Loc), (way ++ [owner]).IsChain (Linked net) →
      (∀ a ∈ way, a ∈ first :: rest) → (∀ a, (way ++ [owner]).head? = some a → net.hears a i loc) →
      (∀ a ∈ way, checkRange (net.node a).selfData ssn = false) →
      ∃ j loc', net.hears owner j loc' ∧
        handlings i (way ++ [owner]) = handlings i way ++ [.deliver owner j] ∧
        Forced Net.step (fun _ act => act.internal = true)
          (fun other => ∃ place, other = net.setQueue place [⟨.valLookup ssn sender, req⟩])
          (net.setQueue loc [⟨.valLookup ssn sender, req⟩]) (handlings i way)
          (net.setQueue loc' [⟨.valLookup ssn sender, req⟩]) := by
  induction way with
  | nil =>
      intro i loc _ _ hears _
      exact ⟨i, loc, hears owner rfl, rfl, .nil⟩
  | cons a way ih =>
      intro i loc chain mem hears out
      have mem_a := mem a List.mem_cons_self
      have hears_a := hears a rfl
      obtain ⟨b, tail, eq, linked⟩ : ∃ b tail, way ++ [owner] = b :: tail ∧ Linked net a b := by
        cases way with
        | nil => exact ⟨owner, [], rfl, (List.isChain_cons_cons.mp chain).1⟩
        | cons b way => exact ⟨b, way ++ [owner], rfl, (List.isChain_cons_cons.mp chain).1⟩
      obtain ⟨conn, hears_b, stepped⟩ := ring.forward mem_a hears_a linked
        (out a List.mem_cons_self) sender req
      obtain ⟨j, loc', hears_owner, path, forced⟩ := ih .predecessor (.up conn) chain.tail
        (fun c mem_c => mem c (List.mem_cons_of_mem _ mem_c))
        (fun c head => by rw [eq] at head; cases head; exact hears_b)
        (fun c mem_c => out c (List.mem_cons_of_mem _ mem_c))
      refine ⟨j, loc', hears_owner, ?_, .cons ⟨loc, rfl⟩ stepped ?_ forced⟩
      · rw [List.cons_append, handlings, path]
        rfl
      · intro act net' internal taken
        exact ring.only_delivery mem_a hears_a internal taken

def Net.lookupReplies (net : Net) (owner : Addr) (ssn : Ssn) (sender : Addr) (req : Option ℕ) :
    List (Addr × Msg) :=
  match (net.node owner).selfData.hashTable.bind fun ht => htLookup ht ssn with
  | some pair => [(sender, ⟨.valLookupResponse ssn pair, req⟩)]
  | none => []

theorem LookupRing.resolve (ring : LookupRing net first rest) {owner : Addr} {i : FdsIndex}
    {loc : Loc} {ssn : Ssn} (owns : net.Owns (first :: rest) owner ssn)
    (hears : net.hears owner i loc) (sender : Addr) (req : Option ℕ) :
    (net.setQueue loc [⟨.valLookup ssn sender, req⟩]).step (.deliver owner i) =
      some { net with
        applied := net.applied ++ [(owner, ⟨.valLookup ssn sender, req⟩)]
        replies := net.replies ++ net.lookupReplies owner ssn sender req } := by
  obtain ⟨mem, in_range⟩ := owns
  obtain ⟨ht, table, -⟩ := ring.tables owner mem
  have idle : ⟨.q6, (net.node owner).selfData⟩ = net.node owner := by
    rw [← ring.still.serving owner mem]
  have noted : net.note owner ⟨.valLookup ssn sender, req⟩ =
      { net with applied := net.applied ++ [(owner, ⟨.valLookup ssn sender, req⟩)] } := by
    simp [Net.note, Pdu.requestKey, in_range]
  have handled : dispatch net.env (net.node owner).selfData (.valLookup ssn sender) =
      some (handleHtLookup (net.node owner).selfData ssn sender) := rfl
  rw [ring.deliver mem hears handled, noted, handleHtLookup, if_pos in_range, table]
  simp only [Net.lookupReplies, table, Option.bind_some]
  cases htLookup ht ssn with
  | none =>
      rw [Net.commit, performAll_nil, List.append_nil]
      exact congrArg some (setNode_same idle.symm)
  | some pair =>
      rw [Net.commit, performAll_cons, performAll_nil]
      exact congrArg some (setNode_same idle.symm)

theorem LookupRing.bookkeeping (ring : LookupRing net first rest) (issued : ℕ)
    (applied replies : List (Addr × Msg)) :
    LookupRing { net with issued := issued, applied := applied, replies := replies } first rest where
  calm := ring.calm.imp
    (fun calm => ⟨calm.several, calm.nodup, calm.serving, calm.addressed, calm.port, calm.range,
      calm.linked, calm.others, calm.quiet, calm.backlog, calm.unused⟩)
    (fun alone => ⟨alone.1, alone.2.serving, alone.2.successor, alone.2.predecessor,
      alone.2.others, alone.2.quiet, alone.2.backlog⟩)
  partition := ring.partition
  tables := ring.tables

theorem LookupRing.halted (ring : LookupRing net first rest) {act : Act}
    (internal : act.internal = true) : net.step act = none := by
  cases stepped : net.step act with
  | none => rfl
  | some net' =>
      obtain ⟨n, -, i, loc, msg, tail, -, waits, -⟩ := ring.still.internal_reads internal stepped
      rw [ring.quiet] at waits
      cases waits

theorem LookupRing.route (ring : LookupRing net first rest) (ssn : Ssn) :
    ∃ way owner post, first :: rest = way ++ owner :: post ∧
      net.Owns (first :: rest) owner ssn ∧
      (∀ a ∈ way, checkRange (net.node a).selfData ssn = false) ∧
      (way ++ [owner]).IsChain (Linked net) := by
  obtain ⟨owner, ⟨mem, start, stop⟩, unique⟩ := ring.partition (hashSsn ssn)
  obtain ⟨way, post, split, before⟩ := List.eq_append_cons_of_mem mem
  refine ⟨way, owner, post, split, ⟨mem, by simp [checkRange, start, stop]⟩, ?_, ?_⟩
  · intro a mem_a
    by_contra inside
    rw [Bool.not_eq_false, checkRange, Bool.and_eq_true, decide_eq_true_eq, decide_eq_true_eq]
      at inside
    have same := unique a ⟨by rw [split]; simp [mem_a], inside⟩
    exact before (same ▸ mem_a)
  · rcases ring.calm with calm | ⟨rfl, -⟩
    · have chain := calm.linked
      rw [split, List.append_assoc, List.cons_append, List.isChain_split] at chain
      exact chain.1
    · cases way with
      | nil => exact .singleton _
      | cons a way => simp at split

theorem LookupRing.served (ring : LookupRing net first rest) (ssn : Ssn) (sender : Addr) :
    ∃ way owner after, Served net (first :: rest) first ssn sender way owner after ∧
      after.replies = net.replies ++ net.lookupReplies owner ssn sender (some net.issued) := by
  obtain ⟨way, owner, post, split, owns, out, chain⟩ := ring.route ssn
  let counted : Net := { net with issued := net.issued + 1 }
  have ring' : LookupRing counted first rest := ring.bookkeeping _ _ _
  obtain ⟨j, loc, hears, path, forced⟩ := ring'.carry ssn sender (some net.issued) way owner .udp
    (.udp first) chain (fun a mem => by rw [split]; simp [mem])
    (fun a head => by
      have at_first : (way ++ [owner]).head? = some first := by
        have heads := congrArg List.head? split
        cases way with
        | nil => exact heads.symm
        | cons b way => exact heads.symm
      rw [at_first] at head
      cases head
      exact ⟨by decide, rfl⟩) out
  have owns' : counted.Owns (first :: rest) owner ssn := owns
  have resolved := ring'.resolve owns' hears sender (some net.issued)
  let after : Net := { counted with
    applied := net.applied ++ [(owner, ⟨.valLookup ssn sender, some net.issued⟩)]
    replies := net.replies ++ net.lookupReplies owner ssn sender (some net.issued) }
  have ring_after : LookupRing after first rest := ring.bookkeeping _ _ _
  refine ⟨way, owner, after, ⟨owns, ?_, ⟨counted.setQueue (.udp first)
    [⟨.valLookup ssn sender, some net.issued⟩], ?_, ?_⟩,
    fun act internal => ring_after.halted internal, rfl⟩, rfl⟩
  · have length := congrArg List.length split
    simp only [List.length_append, List.length_cons] at length ⊢
    omega
  · have serving : (net.node first).pc.serving = true := by
      rw [ring.still.serving first List.mem_cons_self]
      rfl
    simp only [Net.client, serving, Pdu.requestKey, Option.isSome_some, and_self, if_true,
      Net.push, ring.quiet, List.nil_append]
    rfl
  · rw [path]
    refine (forced.append (.cons ⟨loc, rfl⟩ resolved ?_ .nil)).mono ?_
    · exact fun act net' internal stepped =>
        ring'.only_delivery owns.1 hears internal stepped
    · rintro other ⟨place, rfl⟩
      refine ⟨rfl, rfl, place, fun loc => ?_⟩
      rw [setQueue_queue, Function.update_apply]
      split
      · rfl
      · exact ring.quiet loc

/-- All ways on which a request can be served end alike. -/
theorem Served.unique {entry owner owner' : Addr} {ssn : Ssn} {sender : Addr} {members : List Addr}
    {way way' : List Addr} {after after' : Net}
    (served : Served net members entry ssn sender way owner after)
    (served' : Served net members entry ssn sender way' owner' after') : after = after' := by
  obtain ⟨start, entered, forced⟩ := served.forced
  obtain ⟨start', entered', forced'⟩ := served'.forced
  cases entered.symm.trans entered'
  have internal : ∀ (i : FdsIndex) (as : List Addr), ∀ act ∈ handlings i as,
      act.internal = true := by
    intro i as
    induction as generalizing i with
    | nil => simp [handlings]
    | cons a as ih =>
        intro act mem
        rcases List.mem_cons.mp mem with rfl | later
        · rfl
        · exact ih _ act later
  refine forced.unique forced' (fun _ act mem => ?_) (fun act net' allowed stepped => ?_)
    (fun act net' allowed stepped => ?_)
  · exact mem.elim (internal _ _ act) (internal _ _ act)
  · rw [served.halted act allowed] at stepped
    cases stepped
  · rw [served'.halted act allowed] at stepped
    cases stepped

/-! ## The answer -/

/-- A lookup of the key is answered: its entry is stored, or the table takes for it
another key, whose name and email are empty. -/
def SelfData.Answers (selfData : SelfData) (ssn : Ssn) : Prop :=
  (selfData.get ssn).isSome ∨
    ∃ other, SameKey other ssn ∧ selfData.get other = some ⟨noText, noText⟩

theorem lookupReplies_iff {owner : Addr} {ht : Ht}
    (table : (net.node owner).selfData.hashTable = some ht) (sound : ht.Sound) (ssn : Ssn)
    (sender : Addr) (req : Option ℕ) :
    (∃ pdu, net.lookupReplies owner ssn sender req = [(sender, ⟨pdu, req⟩)] ∧
        IsAnswer ((net.node owner).selfData.get ssn) ssn pdu) ↔
      (net.node owner).selfData.Answers ssn := by
  have get : ∀ key, (net.node owner).selfData.get key = ht.get key := by
    intro key
    simp [SelfData.get, table]
  simp only [Net.lookupReplies, table, Option.bind_some, htLookup_eq_get sound,
    SelfData.Answers, get]
  cases stored : ht.get ssn with
  | some pair =>
      rw [Ht.resident_self sound (by simp [stored]), Option.bind_some, stored]
      simp [IsAnswer]
  | none =>
      simp only [Option.isSome_none, Bool.false_eq_true, false_or]
      constructor
      · rintro ⟨pdu, sent, other, rfl⟩
        cases resident : ht.resident ssn with
        | none => simp [resident] at sent
        | some third =>
            obtain ⟨same, -⟩ := Ht.resident_some resident sound
            refine ⟨third, same, ?_⟩
            cases value : ht.get third with
            | none => simp [resident, value] at sent
            | some pair =>
                simp only [resident, Option.bind_some, value, List.cons.injEq, Prod.mk.injEq,
                  Msg.mk.injEq, Pdu.valLookupResponse.injEq] at sent
                rw [sent.1.2.1.2]
      · rintro ⟨other, same, value⟩
        rw [Ht.resident_of_stored sound same (by simp [value]), Option.bind_some, value]
        exact ⟨_, rfl, ssn, rfl⟩

end

/-- A lookup is served as it should exactly when the owner of the key stores it, or
another key that its table takes for it and that has neither name nor email. -/
theorem lookup_answered_iff {net : Net} {first : Addr} {rest : List Addr}
    (ring : LookupRing net first rest) (ssn : Ssn) (sender : Addr) :
    (∃ way owner after pdu, Served net (first :: rest) first ssn sender way owner after ∧
        after.replies = net.replies ++ [(sender, ⟨pdu, some net.issued⟩)] ∧
        IsAnswer ((net.node owner).selfData.get ssn) ssn pdu) ↔
      ∀ owner, net.Owns (first :: rest) owner ssn → (net.node owner).selfData.Answers ssn := by
  have only : ∀ a b, net.Owns (first :: rest) a ssn → net.Owns (first :: rest) b ssn → a = b := by
    intro a b owns owns'
    simp only [Net.Owns, checkRange, Bool.and_eq_true, decide_eq_true_eq] at owns owns'
    exact (ring.partition (hashSsn ssn)).unique owns owns'
  obtain ⟨way, owner, after, served, replies⟩ := ring.served ssn sender
  obtain ⟨ht, table, sound⟩ := ring.tables owner served.owns.1
  have answered := lookupReplies_iff table sound ssn sender (some net.issued)
  constructor
  · rintro ⟨way', owner', after', pdu, served', replies', answer⟩ third owns
    obtain rfl := only _ _ served.owns owns
    obtain rfl := only _ _ served.owns served'.owns
    obtain rfl := served.unique served'
    rw [replies] at replies'
    exact answered.mp ⟨pdu, List.append_cancel_left replies', answer⟩
  · intro answers
    obtain ⟨pdu, sent, answer⟩ := answered.mpr (answers owner served.owns)
    exact ⟨way, owner, after, pdu, served, by rw [replies, sent], answer⟩

theorem lookupRing_pairNet : LookupRing pairNet nodeA [nodeB] where
  calm := Or.inl quietRing_pairNet
  partition hash := by
    have cases_a : ∀ a ∈ [nodeA, nodeB], a = nodeA ∨ a = nodeB := by simp
    by_cases lower : hash ≤ 127
    · refine ⟨nodeA, ⟨by simp, UInt8.zero_le, lower⟩, ?_⟩
      rintro a ⟨mem, start, -⟩
      refine (cases_a a mem).resolve_right ?_
      rintro rfl
      have upper : (128 : UInt8) ≤ hash := start
      exact absurd (UInt8.le_trans upper lower) (by decide)
    · have le : hash ≤ 255 := UInt8.le_iff_toNat_le.mpr (Nat.le_of_lt_succ hash.toNat_lt)
      have upper : (128 : UInt8) ≤ hash := by
        rw [UInt8.le_iff_toNat_le] at lower ⊢
        exact Nat.lt_of_not_le lower
      refine ⟨nodeB, ⟨by simp, upper, le⟩, ?_⟩
      rintro a ⟨mem, -, stop⟩
      refine (cases_a a mem).resolve_left ?_
      rintro rfl
      exact lower stop
  tables := by
    intro a mem
    rcases List.mem_cons.mp mem with rfl | mem
    · exact ⟨htCreate, rfl, sound_htCreate⟩
    · rw [List.mem_singleton.mp mem]
      exact ⟨htCreate, rfl, sound_htCreate⟩

def storedNet : Net :=
  pairNet.setNode nodeB
    ⟨.q6, (handleHtInsert (pairNet.node nodeB).selfData lastKey ⟨noText, noText⟩).selfData⟩

theorem storedNet_node (a : Addr) : ∃ ht ssns, ht.Sound ∧ storedNet.node a =
    ⟨(pairNet.node a).pc, { (pairNet.node a).selfData with
      hashTable := if a = nodeB then some ht else (pairNet.node a).selfData.hashTable
      ssns := ssns }⟩ := by
  by_cases same : a = nodeB
  · subst same
    refine ⟨htInsert htCreate lastKey ⟨noText, noText⟩,
      Function.update (pairNet.node nodeB).selfData.ssns 0 (some lastKey),
      sound_htCreate.htInsert _ _, ?_⟩
    rw [storedNet, setNode_node, Function.update_self, if_pos rfl]
    rfl
  · refine ⟨htCreate, (pairNet.node a).selfData.ssns, sound_htCreate, ?_⟩
    rw [storedNet, setNode_node, Function.update_of_ne same, if_neg same]

theorem lookupRing_storedNet : LookupRing storedNet nodeA [nodeB] := by
  have ring := lookupRing_pairNet
  have quiet := quietRing_pairNet
  have linked : ∀ a b, Linked pairNet a b → Linked storedNet a b := by
    rintro a b ⟨conn, source, target, successor⟩
    obtain ⟨_, _, -, at_a⟩ := storedNet_node a
    obtain ⟨_, _, -, at_b⟩ := storedNet_node b
    rw [Linked, at_a, at_b]
    exact ⟨conn, source, target, successor⟩
  refine ⟨Or.inl ⟨quiet.several, quiet.nodup, ?_, ?_, quiet.port, ?_,
    quiet.linked.imp linked, ?_, quiet.quiet, quiet.backlog, quiet.unused⟩, ?_, ?_⟩
  · intro a mem
    obtain ⟨_, _, -, at_a⟩ := storedNet_node a
    rw [at_a]
    exact quiet.serving a mem
  · intro a
    obtain ⟨_, _, -, at_a⟩ := storedNet_node a
    rw [at_a]
    exact quiet.addressed a
  · intro a mem
    obtain ⟨_, _, -, at_a⟩ := storedNet_node a
    rw [at_a]
    exact quiet.range a mem
  · intro a outside
    obtain ⟨_, _, -, at_a⟩ := storedNet_node a
    rw [at_a]
    exact quiet.others a outside
  · have ranges (a : Addr) :
        (storedNet.node a).selfData.rangeStart = (pairNet.node a).selfData.rangeStart ∧
          (storedNet.node a).selfData.rangeEnd = (pairNet.node a).selfData.rangeEnd := by
      obtain ⟨_, _, -, at_a⟩ := storedNet_node a
      rw [at_a]
      exact ⟨rfl, rfl⟩
    intro hash
    simp only [ranges]
    exact ring.partition hash
  · intro a mem
    obtain ⟨ht, _, sound, at_a⟩ := storedNet_node a
    rw [at_a]
    dsimp only
    split
    · exact ⟨ht, rfl, sound⟩
    · exact ring.tables a mem

theorem lookup_answered_storedNet : ∃ way owner after pdu,
    Served storedNet [nodeA, nodeB] nodeA lastKey nodeC way owner after ∧
      after.replies = storedNet.replies ++ [(nodeC, ⟨pdu, some storedNet.issued⟩)] ∧
      IsAnswer ((storedNet.node owner).selfData.get lastKey) lastKey pdu := by
  refine (lookup_answered_iff lookupRing_storedNet lastKey nodeC).mpr fun owner owns => Or.inl ?_
  have second : owner = nodeB := by
    rcases List.mem_cons.mp owns.1 with rfl | mem
    · exact absurd owns.2 (by decide)
    · exact List.mem_singleton.mp mem
  rw [second]
  decide

/-- Nobody stores the key, and its owner does not answer. -/
theorem absent_key_not_answered : ¬ ∃ way owner after pdu,
    Served pairNet [nodeA, nodeB] nodeA lastKey nodeC way owner after ∧
      after.replies = pairNet.replies ++ [(nodeC, ⟨pdu, some pairNet.issued⟩)] ∧
      IsAnswer ((pairNet.node owner).selfData.get lastKey) lastKey pdu := by
  rintro ⟨way, owner, after, pdu, served, replies, -⟩
  obtain ⟨way', owner', after', served', replies'⟩ := lookupRing_pairNet.served lastKey nodeC
  obtain rfl := served.unique served'
  have silent : pairNet.lookupReplies owner' lastKey nodeC (some pairNet.issued) = [] := by
    rcases List.mem_cons.mp served'.owns.1 with rfl | mem
    · decide
    · rw [List.mem_singleton.mp mem]
      decide
  rw [silent, replies] at replies'
  simp at replies'

end DhtRing

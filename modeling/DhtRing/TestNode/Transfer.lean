import DhtRing.TestNode.RoundTrip
import DhtRing.TestNode.Rounds

/-!
# Entries that go to another node

`transfer` builds an insert for each entry of a range.  Its lengths are counted anew, so an
entry arrives as it was only when its texts are ASCII.
-/

set_option autoImplicit false

namespace DhtRing.TestNode

/-! ## Entries and inserts -/

def ValInsertPdu.entry (pdu : ValInsertPdu) : Entry := ⟨pdu.ssn, pdu.name, pdu.email⟩

namespace Entry

variable (entry : Entry)

def Received : Prop :=
  ∃ buffer pdu used, parsePdu buffer = .ok (some (.valInsert pdu, used)) ∧ pdu.entry = entry

def within (rangeStart rangeEnd : UInt8) : Bool :=
  rangeStart ≤ entry.hash && entry.hash ≤ rangeEnd

def insert : ValInsertPdu := ValInsertPdu.new entry.ssn entry.name entry.email

def Plain : Prop := AsciiChars entry.name ∧ AsciiChars entry.email

end Entry

def written (fd : ℕ) (effects : List Effect) : List UInt8 :=
  effects.flatMap fun
    | .tcp fd' pdu => if fd' = fd then pdu.toBytes else []
    | _ => []

namespace Node

variable (node : Node)

def transferTo (toSuccessor : Bool) : Option TcpStream :=
  if toSuccessor then node.successor else node.predecessor

/-- The entries of the range are parsed from what `transfer` writes to the socket, and only
the others are kept.  A node whose range holds them has them when it has handled the PDUs. -/
def HandsOver (toSuccessor : Bool) (rangeStart rangeEnd : UInt8) : Prop :=
  ∀ socket, node.transferTo toSuccessor = some socket → ∃ (next : Node) (pdus : List ValInsertPdu),
    node.transfer toSuccessor rangeStart rangeEnd = .ok next ∧
    Framing.feed parsePdu ([], [])
        (written socket.fd (next.effects.drop node.effects.length)) =
      .ok (pdus.map .valInsert, []) ∧
    pdus.map ValInsertPdu.entry = node.values.filter (·.within rangeStart rangeEnd) ∧
    next.values = node.values.filter (!·.within rangeStart rangeEnd) ∧
    ∀ (receiver : Node) (source : Source),
      receiver.hashRange.1 ≤ rangeStart → rangeEnd ≤ receiver.hashRange.2 →
      ∃ last, receiver.handlePdus (pdus.map fun pdu => (.valInsert pdu, source)) = .ok last ∧
        last.values = receiver.values ++ node.values.filter (·.within rangeStart rangeEnd)

end Node

/-! ## One entry -/

section

variable {entry : Entry}

theorem Entry.Received.short (received : entry.Received) :
    SsnFits entry.ssn ∧ ShortText entry.name ∧ ShortText entry.email := by
  obtain ⟨buffer, pdu, used, found, rfl⟩ := received
  obtain ⟨⟨-, ssn, name, email⟩, -⟩ := parsePdu_sound _ _ _ found
  refine ⟨ssn, ⟨?_, name.2⟩, ?_, email.2⟩
  · have bound := pdu.nameLength.toNat_lt
    have length := name.1
    change pdu.name.length ≤ 255
    omega
  · have bound := pdu.emailLength.toNat_lt
    have length := email.1
    change pdu.email.length ≤ 255
    omega

/-- The lengths of the new insert are right only if the texts are ASCII. -/
theorem Entry.Received.insert_fits (received : entry.Received) :
    (TextFits entry.insert.nameLength entry.name ∧ TextFits entry.insert.emailLength entry.email) ↔
      entry.Plain := by
  obtain ⟨-, name, email⟩ := received.short
  exact and_congr (textFits_iff name) (textFits_iff email)

theorem Entry.Received.insert_encodable (received : entry.Received) (plain : entry.Plain) :
    (PDU.valInsert entry.insert).Encodable :=
  ⟨rfl, received.short.1, received.insert_fits.mpr plain⟩

end

/-! ## The stream -/

section

variable {entries : List Entry} {pdus : List ValInsertPdu}

theorem plain_of_stream (received : ∀ entry ∈ entries, entry.Received)
    (valid : ∀ pdu ∈ pdus, (PDU.valInsert pdu).Parsed)
    (same : pdus.map ValInsertPdu.entry = entries)
    {rest rest' : List UInt8}
    (stream : (entries.flatMap fun entry => (PDU.valInsert entry.insert).toBytes) ++ rest =
      (pdus.flatMap fun pdu => (PDU.valInsert pdu).wire) ++ rest') :
    ∀ entry ∈ entries, entry.Plain := by
  subst same
  induction pdus with
  | nil => simp
  | cons pdu pdus ih =>
      have mine := received pdu.entry List.mem_cons_self
      rw [List.map_cons, List.flatMap_cons, List.flatMap_cons, List.append_assoc,
        List.append_assoc] at stream
      have ssn : pdu.ssn = pdu.entry.insert.ssn := rfl
      obtain ⟨name, email, later⟩ :=
        valInsert_front (valid pdu List.mem_cons_self) ssn rfl rfl stream
      have others := ih (fun pdu mem => valid pdu (List.mem_cons_of_mem _ mem))
        (fun entry mem => received entry (List.mem_cons_of_mem _ mem)) later
      rw [List.map_cons]
      rintro entry (_ | ⟨_, mem⟩)
      · exact mine.insert_fits.mp ⟨name, email⟩
      · exact others entry mem

theorem feed_inserts (received : ∀ entry ∈ entries, entry.Received)
    (plain : ∀ entry ∈ entries, entry.Plain) :
    Framing.feed parsePdu ([], [])
        (entries.flatMap fun entry => (PDU.valInsert entry.insert).toBytes) =
      .ok ((entries.map Entry.insert).map .valInsert, []) := by
  have valid : ∀ pdu ∈ (entries.map Entry.insert).map PDU.valInsert, pdu.Parsed := by
    intro pdu mem
    rw [List.map_map] at mem
    obtain ⟨entry, inside, rfl⟩ := List.mem_map.mp mem
    exact ((received entry inside).insert_encodable (plain entry inside)).asParsed
  have bytes : (entries.flatMap fun entry => (PDU.valInsert entry.insert).toBytes) =
      ((entries.map Entry.insert).map PDU.valInsert).flatMap PDU.wire := by
    rw [List.map_map, List.flatMap_map]
    exact List.flatMap_congr fun entry _ => (PDU.wire_eq_toBytes rfl).symm
  have stuck : Framing.Stuck parsePdu [] := fun pdu used found => by cases found
  have split : [] ++ (entries.flatMap fun entry => (PDU.valInsert entry.insert).toBytes) =
      ((entries.map Entry.insert).map PDU.valInsert).flatMap PDU.wire ++ [] := by
    rw [bytes, List.nil_append, List.append_nil]
  exact parsePdu_frames.feed_eq valid stuck split

end

/-! ## The two nodes -/

theorem written_inserts (fd : ℕ) (entries : List Entry) :
    written fd (entries.map fun entry => Effect.tcp fd (.valInsert entry.insert)) =
      entries.flatMap fun entry => (PDU.valInsert entry.insert).toBytes := by
  rw [written, List.flatMap_map]
  exact List.flatMap_congr fun entry _ => if_pos rfl

namespace Node

variable {node : Node} {toSuccessor : Bool} {rangeStart rangeEnd : UInt8}

theorem not_within (entry : Entry) :
    (!entry.within rangeStart rangeEnd) =
      (entry.hash < rangeStart || entry.hash > rangeEnd : Bool) := by
  rw [Entry.within, Bool.not_and, ← decide_not, ← decide_not]
  simp only [UInt8.not_le, gt_iff_lt]

theorem transfer_spec (rangeStart rangeEnd : UInt8) {socket : TcpStream}
    (set : node.transferTo toSuccessor = some socket) :
    ∃ next, node.transfer toSuccessor rangeStart rangeEnd = .ok next ∧
      written socket.fd (next.effects.drop node.effects.length) =
        ((node.values.filter (·.within rangeStart rangeEnd)).flatMap fun entry =>
          (PDU.valInsert entry.insert).toBytes) ∧
      next.values = node.values.filter (!·.within rangeStart rangeEnd) := by
  have set' : (if toSuccessor then node.successor else node.predecessor) = some socket := set
  rw [transfer, set']
  refine ⟨_, rfl, ?_, ?_⟩
  · rw [← written_inserts]
    exact congrArg (written socket.fd) List.drop_left
  · exact List.filter_congr fun entry _ => (not_within entry).symm

theorem handlePdus_inserts (source : Source) (pdus : List ValInsertPdu) (receiver : Node)
    (mine : ∀ pdu ∈ pdus,
      receiver.hashRange.1 ≤ pdu.entry.hash ∧ pdu.entry.hash ≤ receiver.hashRange.2) :
    ∃ last, receiver.handlePdus (pdus.map fun pdu => (.valInsert pdu, source)) = .ok last ∧
      last.values = receiver.values ++ pdus.map ValInsertPdu.entry := by
  induction pdus generalizing receiver with
  | nil => exact ⟨receiver, rfl, (List.append_nil _).symm⟩
  | cons pdu pdus ih =>
      have first : receiver.inMyRange pdu.ssn = true := by
        have inside := mine pdu List.mem_cons_self
        exact Bool.and_eq_true_iff.mpr ⟨decide_eq_true inside.1, decide_eq_true inside.2⟩
      have handled : receiver.handlePdu (.valInsert pdu) source =
          .ok (receiver.served (.valInsert pdu)).settled := by
        rw [handlePdu_of_key (show (PDU.valInsert pdu).key = some pdu.ssn from rfl), if_pos first]
      obtain ⟨last, ran, values⟩ := ih (receiver.served (.valInsert pdu)).settled
        fun pdu mem => mine pdu (List.mem_cons_of_mem _ mem)
      refine ⟨last, ?_, ?_⟩
      · rw [List.map_cons, handlePdus, List.foldlM_cons, handled]
        exact ran
      · rw [values]
        exact List.append_assoc receiver.values [pdu.entry] _

/-- A transfer hands its entries over as they are only when they are ASCII. -/
theorem handsOver_iff (node : Node) (toSuccessor : Bool) (rangeStart rangeEnd : UInt8)
    (received : ∀ entry ∈ node.values, entry.Received) :
    node.HandsOver toSuccessor rangeStart rangeEnd ↔
      node.transferTo toSuccessor = none ∨
        ∀ entry ∈ node.values, entry.within rangeStart rangeEnd → entry.Plain := by
  have moved_received : ∀ entry ∈ node.values.filter (·.within rangeStart rangeEnd),
      entry.Received := fun entry mem => received entry (List.mem_of_mem_filter mem)
  constructor
  · intro hands
    rcases Option.eq_none_or_eq_some (node.transferTo toSuccessor) with unset | ⟨socket, set⟩
    · exact Or.inl unset
    · right
      obtain ⟨next, pdus, ran, parsed, found, -⟩ := hands socket set
      obtain ⟨next', ran', bytes, -⟩ := transfer_spec rangeStart rangeEnd set
      obtain rfl := Except.ok.inj (ran.symm.trans ran')
      rw [bytes] at parsed
      obtain ⟨ys, all, valid, stream, -⟩ := parsePdu_frames.of_feed parsed
      rw [List.nil_append] at all
      subst all
      have plain := plain_of_stream moved_received
        (fun pdu mem => valid _ (List.mem_map_of_mem mem)) found
        (by rw [List.nil_append, List.flatMap_map] at stream; rw [List.append_nil, stream])
      exact fun entry mem inside => plain entry (List.mem_filter.mpr ⟨mem, inside⟩)
  · intro holds socket set
    have plain : ∀ entry ∈ node.values.filter (·.within rangeStart rangeEnd), entry.Plain := by
      intro entry mem
      obtain ⟨mem, inside⟩ := List.mem_filter.mp mem
      rcases holds with unset | plain
      · rw [unset] at set
        cases set
      · exact plain entry mem inside
    obtain ⟨next, ran, bytes, kept⟩ := transfer_spec rangeStart rangeEnd set
    have same : ((node.values.filter (·.within rangeStart rangeEnd)).map Entry.insert).map
        ValInsertPdu.entry = node.values.filter (·.within rangeStart rangeEnd) := by
      rw [List.map_map]
      exact List.map_id'' (fun entry => rfl) _
    refine ⟨next, (node.values.filter (·.within rangeStart rangeEnd)).map Entry.insert, ran, ?_,
      same, kept, ?_⟩
    · rw [bytes]
      exact feed_inserts moved_received plain
    · intro receiver source low high
      have mine : ∀ pdu ∈ (node.values.filter (·.within rangeStart rangeEnd)).map Entry.insert,
          receiver.hashRange.1 ≤ pdu.entry.hash ∧ pdu.entry.hash ≤ receiver.hashRange.2 := by
        intro pdu mem
        obtain ⟨entry, inside, rfl⟩ := List.mem_map.mp mem
        obtain ⟨above, below⟩ := Bool.and_eq_true_iff.mp (List.mem_filter.mp inside).2
        exact ⟨UInt8.le_trans low (of_decide_eq_true above),
          UInt8.le_trans (of_decide_eq_true below) high⟩
      obtain ⟨last, handled, values⟩ := handlePdus_inserts source _ receiver mine
      rw [same] at values
      exact ⟨last, handled, values⟩

end Node

/-! ## A name of one char -/

def keeper (initial : UInt8) : Node where
  __ := Node.new ⟨0, 7777⟩ 5001 5002
  values := [⟨List.replicate 12 '1', [Char.ofUInt8 initial], []⟩]
  successor := some ⟨0, ⟨2, 5002⟩, [], false⟩

theorem keeper_received (initial : UInt8) : ∀ entry ∈ (keeper initial).values, entry.Received := by
  intro entry mem
  obtain rfl := List.mem_singleton.mp mem
  exact ⟨100 :: List.replicate 12 49 ++ [1, initial, 0], _, _, rfl, rfl⟩

/-- A node with a key that is inserted twice and one with a name that is not ASCII. -/
def stocked : Node :=
  { keeper 65 with values := (keeper 65).values ++
    [⟨List.replicate 12 '1', ['B'], ['c', '@', 'd']⟩, ⟨List.replicate 12 '0', ['é'], []⟩] }

theorem stocked_received : ∀ entry ∈ stocked.values, entry.Received := by
  intro entry mem
  rcases List.mem_append.mp mem with first | more
  · exact keeper_received 65 entry first
  · simp only [List.mem_cons, List.not_mem_nil, or_false] at more
    rcases more with rfl | rfl
    · exact ⟨100 :: List.replicate 12 49 ++ [1, 66, 3, 99, 64, 100], _, _, rfl, rfl⟩
    · exact ⟨100 :: List.replicate 12 48 ++ [1, 233, 0], _, _, rfl, rfl⟩

/-- The two entries of the one key go to the successor, and the other one stays. -/
theorem handsOver_iff_ascii : stocked.HandsOver true 0 100 := by
  refine (Node.handsOver_iff _ true 0 100 stocked_received).mpr (Or.inr ?_)
  intro entry mem within
  simp only [stocked, keeper, List.cons_append, List.nil_append, List.mem_cons, List.not_mem_nil,
    or_false] at mem
  rcases mem with rfl | rfl | rfl
  · exact ⟨List.forall_mem_singleton.mpr (by decide), List.forall_mem_nil _⟩
  · refine ⟨List.forall_mem_singleton.mpr (by decide), List.forall_mem_cons.mpr ⟨by decide, ?_⟩⟩
    exact List.forall_mem_cons.mpr ⟨by decide, List.forall_mem_singleton.mpr (by decide)⟩
  · exact absurd within (by decide)

/-- The name is one byte that is not ASCII: its insert cannot be parsed. -/
theorem entry_not_handed_over : ¬ ∀ (node : Node) (toSuccessor : Bool)
    (rangeStart rangeEnd : UInt8), (∀ entry ∈ node.values, entry.Received) → rangeStart ≤ rangeEnd →
      node.HandsOver toSuccessor rangeStart rangeEnd := by
  intro claim
  have hands := claim (keeper 233) true 0 255 (keeper_received 233) (by decide)
  obtain ⟨next, pdus, ran, parsed, -⟩ := hands _ rfl
  cases ran
  cases parsed

end DhtRing.TestNode

import DhtRing.Splits
import DhtRing.TestNode.Forwarding
import DhtRing.TestNode.Streams
import DhtRing.TestNode.Transfer

/-!
# Who has a point of the ring

Every point of a ring of Rust nodes belongs to at most one node, or to one PDU that hands it
on: a PDU that a node has not answered yet, or one on a connection.
-/

set_option autoImplicit false

namespace DhtRing.TestNode

open AtMostOne

/-! ## PDUs -/

def PDU.handsOn : PDU → Option (UInt8 × UInt8)
  | .netJoinResponse pdu => some (pdu.rangeStart, pdu.rangeEnd)
  | .netNewRange pdu => some (pdu.rangeStart, pdu.rangeEnd)
  | _ => none

def PDU.grants (x : ℕ) (pdu : PDU) : Bool := pdu.handsOn.any fun range => covers range.1 range.2 x

/-- The tracker names a node, a maximum comes with a span, a range is not empty, and texts
are ASCII. -/
def PDU.Proper : PDU → Prop
  | .netGetNodeResponse pdu => pdu.port ≠ 0
  | .netJoin pdu => pdu.maxPort ≠ 0 → pdu.maxSpan ≠ 0
  | .netJoinResponse pdu => pdu.rangeStart ≤ pdu.rangeEnd
  | .netNewRange pdu => pdu.rangeStart ≤ pdu.rangeEnd
  | .valInsert pdu => AsciiChars pdu.name ∧ AsciiChars pdu.email
  | _ => True

def PDU.Fine (pdu : PDU) : Prop := pdu.Parsed ∧ pdu.Proper

def PDU.Sent (pdu : PDU) : Prop := pdu.Encodable ∧ pdu.Proper

def Datagram.Fine (datagram : Datagram) : Prop :=
  ∃ pdu : PDU, pdu.Fine ∧ pdu.handsOn = none ∧ datagram.Carries [pdu]

def Effect.Fine : Effect → Prop
  | .udp pdu _ => pdu.Sent ∧ pdu.handsOn = none
  | .tcp _ pdu => pdu.Sent
  | _ => True

section

variable {pdu : PDU}

theorem PDU.handsOn_asParsed (pdu : PDU) : pdu.asParsed.handsOn = pdu.handsOn := by
  cases pdu <;> rfl

theorem PDU.Sent.fine (sent : pdu.Sent) : pdu.asParsed.Fine := by
  refine ⟨sent.1.asParsed, ?_⟩
  have proper := sent.2
  cases pdu <;> exact proper

theorem PDU.Fine.sent (fine : pdu.Fine) (response : pdu.code ≠ 103) : pdu.Sent := by
  obtain ⟨⟨type, fits⟩, proper⟩ := fine
  rw [PDU.parsedType, if_neg response] at type
  exact ⟨⟨type, fits⟩, proper⟩

theorem PDU.Encodable.length_le (encodable : pdu.Encodable) : pdu.toBytes.length ≤ bufferSize := by
  have text {length : UInt8} {text : RString} (fits : TextFits length text) :
      (toLatin1 text).length ≤ 255 := by
    rw [length_toLatin1, fits.1]
    exact Nat.le_of_lt_succ length.toNat_lt
  have key {ssn : RString} (fits : SsnFits ssn) : (toLatin1 (ssn.take ssnLength)).length = 12 :=
    length_toLatin1_take fits
  have fits := encodable.2
  rw [bufferSize]
  cases pdu with
  | valInsert pdu =>
      have := key fits.1
      have := text fits.2.1
      have := text fits.2.2
      simp only [PDU.toBytes, textPduBytes, List.length_cons, List.length_append]
      omega
  | valLookupResponse pdu =>
      have := key fits.1
      have := text fits.2.1
      have := text fits.2.2
      simp only [PDU.toBytes, textPduBytes, List.length_cons, List.length_append]
      omega
  | valRemove pdu =>
      have := key fits
      simp only [PDU.toBytes, List.length_cons]
      omega
  | valLookup pdu =>
      have := key fits
      simp only [PDU.toBytes, List.length_cons, List.length_append, beBytes32, beBytes16,
        List.length_nil]
      omega
  | _ =>
      simp only [PDU.toBytes, List.length_cons, List.length_append, beBytes32, beBytes16,
        List.length_nil]
      omega

theorem PDU.Sent.datagram (sent : pdu.Sent) (quiet : pdu.handsOn = none) (sender : Addr) :
    Datagram.Fine ⟨sender, pdu.toBytes⟩ := by
  refine ⟨pdu.asParsed, sent.fine, pdu.handsOn_asParsed.trans quiet, ?_, ?_, sent.1.length_le⟩
  · rintro _ (_ | ⟨_, ⟨⟩⟩)
    exact sent.1.asParsed
  · rw [List.flatMap_singleton, sent.1.wire_asParsed]

end

/-! ## Nodes -/

/-- The PDUs that a node has taken off its connections and not answered. -/
def Node.mail (node : Node) : List PDU :=
  node.lastPdu.toList ++
    (node.successorWrapper.incomingQueue ++ node.predecessorWrapper.incomingQueue).map Prod.fst

structure Node.Fair (node : Node) : Prop where
  listenPort : node.listenAddr.port ≠ 0
  udpPort : node.udpSocket.localAddr.port ≠ 0
  udpBuffer : node.udpWrapper.buffer = []
  udpQueue : ∀ message ∈ node.udpWrapper.incomingQueue,
    message.1.Fine ∧ message.1.handsOn = none
  datagrams : ∀ datagram ∈ node.udpSocket.datagrams, datagram.Fine
  mail : ∀ pdu ∈ node.mail, pdu.Fine
  values : ∀ entry ∈ node.values, entry.Received ∧ entry.Plain

theorem Node.Fair.congr {node next : Node} (fair : node.Fair)
    (listenAddr : next.listenAddr = node.listenAddr) (udpSocket : next.udpSocket = node.udpSocket)
    (udpWrapper : next.udpWrapper = node.udpWrapper) (mail : next.mail = node.mail)
    (values : next.values = node.values) : next.Fair := by
  refine ⟨?_, ?_, ?_, ?_, ?_, ?_, ?_⟩
  · rw [listenAddr]
    exact fair.listenPort
  · rw [udpSocket]
    exact fair.udpPort
  · rw [udpWrapper]
    exact fair.udpBuffer
  · rw [udpWrapper]
    exact fair.udpQueue
  · rw [udpSocket]
    exact fair.datagrams
  · rw [mail]
    exact fair.mail
  · rw [values]
    exact fair.values

namespace Member

variable (member : Member)

/-- The range of a node is its own from when it is in the ring to when it offers the range to
a neighbour. -/
def owns : Bool :=
  member.node.running && match member.node.state with
    | .q1 | .q2 | .q3 | .q4 | .q7 | .q8 | .q18 => false
    | .q11 => !member.waits
    | _ => true

/-- A node that splits is alone, or the one that the `NET_JOIN` names. -/
def Staged : Prop :=
  match member.node.state with
  | .q4 | .q9 => False
  | .q5 => member.waits = false → member.node.isLast = true
  | .q13 => ∃ pdu, member.node.lastPdu = some (.netJoin pdu) ∧ pdu.maxPort ≠ 0
  | _ => True

structure Fair : Prop where
  node : member.node.Fair
  range : member.owns = true → member.node.hashRange.1 ≤ member.node.hashRange.2
  staged : member.Staged

/-- How often the node has the point `x` or a PDU that hands it on. -/
def load (x : ℕ) : ℕ :=
  (if member.owns && covers member.node.hashRange.1 member.node.hashRange.2 x then 1 else 0) +
    member.node.mail.countP (PDU.grants x)

end Member

/-! ## Shares -/

/-- What the nodes and the connections have of the point `x`; node `i` has some PDUs in hand
as well. -/
def Net.shares (net : Net) (line : ℕ → List PDU) (i : ℕ) (hand : List PDU) (x : ℕ) : ℕ ⊕ ℕ → ℕ
  | .inl j => net.members[j]?.elim 0 (·.load x) +
      if j = i then hand.countP (PDU.grants x) else 0
  | .inr fd => (line fd).countP (PDU.grants x)

structure Net.Shared (net : Net) (line : ℕ → List PDU) (i : ℕ) (hand : List PDU) : Prop where
  carries : net.Carries line
  proper : ∀ fd, ∀ pdu ∈ line fd, pdu.Proper
  fair : ∀ member ∈ net.members, member.Fair
  founded : ∃ member ∈ net.members, member.inRing = true
  datagrams : ∀ receiver datagram, .datagram receiver datagram ∈ net.transit → datagram.Fine
  handed : ∀ pdu ∈ hand, pdu.Fine
  single : ∀ x, Single (net.shares line i hand x)

section

variable {net : Net} {line : ℕ → List PDU} {i : ℕ} {member next : Member} {sent : List Effect}
  {hand hand' : List PDU}

namespace Net

theorem foldl_carry_shape (sender : Member) (sent : List Effect) : ∀ net : Net,
    ∃ f : Member → Member, (∀ other, f other = { other with backlog := (f other).backlog }) ∧
      (sent.foldl (carry sender) net).members = net.members.map f ∧
      (sent.foldl (carry sender) net).transit =
        net.transit ++ sent.flatMap (Effect.packets sender) := by
  induction sent with
  | nil => exact fun net => ⟨id, fun _ => rfl, (List.map_id _).symm, (List.append_nil _).symm⟩
  | cons effect sent ih =>
      intro net
      obtain ⟨f, kept, members, transit⟩ := ih (carry sender net effect)
      rw [List.foldl_cons, members, transit, List.flatMap_cons, ← List.append_assoc]
      cases effect with
      | connect fd addr =>
          refine ⟨f ∘ offer addr ⟨otherEnd fd,
            ⟨sender.address, UInt16.ofNat (49152 + net.connections)⟩, [], false⟩, ?_, ?_, ?_⟩
          · intro other
            rw [Function.comp_apply, kept]
            unfold offer
            split <;> rfl
          · exact List.map_map
          · exact (congrArg (· ++ _) (List.append_nil net.transit)).symm
      | accept fd =>
          exact ⟨f, kept, rfl, (congrArg (· ++ _) (List.append_nil net.transit)).symm⟩
      | _ => exact ⟨f, kept, rfl, rfl⟩

/-- What a node does reaches the others through their backlogs and through the packets. -/
theorem update_shape (net : Net) (i : ℕ)
    (effects : next.node.effects = member.node.effects ++ sent) :
    ∃ f : Member → Member, (∀ other, f other = { other with backlog := (f other).backlog }) ∧
      (net.update i member next).members = (net.members.set i next).map f ∧
      (net.update i member next).transit = net.transit ++ sent.flatMap (Effect.packets next) := by
  rw [update, effects, List.drop_left]
  exact foldl_carry_shape next sent { net with members := net.members.set i next }

end Net

/-- What a step of one node may do that takes nothing off a connection.  It sends ranges to
one connection at most. -/
structure Member.Acts (member next : Member) (sent : List Effect) (hand hand' : List PDU) :
    Prop where
  effects : next.node.effects = member.node.effects ++ sent
  listening : next.listening = member.listening
  udpAddr : next.udpAddr = member.udpAddr
  fair : next.Fair
  inRing : member.inRing = true → next.inRing = true
  sends : ∀ effect ∈ sent, effect.Fine
  handed : ∀ pdu ∈ hand', pdu.Fine
  balance : ∃ fd, (∀ x, next.load x + hand'.countP (PDU.grants x) +
      (sentTo sent fd).countP (PDU.grants x) ≤ member.load x + hand.countP (PDU.grants x)) ∧
    ∀ x fd', fd' ≠ fd → (sentTo sent fd').countP (PDU.grants x) = 0

theorem sentTo_fine (sends : ∀ effect ∈ sent, effect.Fine) {fd : ℕ} :
    ∀ pdu ∈ sentTo sent fd, pdu.Fine := by
  intro pdu mem
  obtain ⟨effect, from_sent, mem⟩ := List.mem_flatMap.mp mem
  cases effect with
  | tcp fd' pdu' =>
      rw [Effect.sentTo] at mem
      split at mem
      · rw [List.mem_singleton.mp mem]
        exact PDU.Sent.fine (sends _ from_sent)
      · cases mem
  | _ => cases mem

theorem packets_fine (sends : ∀ effect ∈ sent, effect.Fine) {sender : Member} {receiver : Addr}
    {datagram : Datagram}
    (mem : .datagram receiver datagram ∈ sent.flatMap (Effect.packets sender)) :
    datagram.Fine := by
  obtain ⟨effect, from_sent, mem⟩ := List.mem_flatMap.mp mem
  cases effect with
  | udp pdu receiver' =>
      obtain ⟨-, rfl⟩ := Packet.datagram.inj (List.mem_singleton.mp mem)
      obtain ⟨fine, quiet⟩ := sends _ from_sent
      exact fine.datagram quiet _
  | tcp fd pdu => cases List.mem_singleton.mp mem
  | shutdown fd => cases List.mem_singleton.mp mem
  | close fd => cases List.mem_singleton.mp mem
  | connect fd addr => cases mem
  | accept fd => cases mem

theorem Member.Fair.congr (fair : member.Fair)
    (same : next = { member with backlog := next.backlog }) : next.Fair := by
  rw [same]
  exact ⟨fair.node, fair.range, fair.staged⟩

namespace Net

theorem Shared.act (shared : net.Shared line i hand) (found : net.members[i]? = some member)
    (acts : member.Acts next sent hand hand')
    (carries : (net.update i member next).Carries fun fd => line fd ++ sentTo sent fd) :
    (net.update i member next).Shared (fun fd => line fd ++ sentTo sent fd) i hand' := by
  obtain ⟨f, kept, members, transit⟩ := update_shape net i acts.effects
  have placed : ∀ other ∈ net.members.set i next, other.Fair := by
    intro other mem
    rcases List.mem_or_eq_of_mem_set mem with old | rfl
    · exact shared.fair other old
    · exact acts.fair
  refine ⟨carries, ?_, ?_, ?_, ?_, acts.handed, ?_⟩
  · intro fd pdu mem
    rcases List.mem_append.mp mem with old | new
    · exact shared.proper fd pdu old
    · exact (sentTo_fine acts.sends pdu new).2
  · intro other mem
    rw [members] at mem
    obtain ⟨before, old, rfl⟩ := List.mem_map.mp mem
    exact (placed before old).congr (kept before)
  · obtain ⟨founder, mem, inRing⟩ := shared.founded
    obtain ⟨j, at_j⟩ := List.mem_iff_getElem?.mp mem
    have stays : ∃ founder', (net.members.set i next)[j]? = some founder' ∧
        founder'.inRing = true := by
      by_cases same : i = j
      · subst same
        obtain rfl := Option.some.inj (found.symm.trans at_j)
        refine ⟨next, ?_, acts.inRing inRing⟩
        rw [List.getElem?_set_self (List.getElem?_eq_some_iff.mp found).1]
      · exact ⟨founder, by rw [List.getElem?_set_ne same, at_j], inRing⟩
    obtain ⟨founder', at_j, inRing⟩ := stays
    refine ⟨f founder', ?_, ?_⟩
    · rw [members]
      exact List.mem_map_of_mem (List.mem_of_getElem? at_j)
    · rw [kept]
      exact inRing
  · intro receiver datagram mem
    rw [transit] at mem
    rcases List.mem_append.mp mem with old | new
    · exact shared.datagrams receiver datagram old
    · exact packets_fine acts.sends new
  · intro x
    obtain ⟨fd, balance, elsewhere⟩ := acts.balance
    have loads (j : ℕ) : (net.update i member next).members[j]?.elim 0 (·.load x) =
        if j = i then next.load x else net.members[j]?.elim 0 (·.load x) := by
      rw [members, List.getElem?_map]
      have same : ∀ other : Option Member, (other.map f).elim 0 (·.load x) =
          other.elim 0 (·.load x) := by
        intro other
        cases other with
        | none => rfl
        | some other =>
            rw [Option.map_some, Option.elim_some, kept]
            rfl
      rw [same]
      split
      · rename_i here
        rw [here, List.getElem?_set_self (List.getElem?_eq_some_iff.mp found).1]
        rfl
      · rename_i other
        rw [List.getElem?_set_ne (Ne.symm other)]
    refine (shared.single x).move (p := .inl i) (q := .inr fd) ?_ ?_
    · have mine := balance x
      simp only [shares, loads, found, if_true, Option.elim_some, List.countP_append]
      omega
    · intro owner other at_fd
      cases owner with
      | inl j =>
          have other : j ≠ i := fun same => other (congrArg Sum.inl same)
          simp only [shares, loads, if_neg other]
          exact le_rfl
      | inr fd' =>
          have other : fd' ≠ fd := fun same => at_fd (congrArg Sum.inr same)
          simp only [shares, List.countP_append, elsewhere x fd' other]
          exact le_rfl

end Net

structure Member.Stays (member next : Member) (sent : List Effect) : Prop where
  quiet : ∀ effect ∈ sent, effect.connects = false
  within : ∀ fd pdu, .tcp fd pdu ∈ sent → fd ∈ member.lanes.map Prod.fst
  fewer : next.lanes.Subperm member.lanes

structure Member.Connects (member next : Member) (fd : ℕ) (addr : Addr)
    (before after : List Effect) : Prop where
  quiet : ∀ effect ∈ before ++ after, effect.connects = false
  within : ∀ fd' pdu, .tcp fd' pdu ∈ before ++ after → fd' ∈ member.lanes.map Prod.fst ∨ fd' = fd
  fewer : next.lanes.Subperm ((fd, []) :: member.lanes)

structure Member.Takes (member next : Member) (hand hand' : List PDU) (fd : ℕ)
    (pdus : List PDU) (rest : List UInt8) (others : List (ℕ × List UInt8)) : Prop where
  effects : next.node.effects = member.node.effects
  listening : next.listening = member.listening
  udpAddr : next.udpAddr = member.udpAddr
  had : member.lanes.Perm ((fd, pdus.flatMap PDU.wire ++ rest) :: others)
  has : next.lanes.Perm ((fd, rest) :: others)
  parsed : ∀ pdu ∈ pdus, pdu.Parsed
  fair : (∀ pdu ∈ pdus, pdu.Fine) → next.Fair
  handed : (∀ pdu ∈ pdus, pdu.Fine) → ∀ pdu ∈ hand', pdu.Fine
  inRing : member.inRing = true → next.inRing = true
  balance : ∀ x, next.load x + hand'.countP (PDU.grants x) ≤
    member.load x + hand.countP (PDU.grants x) + pdus.countP (PDU.grants x)

namespace Net

theorem Shared.stay (shared : net.Shared line i hand) (found : net.members[i]? = some member)
    (acts : member.Acts next sent hand hand') (stays : member.Stays next sent) :
    (net.update i member next).Shared (fun fd => line fd ++ sentTo sent fd) i hand' := by
  refine shared.act found acts (shared.carries.send found acts.effects stays.quiet ?_
    stays.fewer acts.listening)
  intro fd pdu mem
  have fine : pdu.Sent := acts.sends _ mem
  exact ⟨fine.1, shared.carries.fd_lt found (stays.within fd pdu mem)⟩

theorem Shared.connect {addr : Addr} {before after : List Effect}
    (shared : net.Shared line i hand) (found : net.members[i]? = some member)
    (acts : member.Acts next (before ++ .connect (2 * net.connections) addr :: after) hand hand')
    (connects : member.Connects next (2 * net.connections) addr before after)
    (listener : net.members.any (·.listens addr) = true) :
    (net.update i member next).Shared (fun fd =>
      line fd ++ sentTo (before ++ .connect (2 * net.connections) addr :: after) fd) i hand' := by
  have below : SendsBelow (2 * (net.connections + 1)) (before ++ after) := by
    intro fd pdu mem
    have around : .tcp fd pdu ∈ before ++ .connect (2 * net.connections) addr :: after := by
      rcases List.mem_append.mp mem with first | later
      · exact List.mem_append_left _ first
      · exact List.mem_append_right _ (List.mem_cons_of_mem _ later)
    have fine : pdu.Sent := acts.sends _ around
    refine ⟨fine.1, ?_⟩
    rcases connects.within fd pdu mem with old | rfl
    · have below := shared.carries.fd_lt found old
      omega
    · omega
  have carries := shared.carries.connect found acts.effects connects.quiet below connects.fewer
    acts.listening listener
  exact shared.act found acts carries

theorem Shared.take {fd : ℕ} {pdus : List PDU} {rest : List UInt8}
    {others : List (ℕ × List UInt8)} (shared : net.Shared line i hand)
    (found : net.members[i]? = some member)
    (takes : member.Takes next hand hand' fd pdus rest others) :
    ∃ line', (net.update i member next).Shared line' i hand' := by
  obtain ⟨later, split, carries⟩ := shared.carries.take found takes.effects takes.had takes.has
    takes.parsed takes.listening
  have fine : ∀ pdu ∈ pdus, pdu.Fine := fun pdu mem =>
    ⟨takes.parsed pdu mem, shared.proper fd pdu (by rw [split]; exact List.mem_append_left _ mem)⟩
  have nothing : next.node.effects = member.node.effects ++ [] := by
    rw [takes.effects, List.append_nil]
  have same : net.update i member next = { net with members := net.members.set i next } := by
    rw [update_eq nothing (List.forall_mem_nil _), List.flatMap_nil, List.append_nil]
  have inside := (List.getElem?_eq_some_iff.mp found).1
  rw [same] at carries ⊢
  refine ⟨_, carries, ?_, ?_, ?_, shared.datagrams, takes.handed fine, ?_⟩
  · intro fd' pdu mem
    rw [Function.update_apply] at mem
    split at mem
    · refine shared.proper fd pdu ?_
      rw [split]
      exact List.mem_append_right _ mem
    · exact shared.proper fd' pdu mem
  · intro other mem
    rcases List.mem_or_eq_of_mem_set mem with old | rfl
    · exact shared.fair other old
    · exact takes.fair fine
  · obtain ⟨founder, mem, inRing⟩ := shared.founded
    obtain ⟨j, at_j⟩ := List.mem_iff_getElem?.mp mem
    by_cases here : i = j
    · subst here
      obtain rfl := Option.some.inj (found.symm.trans at_j)
      refine ⟨next, ?_, takes.inRing inRing⟩
      exact List.mem_of_getElem? (List.getElem?_set_self inside)
    · refine ⟨founder, ?_, inRing⟩
      exact List.mem_of_getElem? ((List.getElem?_set_ne here).trans at_j)
  · intro x
    refine (shared.single x).move (p := .inr fd) (q := .inl i) ?_ ?_
    · have mine := takes.balance x
      simp only [shares, Function.update_self, split, List.countP_append, found,
        List.getElem?_set_self inside, if_true, Option.elim_some]
      omega
    · intro owner at_fd other
      cases owner with
      | inl j =>
          have other : i ≠ j := fun same => other (congrArg Sum.inl same.symm)
          simp only [shares, List.getElem?_set_ne other, if_neg (Ne.symm other)]
          exact le_rfl
      | inr fd' =>
          have other : fd' ≠ fd := fun same => at_fd (congrArg Sum.inr same)
          simp only [shares, Function.update_of_ne other]
          exact le_rfl

/-! ## Steps of one node, one after the other -/

/-- Node `i` is inside a step; it has some PDUs in hand. -/
structure Doing (net : Net) (i : ℕ) (member next : Member) (hand : List PDU) : Prop where
  found : net.members[i]? = some member
  shared : ∃ line, (net.update i member next).Shared line i hand
  quiet : ∃ sent, next.node.effects = member.node.effects ++ sent ∧
    ∀ effect ∈ sent, effect.connects = false

theorem Doing.start (shared : net.Shared line i []) (found : net.members[i]? = some member) :
    net.Doing i member member [] := by
  refine ⟨found, ⟨line, ?_⟩, [], (List.append_nil _).symm, List.forall_mem_nil _⟩
  obtain ⟨inside, rfl⟩ := List.getElem?_eq_some_iff.mp found
  rw [update_eq (List.append_nil _).symm (List.forall_mem_nil _), List.flatMap_nil,
    List.append_nil, List.set_getElem_self]
  exact shared

section

variable {middle : Member}

theorem Doing.found_middle (doing : net.Doing i member middle hand) :
    (net.update i member middle).members[i]? = some middle ∧
      (net.update i member middle).connections = net.connections ∧
      (net.update i member middle).members = net.members.set i middle := by
  obtain ⟨sent, effects, quiet⟩ := doing.quiet
  rw [update_eq effects quiet]
  exact ⟨List.getElem?_set_self (List.getElem?_eq_some_iff.mp doing.found).1, rfl, rfl⟩

theorem Doing.fair (doing : net.Doing i member middle hand) :
    middle.Fair ∧ ∀ pdu ∈ hand, pdu.Fine := by
  obtain ⟨line, shared⟩ := doing.shared
  exact ⟨shared.fair middle (List.mem_of_getElem? doing.found_middle.1), shared.handed⟩

theorem Doing.stay (doing : net.Doing i member middle hand)
    (acts : middle.Acts next sent hand hand') (stays : middle.Stays next sent) :
    net.Doing i member next hand' := by
  obtain ⟨line, shared⟩ := doing.shared
  obtain ⟨earlier, effects, quiet⟩ := doing.quiet
  have after := shared.stay doing.found_middle.1 acts stays
  rw [update_update effects quiet acts.effects acts.udpAddr] at after
  refine ⟨doing.found, ⟨_, after⟩, earlier ++ sent, ?_, ?_⟩
  · rw [acts.effects, effects, List.append_assoc]
  · intro effect mem
    rcases List.mem_append.mp mem with first | later
    · exact quiet effect first
    · exact stays.quiet effect later

theorem Doing.take {fd : ℕ} {pdus : List PDU} {rest : List UInt8}
    {others : List (ℕ × List UInt8)} (doing : net.Doing i member middle hand)
    (takes : middle.Takes next hand hand' fd pdus rest others) :
    net.Doing i member next hand' := by
  obtain ⟨line, shared⟩ := doing.shared
  obtain ⟨earlier, effects, quiet⟩ := doing.quiet
  obtain ⟨line', after⟩ := shared.take doing.found_middle.1 takes
  have nothing : next.node.effects = middle.node.effects ++ [] := by
    rw [takes.effects, List.append_nil]
  rw [update_update effects quiet nothing takes.udpAddr] at after
  refine ⟨doing.found, ⟨line', after⟩, earlier, ?_, quiet⟩
  rw [takes.effects, effects]

/-- The last thing that a node does in a step may be to connect. -/
theorem Doing.connect {addr : Addr} {before after : List Effect}
    (doing : net.Doing i member middle hand)
    (acts : middle.Acts next (before ++ .connect (2 * net.connections) addr :: after) hand hand')
    (connects : middle.Connects next (2 * net.connections) addr before after)
    (listening : middle.listening = member.listening)
    (listener : net.members.any (·.listens addr) = true) :
    ∃ line, (net.update i member next).Shared line i hand' := by
  obtain ⟨line, shared⟩ := doing.shared
  obtain ⟨earlier, effects, quiet⟩ := doing.quiet
  obtain ⟨here, connections, members⟩ := doing.found_middle
  have still : (net.update i member middle).members.any (·.listens addr) = true := by
    obtain ⟨other, mem, listens⟩ := List.any_eq_true.mp listener
    have mem' : addr ∈ (net.members.set i middle).map Member.listening := by
      rw [map_listening_set doing.found listening, ← Member.listens_iff.mp listens]
      exact List.mem_map_of_mem mem
    obtain ⟨other, mem, listens⟩ := List.mem_map.mp mem'
    rw [members]
    exact List.any_eq_true.mpr ⟨other, mem, Member.listens_iff.mpr listens⟩
  rw [← connections] at acts connects
  have after := shared.connect here acts connects still
  rw [update_update effects quiet acts.effects acts.udpAddr] at after
  exact ⟨_, after⟩

end

/-! ## Steps of the network -/

theorem mem_of_ready {k : ℕ} {packet : Packet} (ready : net.ready k = some packet) :
    packet ∈ net.transit := by
  unfold Net.ready at ready
  split at ready
  · cases ready
  · rename_i found
    split at ready
    · cases ready
    · cases ready
      exact List.mem_of_getElem? found

theorem Shared.relabel (shared : net.Shared line i []) (j : ℕ) : net.Shared line j [] := by
  refine ⟨shared.carries, shared.proper, shared.fair, shared.founded, shared.datagrams,
    shared.handed, fun x => (shared.single x).mono fun owner => ?_⟩
  cases owner with
  | inl k =>
      simp only [shares, List.countP_nil, ite_self]
      exact le_rfl
  | inr fd => exact le_rfl

/-- Nodes and packets change, and what anyone has of the ring does not. -/
theorem Shared.network {next : Net} (shared : net.Shared line i []) (f : Member → Member)
    (started : List Member) (carries : next.Carries line)
    (members : next.members = net.members.map f ++ started)
    (fair : ∀ member ∈ net.members, member.Fair → (f member).Fair)
    (load : ∀ member x, (f member).load x = member.load x)
    (inRing : ∀ member, (f member).inRing = member.inRing)
    (idle : ∀ member ∈ started, member.Fair ∧ ∀ x, member.load x = 0)
    (datagrams : ∀ receiver datagram, .datagram receiver datagram ∈ next.transit →
      datagram.Fine) : next.Shared line i [] := by
  refine ⟨carries, shared.proper, ?_, ?_, datagrams, shared.handed, ?_⟩
  · intro member mem
    rw [members] at mem
    rcases List.mem_append.mp mem with old | new
    · obtain ⟨before, mem_before, rfl⟩ := List.mem_map.mp old
      exact fair before mem_before (shared.fair before mem_before)
    · exact (idle member new).1
  · obtain ⟨founder, mem, founded⟩ := shared.founded
    refine ⟨f founder, ?_, (inRing founder).trans founded⟩
    rw [members]
    exact List.mem_append_left _ (List.mem_map_of_mem mem)
  · intro x
    refine (shared.single x).mono fun owner => ?_
    cases owner with
    | inr fd => exact le_rfl
    | inl j =>
        refine Nat.add_le_add_right ?_ _
        rw [members]
        by_cases old : j < net.members.length
        · have inside : j < (net.members.map f).length := by rwa [List.length_map]
          rw [List.getElem?_append_left inside, List.getElem?_map,
            List.getElem?_eq_getElem old, Option.map_some, Option.elim_some, Option.elim_some,
            load]
        · have outside : (net.members.map f).length ≤ j := by
            rw [List.length_map]
            exact Nat.le_of_not_lt old
          rw [List.getElem?_append_right outside]
          cases new : started[j - (net.members.map f).length]? with
          | none => exact Nat.zero_le _
          | some member =>
              rw [Option.elim_some, (idle member (List.mem_of_getElem? new)).2]
              exact Nat.zero_le _

theorem Shared.transit (shared : net.Shared line i []) {transit : List Packet}
    (same : ∀ fd, transit.flatMap (Packet.bytesTo fd) = net.underWay fd)
    (datagrams : ∀ receiver datagram, .datagram receiver datagram ∈ transit → datagram.Fine) :
    Shared { net with transit := transit } line i [] := by
  refine shared.network id [] (shared.carries.transit same) ?_
    (fun _ _ fair => fair) (fun _ _ => rfl) (fun _ => rfl) (List.forall_mem_nil _) datagrams
  rw [List.map_id, List.append_nil]

theorem Shared.datagram (shared : net.Shared line i []) {receiver : Addr} {datagram : Datagram}
    (fine : datagram.Fine) :
    Shared { net with transit := net.transit ++ [.datagram receiver datagram] } line i [] := by
  refine shared.transit (fun fd => ?_) ?_
  · rw [List.flatMap_append]
    exact List.append_nil _
  · intro receiver' datagram' mem
    rcases List.mem_append.mp mem with old | new
    · exact shared.datagrams receiver' datagram' old
    · obtain ⟨-, rfl⟩ := Packet.datagram.inj (List.mem_singleton.mp new)
      exact fine

theorem Shared.deliver (shared : net.Shared line i []) {k : ℕ} {packet : Packet}
    (ready : net.ready k = some packet) :
    (deliver { net with transit := net.transit.eraseIdx k } packet).Shared line i [] := by
  have carries := shared.carries.deliver ready
  have left : ∀ receiver datagram, .datagram receiver datagram ∈ net.transit.eraseIdx k →
      datagram.Fine := fun receiver datagram mem =>
    shared.datagrams receiver datagram (List.mem_of_mem_eraseIdx mem)
  cases packet with
  | bytes fd burst =>
      refine shared.network _ [] carries (List.append_nil _).symm ?_
        (fun _ _ => rfl) (fun _ => rfl) (List.forall_mem_nil _) left
      exact fun member _ fair => ⟨fair.node.congr rfl rfl rfl rfl rfl, fair.range, fair.staged⟩
  | fin fd =>
      refine shared.network _ [] carries (List.append_nil _).symm ?_
        (fun _ _ => rfl) (fun _ => rfl) (List.forall_mem_nil _) left
      exact fun member _ fair => ⟨fair.node.congr rfl rfl rfl rfl rfl, fair.range, fair.staged⟩
  | datagram receiver datagram =>
      have fine := shared.datagrams receiver datagram (mem_of_ready ready)
      refine shared.network _ [] carries (List.append_nil _).symm ?_ ?_ ?_
        (List.forall_mem_nil _) left
      · intro member _ fair
        split
        · refine ⟨{ fair.node with datagrams := ?_ }, fair.range, fair.staged⟩
          intro other mem
          rcases List.mem_append.mp mem with old | new
          · exact fair.node.datagrams other old
          · rw [List.mem_singleton.mp new]
            exact fine
        · exact fair
      · intro member x
        split <;> rfl
      · intro member
        split <;> rfl

theorem Shared.start (shared : net.Shared line i []) {address : UInt32}
    {udpPort listenPort : UInt16} (udp : udpPort ≠ 0) (listen : listenPort ≠ 0)
    (free : net.inUse address listenPort = false) :
    Shared { net with members :=
      net.members ++ [⟨address, Node.new net.trackerAddr udpPort listenPort, false, []⟩] }
      line i [] := by
  refine shared.network id
    [⟨address, Node.new net.trackerAddr udpPort listenPort, false, []⟩] (shared.carries.start free)
    ?_ (fun _ _ fair => fair) (fun _ _ => rfl) (fun _ => rfl) ?_ shared.datagrams
  · rw [List.map_id]
  · intro member mem
    rw [List.mem_singleton.mp mem]
    refine ⟨⟨?_, nofun, trivial⟩, fun _ => rfl⟩
    exact ⟨listen, udp, rfl, List.forall_mem_nil _, List.forall_mem_nil _, List.forall_mem_nil _,
      List.forall_mem_nil _⟩

end Net

end

end DhtRing.TestNode

import DhtRing.Lib.Streams
import DhtRing.TestNode.Encoding
import DhtRing.TestNode.Network

/-!
# Streams between Rust nodes

What stands on the connections of a network: the bytes in the buffers of the wrappers, in the
sockets and under way are those of whole PDUs, in whatever pieces they come.  So it is as long
as no rest of a connection is left in a buffer when the next one takes its place.
-/

set_option autoImplicit false

namespace DhtRing.TestNode

open Streams

/-! ## Lanes -/

/-- The end of a connection with the bytes that are not parsed yet. -/
def TcpStream.lane (buffer : List UInt8) (socket : TcpStream) : ℕ × List UInt8 :=
  (socket.fd, buffer ++ socket.pending)

def Member.successorLane (member : Member) : List (ℕ × List UInt8) :=
  (member.node.successor.map (TcpStream.lane member.node.successorWrapper.buffer)).toList

def Member.predecessorLane (member : Member) : List (ℕ × List UInt8) :=
  (member.node.predecessor.map (TcpStream.lane member.node.predecessorWrapper.buffer)).toList

def Member.lanes (member : Member) : List (ℕ × List UInt8) :=
  member.successorLane ++ (member.predecessorLane ++ member.backlog.map (TcpStream.lane []))

def Member.listening (member : Member) : Addr := ⟨member.address, member.node.listenAddr.port⟩

theorem Member.listens_iff {member : Member} {addr : Addr} :
    member.listens addr = true ↔ member.listening = addr := by
  rw [listens, decide_eq_true_eq, listening, eq_comm]

def Packet.bytesTo (fd : ℕ) : Packet → List UInt8
  | .bytes fd' burst => if fd = fd' then burst.val else []
  | _ => []

def Effect.connects : Effect → Bool
  | .connect .. => true
  | _ => false

def Effect.packets (sender : Member) : Effect → List Packet
  | .udp pdu receiver => [.datagram receiver ⟨sender.udpAddr, pdu.toBytes⟩]
  | .tcp fd pdu => [.bytes (otherEnd fd) ⟨pdu.toBytes, pdu.toBytes_ne_nil⟩]
  | .shutdown fd => [.fin (otherEnd fd)]
  | .close fd => [.fin (otherEnd fd)]
  | _ => []

/-- The PDU, as it will be parsed, that an effect sends to this end. -/
def Effect.sentTo (fd : ℕ) : Effect → List PDU
  | .tcp fd' pdu => if fd = otherEnd fd' then [pdu.asParsed] else []
  | _ => []

def sentTo (effects : List Effect) (fd : ℕ) : List PDU := effects.flatMap (Effect.sentTo fd)

def SendsBelow (bound : ℕ) (effects : List Effect) : Prop :=
  ∀ fd pdu, .tcp fd pdu ∈ effects → pdu.Encodable ∧ fd < bound

namespace Net

variable (net : Net)

def lanes : List (ℕ × List UInt8) := net.members.flatMap Member.lanes

def underWay (fd : ℕ) : List UInt8 := net.transit.flatMap (Packet.bytesTo fd)

/-- The PDUs of `line` stand on the connections. -/
structure Carries (line : ℕ → List PDU) : Prop where
  carried : Carried PDU.wire PDU.Parsed net.lanes net.underWay line (2 * net.connections)
  listening : (net.members.map Member.listening).Nodup

end Net

/-! ## A step of one node -/

section

variable {net : Net} {i : ℕ} {member next : Member} {sent : List Effect}

theorem otherEnd_lt {fd c : ℕ} (below : fd < 2 * c) : otherEnd fd < 2 * c := by
  unfold otherEnd
  split <;> omega

theorem sentTo_valid {bound : ℕ} (sends : SendsBelow bound sent) (fd : ℕ) :
    ∀ pdu ∈ sentTo sent fd, pdu.Parsed := by
  intro pdu mem
  obtain ⟨effect, from_sent, mem⟩ := List.mem_flatMap.mp mem
  cases effect with
  | tcp fd' pdu' =>
      rw [Effect.sentTo] at mem
      split at mem
      · rw [List.mem_singleton.mp mem]
        exact (sends fd' pdu' from_sent).1.asParsed
      · cases mem
  | _ => cases mem

theorem sentTo_above {c : ℕ} (sends : SendsBelow (2 * c) sent) {fd : ℕ} (above : 2 * c ≤ fd) :
    sentTo sent fd = [] := by
  refine List.flatMap_eq_nil_iff.mpr fun effect mem => ?_
  cases effect with
  | tcp fd' pdu =>
      refine if_neg ?_
      have below := otherEnd_lt (sends fd' pdu mem).2
      omega
  | _ => rfl

theorem flatMap_packets {bound : ℕ} (sends : SendsBelow bound sent) (sender : Member) (fd : ℕ) :
    (sent.flatMap (Effect.packets sender)).flatMap (Packet.bytesTo fd) =
      (sentTo sent fd).flatMap PDU.wire := by
  rw [sentTo, List.flatMap_assoc, List.flatMap_assoc]
  refine List.flatMap_congr fun effect mem => ?_
  cases effect with
  | tcp fd' pdu =>
      have wire := (sends fd' pdu mem).1.wire_asParsed
      rw [Effect.packets, Effect.sentTo, List.flatMap_singleton, Packet.bytesTo]
      split
      · rw [List.flatMap_singleton, wire]
      · rfl
  | _ => rfl

namespace Net

theorem foldl_carry (quiet : ∀ effect ∈ sent, effect.connects = false) (sender : Member)
    (net : Net) :
    sent.foldl (carry sender) net =
      { net with transit := net.transit ++ sent.flatMap (Effect.packets sender) } := by
  induction sent generalizing net with
  | nil => rw [List.flatMap_nil, List.append_nil, List.foldl_nil]
  | cons effect sent ih =>
      rw [List.foldl_cons, ih fun effect mem => quiet effect (List.mem_cons_of_mem _ mem),
        List.flatMap_cons]
      have no_connection := quiet effect List.mem_cons_self
      cases effect with
      | connect fd addr => cases no_connection
      | accept fd => rfl
      | _ =>
          rw [← List.append_assoc]
          rfl

theorem update_eq (effects : next.node.effects = member.node.effects ++ sent)
    (quiet : ∀ effect ∈ sent, effect.connects = false) :
    net.update i member next = { net with
      members := net.members.set i next
      transit := net.transit ++ sent.flatMap (Effect.packets next) } := by
  rw [update, effects, List.drop_left, foldl_carry quiet]

def offer (addr : Addr) (stream : TcpStream) (member : Member) : Member :=
  if member.listens addr then { member with backlog := member.backlog ++ [stream] } else member

theorem update_connect_eq {before after : List Effect} {fd : ℕ} {addr : Addr}
    (effects : next.node.effects = member.node.effects ++ (before ++ .connect fd addr :: after))
    (quiet : ∀ effect ∈ before ++ after, effect.connects = false) :
    net.update i member next = { net with
      members := (net.members.set i next).map (offer addr
        ⟨otherEnd fd, ⟨next.address, UInt16.ofNat (49152 + net.connections)⟩, [], false⟩)
      transit := net.transit ++ (before ++ after).flatMap (Effect.packets next)
      connections := net.connections + 1 } := by
  rw [update, effects, List.drop_left, List.foldl_append, List.foldl_cons,
    foldl_carry fun effect mem => quiet effect (List.mem_append_left _ mem),
    foldl_carry fun effect mem => quiet effect (List.mem_append_right _ mem),
    List.flatMap_append, ← List.append_assoc]
  rfl

theorem update_update {last : Member} {more : List Effect}
    (effects : next.node.effects = member.node.effects ++ sent)
    (quiet : ∀ effect ∈ sent, effect.connects = false)
    (later : last.node.effects = next.node.effects ++ more)
    (same : last.udpAddr = next.udpAddr) :
    (net.update i member next).update i next last = net.update i member last := by
  have packets : sent.flatMap (Effect.packets next) = sent.flatMap (Effect.packets last) := by
    refine List.flatMap_congr fun effect _ => ?_
    cases effect with
    | udp pdu receiver => rw [Effect.packets, Effect.packets, same]
    | _ => rfl
  have both : last.node.effects = member.node.effects ++ (sent ++ more) := by
    rw [later, effects, List.append_assoc]
  rw [update_eq effects quiet, update, update, both, List.drop_left, ← both, later,
    List.drop_left, List.foldl_append, foldl_carry quiet, packets, List.set_set]

theorem offer_listening (addr : Addr) (stream : TcpStream) (member : Member) :
    (offer addr stream member).listening = member.listening := by
  unfold offer
  split <;> rfl

end Net

theorem exists_around {members : List Member} (found : members[i]? = some member) :
    ∃ before after, members = before ++ member :: after ∧
      ∀ next, members.set i next = before ++ next :: after := by
  obtain ⟨inside, rfl⟩ := List.getElem?_eq_some_iff.mp found
  refine ⟨members.take i, members.drop (i + 1), ?_, fun next => ?_⟩
  · rw [List.getElem_cons_drop, List.take_append_drop]
  · rw [List.set_eq_take_append_cons_drop, if_pos inside]

theorem flatMap_lanes_perm {members : List Member} (found : members[i]? = some member) :
    ∃ others, (members.flatMap Member.lanes).Perm (member.lanes ++ others) ∧
      ∀ next, ((members.set i next).flatMap Member.lanes).Perm (next.lanes ++ others) := by
  obtain ⟨before, after, rfl, set⟩ := exists_around found
  have around (next : Member) : ((before ++ next :: after).flatMap Member.lanes).Perm
      (next.lanes ++ (before.flatMap Member.lanes ++ after.flatMap Member.lanes)) := by
    rw [List.flatMap_append, List.flatMap_cons, ← List.append_assoc, ← List.append_assoc]
    exact List.perm_append_comm.append_right _
  refine ⟨_, around member, fun next => ?_⟩
  rw [set]
  exact around next

theorem map_listening_set {members : List Member} (found : members[i]? = some member)
    (same : next.listening = member.listening) :
    (members.set i next).map Member.listening = members.map Member.listening := by
  obtain ⟨before, after, rfl, set⟩ := exists_around found
  rw [set, List.map_append, List.map_append, List.map_cons, List.map_cons, same]

theorem flatMap_offer_perm {members : List Member} {addr : Addr} (stream : TcpStream)
    (nodup : (members.map Member.listening).Nodup)
    (listener : (members.any (·.listens addr)) = true) :
    ((members.map (Net.offer addr stream)).flatMap Member.lanes).Perm
      ((stream.fd, stream.pending) :: members.flatMap Member.lanes) := by
  induction members with
  | nil => cases listener
  | cons member members ih =>
      rw [List.map_cons, List.nodup_cons] at nodup
      rw [List.map_cons, List.flatMap_cons, List.flatMap_cons]
      by_cases here : member.listens addr = true
      · have others : members.map (Net.offer addr stream) = members := by
          refine (List.map_congr_left (g := id) fun other mem => if_neg fun also => ?_).trans
            (List.map_id members)
          refine nodup.1 ?_
          rw [Member.listens_iff.mp here, ← Member.listens_iff.mp also]
          exact List.mem_map_of_mem mem
        have lanes : (Net.offer addr stream member).lanes =
            member.lanes ++ [(stream.fd, stream.pending)] := by
          rw [Net.offer, if_pos here, Member.lanes, Member.lanes, List.map_append,
            List.append_assoc, List.append_assoc]
          rfl
        rw [others, lanes, List.append_assoc]
        exact List.perm_middle
      · have later : members.any (·.listens addr) = true := by
          rw [List.any_cons, Bool.or_eq_true] at listener
          exact listener.resolve_left here
        rw [Net.offer, if_neg here]
        exact ((ih nodup.2 later).append_left _).trans List.perm_middle

namespace Net

variable {line : ℕ → List PDU}

theorem Carries.fd_lt (carries : net.Carries line) (found : net.members[i]? = some member)
    {fd : ℕ} (mem : fd ∈ member.lanes.map Prod.fst) : fd < 2 * net.connections := by
  obtain ⟨lane, old, rfl⟩ := List.mem_map.mp mem
  refine carries.carried.below lane (List.mem_flatMap.mpr ⟨member, ?_, old⟩)
  exact List.mem_of_getElem? found

/-- A node sends, and may close some of its connections. -/
theorem Carries.send (carries : net.Carries line) (found : net.members[i]? = some member)
    (effects : next.node.effects = member.node.effects ++ sent)
    (quiet : ∀ effect ∈ sent, effect.connects = false)
    (sends : SendsBelow (2 * net.connections) sent) (fewer : next.lanes.Subperm member.lanes)
    (same : next.listening = member.listening) :
    (net.update i member next).Carries fun fd => line fd ++ sentTo sent fd := by
  obtain ⟨others, before, after⟩ := flatMap_lanes_perm found
  rw [update_eq effects quiet]
  refine ⟨?_, (map_listening_set found same).symm ▸ carries.listening⟩
  refine (carries.carried.sub ?_).send (fun fd => ?_) (sentTo_valid sends)
    fun fd above => sentTo_above sends above
  · have mine := (List.subperm_append_right others).mpr fewer
    exact ((after next).subperm.trans mine).trans before.symm.subperm
  · rw [← flatMap_packets sends next]
    exact List.flatMap_append

theorem Carries.connect {before after : List Effect} {addr : Addr} (carries : net.Carries line)
    (found : net.members[i]? = some member)
    (effects : next.node.effects =
      member.node.effects ++ (before ++ .connect (2 * net.connections) addr :: after))
    (quiet : ∀ effect ∈ before ++ after, effect.connects = false)
    (sends : SendsBelow (2 * (net.connections + 1)) (before ++ after))
    (fewer : next.lanes.Subperm ((2 * net.connections, []) :: member.lanes))
    (same : next.listening = member.listening)
    (listener : net.members.any (·.listens addr) = true) :
    (net.update i member next).Carries fun fd =>
      line fd ++ sentTo (before ++ .connect (2 * net.connections) addr :: after) fd := by
  have nothing : ∀ fd, sentTo (before ++ .connect (2 * net.connections) addr :: after) fd =
      sentTo (before ++ after) fd := by
    intro fd
    rw [sentTo, sentTo, List.flatMap_append, List.flatMap_append, List.flatMap_cons]
    rfl
  simp only [nothing]
  obtain ⟨others, lanes_before, lanes_after⟩ := flatMap_lanes_perm found
  have listening := map_listening_set found same
  have nodup : ((net.members.set i next).map Member.listening).Nodup :=
    listening.symm ▸ carries.listening
  have still : (net.members.set i next).any (·.listens addr) = true := by
    obtain ⟨other, mem, listens⟩ := List.any_eq_true.mp listener
    have mem' : addr ∈ (net.members.set i next).map Member.listening := by
      rw [listening, ← Member.listens_iff.mp listens]
      exact List.mem_map_of_mem mem
    obtain ⟨other, mem, listens⟩ := List.mem_map.mp mem'
    exact List.any_eq_true.mpr ⟨other, mem, Member.listens_iff.mpr listens⟩
  have other_end : otherEnd (2 * net.connections) = 2 * net.connections + 1 :=
    if_pos (Nat.mul_mod_right ..)
  rw [update_connect_eq effects quiet, other_end]
  generalize UInt16.ofNat (49152 + net.connections) = port
  refine ⟨?_, ?_⟩
  · refine (carries.carried.connect.sub ?_).send (fun fd => ?_) (sentTo_valid sends)
      fun fd above => sentTo_above sends above
    · have offered := flatMap_offer_perm
        ⟨2 * net.connections + 1, ⟨next.address, port⟩, [], false⟩ nodup still
      have mine := ((lanes_after next).subperm.trans
        ((List.subperm_append_right others).mpr fewer)).trans
          (lanes_before.symm.cons (2 * net.connections, [])).subperm
      refine offered.subperm.trans (List.Subperm.trans ?_ (List.Perm.swap ..).subperm)
      exact (List.subperm_cons (2 * net.connections + 1, [])).mpr mine
    · rw [← flatMap_packets sends next]
      exact List.flatMap_append
  · have kept : Member.listening ∘
        offer addr ⟨2 * net.connections + 1, ⟨next.address, port⟩, [], false⟩ =
          Member.listening := funext fun member => offer_listening ..
    rw [List.map_map, kept]
    exact nodup

theorem Carries.take {fd : ℕ} {pdus : List PDU} {rest : List UInt8}
    {others : List (ℕ × List UInt8)} (carries : net.Carries line)
    (found : net.members[i]? = some member) (effects : next.node.effects = member.node.effects)
    (had : member.lanes.Perm ((fd, pdus.flatMap PDU.wire ++ rest) :: others))
    (has : next.lanes.Perm ((fd, rest) :: others)) (parsed : ∀ pdu ∈ pdus, pdu.Parsed)
    (same : next.listening = member.listening) :
    ∃ later, line fd = pdus ++ later ∧
      (net.update i member next).Carries (Function.update line fd later) := by
  obtain ⟨elsewhere, before, after⟩ := flatMap_lanes_perm found
  have carried := carries.carried.perm ((had.symm.append_right elsewhere).trans before.symm)
  obtain ⟨later, split, carried⟩ := carried.take parsePdu_frames parsed
  refine ⟨later, split, ?_⟩
  have nothing : next.node.effects = member.node.effects ++ [] := by
    rw [effects, List.append_nil]
  rw [update_eq nothing (List.forall_mem_nil _), List.flatMap_nil, List.append_nil]
  refine ⟨carried.perm ?_, (map_listening_set found same).symm ▸ carries.listening⟩
  exact (after next).trans (has.append_right elsewhere)

end Net

end

/-! ## Steps of the network -/

theorem Member.lanes_receive (member : Member) (fd : ℕ) (arrival : Node.Arrival) :
    (member.receive fd arrival).lanes = member.lanes.map fun lane =>
      (lane.1, lane.2 ++ if lane.1 = fd then arrival.bursts.flatMap Subtype.val else []) := by
  have one (buffer : List UInt8) (socket : TcpStream) :
      (if socket.fd = fd then Node.arrive socket arrival else socket).lane buffer =
        ((socket.lane buffer).1, (socket.lane buffer).2 ++
          if socket.fd = fd then arrival.bursts.flatMap Subtype.val else []) := by
    rw [TcpStream.lane, TcpStream.lane]
    split
    · rw [List.append_assoc, Node.arrive, TcpStream.pending, TcpStream.pending,
        List.flatMap_append]
    · rw [List.append_nil]
  have kept (stream : Option TcpStream) (buffer : List UInt8) :
      ((stream.map fun socket => if socket.fd = fd then Node.arrive socket arrival else socket).map
        (TcpStream.lane buffer)).toList =
      (stream.map (TcpStream.lane buffer)).toList.map fun lane =>
        (lane.1, lane.2 ++ if lane.1 = fd then arrival.bursts.flatMap Subtype.val else []) := by
    cases stream with
    | none => rfl
    | some socket => exact congrArg (fun lane => [lane]) (one buffer socket)
  rw [lanes, lanes, List.map_append, List.map_append, List.map_map]
  refine congrArg₂ _ (kept ..) (congrArg₂ _ (kept ..) ?_)
  rw [receive, List.map_map]
  exact List.map_congr_left fun socket _ => one [] socket

namespace Net

variable {net next : Net} {line : ℕ → List PDU} {k : ℕ} {packet : Packet}

theorem Carries.congr (carries : net.Carries line) (lanes : next.lanes = net.lanes)
    (underWay : ∀ fd, next.underWay fd = net.underWay fd)
    (connections : next.connections = net.connections)
    (listening : next.members.map Member.listening = net.members.map Member.listening) :
    next.Carries line := by
  constructor
  · rw [lanes, connections, funext underWay]
    exact carries.carried
  · rw [listening]
    exact carries.listening

theorem transit_around (found : net.transit[k]? = some packet) :
    net.transit = net.transit.take k ++ packet :: net.transit.drop (k + 1) := by
  obtain ⟨inside, here⟩ := List.getElem?_eq_some_iff.mp found
  rw [← here, List.getElem_cons_drop, List.take_append_drop]

theorem underWay_ready (ready : net.ready k = some packet) (fd : ℕ) :
    net.underWay fd = packet.bytesTo fd ++
      underWay { net with transit := net.transit.eraseIdx k } fd := by
  unfold Net.ready at ready
  split at ready
  · cases ready
  · rename_i found
    split at ready
    · cases ready
    · rename_i first
      cases ready
      have front : (net.transit.take k).flatMap (Packet.bytesTo fd) = [] ∨
          packet.bytesTo fd = [] := by
        cases packet with
        | bytes fd' burst =>
            by_cases same : fd = fd'
            · refine Or.inl (List.flatMap_eq_nil_iff.mpr fun other mem => ?_)
              cases other with
              | bytes fd'' burst' =>
                  refine if_neg fun also => first (Bool.and_eq_true_iff.mpr ⟨rfl, ?_⟩)
                  refine List.any_eq_true.mpr ⟨_, mem, decide_eq_true ?_⟩
                  rw [Packet.fd, Packet.fd, ← also, same]
              | _ => rfl
            · exact Or.inr (if_neg same)
        | _ => exact Or.inr rfl
      rw [underWay, underWay, List.eraseIdx_eq_take_drop_succ, List.flatMap_append]
      nth_rewrite 1 [transit_around found]
      rw [List.flatMap_append, List.flatMap_cons]
      rcases front with none_before | nothing
      · rw [none_before, List.nil_append, List.nil_append]
      · rw [nothing, List.nil_append, List.nil_append]

theorem lanes_map {members : List Member} {step : Member → Member}
    {f : ℕ × List UInt8 → ℕ × List UInt8}
    (lanes : ∀ member, (step member).lanes = member.lanes.map f) :
    (members.map step).flatMap Member.lanes = (members.flatMap Member.lanes).map f := by
  rw [List.flatMap_map, List.map_flatMap]
  exact List.flatMap_congr fun member _ => lanes member

theorem Carries.deliver (carries : net.Carries line) (ready : net.ready k = some packet) :
    (deliver { net with transit := net.transit.eraseIdx k } packet).Carries line := by
  have first := underWay_ready ready
  have listening {step : Member → Member} (same : ∀ member, (step member).listening =
      member.listening) : ((net.members.map step).map Member.listening).Nodup := by
    rw [List.map_map, show Member.listening ∘ step = Member.listening from funext same]
    exact carries.listening
  cases packet with
  | bytes fd burst =>
      refine ⟨?_, listening fun _ => rfl⟩
      have arrived := carries.carried.arrive fd burst.val first
      have lanes : (net.members.map (·.receive fd ⟨[burst], false⟩)).flatMap Member.lanes =
          net.lanes.map fun lane => (lane.1, lane.2 ++ if lane.1 = fd then burst.val else []) := by
        refine lanes_map fun member => ?_
        rw [member.lanes_receive, List.flatMap_singleton]
      rw [← lanes] at arrived
      exact arrived
  | fin fd =>
      refine carries.congr ?_ (fun fd' => (first fd').symm) rfl ?_
      · have lanes : (net.members.map (·.receive fd ⟨[], true⟩)).flatMap Member.lanes =
            net.lanes.map id := by
          refine lanes_map fun member => ?_
          rw [member.lanes_receive, List.flatMap_nil]
          exact List.map_congr_left fun lane _ => by rw [ite_self, List.append_nil]; rfl
        rw [List.map_id] at lanes
        exact lanes
      · exact List.map_map.trans rfl
  | datagram receiver datagram =>
      have same : ∀ member : Member, (if receiver = member.udpAddr then
          member.receiveDatagram datagram else member).listening = member.listening ∧
          (if receiver = member.udpAddr then
            member.receiveDatagram datagram else member).lanes = member.lanes := by
        intro member
        split <;> exact ⟨rfl, rfl⟩
      refine carries.congr ?_ (fun fd' => (first fd').symm) rfl ?_
      · exact (lanes_map (f := id) fun member => ((same member).2.trans (List.map_id _).symm)).trans
          (List.map_id _)
      · exact List.map_map.trans (List.map_congr_left fun member _ => (same member).1)

/-- A packet without bytes of a connection goes, or comes. -/
theorem Carries.transit (carries : net.Carries line) {transit : List Packet}
    (same : ∀ fd, transit.flatMap (Packet.bytesTo fd) = net.underWay fd) :
    Carries { net with transit := transit } line :=
  carries.congr rfl same rfl rfl

theorem Carries.start (carries : net.Carries line) {address : UInt32} {udpPort listenPort : UInt16}
    (free : net.inUse address listenPort = false) :
    Carries { net with members :=
      net.members ++ [⟨address, Node.new net.trackerAddr udpPort listenPort, false, []⟩] } line := by
  constructor
  · rw [lanes, List.flatMap_append]
    have nothing : ([⟨address, Node.new net.trackerAddr udpPort listenPort, false, []⟩] :
        List Member).flatMap Member.lanes = [] := rfl
    rw [nothing, List.append_nil]
    exact carries.carried
  · rw [List.map_append, List.nodup_append]
    refine ⟨carries.listening, List.nodup_singleton _, ?_⟩
    intro addr mem addr' mem' same
    obtain ⟨member, old, rfl⟩ := List.mem_map.mp mem
    obtain rfl := List.mem_singleton.mp mem'
    refine absurd free (Bool.not_eq_false _ ▸ List.any_eq_true.mpr ⟨member, old, ?_⟩)
    exact Bool.or_eq_true_iff.mpr (Or.inr (Member.listens_iff.mpr same))

end Net

end DhtRing.TestNode

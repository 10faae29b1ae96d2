import DhtRing.TestNode.Splitting

/-!
# The halves of a split at a Rust node

`q5` and `q13` answer a `NET_JOIN` with the upper half of the node's range.  In a run that
keeps to some conditions the halves are proper, and what a node grants was its own.
-/

set_option autoImplicit false

namespace DhtRing.TestNode

open AtMostOne

/-! ## Connecting -/

namespace Node

variable {node last : Node} {env : Env}

theorem splitRange_eq (lt : node.hashRange.1 < node.hashRange.2) :
    node.splitRange = .ok
      ((middlePoint node.hashRange.1 node.hashRange.2 + 1, node.hashRange.2),
        { node with
          hashRange := (node.hashRange.1, middlePoint node.hashRange.1 node.hashRange.2) }) := by
  have le := UInt8.le_of_lt lt
  have lt' := UInt8.lt_iff_toNat_lt.mp lt
  have middle := toNat_middlePoint le
  have below := node.hashRange.2.toNat_lt
  have half : ((node.hashRange.2 - node.hashRange.1) / 2).toNat =
      (node.hashRange.2.toNat - node.hashRange.1.toNat) / 2 := by
    rw [UInt8.toNat_div, UInt8.toNat_sub_of_le _ _ le, UInt8.toNat_ofNat]
  have span : checkedSub node.hashRange.2 node.hashRange.1 =
      .ok (node.hashRange.2 - node.hashRange.1) := if_pos le
  have upper : checkedAdd ((node.hashRange.2 - node.hashRange.1) / 2) node.hashRange.1 =
      .ok (middlePoint node.hashRange.1 node.hashRange.2) := by
    rw [checkedAdd, if_pos (by omega)]
    refine congrArg Except.ok (UInt8.toNat_inj.mp ?_)
    rw [middle, UInt8.toNat_add, half]
    omega
  have lower : checkedAdd (middlePoint node.hashRange.1 node.hashRange.2) 1 =
      .ok (middlePoint node.hashRange.1 node.hashRange.2 + 1) := by
    refine if_pos ?_
    rw [middle, UInt8.toNat_one]
    omega
  unfold splitRange
  dsimp only
  rw [span, ok_bind, upper, ok_bind, lower]
  rfl

theorem connectToSuccessor_eq_ok {addr : Addr} {socket : TcpStream}
    (connects : node.connectToSuccessor env addr = .ok (socket, last)) :
    env.connect node.opened addr = some socket ∧
      last = { node.emit [.connect socket.fd addr] with
        opened := node.opened + 1
        successorListen := some addr } := by
  unfold connectToSuccessor at connects
  split at connects
  · cases connects
  · rename_i given
    cases connects
    exact ⟨given, rfl⟩

end Node

section

variable {net : Net} {i : ℕ} {first member : Member} {next : Node} {hand : List PDU} {addr : Addr}

theorem env_connect {socket : TcpStream} {sender : Member} {now opened : ℕ}
    (given : (net.env sender now).connect opened addr = some socket) :
    socket = ⟨2 * net.connections, addr, [], false⟩ ∧
      net.members.any (·.listens addr) = true := by
  rw [Net.env] at given
  dsimp only at given
  split at given
  · rename_i listener
    exact ⟨(Option.some.inj given).symm, listener⟩
  · cases given

theorem lanes_attached {waits : Bool} (clear : member.node.successorWrapper.buffer = [])
    (successor : next.successor = some ⟨2 * net.connections, addr, [], false⟩)
    (successorWrapper : next.successorWrapper = member.node.successorWrapper)
    (predecessor : next.predecessor = member.node.predecessor)
    (predecessorWrapper : next.predecessorWrapper = member.node.predecessorWrapper) :
    (Member.lanes { member with
      node := next
      waits := waits }).Subperm ((2 * net.connections, []) :: member.lanes) := by
  have lane : Member.successorLane { member with
      node := next
      waits := waits } = [(2 * net.connections, [])] := by
    rw [Member.successorLane, successor, successorWrapper, clear]
    rfl
  rw [Member.lanes, lane, Member.predecessorLane, predecessor, predecessorWrapper]
  exact (List.Sublist.cons_cons _ (List.sublist_append_right ..)).subperm

theorem attach_shared (doing : net.Doing i first member hand) (waits : Bool)
    (before after : List Effect) (listener : net.members.any (·.listens addr) = true)
    (same : member.listening = first.listening)
    (clear : member.node.successorWrapper.buffer = [])
    (drops : ∀ effect ∈ before ++ after, ∃ fd, effect = .close fd)
    (goes : next.state = .q6) (fair : next.Fair)
    (range : next.running = true → next.hashRange.1 ≤ next.hashRange.2)
    (load : ∀ x, (if next.running && covers next.hashRange.1 next.hashRange.2 x then 1 else 0) +
      next.mail.countP (PDU.grants x) ≤ member.load x + hand.countP (PDU.grants x))
    (kept : next = { member.node with
      state := next.state
      lastPdu := next.lastPdu
      hashRange := next.hashRange
      successorListen := next.successorListen
      successor := some ⟨2 * net.connections, addr, [], false⟩
      opened := next.opened
      effects := member.node.effects ++
        (before ++ .connect (2 * net.connections) addr :: after) }) :
    ∃ line, (net.update i first { member with
      node := next
      waits := waits }).Shared line i [] := by
  have owns : Member.owns { member with
      node := next
      waits := waits } = next.running := by
    rw [Member.owns, goes, Bool.and_true]
  have sends : ∀ effect ∈ before ++ .connect (2 * net.connections) addr :: after,
      effect = .connect (2 * net.connections) addr ∨ ∃ fd, effect = .close fd := by
    intro effect mem
    rcases List.mem_append.mp mem with early | rest
    · exact Or.inr (drops effect (List.mem_append_left _ early))
    · rcases List.mem_cons.mp rest with here | late
      · exact Or.inl here
      · exact Or.inr (drops effect (List.mem_append_right _ late))
  have silent : Silent (before ++ .connect (2 * net.connections) addr :: after) := by
    intro fd pdu mem
    rcases sends _ mem with connects | ⟨fd, closes⟩
    · cases connects
    · cases closes
  refine doing.connect ⟨?_, ?_, ?_, ⟨fair, fun owned => range (owns.symm.trans owned), ?_⟩,
    fun _ => ?_, ?_, List.forall_mem_nil _, 0, fun x => ?_, fun x fd _ => silent.count x fd⟩
    ⟨?_, ?_, ?_⟩ same listener
  · rw [kept]
  · rw [kept]
    rfl
  · rw [kept]
    rfl
  · rw [Member.Staged, goes]
    trivial
  · rw [Member.inRing, goes]
    rfl
  · intro effect mem
    rcases sends effect mem with rfl | ⟨fd, rfl⟩ <;> trivial
  · rw [silent.count, Member.load, owns]
    exact load x
  · intro effect mem
    obtain ⟨fd, rfl⟩ := drops effect mem
    rfl
  · intro fd pdu mem
    obtain ⟨fd', closes⟩ := drops _ mem
    cases closes
  · exact lanes_attached clear (by rw [kept]) (by rw [kept]) (by rw [kept]) (by rw [kept])

/-- A node connects to the one that joins and grants it the upper half of its range. -/
structure Net.Grants (net : Net) (member : Member) (next : Node) (response : NetJoinResponsePdu)
    (before after : List Effect) : Prop where
  listener : ∃ addr, net.members.any (·.listens addr) = true ∧ next = { member.node with
    state := next.state
    values := next.values
    lastPdu := none
    hashRange := next.hashRange
    successorListen := next.successorListen
    successor := some ⟨2 * net.connections, addr, [], false⟩
    opened := next.opened
    effects := member.node.effects ++ (before ++ .connect (2 * net.connections) addr ::
      .tcp (2 * net.connections) (.netJoinResponse response) :: after) }
  type : response.pduType = 4
  halves : ProperSplit member.node.hashRange.1 member.node.hashRange.2 next.hashRange
    (response.rangeStart, response.rangeEnd)
  values : ∀ entry ∈ next.values, entry ∈ member.node.values
  writes : ∀ effect ∈ before, member.Writes effect
  moves : ∀ effect ∈ after, (∃ fd, effect = .close fd) ∨
    ∃ entry ∈ member.node.values, effect =
      .tcp (2 * net.connections) (.valInsert entry.insert)

namespace Net.Grants

variable {before after : List Effect} {response : NetJoinResponsePdu}

theorem entries (grants : net.Grants member next response before after) (fair : member.node.Fair) :
    ∀ effect ∈ after, (∃ fd, effect = .close fd) ∨
      ∃ pdu : PDU, effect = .tcp (2 * net.connections) pdu ∧ pdu.Sent ∧ pdu.handsOn = none := by
  intro effect mem
  rcases grants.moves effect mem with closes | ⟨entry, had, rfl⟩
  · exact Or.inl closes
  · obtain ⟨received, plain⟩ := fair.values entry had
    exact Or.inr ⟨_, rfl, ⟨received.insert_encodable plain, plain⟩, rfl⟩

/-- Only the answer hands a range on. -/
theorem count (grants : net.Grants member next response before after) (fair : member.node.Fair)
    (addr : Addr) (x fd : ℕ) :
    (sentTo (before ++ .connect (2 * net.connections) addr ::
        .tcp (2 * net.connections) (.netJoinResponse response) :: after) fd).countP
          (PDU.grants x) =
      if fd = otherEnd (2 * net.connections) ∧
        covers response.rangeStart response.rangeEnd x = true then 1 else 0 := by
  have silent : Silent (before ++ [.connect (2 * net.connections) addr]) := by
    intro fd pdu mem
    rcases List.mem_append.mp mem with early | connects
    · exact (grants.writes _ early).2.1
    · cases List.mem_singleton.mp connects
  have silent' : Silent after := by
    intro fd pdu mem
    rcases grants.entries fair _ mem with ⟨fd, closes⟩ | ⟨pdu, same, -, quiet⟩
    · cases closes
    · cases same
      exact quiet
  rw [List.append_cons]
  exact sentTo_grant silent silent' x fd

/-- The range and what is handed on are those from before. -/
theorem acts (grants : net.Grants member next response before after) (fair : member.Fair)
    (owner : member.owns = true) (addr : Addr) (waits : Bool)
    (sent : next.effects = member.node.effects ++ (before ++ .connect (2 * net.connections) addr ::
      .tcp (2 * net.connections) (.netJoinResponse response) :: after))
    (goes : next.state = .q6 ∨ next.state = .q5 ∧ waits = true) :
    member.Acts { member with
      node := next
      waits := waits } (before ++ .connect (2 * net.connections) addr ::
        .tcp (2 * net.connections) (.netJoinResponse response) :: after) [] [] := by
  obtain ⟨_, _, kept⟩ := grants.listener
  have owns : Member.owns { member with
      node := next
      waits := waits } = true := by
    have running : next.running = true := by
      rw [kept]
      exact (Bool.and_eq_true_iff.mp owner).1
    rw [Member.owns, running, Bool.true_and]
    rcases goes with goes | ⟨goes, -⟩ <;> rw [goes]
  have mail (x : ℕ) : next.mail.countP (PDU.grants x) ≤
      member.node.mail.countP (PDU.grants x) := by
    rw [kept]
    exact member.node.queued_le x
  have after_fair : next.Fair := by
    rw [kept]
    exact { fair.node with
      mail := fair.node.unpark
      values := fun entry mem => fair.node.values entry (grants.values entry mem) }
  refine ⟨sent, ?_, ?_, ⟨after_fair, fun _ => grants.halves.kept_nonempty, ?_⟩, fun _ => ?_, ?_,
    List.forall_mem_nil _, otherEnd (2 * net.connections), fun x => ?_, fun x fd other => ?_⟩
  · rw [kept]
    rfl
  · rw [kept]
    rfl
  · rw [Member.Staged]
    rcases goes with goes | ⟨goes, waiting⟩ <;> rw [goes]
    · trivial
    · intro free
      cases waiting.symm.trans free
  · rw [Member.inRing]
    rcases goes with goes | ⟨goes, -⟩ <;> rw [goes] <;> rfl
  · intro effect mem
    simp only [List.mem_append, List.mem_cons] at mem
    rcases mem with early | rfl | rfl | late
    · exact (grants.writes effect early).fine.1
    · trivial
    · exact ⟨⟨grants.type, trivial⟩, grants.halves.granted_nonempty⟩
    · rcases grants.entries fair.node effect late with ⟨fd, rfl⟩ | ⟨pdu, rfl, sent, -⟩
      · trivial
      · exact sent
  · have union := grants.halves.union x
    have apart := grants.halves.disjoint x
    dsimp only at union apart
    have enough := mail x
    rw [grants.count fair.node, if_congr (and_iff_right rfl) rfl rfl, Member.load_of_owns owner,
      Member.load_of_owns owns, union]
    change (if covers next.hashRange.1 next.hashRange.2 x = true then 1 else 0) +
      next.mail.countP _ + 0 + _ ≤ _
    rcases apart with free | free
    · rw [free, Bool.false_or, if_neg Bool.false_ne_true]
      omega
    · rw [free, Bool.or_false, if_neg Bool.false_ne_true]
      omega
  · rw [grants.count fair.node, if_neg fun both => other both.1]

theorem connects (grants : net.Grants member next response before after) (fair : member.node.Fair)
    (clear : member.node.successorWrapper.buffer = []) (waits : Bool) {addr : Addr}
    (kept : next = { member.node with
      state := next.state
      values := next.values
      lastPdu := none
      hashRange := next.hashRange
      successorListen := next.successorListen
      successor := some ⟨2 * net.connections, addr, [], false⟩
      opened := next.opened
      effects := member.node.effects ++ (before ++ .connect (2 * net.connections) addr ::
        .tcp (2 * net.connections) (.netJoinResponse response) :: after) }) :
    member.Connects { member with
      node := next
      waits := waits } (2 * net.connections) addr before
        (.tcp (2 * net.connections) (.netJoinResponse response) :: after) := by
  refine ⟨?_, ?_, ?_⟩
  · intro effect mem
    simp only [List.mem_append, List.mem_cons] at mem
    rcases mem with early | rfl | late
    · exact (grants.writes effect early).fine.2
    · rfl
    · rcases grants.entries fair effect late with ⟨fd, rfl⟩ | ⟨pdu, rfl, -⟩ <;> rfl
  · intro fd pdu mem
    simp only [List.mem_append, List.mem_cons] at mem
    rcases mem with early | here | late
    · exact Or.inl (grants.writes _ early).2.2
    · cases here
      exact Or.inr rfl
    · rcases grants.entries fair _ late with ⟨fd, closes⟩ | ⟨pdu, same, -⟩
      · cases closes
      · cases same
        exact Or.inr rfl
  · exact lanes_attached clear (by rw [kept]) (by rw [kept]) (by rw [kept]) (by rw [kept])

end Net.Grants

theorem split_shared (doing : net.Doing i first member []) (waits : Bool)
    {before after : List Effect} {response : NetJoinResponsePdu}
    (grants : net.Grants member next response before after)
    (same : member.listening = first.listening)
    (clear : member.node.successorWrapper.buffer = []) (owner : member.owns = true)
    (goes : next.state = .q6 ∨ next.state = .q5 ∧ waits = true) :
    ∃ line, (net.update i first { member with
      node := next
      waits := waits }).Shared line i [] := by
  obtain ⟨addr, listener, kept⟩ := grants.listener
  obtain ⟨fair, -⟩ := doing.fair
  have acts := grants.acts fair owner addr waits (by rw [kept]) goes
  exact doing.connect acts (grants.connects fair.node clear waits kept) same listener

theorem dropped_close {stream : Option TcpStream} :
    ∀ effect ∈ Node.dropped stream, ∃ fd, effect = .close fd := by
  intro effect mem
  obtain ⟨old, -, rfl⟩ := Option.map_eq_some_iff.mp (Option.mem_toList.mp mem)
  exact ⟨_, rfl⟩

theorem moves_of_inserts {dropped : Option TcpStream} {rangeStart rangeEnd : UInt8} :
    ∀ effect ∈ Node.dropped dropped ++
      member.node.inserts (2 * net.connections) rangeStart rangeEnd,
      (∃ fd, effect = .close fd) ∨ ∃ entry ∈ member.node.values,
        effect = .tcp (2 * net.connections) (.valInsert entry.insert) := by
  intro effect mem
  rcases List.mem_append.mp mem with drops | inserts
  · exact Or.inl (dropped_close effect drops)
  · obtain ⟨entry, moved, rfl⟩ := List.mem_map.mp inserts
    exact Or.inr ⟨entry, List.mem_of_mem_filter moved, rfl⟩

theorem q5Connect_grants (lt : member.node.hashRange.1 < member.node.hashRange.2)
    (ends : member.node.q5Connect (net.env member 0) = .ok next) :
    next.state = member.node.state ∧
      ∃ response before after, net.Grants member next response before after := by
  obtain ⟨pdu, -, ends⟩ := bind_eq_ok ends
  obtain ⟨⟨socket, connected⟩, connects, ends⟩ := bind_eq_ok ends
  obtain ⟨given, rfl⟩ := Node.connectToSuccessor_eq_ok connects
  obtain ⟨rfl, listener⟩ := env_connect given
  obtain ⟨⟨⟨mins, maxs⟩, split⟩, splits, ends⟩ := bind_eq_ok ends
  rw [Node.splitRange_eq (by exact lt)] at splits
  cases splits
  obtain ⟨ownAddress, -, ends⟩ := bind_eq_ok ends
  obtain ⟨socket, goes, rfl⟩ := Node.transfer_eq_ok ends
  cases goes
  refine ⟨rfl, NetJoinResponsePdu.new ownAddress member.node.listenAddr.port
    (middlePoint member.node.hashRange.1 member.node.hashRange.2 + 1) member.node.hashRange.2,
    [], Node.dropped member.node.successor ++ member.node.inserts (2 * net.connections)
      (middlePoint member.node.hashRange.1 member.node.hashRange.2 + 1) member.node.hashRange.2,
    ⟨⟨pdu.srcAddress, pdu.srcPort⟩, listener, ?_⟩, rfl, properSplit_middlePoint lt,
    fun entry mem => List.mem_of_mem_filter mem, List.forall_mem_nil _, moves_of_inserts⟩
  simp only [Node.emit, Node.setSuccessor, List.append_assoc, List.nil_append, List.cons_append]
  rfl

theorem q13_grants (lt : member.node.hashRange.1 < member.node.hashRange.2)
    (ends : member.node.q13 (net.env member 0) = .ok next) :
    next.state = .q6 ∧ ∃ response before after, net.Grants member next response before after := by
  obtain ⟨old, set, ends⟩ := bind_eq_ok ends
  have set := unwrap_eq_ok set
  obtain ⟨pdu, -, ends⟩ := bind_eq_ok ends
  obtain ⟨⟨socket, connected⟩, connects, ends⟩ := bind_eq_ok ends
  obtain ⟨given, rfl⟩ := Node.connectToSuccessor_eq_ok connects
  obtain ⟨rfl, listener⟩ := env_connect given
  obtain ⟨⟨⟨mins, maxs⟩, split⟩, splits, ends⟩ := bind_eq_ok ends
  rw [Node.splitRange_eq (by exact lt)] at splits
  cases splits
  obtain ⟨moved, transferred, ends⟩ := bind_eq_ok ends
  obtain ⟨socket, goes, rfl⟩ := Node.transfer_eq_ok transferred
  cases goes
  cases ends
  refine ⟨rfl, NetJoinResponsePdu.new old.peerAddr.address old.peerAddr.port
    (middlePoint member.node.hashRange.1 member.node.hashRange.2 + 1) member.node.hashRange.2,
    [.tcp old.fd (.netCloseConnection NetCloseConnectionPdu.new), .shutdown old.fd] ++
      Node.dropped member.node.successor,
    Node.dropped none ++ member.node.inserts (2 * net.connections)
      (middlePoint member.node.hashRange.1 member.node.hashRange.2 + 1) member.node.hashRange.2,
    ⟨⟨pdu.srcAddress, pdu.srcPort⟩, listener, ?_⟩, rfl, properSplit_middlePoint lt,
    fun entry mem => List.mem_of_mem_filter mem, ?_, moves_of_inserts⟩
  · simp only [Node.emit, Node.setSuccessor, List.append_assoc, List.nil_append,
      List.cons_append]
    rfl
  · rw [set]
    rintro _ (_ | ⟨_, _ | ⟨_, _ | ⟨_, ⟨⟩⟩⟩⟩)
    · exact ⟨⟨⟨rfl, trivial⟩, trivial⟩, rfl, fd_mem_of_successor set⟩
    · trivial
    · trivial

theorem q16_shared (doing : net.Doing i member member [])
    (owner : member.owns = true) (clear : member.node.successorWrapper.buffer = [])
    (ends : member.node.q16 (net.env member 0) = .ok next) :
    ∃ line, (net.update i member { member with node := next }).Shared line i [] := by
  obtain ⟨fair, -⟩ := doing.fair
  unfold Node.q16 at ends
  split at ends
  · obtain ⟨ownAddress, -, ends⟩ := bind_eq_ok ends
    split at ends
    · cases ends
      refine Net.Doing.shared ?_
      refine serving_doing doing member.waits (Node.dropped member.node.successor ++
        Node.dropped member.node.predecessor) ?_ rfl trivial { fair.node with
          mail := fair.node.unpark } (fun _ => owner) (fun x => member.node.queued_le x) ?_ ?_
      · intro effect mem
        rcases List.mem_append.mp mem with drops | drops
        · obtain ⟨fd, rfl⟩ := dropped_close effect drops
          trivial
        · obtain ⟨fd, rfl⟩ := dropped_close effect drops
          trivial
      · exact ((List.sublist_append_right ..).trans (List.sublist_append_right ..)).subperm
      · rw [← List.append_assoc]
        rfl
    · obtain ⟨⟨socket, connected⟩, connects, ends⟩ := bind_eq_ok ends
      obtain ⟨given, rfl⟩ := Node.connectToSuccessor_eq_ok connects
      obtain ⟨rfl, listener⟩ := env_connect given
      cases ends
      have running := (Bool.and_eq_true_iff.mp owner).1
      refine attach_shared doing member.waits (Node.dropped member.node.successor) [] listener rfl
        clear ?_ rfl { fair.node with
          mail := fair.node.unpark } (fun _ => fair.range owner) (fun x => ?_) ?_
      · rw [List.append_nil]
        exact dropped_close
      · have queued := member.node.queued_le x
        have same : member.node.running = member.owns := running.trans owner.symm
        rw [Member.load, ← same]
        exact Nat.add_le_add_left queued _
      · simp only [Node.emit, Node.setSuccessor, List.append_assoc]
        rfl
  · cases ends

theorem q8Received_shared (doing : net.Doing i member member [])
    (state : member.node.state = .q8) (clear : member.node.successorWrapper.buffer = [])
    {next : Member}
    (awaited : member.await (member.node.pollPdu false) (Node.q8Received (net.env member 0)) =
      .ok (some next)) :
    ∃ line, (net.update i member next).Shared line i [] := by
  obtain ⟨message, node, polled, ⟨rfl, rfl⟩ | ⟨⟨pdu, sender⟩, last, rfl, receives, rfl⟩⟩ :=
    await_eq_ok awaited
  · exact (pollPdu_doing doing polled).1.shared
  · obtain ⟨doing, kept, same⟩ := pollPdu_doing doing polled
    obtain ⟨fair, fine⟩ := doing.fair
    have fine := fine pdu (List.mem_singleton_self _)
    cases pdu with
    | netJoinResponse pdu =>
        obtain ⟨⟨socket, connected⟩, connects, receives⟩ := bind_eq_ok receives
        obtain ⟨given, rfl⟩ := Node.connectToSuccessor_eq_ok connects
        obtain ⟨rfl, listener⟩ := env_connect given
        cases receives
        have listening : Member.listening { member with node := node } = member.listening := by
          rw [kept]
          rfl
        have idle : Member.owns { member with node := node } = false := by
          rw [kept, Member.owns, state, Bool.and_false]
        refine attach_shared doing false [] (Node.dropped node.successor) listener listening ?_
          dropped_close rfl (fair.node.congr rfl rfl rfl rfl rfl) (fun _ => fine.2) (fun x => ?_) ?_
        · rw [same rfl]
          exact clear
        · rw [Member.load_of_idle idle]
          change (if node.running && covers pdu.rangeStart pdu.rangeEnd x then 1 else 0) +
            node.mail.countP (PDU.grants x) ≤
              node.mail.countP (PDU.grants x) + [PDU.netJoinResponse pdu].countP (PDU.grants x)
          have grants : PDU.grants x (.netJoinResponse pdu) =
            covers pdu.rangeStart pdu.rangeEnd x := rfl
          rw [List.countP_singleton, grants, Nat.add_comm]
          refine Nat.add_le_add_left ?_ _
          split
          · rename_i held
            rw [if_pos (Bool.and_eq_true_iff.mp held).2]
          · exact Nat.zero_le _
        · simp only [Node.emit, Node.setSuccessor, List.append_assoc]
          rfl
    | _ => cases receives

end

/-! ## Timely steps -/

namespace Member

variable (member : Member)

/-- Nothing of an old connection waits to be parsed where a new one takes its place. -/
def clear : Bool :=
  match member.node.state, member.waits with
  | .q5, false | .q13, false | .q16, false | .q8, true => member.node.successorWrapper.buffer = []
  | .q5, true | .q7, true | .q17, true => member.node.predecessorWrapper.buffer = []
  | _, _ => true

/-- The span in a `NET_JOIN` that elects the node is not larger than its own, and a range that
the node takes over borders on its own. -/
def current : Bool :=
  match member.node.state, member.node.lastPdu with
  | .q13, some (.netJoin pdu) =>
      member.node.hashRange.1.toNat + pdu.maxSpan.toNat ≤ member.node.hashRange.2.toNat
  | .q15, some (.netNewRange pdu) =>
      pdu.rangeStart.toNat ≤ member.node.hashRange.2.toNat + 1 ∧
        member.node.hashRange.1.toNat ≤ pdu.rangeEnd.toNat + 1
  | _, _ => true

end Member

def plainText (text : RString) : Bool := text.all (·.toNat < 128) && decide (text.length ≤ 255)

def Query.plain : Query → Bool
  | .insert ssn name email => decide (SsnFits ssn) && (plainText name && plainText email)
  | .remove ssn => SsnFits ssn
  | .lookup ssn => SsnFits ssn

theorem fits_of_plainText {text : RString} (plain : plainText text = true) :
    AsciiChars text ∧ TextFits (UInt8.ofNat (len text)) text := by
  rw [plainText, Bool.and_eq_true, List.all_eq_true, decide_eq_true_eq] at plain
  have ascii : AsciiChars text := fun c mem => of_decide_eq_true (plain.1 c mem)
  have latin : Latin1 text := fun c mem => (ascii c mem).trans (by decide)
  exact ⟨ascii, (textFits_iff ⟨plain.2, latin⟩).mpr ascii⟩

theorem Query.sent_of_plain {query : Query} (plain : query.plain = true) (client : Addr) :
    (query.pdu client).Sent ∧ (query.pdu client).handsOn = none := by
  cases query with
  | insert ssn name email =>
      rw [Query.plain, Bool.and_eq_true, Bool.and_eq_true, decide_eq_true_eq] at plain
      obtain ⟨fits, name_plain, email_plain⟩ := plain
      obtain ⟨name_ascii, name_fits⟩ := fits_of_plainText name_plain
      obtain ⟨email_ascii, email_fits⟩ := fits_of_plainText email_plain
      exact ⟨⟨⟨rfl, fits, name_fits, email_fits⟩, name_ascii, email_ascii⟩, rfl⟩
  | remove ssn =>
      have fits : SsnFits ssn := of_decide_eq_true plain
      exact ⟨⟨⟨rfl, fits⟩, trivial⟩, rfl⟩
  | lookup ssn =>
      have fits : SsnFits ssn := of_decide_eq_true plain
      exact ⟨⟨⟨rfl, fits⟩, trivial⟩, rfl⟩

section

variable {net : Net} {line : ℕ → List PDU} {i : ℕ} {member next : Member}

theorem lt_of_current (fair : member.Fair) (current : member.current = true)
    (splits : member.node.state = .q5 ∧ member.waits = false ∨ member.node.state = .q13) :
    member.node.hashRange.1 < member.node.hashRange.2 := by
  have staged := fair.staged
  rcases splits with ⟨state, free⟩ | state
  · rw [Member.Staged, state] at staged
    obtain ⟨start, stop⟩ := of_decide_eq_true (staged free)
    rw [start, stop]
    decide
  · rw [Member.Staged, state] at staged
    obtain ⟨pdu, parked, named⟩ := staged
    have fine : (PDU.netJoin pdu).Fine := by
      refine fair.node.mail _ (List.mem_append_left _ ?_)
      rw [parked]
      exact List.mem_singleton_self _
    have span := fine.2 named
    rw [Member.current, state, parked] at current
    have enough := of_decide_eq_true current
    have large : pdu.maxSpan.toNat ≠ 0 := fun zero => span (UInt8.toNat_inj.mp zero)
    rw [UInt8.lt_iff_toNat_lt]
    omega

theorem joins_shared {next : Node} (doing : net.Doing i member member []) (waits : Bool)
    (sent : List Effect) (writes : ∀ effect ∈ sent, member.Writes effect)
    (joins : member.inRing = false)
    (goes : next.state = .q2 ∨ next.state = .q3 ∨ next.state = .q7 ∨ next.state = .q8)
    (parked : next.lastPdu = member.node.lastPdu ∨ next.lastPdu = none)
    (kept : next = { member.node with
      state := next.state
      lastPdu := next.lastPdu
      effects := member.node.effects ++ sent }) :
    ∃ line, (net.update i member { member with
      node := next
      waits := waits }).Shared line i [] := by
  obtain ⟨fair, -⟩ := doing.fair
  have fewer : next.mail.Sublist member.node.mail := by
    rw [Node.mail_eq, Node.mail_eq]
    rcases parked with same | gone
    · rw [same, kept]
      exact List.Sublist.refl _
    · rw [gone, kept]
      exact List.sublist_append_right ..
  have fair' : next.Fair := by
    have mail : ∀ pdu ∈ next.mail, pdu.Fine := fun pdu mem => fair.node.mail pdu (fewer.mem mem)
    rw [kept] at mail ⊢
    exact { fair.node with mail := mail }
  refine (joining_doing doing waits sent writes goes joins fair'
    (fun x => fewer.countP_le.trans (Nat.le_add_right ..)) ?_).shared
  rw [kept]

theorem advance_shared (shared : net.Shared line i []) (found : net.members[i]? = some member)
    (sound : member.Sound) (clear : member.clear = true) (current : member.current = true)
    (advanced : member.advance (net.env member 0) = .ok (some next)) :
    ∃ line, (net.update i member next).Shared line i [] := by
  have doing := Net.Doing.start shared found
  obtain ⟨fair, -⟩ := doing.fair
  have staged := fair.staged
  unfold Member.advance at advanced
  dsimp only at advanced
  split at advanced
  · cases advanced
  rename_i free
  simp only [Bool.or_eq_true, not_or, Bool.not_eq_true, Bool.not_eq_false'] at free
  obtain ⟨busy, running⟩ := free
  have owns {state : State} (state_eq : member.node.state = state)
      (serves : state ∈ [State.q5, .q10, .q11, .q12, .q13, .q14, .q15, .q16, .q17]) :
      member.owns = true := by
    rw [Member.owns, running, state_eq, busy, Bool.true_and]
    revert serves
    cases state <;> decide
  have joins {state : State} (state_eq : member.node.state = state)
      (joining : state ∈ [State.q1, .q2, .q3, .q7, .q8]) : member.inRing = false := by
    rw [Member.inRing, state_eq]
    revert joining
    cases state <;> decide
  cases state : member.node.state with
  | q1 =>
      rw [state] at advanced
      cases advanced
      exact joins_shared doing member.waits
        [.udp (.stunLookup StunLookupPdu.new) member.node.trackerAddr]
        (List.forall_mem_singleton.mpr ⟨⟨⟨rfl, trivial⟩, trivial⟩, rfl⟩) (joins state (by decide))
        (Or.inl rfl) (Or.inl rfl) rfl
  | q2 =>
      rw [state] at advanced
      cases advanced
      exact joins_shared doing true [] (List.forall_mem_nil _) (joins state (by decide))
        (Or.inl state) (Or.inl rfl) (by rw [List.append_nil])
  | q3 =>
      rw [state] at advanced
      cases advanced
      exact joins_shared doing true [.udp (.netGetNode NetGetNodePdu.new) member.node.trackerAddr]
        (List.forall_mem_singleton.mpr ⟨⟨⟨rfl, trivial⟩, trivial⟩, rfl⟩) (joins state (by decide))
        (Or.inr (Or.inl state)) (Or.inl rfl) rfl
  | q4 =>
      rw [Member.Staged, state] at staged
      exact staged.elim
  | q5 =>
      rw [state] at advanced
      obtain ⟨node, ends, advanced⟩ := bind_eq_ok advanced
      cases advanced
      obtain ⟨same, response, before, after, grants⟩ :=
        q5Connect_grants (lt_of_current fair current (Or.inl ⟨state, busy⟩)) ends
      rw [Member.clear, state, busy] at clear
      exact split_shared doing true grants rfl (of_decide_eq_true clear)
        (owns state (by decide))
        (Or.inr ⟨same.trans state, rfl⟩)
  | q6 =>
      rw [state] at advanced
      cases advanced
  | q7 =>
      rw [state] at advanced
      obtain ⟨node, ends, advanced⟩ := bind_eq_ok advanced
      cases advanced
      unfold Node.q7Join at ends
      split at ends
      · rename_i named parked
        obtain ⟨ownAddress, -, ends⟩ := bind_eq_ok ends
        cases ends
        exact joins_shared doing true [.udp (.netJoin (NetJoinPdu.new ownAddress
          member.node.listenAddr.port 0 0 0)) ⟨named.address, named.port⟩]
          (List.forall_mem_singleton.mpr
            ⟨⟨⟨rfl, trivial⟩, fun unnamed => absurd rfl unnamed⟩, rfl⟩) (joins state (by decide))
          (Or.inr (Or.inr (Or.inl state))) (Or.inr rfl) rfl
      · cases ends
  | q8 =>
      rw [state] at advanced
      cases advanced
      exact joins_shared doing true [] (List.forall_mem_nil _) (joins state (by decide))
        (Or.inr (Or.inr (Or.inr state))) (Or.inl rfl) (by rw [List.append_nil])
  | q9 =>
      rw [Member.Staged, state] at staged
      exact staged.elim
  | q10 =>
      rw [state] at advanced
      cases advanced
      exact (q10_doing doing (owns state (by decide)) state).shared
  | q11 =>
      rw [state] at advanced
      obtain ⟨node, ends, advanced⟩ := bind_eq_ok advanced
      cases advanced
      obtain ⟨⟨side, asked⟩, asks, same⟩ := bind_eq_ok ends
      cases same
      exact (q11_doing doing (owns state (by decide)) state asks).shared
  | q12 =>
      rw [state] at advanced
      obtain ⟨node, ends, advanced⟩ := bind_eq_ok advanced
      cases advanced
      exact (q12_doing doing (owns state (by decide)) sound state ends).shared
  | q13 =>
      rw [state] at advanced
      obtain ⟨node, ends, advanced⟩ := bind_eq_ok advanced
      cases advanced
      obtain ⟨goes, response, before, after, grants⟩ :=
        q13_grants (lt_of_current fair current (Or.inr state)) ends
      rw [Member.clear, state, busy] at clear
      exact split_shared doing member.waits grants rfl (of_decide_eq_true clear)
        (owns state (by decide))
        (Or.inl goes)
  | q14 =>
      rw [state] at advanced
      obtain ⟨node, ends, advanced⟩ := bind_eq_ok advanced
      cases advanced
      exact (q14_doing doing (owns state (by decide)) ends).shared
  | q15 =>
      rw [state] at advanced
      obtain ⟨node, ends, advanced⟩ := bind_eq_ok advanced
      cases advanced
      refine (q15_doing doing (owns state (by decide)) (fun pdu parked => ?_) ends).shared
      rw [Member.current, state, parked] at current
      exact of_decide_eq_true current
  | q16 =>
      rw [state] at advanced
      obtain ⟨node, ends, advanced⟩ := bind_eq_ok advanced
      cases advanced
      rw [Member.clear, state, busy] at clear
      exact q16_shared doing (owns state (by decide)) (of_decide_eq_true clear) ends
  | q17 =>
      rw [state] at advanced
      dsimp only at advanced
      split at advanced
      · cases advanced
        exact (q17_doing doing (owns state (by decide)) member.waits (Or.inl rfl)).shared
      · cases advanced
        obtain ⟨-, same, -⟩ := Node.q17Disconnect_keeps member.node
        have closed := q17_doing doing (owns state (by decide)) true (Or.inr rfl)
        have stays : ({ member.node.q17Disconnect with state := .q17 } : Node) =
            member.node.q17Disconnect := by
          rw [← state, ← same]
        rw [stays] at closed
        exact closed.shared
  | q18 =>
      rw [state] at advanced
      obtain ⟨node, ends, advanced⟩ := bind_eq_ok advanced
      cases advanced
      exact (q18_doing doing state ends).shared

theorem resume_shared (shared : net.Shared line i []) (found : net.members[i]? = some member)
    (clear : member.clear = true)
    (resumed : member.resume (net.env member 0) = .ok (some next)) :
    ∃ line, (net.update i member next).Shared line i [] := by
  have doing := Net.Doing.start shared found
  unfold Member.resume at resumed
  dsimp only at resumed
  split at resumed
  · cases resumed
  · rename_i waits
    have waits : member.waits = true := by simpa using waits
    rw [Member.clear, waits] at clear
    split at resumed <;> try rename_i state; rw [state] at clear
    · exact (q2Received_doing doing state resumed).shared
    · exact (q3Received_doing doing state resumed).shared
    · exact (accept_doing doing (Or.inl ⟨Or.inl state, rfl⟩) rfl (of_decide_eq_true clear)
        resumed).shared
    · exact (accept_doing doing (Or.inr ⟨state, rfl⟩) rfl (of_decide_eq_true clear)
        resumed).shared
    · exact q8Received_shared doing state (of_decide_eq_true clear) resumed
    · exact (q11Received_doing doing resumed).shared
    · exact (accept_doing doing (Or.inl ⟨Or.inr state, rfl⟩) rfl (of_decide_eq_true clear)
        resumed).shared
    · cases resumed

end

/-! ## Steps of the network -/

namespace Net

variable {net next : Net} {line : ℕ → List PDU} {i : ℕ}

/-- The steps that keep the shares of the ring: the ports of a node are not zero, requests can
be read back, and the state functions are called at a clear and current node. -/
def timely (net : Net) (action : Action) : Bool :=
  net.orderly action && match action with
    | .start _ udpPort listenPort => decide (udpPort ≠ 0 ∧ listenPort ≠ 0)
    | .advance i => net.members[i]?.all fun member => member.clear && member.current
    | .resume i => net.members[i]?.all Member.clear
    | .query _ _ query => query.plain
    | _ => true

theorem stepMember_eq_ok {step : Member → Except String (Option Member)}
    (stepped : net.stepMember i step = .ok (some next)) :
    ∃ member after, net.members[i]? = some member ∧ step member = .ok (some after) ∧
      next = net.update i member after := by
  unfold stepMember at stepped
  split at stepped
  · cases stepped
  · rename_i member found
    obtain ⟨answer, took, stepped⟩ := bind_eq_ok stepped
    cases answer with
    | none => cases stepped
    | some after =>
        cases stepped
        exact ⟨member, after, found, took, rfl⟩

theorem Shared.answer {state : State} {pdu : Member → PDU} (shared : net.Shared line i [])
    (fine : ∀ member, (pdu member).Sent ∧ (pdu member).handsOn = none) {j : ℕ}
    (answered : net.answer j state pdu = some next) : next.Shared line i [] := by
  unfold Net.answer at answered
  split at answered
  · cases answered
  · rename_i member found
    split at answered
    · cases answered
      exact shared.datagram ((fine member).1.datagram (fine member).2 _)
    · cases answered

theorem Shared.interrupt {member : Member} (shared : net.Shared line i [])
    (found : net.members[i]? = some member) :
    ∃ line, (net.update i member
      { member with node := { member.node with shouldClose := true } }).Shared line i [] := by
  have doing := Doing.start shared found
  obtain ⟨fair, -⟩ := doing.fair
  refine Doing.shared (doing.write [] (List.append_nil _).symm (List.forall_mem_nil _) rfl rfl
    (List.Subperm.refl _) ⟨fair.node.congr rfl rfl rfl rfl rfl, fair.range, fair.staged⟩ id
    (List.forall_mem_nil _) fun x => le_rfl)

theorem Shared.cut {k n fd : ℕ} {burst : Burst} (shared : net.Shared line i [])
    (found : net.transit[k]? = some (.bytes fd burst))
    (cut : burst.val.take n ≠ [] ∧ burst.val.drop n ≠ []) :
    Shared { net with transit := net.transit.take k ++
      [.bytes fd ⟨burst.val.take n, cut.1⟩, .bytes fd ⟨burst.val.drop n, cut.2⟩] ++
        net.transit.drop (k + 1) } line i [] := by
  refine shared.transit (fun fd' => ?_) fun receiver datagram mem => ?_
  · rw [underWay]
    conv_rhs => rw [transit_around found]
    simp only [List.flatMap_append, List.flatMap_cons, List.flatMap_nil, Packet.bytesTo,
      List.append_nil, List.append_assoc]
    by_cases here : fd' = fd
    · rw [if_pos here, if_pos here, if_pos here, ← List.append_assoc (burst.val.take n),
        List.take_append_drop]
    · rw [if_neg here, if_neg here, if_neg here, List.nil_append]
  · refine shared.datagrams receiver datagram ?_
    rcases List.mem_append.mp mem with early | late
    · rcases List.mem_append.mp early with early | cut
      · exact List.mem_of_mem_take early
      · simp at cut
    · exact List.mem_of_mem_drop late

theorem act_shared {action : Action} (shared : net.Shared line 0 []) (sound : net.Sound)
    (timely : net.timely action = true) (acted : net.act action = .ok (some next)) :
    ∃ line, next.Shared line 0 [] := by
  obtain ⟨-, timely⟩ := Bool.and_eq_true_iff.mp timely
  cases action with
  | start address udpPort listenPort =>
      obtain ⟨udp, listen⟩ := of_decide_eq_true timely
      have started := Except.ok.inj acted
      split at started
      · cases started
      · rename_i free
        cases started
        simp only [Bool.or_eq_true, not_or, Bool.not_eq_true] at free
        exact ⟨line, shared.start udp listen free.2⟩
  | advance j =>
      obtain ⟨member, after, found, advanced, rfl⟩ := stepMember_eq_ok acted
      dsimp only at timely
      rw [found] at timely
      obtain ⟨clear, current⟩ := Bool.and_eq_true_iff.mp timely
      obtain ⟨line, shared⟩ := advance_shared (shared.relabel j) found
        (sound member (List.mem_of_getElem? found)) clear current advanced
      exact ⟨line, shared.relabel 0⟩
  | resume j =>
      obtain ⟨member, after, found, resumed, rfl⟩ := stepMember_eq_ok acted
      dsimp only at timely
      rw [found] at timely
      obtain ⟨line, shared⟩ := resume_shared (shared.relabel j) found timely resumed
      exact ⟨line, shared.relabel 0⟩
  | round j now events =>
      obtain ⟨member, after, found, rounded, rfl⟩ := stepMember_eq_ok acted
      obtain ⟨line, shared⟩ :=
        (Member.round_doing (Doing.start (shared.relabel j) found) rounded).shared
      exact ⟨line, shared.relabel 0⟩
  | interrupt j =>
      obtain ⟨member, after, found, asked, rfl⟩ := stepMember_eq_ok acted
      cases asked
      obtain ⟨line, shared⟩ := (shared.relabel j).interrupt found
      exact ⟨line, shared.relabel 0⟩
  | answerStun j =>
      have fine (member : Member) :
          (PDU.stunResponse (StunResponsePdu.new member.address)).Sent :=
        ⟨⟨rfl, trivial⟩, trivial⟩
      exact ⟨line, shared.answer (fun member => ⟨fine member, rfl⟩) (Except.ok.inj acted)⟩
  | answerNode j named =>
      cases named with
      | none =>
          have answered := Except.ok.inj acted
          obtain ⟨member, mem, inRing⟩ := shared.founded
          rw [if_pos (List.any_eq_true.mpr ⟨member, mem, inRing⟩)] at answered
          cases answered
      | some k =>
          have answered := Except.ok.inj acted
          split at answered
          · cases answered
          · rename_i named found
            split at answered
            · have fine : (PDU.netGetNodeResponse
                  (NetGetNodeResponsePdu.new named.udpAddr.address named.udpAddr.port)).Sent :=
                ⟨⟨rfl, trivial⟩, (shared.fair named (List.mem_of_getElem? found)).node.udpPort⟩
              exact ⟨line, shared.answer (fun _ => ⟨fine, rfl⟩) answered⟩
            · cases answered
  | query client receiver query =>
      cases acted
      obtain ⟨sent, quiet⟩ := Query.sent_of_plain timely client
      exact ⟨line, shared.datagram (sent.datagram quiet client)⟩
  | deliver k =>
      obtain ⟨packet, ready, rfl⟩ := Option.map_eq_some_iff.mp (Except.ok.inj acted)
      exact ⟨line, shared.deliver ready⟩
  | split k n =>
      have split := Except.ok.inj acted
      split at split
      · rename_i fd burst found
        split at split
        · rename_i cut
          cases split
          exact ⟨line, shared.cut found cut⟩
        · cases split
      · cases split
  | lose k =>
      have lost := Except.ok.inj acted
      split at lost
      · rename_i receiver datagram found
        cases lost
        have same (fd : ℕ) : (net.transit.eraseIdx k).flatMap (Packet.bytesTo fd) =
            net.underWay fd := by
          rw [underWay, List.eraseIdx_eq_take_drop_succ]
          conv_rhs => rw [transit_around found]
          rw [List.flatMap_append, List.flatMap_append]
          rfl
        exact ⟨line, shared.transit same fun receiver' datagram' mem =>
          shared.datagrams receiver' datagram' (List.mem_of_mem_eraseIdx mem)⟩
      · cases lost

/-! ## Runs -/

/-- A ring of one node, whom the tracker has told that it is the first. -/
def founded (trackerAddr : Addr) (address : UInt32) (udpPort listenPort : UInt16) : Net where
  trackerAddr := trackerAddr
  members := [⟨address, Node.q4 { Node.new trackerAddr udpPort listenPort with
    ownAddress := some address
    effects := [.udp (.stunLookup StunLookupPdu.new) trackerAddr,
      .udp (.netGetNode NetGetNodePdu.new) trackerAddr] }, false, []⟩]
  transit := []
  connections := 0

example : run (fun _ _ => true) (boot 0 1 201 none ++ [.advance 0]) (empty ⟨9, 9⟩) =
    some (founded ⟨9, 9⟩ 1 101 201) := by decide +kernel

variable {trackerAddr : Addr} {address : UInt32} {udpPort listenPort : UInt16}

theorem shared_founded (udp : udpPort ≠ 0) (listen : listenPort ≠ 0) :
    (founded trackerAddr address udpPort listenPort).Shared (fun _ => []) 0 [] := by
  have load (x : ℕ) (owner : ℕ ⊕ ℕ) :
      (founded trackerAddr address udpPort listenPort).shares (fun _ => []) 0 [] x owner ≤
        if owner = .inl 0 then 1 else 0 := by
    cases owner with
    | inr fd => exact Nat.zero_le _
    | inl i =>
        cases i with
        | succ i => exact Nat.le_of_eq rfl
        | zero =>
            rw [if_pos rfl]
            refine Nat.add_le_add_right (Nat.add_le_add_right ?_ 0) 0
            split
            · exact Nat.le_refl 1
            · exact Nat.zero_le 1
  refine ⟨⟨⟨List.nodup_nil, List.forall_mem_nil _, List.forall_mem_nil _,
    fun _ => List.forall_mem_nil _, fun _ _ => ⟨rfl, rfl⟩⟩, List.nodup_singleton _⟩,
    fun _ => List.forall_mem_nil _, ?_, ⟨_, List.mem_singleton_self _, rfl⟩, nofun,
    List.forall_mem_nil _, fun x => ?_⟩
  · refine List.forall_mem_singleton.mpr ⟨⟨listen, udp, rfl, List.forall_mem_nil _,
      List.forall_mem_nil _, List.forall_mem_nil _, List.forall_mem_nil _⟩, fun _ => ?_, trivial⟩
    exact UInt8.le_iff_toNat_le.mpr (Nat.zero_le _)
  · have alone : Single fun owner : ℕ ⊕ ℕ => if owner = .inl 0 then 1 else 0 := by
      refine ⟨fun owner => ?_, fun owner owner' held held' => ?_⟩
      · split
        · exact Nat.le_refl 1
        · exact Nat.zero_le 1
      · have first : owner = .inl 0 := by simpa using held
        have second : owner' = .inl 0 := by simpa using held'
        rw [first, second]
    exact alone.mono (load x)

/-- The PDUs that are sent to an end of a connection and not parsed there. -/
def unparsed (net : Net) (fd : ℕ) : List PDU :=
  match net.lanes.find? fun lane => lane.1 = fd with
  | none => []
  | some lane =>
      match Framing.feed parsePdu ([], []) (lane.2 ++ net.underWay fd) with
      | .ok (pdus, _) => pdus
      | .error _ => []

/-- What a node or an end of a connection has of the point `x`. -/
def load (net : Net) (x : ℕ) : ℕ ⊕ ℕ → ℕ
  | .inl i => net.members[i]?.elim 0 (·.load x)
  | .inr fd => (net.unparsed fd).countP (PDU.grants x)

theorem load_le (shared : net.Shared line 0 []) (x : ℕ) (owner : ℕ ⊕ ℕ) :
    net.load x owner ≤ net.shares line 0 [] x owner := by
  cases owner with
  | inl i => exact Nat.le_add_right ..
  | inr fd =>
      refine List.Sublist.countP_le ?_
      unfold unparsed
      split
      · exact List.nil_sublist _
      · rename_i lane found
        have here : lane.1 = fd := by simpa using List.find?_some found
        have stream := shared.carries.carried.stream lane (List.mem_of_find?_eq_some found)
        have whole : [] ++ (lane.2 ++ net.underWay fd) = (line fd).flatMap PDU.wire ++ [] := by
          rw [List.nil_append, List.append_nil, ← here]
          exact stream
        have stuck : Framing.Stuck parsePdu [] := nofun
        rw [parsePdu_frames.feed_eq (shared.carries.carried.valid fd) stuck whole]
        exact List.Sublist.refl _

theorem shared_of_reaches (udp : udpPort ≠ 0) (listen : listenPort ≠ 0)
    (reached : Reaches (fun net action => net.timely action)
      (founded trackerAddr address udpPort listenPort) net) :
    (∃ line, net.Shared line 0 []) ∧ net.Sound := by
  induction reached with
  | start =>
      exact ⟨⟨_, shared_founded udp listen⟩, List.forall_mem_singleton.mpr fun _ => ⟨rfl, rfl⟩⟩
  | act earlier timely acted ih =>
      obtain ⟨⟨line, shared⟩, sound⟩ := ih
      have kept := act_keeps sound _ (Bool.and_eq_true_iff.mp timely).1
      rw [acted] at kept
      exact ⟨act_shared shared sound timely acted, kept.value _ rfl⟩

end Net

def Member.Splits (member : Member) : Prop :=
  member.node.running = true ∧ member.waits = false ∧
    (member.node.state = .q5 ∨ member.node.state = .q13)

namespace Net

/-- Whenever node `i` calls `split_range`, it cuts its range into two proper halves, and the
upper one is what it answers; nobody else has or passes on a point of it. -/
def SplitsProperly (net : Net) (i : ℕ) : Prop :=
  ∀ member, net.members[i]? = some member → member.Splits → ∃ kept granted,
    member.node.splitRange = .ok (granted, { member.node with hashRange := kept }) ∧
      ProperSplit member.node.hashRange.1 member.node.hashRange.2 kept granted ∧
      (∀ next, member.advance (net.env member 0) = .ok (some next) →
        next.node.hashRange = kept ∧ ∀ fd response,
          .tcp fd (.netJoinResponse response) ∈
              next.node.effects.drop member.node.effects.length →
            (response.rangeStart, response.rangeEnd) = granted) ∧
      ∀ x, covers granted.1 granted.2 x = true → ∀ owner, owner ≠ .inl i → net.load x owner = 0

theorem Grants.exact {net : Net} {member : Member} {next : Node} {response : NetJoinResponsePdu}
    {before after : List Effect} (grants : net.Grants member next response before after) :
    next.hashRange = (member.node.hashRange.1,
        middlePoint member.node.hashRange.1 member.node.hashRange.2) ∧
      ∀ fd response, .tcp fd (.netJoinResponse response) ∈
          next.effects.drop member.node.effects.length →
        (response.rangeStart, response.rangeEnd) =
          (middlePoint member.node.hashRange.1 member.node.hashRange.2 + 1,
            member.node.hashRange.2) := by
  obtain ⟨⟨addr, listener, kept⟩, type, halves, values, writes, moves⟩ := grants
  have same := halves.rust.symm.trans (properSplit_middlePoint halves.lt).rust
  obtain ⟨lower, upper⟩ := Prod.mk.inj (Option.some.inj same)
  refine ⟨lower, fun fd other mem => ?_⟩
  rw [kept, List.drop_left] at mem
  rcases List.mem_append.mp mem with early | rest
  · cases (writes _ early).2.1
  · rcases List.mem_cons.mp rest with connects | rest
    · cases connects
    · rcases List.mem_cons.mp rest with here | late
      · cases here
        exact upper
      · rcases moves _ late with ⟨fd, closes⟩ | ⟨entry, -, insert⟩
        · cases closes
        · cases insert

theorem splitsProperly_of_shared {net : Net} {line : ℕ → List PDU} {i : ℕ}
    (shared : net.Shared line 0 []) (timely : net.timely (.advance i) = true) :
    net.SplitsProperly i := by
  intro member found splits
  obtain ⟨-, timely⟩ := Bool.and_eq_true_iff.mp timely
  dsimp only at timely
  rw [found] at timely
  obtain ⟨-, current⟩ := Bool.and_eq_true_iff.mp timely
  have fair := shared.fair member (List.mem_of_getElem? found)
  obtain ⟨running, free, state⟩ := splits
  have lt := lt_of_current fair current (state.imp_left fun state => ⟨state, free⟩)
  have halves := properSplit_middlePoint lt
  refine ⟨_, _, Node.splitRange_eq lt, halves, fun next advanced => ?_, fun x granted owner
    other => ?_⟩
  · unfold Member.advance at advanced
    dsimp only at advanced
    rw [free, running] at advanced
    rcases state with state | state
    · rw [state] at advanced
      obtain ⟨node, ends, advanced⟩ := bind_eq_ok advanced
      cases advanced
      obtain ⟨-, response, before, after, grants⟩ := q5Connect_grants lt ends
      exact grants.exact
    · rw [state] at advanced
      obtain ⟨node, ends, advanced⟩ := bind_eq_ok advanced
      cases advanced
      obtain ⟨-, response, before, after, grants⟩ := q13_grants lt ends
      exact grants.exact
  · have single : Single (net.load x) := (shared.single x).mono (load_le shared x)
    refine single.eq_zero (p := .inl i) ?_ other
    have owned : covers member.node.hashRange.1 member.node.hashRange.2 x = true := by
      rw [halves.union x, granted, Bool.or_true]
    have owner : member.owns = true := by
      rw [Member.owns, running]
      rcases state with state | state <;> rw [state] <;> rfl
    change net.members[i]?.elim 0 (·.load x) ≠ 0
    rw [found, Option.elim_some, Member.load_of_owns owner, if_pos owned]
    exact Nat.ne_of_gt (Nat.add_pos_left Nat.one_pos _)

theorem splitsProperly_of_reaches {trackerAddr : Addr} {address : UInt32}
    {udpPort listenPort : UInt16} {net : Net} (udp : udpPort ≠ 0) (listen : listenPort ≠ 0)
    (reached : Reaches (fun net action => net.timely action)
      (founded trackerAddr address udpPort listenPort) net) :
    (∀ x, Single (net.load x)) ∧ ∀ i, net.timely (.advance i) → net.SplitsProperly i := by
  obtain ⟨⟨line, shared⟩, -⟩ := shared_of_reaches udp listen reached
  exact ⟨fun x => (shared.single x).mono (load_le shared x),
    fun i timely => splitsProperly_of_shared shared timely⟩

end Net

/-! ## Both rings -/

/-- In timely runs of C nodes, and in those of Rust nodes, nobody has a point that another
has, and every split is into proper halves of the node's own range. -/
theorem splits_are_proper {n : DhtRing.Addr} (bound : n.port ≠ 0) (trackerAddr : Addr)
    (address : UInt32) {udpPort listenPort : UInt16} (udp : udpPort ≠ 0)
    (listen : listenPort ≠ 0) :
    (∀ acts net, Transition.Run DhtRing.Net.step Timely (DhtRing.Net.founded n) acts net →
      (∀ x, Single (net.load x)) ∧
        ∀ m i, Timely net (.deliver m i) → SplitsProperly net m i) ∧
    ∀ net, Net.Reaches (fun net action => net.timely action)
        (Net.founded trackerAddr address udpPort listenPort) net →
      (∀ x, Single (net.load x)) ∧
        ∀ i, net.timely (.advance i) → net.SplitsProperly i :=
  ⟨fun _ _ run => splitsProperly_of_run bound run,
    fun _ reached => Net.splitsProperly_of_reaches udp listen reached⟩

/-- Two nodes join the first one, and the second `NET_JOIN` has come back to it. -/
def secondReturned : List Action := List.flatten [
  Net.boot 1 2 202 (some 0),
  [.advance 1, .deliver 0, .round 0 100 [.udp], .deliver 0, .advance 0, .advance 0, .resume 1,
    .advance 1, .deliver 0, .resume 1, .resume 0],
  Net.boot 2 3 203 (some 0),
  [.advance 2, .deliver 0, .round 0 100 [.udp], .advance 0, .advance 0,
    .deliver 0, .round 1 100 [.predecessor], .deliver 0, .advance 1, .advance 1,
    .deliver 0, .round 0 100 [.predecessor], .advance 0]]

/-- The first node splits `[0, 127]`, with the third `NET_JOIN` of the C ring and with the
second one of the Rust ring. -/
theorem splits_are_proper_twice :
    (∃ net outcome,
      Transition.Run DhtRing.Net.step Timely (DhtRing.Net.founded nodeA) nameReturned net ∧
        net.handling nodeA .predecessor = some outcome ∧
        .tcp (.up ⟨nodeA, nodeC, 2⟩) (.netJoinResponse nodeB 64 127) ∈ outcome.effects ∧
        SplitsProperly net nodeA .predecessor) ∧
    ∃ net member next,
      Net.run Net.timely secondReturned (Net.founded ⟨9, 9⟩ 1 101 201) = some net ∧
        net.members[0]? = some member ∧ member.node.hashRange = (0, 127) ∧ member.Splits ∧
        member.advance (net.env member 0) = .ok (some next) ∧
        .tcp 4 (.netJoinResponse (NetJoinResponsePdu.new 2 202 64 127)) ∈ next.node.effects ∧
        net.SplitsProperly 0 := by
  have bound : nodeA.port ≠ 0 := by decide
  have udp : (101 : UInt16) ≠ 0 := by decide
  have listen : (201 : UInt16) ≠ 0 := by decide
  have both := splits_are_proper bound ⟨9, 9⟩ 1 udp listen
  constructor
  · have executed : (Transition.execChecked DhtRing.Net.step timelyJoins (DhtRing.Net.founded nodeA)
        nameReturned).map (fun net => (timelyJoins net (.deliver nodeA .predecessor),
          (net.handling nodeA .predecessor).map fun outcome => decide
            (.tcp (.up ⟨nodeA, nodeC, 2⟩) (.netJoinResponse nodeB 64 127) ∈ outcome.effects))) =
        some (true, some true) := by decide
    obtain ⟨net, reached, eq⟩ := Option.map_eq_some_iff.mp executed
    rw [Prod.mk.injEq] at eq
    obtain ⟨outcome, handled, sent⟩ := Option.map_eq_some_iff.mp eq.2
    have run := Transition.run_of_execChecked timely_of_timelyJoins reached
    exact ⟨net, outcome, run, handled, of_decide_eq_true sent,
      (both.1 _ net run).2 nodeA .predecessor (timely_of_timelyJoins net _ eq.1)⟩
  · have executed : ((Net.run Net.timely secondReturned (Net.founded ⟨9, 9⟩ 1 101 201)).bind
        fun net => net.members[0]?.bind fun member =>
          (member.advance (net.env member 0)).toOption.join.map fun next =>
            (net.timely (.advance 0), member.node.hashRange,
              (member.node.running, member.waits, member.node.state), decide
                (.tcp 4 (.netJoinResponse (NetJoinResponsePdu.new 2 202 64 127)) ∈
                  next.node.effects))) =
        some (true, (0, 127), (true, false, .q13), true) := by decide +kernel
    obtain ⟨net, ran, found⟩ := Option.bind_eq_some_iff.mp executed
    obtain ⟨member, at_0, found⟩ := Option.bind_eq_some_iff.mp found
    obtain ⟨next, advanced, eq⟩ := Option.map_eq_some_iff.mp found
    simp only [Prod.mk.injEq] at eq
    obtain ⟨timely, range, ⟨running, free, state⟩, sent⟩ := eq
    have reached := Net.run_reaches (fun _ _ timely => timely) .start ran
    refine ⟨net, member, next, ran, at_0, range, ⟨running, free, Or.inr state⟩, ?_,
      of_decide_eq_true sent, (both.2 net reached).2 0 timely⟩
    cases ends : member.advance (net.env member 0) with
    | error e =>
        rw [ends] at advanced
        cases advanced
    | ok answer =>
        rw [ends] at advanced
        exact congrArg Except.ok advanced

end DhtRing.TestNode

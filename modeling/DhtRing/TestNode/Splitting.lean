import DhtRing.TestNode.Shares

/-!
# State functions keep the shares of the ring

What a node does without a new connection gives it no more of the ring than it had or took off
a connection.
-/

set_option autoImplicit false

namespace DhtRing.TestNode

open AtMostOne

/-! ## Acts -/

section

variable {member next : Member} {sent : List Effect} {hand hand' : List PDU}

def Silent (effects : List Effect) : Prop := ∀ fd pdu, .tcp fd pdu ∈ effects → pdu.handsOn = none

theorem silent_nil : Silent [] := fun _ _ mem => nomatch mem

theorem Silent.count (silent : Silent sent) (x fd : ℕ) :
    (sentTo sent fd).countP (PDU.grants x) = 0 := by
  rw [List.countP_eq_zero]
  intro pdu mem
  obtain ⟨effect, from_sent, mem⟩ := List.mem_flatMap.mp mem
  cases effect with
  | tcp fd' pdu' =>
      rw [Effect.sentTo] at mem
      split at mem
      · rw [List.mem_singleton.mp mem, PDU.grants, PDU.handsOn_asParsed, silent fd' pdu' from_sent]
        exact Bool.false_ne_true
      · cases mem
  | _ => cases mem

theorem sentTo_grant {before after : List Effect} {fd : ℕ} {pdu : PDU} (silent : Silent before)
    (silent' : Silent after) (x fd' : ℕ) :
    (sentTo (before ++ .tcp fd pdu :: after) fd').countP (PDU.grants x) =
      if fd' = otherEnd fd ∧ pdu.grants x = true then 1 else 0 := by
  have first := silent.count x fd'
  have last := silent'.count x fd'
  have here : (Effect.sentTo fd' (.tcp fd pdu)).countP (PDU.grants x) =
      if fd' = otherEnd fd ∧ pdu.grants x = true then 1 else 0 := by
    rw [Effect.sentTo]
    by_cases same : fd' = otherEnd fd
    · rw [if_pos same, List.countP_singleton, PDU.grants, PDU.handsOn_asParsed]
      exact if_congr (and_iff_right same).symm rfl rfl
    · rw [if_neg same, if_neg fun both => same both.1, List.countP_nil]
  rw [sentTo] at first last ⊢
  rw [List.flatMap_append, List.flatMap_cons, List.countP_append, List.countP_append, first, last,
    here, Nat.zero_add, Nat.add_zero]

theorem Member.load_of_owns (owner : member.owns = true) (x : ℕ) :
    member.load x =
      (if covers member.node.hashRange.1 member.node.hashRange.2 x = true then 1 else 0) +
        member.node.mail.countP (PDU.grants x) := by
  rw [Member.load, owner, Bool.true_and]

theorem Member.load_of_idle (idle : member.owns = false) (x : ℕ) :
    member.load x = member.node.mail.countP (PDU.grants x) := by
  rw [Member.load, idle, Bool.false_and, if_neg Bool.false_ne_true, Nat.zero_add]

theorem Member.load_le (owns : next.owns = true → member.owns = true)
    (range : next.node.hashRange = member.node.hashRange) {x : ℕ}
    (mail : next.node.mail.countP (PDU.grants x) + hand'.countP (PDU.grants x) ≤
      member.node.mail.countP (PDU.grants x) + hand.countP (PDU.grants x)) :
    next.load x + hand'.countP (PDU.grants x) ≤ member.load x + hand.countP (PDU.grants x) := by
  have own : (if next.owns && covers next.node.hashRange.1 next.node.hashRange.2 x
      then 1 else 0) ≤ if member.owns && covers member.node.hashRange.1 member.node.hashRange.2 x
        then 1 else 0 := by
    rw [range]
    split
    · rename_i held
      obtain ⟨mine, here⟩ := Bool.and_eq_true_iff.mp held
      rw [if_pos (Bool.and_eq_true_iff.mpr ⟨owns mine, here⟩)]
    · exact Nat.zero_le _
  rw [Member.load, Member.load]
  omega

theorem Member.load_le_of_mail (owns : next.owns = true → member.owns = true)
    (range : next.node.hashRange = member.node.hashRange)
    (mail : next.node.mail = member.node.mail) (x : ℕ) :
    next.load x + hand.countP (PDU.grants x) ≤ member.load x + hand.countP (PDU.grants x) :=
  Member.load_le owns range (by rw [mail])

/-- What a node may do to its sockets besides handing a range on or connecting. -/
def Member.Writes (member : Member) : Effect → Prop
  | .udp pdu _ => pdu.Sent ∧ pdu.handsOn = none
  | .tcp fd pdu => pdu.Sent ∧ pdu.handsOn = none ∧ fd ∈ member.lanes.map Prod.fst
  | .connect .. => False
  | _ => True

theorem Member.Writes.fine {effect : Effect} (writes : member.Writes effect) :
    effect.Fine ∧ effect.connects = false := by
  cases effect with
  | udp pdu receiver => exact ⟨writes, rfl⟩
  | tcp fd pdu => exact ⟨writes.1, rfl⟩
  | connect fd addr => exact writes.elim
  | _ => exact ⟨trivial, rfl⟩

theorem acts_of_writes (effects : next.node.effects = member.node.effects ++ sent)
    (writes : ∀ effect ∈ sent, member.Writes effect) (listening : next.listening = member.listening)
    (udpAddr : next.udpAddr = member.udpAddr) (fewer : next.lanes.Subperm member.lanes)
    (fair : next.Fair) (inRing : member.inRing = true → next.inRing = true)
    (handed : ∀ pdu ∈ hand', pdu.Fine)
    (load : ∀ x, next.load x + hand'.countP (PDU.grants x) ≤
      member.load x + hand.countP (PDU.grants x)) :
    member.Acts next sent hand hand' ∧ member.Stays next sent := by
  have silent : Silent sent := fun fd pdu mem => (writes _ mem).2.1
  refine ⟨⟨effects, listening, udpAddr, fair, inRing, fun effect mem => (writes effect mem).fine.1,
    handed, 0, fun x => ?_, fun x fd _ => silent.count x fd⟩,
    fun effect mem => (writes effect mem).fine.2, fun fd pdu mem => (writes _ mem).2.2, fewer⟩
  rw [silent.count, Nat.add_zero]
  exact load x

theorem Net.Doing.write {net : Net} {i : ℕ} {first : Member} (doing : net.Doing i first member hand)
    (sent : List Effect) (effects : next.node.effects = member.node.effects ++ sent)
    (writes : ∀ effect ∈ sent, member.Writes effect) (listening : next.listening = member.listening)
    (udpAddr : next.udpAddr = member.udpAddr) (fewer : next.lanes.Subperm member.lanes)
    (fair : next.Fair) (inRing : member.inRing = true → next.inRing = true)
    (handed : ∀ pdu ∈ hand', pdu.Fine)
    (load : ∀ x, next.load x + hand'.countP (PDU.grants x) ≤
      member.load x + hand.countP (PDU.grants x)) :
    net.Doing i first next hand' := by
  obtain ⟨acts, stays⟩ :=
    acts_of_writes effects writes listening udpAddr fewer fair inRing handed load
  exact doing.stay acts stays

theorem fd_mem_of_successor {socket : TcpStream} (set : member.node.successor = some socket) :
    socket.fd ∈ member.lanes.map Prod.fst := by
  simp [Member.lanes, Member.successorLane, TcpStream.lane, set]

theorem fd_mem_of_predecessor {socket : TcpStream} (set : member.node.predecessor = some socket) :
    socket.fd ∈ member.lanes.map Prod.fst := by
  simp [Member.lanes, Member.predecessorLane, TcpStream.lane, set]

end

/-! ## Rounds -/

theorem entry_of_fine {pdu : ValInsertPdu} (fine : (PDU.valInsert pdu).Fine) :
    pdu.entry.Received ∧ pdu.entry.Plain := by
  refine ⟨⟨(PDU.valInsert pdu).wire, pdu, (PDU.valInsert pdu).wire.length, ?_, rfl⟩, fine.2⟩
  have parsed := parsePdu_whole (.valInsert pdu) [] fine.1
  rwa [List.append_nil] at parsed

namespace Node

variable {node last : Node}

theorem lookupResponse_sent (values : ∀ entry ∈ node.values, entry.Received ∧ entry.Plain)
    (ssn : RString) : (PDU.valLookupResponse (node.lookupResponse ssn)).Sent := by
  refine ⟨?_, trivial⟩
  unfold lookupResponse
  split
  · rename_i entry found
    obtain ⟨received, plain⟩ := values entry (List.mem_of_find?_eq_some found)
    exact ⟨rfl, received.short.1, received.insert_fits.mpr plain⟩
  · exact ⟨rfl, by decide, by decide, by decide⟩

/-- The PDUs taken off the connections, but not parked. -/
def queued (node : Node) : List PDU :=
  (node.successorWrapper.incomingQueue ++ node.predecessorWrapper.incomingQueue).map Prod.fst

theorem mail_eq (node : Node) : node.mail = node.lastPdu.toList ++ node.queued := rfl

def Rounding (node : Node) : Prop :=
  node.running = true ∧ (node.state = .q6 ∨ node.state = .q12 ∨ node.state = .q15 ∨
    node.state = .q16 ∨ node.state = .q17)

theorem Rounding.stage {member : Member} (rounding : member.node.Rounding) :
    member.owns = true ∧ member.inRing = true ∧ member.Staged := by
  obtain ⟨running, state⟩ := rounding
  rw [Member.owns, Member.inRing, Member.Staged, running]
  rcases state with state | state | state | state | state <;> rw [state] <;>
    exact ⟨rfl, rfl, trivial⟩

section

variable {member : Member} {hand hand' : List PDU}

theorem Rounding.acts (rounding : member.node.Rounding) (fair : member.Fair)
    {state : State} (sent : List Effect) (parked : Option PDU) (values : List Entry)
    (goes : state = .q6 ∨ state = .q12 ∨ state = .q15 ∨ state = .q16 ∨ state = .q17)
    (fine : ∀ pdu ∈ parked, pdu.Fine) (kept : ∀ entry ∈ values, entry.Received ∧ entry.Plain)
    (writes : ∀ effect ∈ sent, member.Writes effect) (handed : ∀ pdu ∈ hand', pdu.Fine)
    (mail : ∀ x, parked.toList.countP (PDU.grants x) + hand'.countP (PDU.grants x) ≤
      member.node.lastPdu.toList.countP (PDU.grants x) + hand.countP (PDU.grants x))
    (last_eq : last = { member.node with
      state := state
      lastPdu := parked
      values := values
      effects := member.node.effects ++ sent }) :
    last.Rounding ∧ ∃ sent, member.Acts { member with node := last } sent hand hand' ∧
      member.Stays { member with node := last } sent := by
  have goes_on : last.Rounding := by
    rw [last_eq]
    exact ⟨rounding.1, goes⟩
  have stage : Member.owns { member with node := last } = true ∧
      Member.inRing { member with node := last } = true ∧
        Member.Staged { member with node := last } := goes_on.stage
  have mail_fine : ∀ pdu ∈ last.mail, pdu.Fine := by
    intro pdu mem
    rw [last_eq, mail_eq] at mem
    rcases List.mem_append.mp mem with now | before
    · exact fine pdu (Option.mem_toList.mp now)
    · exact fair.node.mail pdu (List.mem_append_right _ before)
  refine ⟨goes_on, sent, acts_of_writes ?_ writes ?_ ?_ ?_ ⟨?_, ?_, stage.2.2⟩ (fun _ => stage.2.1)
    handed fun x => Member.load_le (fun _ => rounding.stage.1) ?_ ?_⟩
  · rw [last_eq]
  · rw [last_eq]
    rfl
  · rw [last_eq]
    rfl
  · rw [last_eq]
    exact List.Subperm.refl _
  · rw [last_eq] at mail_fine ⊢
    exact { fair.node with
      mail := mail_fine
      values := kept }
  · intro _
    rw [last_eq]
    exact fair.range rounding.stage.1
  · rw [last_eq]
  · have enough := mail x
    rw [last_eq, mail_eq, mail_eq, List.countP_append, List.countP_append]
    change parked.toList.countP _ + member.node.queued.countP _ + _ ≤ _
    omega

theorem served_acts {pdu : PDU} {rest : List PDU} {ssn : RString} (key : pdu.key = some ssn)
    (rounding : member.node.Rounding) (fair : member.Fair) (fine : pdu.Fine)
    (rest_fine : ∀ x ∈ rest, x.Fine)
    (handled : (if member.node.inMyRange ssn then .ok (member.node.served pdu).settled
      else settled <$> member.node.forward pdu) = (.ok last : Except String Node)) :
    last.Rounding ∧ ∃ sent, member.Acts { member with node := last } sent (pdu :: rest) rest ∧
      member.Stays { member with node := last } sent := by
  have settles (sent : List Effect) {values : List Entry}
      (kept : ∀ entry ∈ values, entry.Received ∧ entry.Plain)
      (writes : ∀ effect ∈ sent, member.Writes effect)
      (same : last = { member.node with
        state := .q6
        lastPdu := none
        values := values
        effects := member.node.effects ++ sent }) :
      last.Rounding ∧ ∃ sent, member.Acts { member with node := last } sent (pdu :: rest) rest ∧
        member.Stays { member with node := last } sent := by
    refine rounding.acts fair sent none values (Or.inl rfl) nofun kept writes rest_fine (fun x => ?_) same
    rw [Option.toList_none, List.countP_nil, List.countP_cons]
    omega
  have unsent : member.node.effects ++ [] = member.node.effects := List.append_nil _
  split at handled
  · cases pdu with
    | valInsert pdu =>
        cases handled
        refine settles [] ?_ (List.forall_mem_nil _) (by rw [unsent]; rfl)
        intro entry mem
        rcases List.mem_append.mp mem with old | new
        · exact fair.node.values entry old
        · rw [List.mem_singleton.mp new]
          exact entry_of_fine fine
    | valRemove pdu =>
        cases handled
        refine settles [] ?_ (List.forall_mem_nil _) (by rw [unsent]; rfl)
        exact fun entry mem => fair.node.values entry (List.mem_of_mem_filter mem)
    | valLookup pdu =>
        cases handled
        refine settles _ fair.node.values ?_ rfl
        rintro _ (_ | ⟨_, ⟨⟩⟩)
        exact ⟨lookupResponse_sent fair.node.values pdu.ssn, rfl⟩
    | _ => cases key
  · rcases Option.eq_none_or_eq_some member.node.successor with unset | ⟨socket, set⟩
    · rw [forward_of_none unset] at handled
      cases handled
    · rw [forward_of_some set] at handled
      cases handled
      refine settles _ fair.node.values ?_ rfl
      rintro _ (_ | ⟨_, ⟨⟩⟩)
      have kinds : pdu.handsOn = none ∧ pdu.code ≠ 103 := by
        cases pdu with
        | valInsert pdu => exact ⟨rfl, by simp [PDU.code]⟩
        | valRemove pdu => exact ⟨rfl, by simp [PDU.code]⟩
        | valLookup pdu => exact ⟨rfl, by simp [PDU.code]⟩
        | _ => cases key
      exact ⟨fine.sent kinds.2, kinds.1, fd_mem_of_successor set⟩

theorem handlePdu_acts {pdu : PDU} {source : Source} {rest : List PDU}
    (rounding : member.node.Rounding) (fair : member.Fair) (fine : ∀ x ∈ pdu :: rest, x.Fine)
    (handled : member.node.handlePdu pdu source = .ok last) :
    last.Rounding ∧ ∃ sent, member.Acts { member with node := last } sent (pdu :: rest) rest ∧
      member.Stays { member with node := last } sent := by
  have pdu_fine := fine pdu List.mem_cons_self
  have rest_fine : ∀ x ∈ rest, x.Fine := fun x mem => fine x (List.mem_cons_of_mem _ mem)
  have old_fine : ∀ x ∈ member.node.lastPdu, x.Fine := fun x mem =>
    fair.node.mail x (List.mem_append_left _ (Option.mem_toList.mpr mem))
  have parks {state : State} (goes : state = .q6 ∨ state = .q12 ∨ state = .q15 ∨ state = .q16 ∨
      state = .q17) (parked : Option PDU) (either : parked = some pdu ∨ parked = member.node.lastPdu)
      (same : last = { member.node with
        state := state
        lastPdu := parked }) :
      last.Rounding ∧ ∃ sent, member.Acts { member with node := last } sent (pdu :: rest) rest ∧
        member.Stays { member with node := last } sent := by
    refine rounding.acts fair [] parked member.node.values goes ?_ fair.node.values
      (List.forall_mem_nil _) rest_fine ?_ ?_
    · rcases either with rfl | rfl
      · rintro _ ⟨⟩
        exact pdu_fine
      · exact old_fine
    · intro x
      rw [List.countP_cons]
      rcases either with rfl | rfl
      · rw [Option.toList_some, List.countP_singleton]
        omega
      · omega
    · rw [same, List.append_nil]
  cases key : pdu.key with
  | some ssn =>
      rw [handlePdu_of_key key] at handled
      exact served_acts key rounding fair pdu_fine rest_fine handled
  | none =>
      cases pdu with
      | netJoin pdu =>
          cases handled
          exact parks (by tauto) _ (Or.inl rfl) rfl
      | netNewRange pdu =>
          cases handled
          exact parks (by tauto) _ (Or.inl rfl) rfl
      | netLeaving pdu =>
          cases handled
          exact parks (by tauto) _ (Or.inl rfl) rfl
      | netCloseConnection pdu =>
          cases source with
          | predecessor sender =>
              cases handled
              exact parks (by tauto) _ (Or.inr rfl) rfl
          | udp sender => cases handled
          | successor sender => cases handled
      | valInsert pdu => cases key
      | valRemove pdu => cases key
      | valLookup pdu => cases key
      | _ =>
          cases handled
          exact parks rounding.2 _ (Or.inr rfl) rfl

end

end Node

/-! ## Reading -/

theorem TcpWrapper.tryRead_found {wrapper wrapper' : TcpWrapper} {socket socket' : TcpStream}
    {closed : Bool} (answer : wrapper.tryRead socket = .ok (closed, wrapper', socket')) :
    ∃ found : List PDU, (∀ pdu ∈ found, pdu.Parsed) ∧
      wrapper'.incomingQueue.map Prod.fst = wrapper.incomingQueue.map Prod.fst ++ found ∧
      wrapper.buffer ++ socket.pending =
        found.flatMap PDU.wire ++ (wrapper'.buffer ++ socket'.pending) ∧
      socket'.fd = socket.fd := by
  obtain ⟨last, eq, left, same⟩ := wrapper.tryRead_eq socket
  rw [eq] at answer
  cases fed : Framing.feed parsePdu ([], []) (wrapper.filled socket) with
  | error e =>
      rw [fed] at answer
      cases answer
  | ok result =>
      rw [fed] at answer
      cases answer
      obtain ⟨found, rest⟩ := result
      obtain ⟨pdus, rfl, valid, split, -⟩ := parsePdu_frames.of_feed fed
      refine ⟨found, valid, ?_, ?_, by rw [same]⟩
      · rw [List.map_append, List.map_map]
        exact congrArg _ (List.map_id _)
      · rw [← List.append_assoc, left]
        change [] ++ wrapper.filled socket = found.flatMap PDU.wire ++ rest at split
        rw [← split, List.nil_append, TcpWrapper.filled, List.append_assoc, List.take_append_drop]

def Harmless (queue : List Message) : Prop :=
  ∀ message ∈ queue, message.1.Fine ∧ message.1.handsOn = none

theorem UdpWrapper.tryRead_fine {datagrams : List Datagram} : ∀ {wrapper wrapper' : UdpWrapper},
    wrapper.buffer = [] → Harmless wrapper.incomingQueue →
      (∀ datagram ∈ datagrams, datagram.Fine) → wrapper.tryRead datagrams = .ok wrapper' →
        wrapper'.buffer = [] ∧ Harmless wrapper'.incomingQueue := by
  induction datagrams with
  | nil =>
      intro wrapper wrapper' empty harmless _ read
      cases read
      exact ⟨empty, harmless⟩
  | cons datagram datagrams ih =>
      intro wrapper wrapper' empty harmless fine read
      obtain ⟨pdu, pdu_fine, quiet, carries⟩ := fine datagram List.mem_cons_self
      rw [UdpWrapper.tryRead, List.foldlM_cons, UdpWrapper.receive_of_carries empty carries] at read
      refine ih rfl ?_ (fun other mem => fine other (List.mem_cons_of_mem _ mem)) read
      intro message mem
      rcases List.mem_append.mp mem with old | new
      · exact harmless message old
      · rw [List.mem_singleton.mp new]
        exact ⟨pdu_fine, quiet⟩

theorem Harmless.countP {queue : List Message} (harmless : Harmless queue) (x : ℕ) :
    (queue.map Prod.fst).countP (PDU.grants x) = 0 := by
  rw [List.countP_eq_zero]
  intro pdu mem
  obtain ⟨message, queued, rfl⟩ := List.mem_map.mp mem
  rw [PDU.grants, (harmless message queued).2]
  exact Bool.false_ne_true

section

variable {net : Net} {i : ℕ} {member : Member} {node last : Node}

namespace Node

theorem handleAll_doing {source : Addr → Source} : ∀ {queue : List Message} {node last : Node},
    net.Doing i member { member with node := node } (queue.map Prod.fst) → node.Rounding →
      node.handleAll source queue = .ok last →
        net.Doing i member { member with node := last } [] ∧ last.Rounding := by
  intro queue
  induction queue with
  | nil =>
      intro node last doing rounding handled
      cases handled
      exact ⟨doing, rounding⟩
  | cons message queue ih =>
      intro node last doing rounding handled
      rw [handleAll, List.foldlM_cons] at handled
      cases first : node.handlePdu message.1 (source message.2) with
      | error e =>
          rw [first] at handled
          cases handled
      | ok next =>
          rw [first] at handled
          obtain ⟨fair, fine⟩ := doing.fair
          have round : Node.Rounding (Member.node { member with node := node }) := rounding
          obtain ⟨rounding, sent, acts, stays⟩ := handlePdu_acts round fair fine first
          exact ih (doing.stay acts stays) rounding handled

section

variable {wrapper : TcpWrapper} {socket socket' : TcpStream} {closed : Bool}
  {taken left : List Message}

/-- PDUs are parsed, and some of them are taken off the queues. -/
theorem read_doing {found : List PDU} {fd : ℕ} {rest : List UInt8}
    {others : List (ℕ × List UInt8)}
    (doing : net.Doing i member { member with node := node } [])
    (kept : last = { node with
      successor := last.successor
      successorWrapper := last.successorWrapper
      predecessor := last.predecessor
      predecessorWrapper := last.predecessorWrapper })
    (queues : (last.queued ++ taken.map Prod.fst).Perm (node.queued ++ found))
    (had : (Member.lanes { member with node := node }).Perm
      ((fd, found.flatMap PDU.wire ++ rest) :: others))
    (has : (Member.lanes { member with node := last }).Perm ((fd, rest) :: others))
    (parsed : ∀ pdu ∈ found, pdu.Parsed) :
    net.Doing i member { member with node := last } (taken.map Prod.fst) := by
  obtain ⟨fair, -⟩ := doing.fair
  have fine (found_fine : ∀ pdu ∈ found, pdu.Fine) :
      ∀ pdu ∈ last.queued ++ taken.map Prod.fst, pdu.Fine := by
    intro pdu mem
    rcases List.mem_append.mp (queues.subset mem) with old | new
    · exact fair.node.mail pdu (List.mem_append_right _ old)
    · exact found_fine pdu new
  have mail (found_fine : ∀ pdu ∈ found, pdu.Fine) : ∀ pdu ∈ last.mail, pdu.Fine := by
    intro pdu mem
    rcases List.mem_append.mp mem with parked | queued
    · rw [kept] at parked
      exact fair.node.mail pdu (List.mem_append_left _ parked)
    · exact fine found_fine pdu (List.mem_append_left _ queued)
  refine doing.take ⟨by rw [kept], by rw [kept]; rfl, by rw [kept]; rfl, had, has, parsed,
    fun found_fine => ⟨?_, ?_, ?_⟩,
    fun found_fine pdu mem => fine found_fine pdu (List.mem_append_right _ mem), ?_, fun x => ?_⟩
  · have mail := mail found_fine
    rw [kept] at mail ⊢
    exact { fair.node with mail := mail }
  · rw [kept]
    exact fair.range
  · rw [kept]
    exact fair.staged
  · rw [kept]
    exact id
  · have counts := queues.countP_eq (PDU.grants x)
    rw [List.countP_append, List.countP_append] at counts
    have parked : last.lastPdu = node.lastPdu := by rw [kept]
    rw [List.countP_nil, Nat.add_zero]
    refine Member.load_le ?_ ?_ ?_
    · rw [kept]
      exact id
    · rw [kept]
    · change last.mail.countP _ + _ ≤ node.mail.countP _ + _
      rw [mail_eq, mail_eq, parked, List.countP_append, List.countP_append]
      omega

theorem queues_perm {old others : List Message} {found : List PDU}
    (queue : wrapper.incomingQueue.map Prod.fst = old.map Prod.fst ++ found)
    (split : wrapper.incomingQueue = taken ++ left) :
    (left.map Prod.fst ++ others.map Prod.fst ++ taken.map Prod.fst).Perm
      (old.map Prod.fst ++ others.map Prod.fst ++ found) := by
  rw [split, List.map_append] at queue
  refine List.perm_append_comm.trans ?_
  rw [← List.append_assoc, queue, List.append_assoc, List.append_assoc]
  exact List.perm_append_comm.append_left _

theorem readSuccessor_doing (doing : net.Doing i member { member with node := node } [])
    (set : node.successor = some socket)
    (answer : node.successorWrapper.tryRead socket = .ok (closed, wrapper, socket'))
    (split : wrapper.incomingQueue = taken ++ left) :
    net.Doing i member { member with node := { node with
      successor := some socket'
      successorWrapper := { wrapper with incomingQueue := left } } } (taken.map Prod.fst) := by
  obtain ⟨found, parsed, queue, stream, fd⟩ := TcpWrapper.tryRead_found answer
  have had : (Member.lanes { member with node := node }).Perm
      ((socket.fd, found.flatMap PDU.wire ++ (wrapper.buffer ++ socket'.pending)) ::
        (Member.predecessorLane { member with node := node } ++
          member.backlog.map (TcpStream.lane []))) := by
    rw [Member.lanes, Member.successorLane, set, ← stream]
    exact List.Perm.refl _
  refine read_doing doing rfl ?_ had (List.Perm.of_eq ?_) parsed
  · rw [queued, queued, List.map_append, List.map_append]
    exact queues_perm queue split
  · rw [Member.lanes, Member.successorLane, Option.map_some, TcpStream.lane, fd]
    rfl

theorem readPredecessor_doing (doing : net.Doing i member { member with node := node } [])
    (set : node.predecessor = some socket)
    (answer : node.predecessorWrapper.tryRead socket = .ok (closed, wrapper, socket'))
    (split : wrapper.incomingQueue = taken ++ left) :
    net.Doing i member { member with node := { node with
      predecessor := some socket'
      predecessorWrapper := { wrapper with incomingQueue := left } } } (taken.map Prod.fst) := by
  obtain ⟨found, parsed, queue, stream, fd⟩ := TcpWrapper.tryRead_found answer
  have had : (Member.lanes { member with node := node }).Perm
      ((socket.fd, found.flatMap PDU.wire ++ (wrapper.buffer ++ socket'.pending)) ::
        (Member.successorLane { member with node := node } ++
          member.backlog.map (TcpStream.lane []))) := by
    rw [Member.lanes, Member.predecessorLane, set, ← stream]
    exact List.perm_middle
  refine read_doing doing rfl ?_ had ?_ parsed
  · rw [queued, queued, List.map_append, List.map_append]
    have swap (a b c : List PDU) : (a ++ b ++ c).Perm (b ++ a ++ c) :=
      List.perm_append_comm.append_right c
    exact (swap ..).trans ((queues_perm queue split).trans (swap ..))
  · rw [Member.lanes, Member.predecessorLane, Option.map_some, TcpStream.lane, fd]
    exact List.perm_middle

theorem readUdp_doing {udpWrapper : UdpWrapper} {queue : List Message}
    (doing : net.Doing i member { member with node := node } [])
    (answer : node.udpWrapper.tryRead node.udpSocket.datagrams = .ok udpWrapper)
    (split : udpWrapper.incomingQueue = taken ++ queue) :
    net.Doing i member { member with node := { node with
      udpSocket := { node.udpSocket with datagrams := [] }
      udpWrapper := { udpWrapper with incomingQueue := queue } } } (taken.map Prod.fst) ∧
        Harmless taken := by
  obtain ⟨fair, -⟩ := doing.fair
  obtain ⟨empty, harmless⟩ := UdpWrapper.tryRead_fine fair.node.udpBuffer fair.node.udpQueue
    fair.node.datagrams answer
  rw [split] at harmless
  have taken_harmless : Harmless taken := fun message mem =>
    harmless message (List.mem_append_left _ mem)
  refine ⟨?_, taken_harmless⟩
  refine doing.write [] (List.append_nil _).symm (List.forall_mem_nil _) rfl rfl
    (List.Subperm.refl _) ⟨{ fair.node with
      udpBuffer := empty
      udpQueue := fun message mem => harmless message (List.mem_append_right _ mem)
      datagrams := List.forall_mem_nil _ }, fair.range, fair.staged⟩ id ?_ fun x => ?_
  · intro pdu mem
    obtain ⟨message, queued, rfl⟩ := List.mem_map.mp mem
    exact (taken_harmless message queued).1
  · rw [taken_harmless.countP]
    exact le_rfl

theorem dropSuccessor_doing {hand : List PDU}
    (doing : net.Doing i member { member with node := node } hand) :
    net.Doing i member { member with node := node.setSuccessor none } hand := by
  obtain ⟨fair, handed⟩ := doing.fair
  refine doing.write (dropped node.successor) rfl ?_ rfl rfl ?_
    ⟨fair.node.congr rfl rfl rfl rfl rfl, fair.range, fair.staged⟩ id handed fun x => le_rfl
  · cases node.successor with
    | none => exact List.forall_mem_nil _
    | some socket =>
        rintro _ (_ | ⟨_, ⟨⟩⟩)
        trivial
  · exact (List.sublist_append_right ..).subperm

theorem handleEvent_doing (doing : net.Doing i member { member with node := node } [])
    (rounding : node.Rounding) {event : Token} (handled : node.handleEvent event = .ok last) :
    net.Doing i member { member with node := last } [] ∧ last.Rounding := by
  cases event with
  | udp =>
      rw [handleEvent] at handled
      cases answer : node.udpWrapper.tryRead node.udpSocket.datagrams with
      | error e =>
          rw [answer] at handled
          cases handled
      | ok udpWrapper =>
          rw [answer] at handled
          have read := (readUdp_doing doing answer (List.append_nil _).symm).1
          exact handleAll_doing read rounding handled
  | successor =>
      rw [handleEvent] at handled
      rcases Option.eq_none_or_eq_some node.successor with unset | ⟨socket, set⟩
      · rw [unset] at handled
        cases handled
        exact ⟨doing, rounding⟩
      · rw [set] at handled
        dsimp only at handled
        cases answer : node.successorWrapper.tryRead socket with
        | error e =>
            rw [answer] at handled
            cases handled
        | ok read =>
            obtain ⟨closed, wrapper, socket'⟩ := read
            rw [answer] at handled
            have read := readSuccessor_doing doing set answer (List.append_nil _).symm
            simp only [ok_bind] at handled
            split at handled
            · exact handleAll_doing (dropSuccessor_doing read) rounding handled
            · exact handleAll_doing read rounding handled
  | predecessor =>
      rw [handleEvent] at handled
      rcases Option.eq_none_or_eq_some node.predecessor with unset | ⟨socket, set⟩
      · rw [unset] at handled
        cases handled
        exact ⟨doing, rounding⟩
      · rw [set] at handled
        dsimp only at handled
        cases answer : node.predecessorWrapper.tryRead socket with
        | error e =>
            rw [answer] at handled
            cases handled
        | ok read =>
            obtain ⟨closed, wrapper, socket'⟩ := read
            rw [answer] at handled
            have read := readPredecessor_doing doing set answer (List.append_nil _).symm
            exact handleAll_doing read rounding handled

theorem handleEvents_doing : ∀ {events : List Token} {node : Node},
    net.Doing i member { member with node := node } [] → node.Rounding →
      events.foldlM handleEvent node = .ok last →
        net.Doing i member { member with node := last } [] ∧ last.Rounding := by
  intro events
  induction events with
  | nil =>
      intro node doing rounding handled
      cases handled
      exact ⟨doing, rounding⟩
  | cons event events ih =>
      intro node doing rounding handled
      rw [List.foldlM_cons] at handled
      cases first : node.handleEvent event with
      | error e =>
          rw [first] at handled
          cases handled
      | ok next =>
          rw [first] at handled
          obtain ⟨doing, rounding⟩ := handleEvent_doing doing rounding first
          exact ih doing rounding handled

theorem sendAlive_doing {env : Env} (doing : net.Doing i member { member with node := node } []) :
    net.Doing i member { member with node := node.sendAlive env } [] := by
  obtain ⟨fair, -⟩ := doing.fair
  unfold sendAlive
  split
  · refine doing.write _ rfl ?_ rfl rfl (List.Subperm.refl _)
      ⟨fair.node.congr rfl rfl rfl rfl rfl, fair.range, fair.staged⟩ id (List.forall_mem_nil _)
      fun x => le_rfl
    rintro _ (_ | ⟨_, ⟨⟩⟩)
    exact ⟨⟨⟨rfl, trivial⟩, trivial⟩, rfl⟩
  · exact doing

theorem checkClose_doing (doing : net.Doing i member { member with node := node } [])
    (rounding : node.Rounding) : net.Doing i member { member with node := node.checkClose } [] := by
  obtain ⟨fair, -⟩ := doing.fair
  unfold checkClose
  split
  · have owner : Member.owns { member with node := node } = true := rounding.stage.1
    refine doing.write [] (List.append_nil _).symm (List.forall_mem_nil _) rfl rfl
      (List.Subperm.refl _)
      ⟨fair.node.congr rfl rfl rfl rfl rfl, fun _ => fair.range owner, trivial⟩ (fun _ => rfl)
      (List.forall_mem_nil _) (Member.load_le_of_mail (fun _ => owner) rfl rfl)
  · exact doing

end

end Node

theorem Member.round_doing {env : Env} {events : List Token} {next : Member}
    (doing : net.Doing i member member []) (rounded : member.round env events = .ok (some next)) :
    net.Doing i member next [] := by
  unfold Member.round at rounded
  split at rounded
  · cases rounded
  · rename_i free
    simp only [Bool.or_eq_true, not_or, Bool.not_eq_true, Bool.not_eq_false', ne_eq,
      decide_eq_true_eq, Decidable.not_not] at free
    obtain ⟨⟨-, running⟩, state⟩ := free
    have rounding : (member.node.sendAlive env).Rounding := by
      unfold Node.sendAlive
      split
      · exact ⟨running, Or.inl state⟩
      · exact ⟨running, Or.inl state⟩
    cases handled : events.foldlM Node.handleEvent (member.node.sendAlive env) with
    | error e =>
        rw [Node.q6, handled] at rounded
        cases rounded
    | ok last =>
        rw [Node.q6, handled] at rounded
        cases rounded
        obtain ⟨doing, rounding⟩ :=
          Node.handleEvents_doing (Node.sendAlive_doing doing) rounding handled
        have asked : ({ last with shouldClose := last.shouldClose || false } : Node) = last := by
          rw [Bool.or_false]
        rw [asked]
        exact Node.checkClose_doing doing rounding

/-! ## State functions that make no connection -/

theorem bind_eq_ok {α β : Type} {r : Except String α} {f : α → Except String β} {y : β}
    (ends : (r >>= f) = .ok y) : ∃ x, r = .ok x ∧ f x = .ok y := by
  cases r with
  | error e => cases ends
  | ok x => exact ⟨x, rfl, ends⟩

theorem unwrap_eq_ok {α : Type} {x : Option α} {y : α} (ends : unwrap x = .ok y) : x = some y := by
  cases x with
  | none => cases ends
  | some x => exact congrArg some (Except.ok.inj ends)

namespace Node

theorem takeNetJoin_eq_ok {message : String} {pdu : NetJoinPdu}
    (taken : node.takeNetJoin message = .ok pdu) : node.lastPdu = some (.netJoin pdu) := by
  unfold takeNetJoin at taken
  split at taken
  · rename_i parked
    rw [parked, Except.ok.inj taken]
  · cases taken

def inserts (node : Node) (fd : ℕ) (rangeStart rangeEnd : UInt8) : List Effect :=
  (node.values.filter fun x => x.hash ≥ rangeStart && x.hash ≤ rangeEnd).map fun entry =>
    .tcp fd (.valInsert entry.insert)

theorem transfer_eq_ok {toSuccessor : Bool} {rangeStart rangeEnd : UInt8}
    (moved : node.transfer toSuccessor rangeStart rangeEnd = .ok last) :
    ∃ socket, node.transferTo toSuccessor = some socket ∧ last = { node with
      values := node.values.filter fun x => x.hash < rangeStart || x.hash > rangeEnd
      effects := node.effects ++ node.inserts socket.fd rangeStart rangeEnd } := by
  obtain ⟨socket, set, moved⟩ := bind_eq_ok moved
  exact ⟨socket, unwrap_eq_ok set, (Except.ok.inj moved).symm⟩

theorem inserts_sent (values : ∀ entry ∈ node.values, entry.Received ∧ entry.Plain) {fd : ℕ}
    {rangeStart rangeEnd : UInt8} :
    ∀ effect ∈ node.inserts fd rangeStart rangeEnd, ∃ pdu : PDU, effect = .tcp fd pdu ∧ pdu.Sent ∧
      pdu.handsOn = none := by
  intro effect mem
  obtain ⟨entry, moved, rfl⟩ := List.mem_map.mp mem
  obtain ⟨received, plain⟩ := values entry (List.mem_of_mem_filter moved)
  exact ⟨_, rfl, ⟨received.insert_encodable plain, plain⟩, rfl⟩

theorem Fair.unpark (fair : node.Fair) : ∀ pdu ∈ node.queued, pdu.Fine := fun pdu mem =>
  fair.mail pdu (List.mem_append_right _ mem)

theorem queued_le (node : Node) (x : ℕ) :
    node.queued.countP (PDU.grants x) ≤ node.mail.countP (PDU.grants x) := by
  rw [mail_eq, List.countP_append]
  exact Nat.le_add_left ..

end Node

section

variable {next : Node} {first : Member} {hand : List PDU}

theorem joining_doing (doing : net.Doing i first member hand) (waits : Bool) (sent : List Effect)
    (writes : ∀ effect ∈ sent, member.Writes effect)
    (goes : next.state = .q2 ∨ next.state = .q3 ∨ next.state = .q7 ∨ next.state = .q8)
    (joins : member.inRing = false) (fair : next.Fair)
    (mail : ∀ x, next.mail.countP (PDU.grants x) ≤
      member.node.mail.countP (PDU.grants x) + hand.countP (PDU.grants x))
    (kept : next = { member.node with
      state := next.state
      ownAddress := next.ownAddress
      lastPdu := next.lastPdu
      udpWrapper := next.udpWrapper
      effects := member.node.effects ++ sent }) :
    net.Doing i first { member with
      node := next
      waits := waits } [] := by
  have idle : Member.owns { member with
      node := next
      waits := waits } = false := by
    rw [Member.owns]
    rcases goes with goes | goes | goes | goes <;> rw [goes, Bool.and_false]
  refine doing.write sent ?_ writes ?_ ?_ ?_ ⟨fair, fun owned => ?_, ?_⟩ (fun inRing => ?_)
    (List.forall_mem_nil _) fun x => ?_
  · rw [kept]
  · rw [kept]
    rfl
  · rw [kept]
    rfl
  · rw [kept]
    exact List.Subperm.refl _
  · rw [idle] at owned
    cases owned
  · rw [Member.Staged]
    rcases goes with goes | goes | goes | goes <;> rw [goes] <;> trivial
  · rw [joins] at inRing
    cases inRing
  · have enough := mail x
    rw [Member.load, Member.load, idle, Bool.false_and, if_neg Bool.false_ne_true, List.countP_nil]
    change 0 + next.mail.countP _ + 0 ≤ _
    omega

/-- A node of the ring goes on, and has no more of the ring than before. -/
theorem serving_doing (doing : net.Doing i first member hand) (waits : Bool) (sent : List Effect)
    (writes : ∀ effect ∈ sent, member.Writes effect)
    (ring : Member.inRing { member with node := next } = true)
    (staged : Member.Staged { member with
      node := next
      waits := waits }) (fair : next.Fair)
    (owns : Member.owns { member with
      node := next
      waits := waits } = true → member.owns = true)
    (mail : ∀ x, next.mail.countP (PDU.grants x) ≤
      member.node.mail.countP (PDU.grants x) + hand.countP (PDU.grants x))
    (fewer : (Member.lanes { member with
      node := next
      waits := waits }).Subperm member.lanes)
    (kept : next = { member.node with
      state := next.state
      values := next.values
      lastPdu := next.lastPdu
      running := next.running
      successor := next.successor
      successorWrapper := next.successorWrapper
      predecessor := next.predecessor
      predecessorWrapper := next.predecessorWrapper
      opened := next.opened
      effects := member.node.effects ++ sent }) :
    net.Doing i first { member with
      node := next
      waits := waits } [] := by
  obtain ⟨before, -⟩ := doing.fair
  have range : next.hashRange = member.node.hashRange := by rw [kept]
  refine doing.write sent ?_ writes ?_ ?_ fewer ⟨fair, fun owned => ?_, staged⟩ (fun _ => ring)
    (List.forall_mem_nil _) fun x => Member.load_le owns range (mail x)
  · rw [kept]
  · rw [kept]
    rfl
  · rw [kept]
    rfl
  · change next.hashRange.1 ≤ next.hashRange.2
    rw [range]
    exact before.range (owns owned)

section

variable (doing : net.Doing i first member []) (owner : member.owns = true)

include doing owner

theorem q10_doing (state : member.node.state = .q10) :
    net.Doing i first { member with node := member.node.q10 } [] := by
  obtain ⟨fair, -⟩ := doing.fair
  unfold Node.q10
  split
  · refine serving_doing doing member.waits [] (List.forall_mem_nil _) ?_ ?_
      (fair.node.congr rfl rfl rfl rfl rfl) (fun _ => owner) (fun x => le_rfl)
      (List.Subperm.refl _) (by rw [List.append_nil])
    · rw [Member.inRing, state]
      rfl
    · rw [Member.Staged, state]
      trivial
  · exact serving_doing doing member.waits [] (List.forall_mem_nil _) rfl trivial
      (fair.node.congr rfl rfl rfl rfl rfl) (fun _ => owner) (fun x => le_rfl)
      (List.Subperm.refl _) (by rw [List.append_nil])

theorem q12_doing (sound : member.Sound) (state : member.node.state = .q12)
    (ends : member.node.q12 = .ok next) :
    net.Doing i first { member with node := next } [] := by
  obtain ⟨fair, -⟩ := doing.fair
  have none_sent : member.node.effects ++ [] = member.node.effects := List.append_nil _
  unfold Node.q12 at ends
  split at ends
  · rename_i unset
    cases ends
    refine serving_doing doing member.waits [] (List.forall_mem_nil _) rfl ?_
      (fair.node.congr rfl rfl rfl rfl rfl) (fun _ => owner) (fun x => le_rfl)
      (List.Subperm.refl _) (by rw [none_sent])
    rw [Member.Sound, Node.Sound, state] at sound
    exact fun _ => (sound (Option.isNone_iff_eq_none.mp unset)).1
  · obtain ⟨pdu, taken, ends⟩ := bind_eq_ok ends
    have parked := Node.takeNetJoin_eq_ok taken
    split at ends
    · rename_i named
      cases ends
      refine serving_doing doing member.waits [] (List.forall_mem_nil _) rfl ?_
        (fair.node.congr rfl rfl rfl ?_ rfl) (fun _ => owner) (fun x => ?_)
        (List.Subperm.refl _) (by rw [none_sent])
      · refine ⟨pdu, rfl, ?_⟩
        have port := fair.node.listenPort
        rw [named] at port
        exact port
      · rw [Node.mail_eq, Node.mail_eq, parked]
        rfl
      · rw [Node.mail_eq, Node.mail_eq, parked]
        exact le_rfl
    · cases ends
      refine serving_doing doing member.waits [] (List.forall_mem_nil _) rfl trivial
        (fair.node.congr rfl rfl rfl ?_ rfl) (fun _ => owner) (fun x => ?_)
        (List.Subperm.refl _) (by rw [none_sent])
      · rw [Node.mail_eq, Node.mail_eq, parked]
        rfl
      · rw [Node.mail_eq, Node.mail_eq, parked]
        exact le_rfl

theorem q14_doing (ends : member.node.q14 = .ok next) :
    net.Doing i first { member with node := next } [] := by
  obtain ⟨fair, -⟩ := doing.fair
  obtain ⟨pdu, taken, ends⟩ := bind_eq_ok ends
  obtain ⟨span, -, ends⟩ := bind_eq_ok ends
  obtain ⟨sent, forwarded, ends⟩ := bind_eq_ok ends
  have parked : (PDU.netJoin pdu).Fine := by
    refine fair.node.mail _ (List.mem_append_left _ ?_)
    rw [Node.takeNetJoin_eq_ok taken]
    exact List.mem_singleton_self _
  generalize recorded : (if span > pdu.maxSpan then { pdu with
      maxSpan := span
      maxAddress := member.node.listenAddr.address
      maxPort := member.node.listenAddr.port } else pdu) = pdu' at forwarded
  have fine : (PDU.netJoin pdu').Sent := by
    have type : pdu.pduType = 3 := parked.1.1
    rw [← recorded]
    split
    · rename_i larger
      refine ⟨⟨type, trivial⟩, fun _ zero => ?_⟩
      change span = 0 at zero
      rw [zero, gt_iff_lt, UInt8.lt_iff_toNat_lt] at larger
      exact absurd larger (Nat.not_lt_zero _)
    · exact ⟨⟨type, trivial⟩, parked.2⟩
  cases ends
  rcases Option.eq_none_or_eq_some member.node.successor with unset | ⟨socket, set⟩
  · rw [Node.forward_of_none (by exact unset)] at forwarded
    cases forwarded
  · rw [Node.forward_of_some (by exact set)] at forwarded
    cases forwarded
    refine serving_doing doing member.waits _ ?_ rfl trivial { fair.node with
      mail := fair.node.unpark } (fun _ => owner) (fun x => member.node.queued_le x)
      (List.Subperm.refl _) rfl
    rintro _ (_ | ⟨_, ⟨⟩⟩)
    exact ⟨fine, rfl, fd_mem_of_successor set⟩

theorem q17_doing (waits : Bool) {state : State}
    (goes : state = .q6 ∨ state = .q17) :
    net.Doing i first { member with
      node := { member.node.q17Disconnect with state := state }
      waits := waits } [] := by
  obtain ⟨fair, -⟩ := doing.fair
  have stage : ∀ node : Node, node.state = state → Member.inRing { member with node := node } =
      true ∧ Member.Staged { member with
        node := node
        waits := waits } := by
    intro node same
    rw [Member.inRing, Member.Staged, same]
    rcases goes with rfl | rfl <;> exact ⟨rfl, trivial⟩
  unfold Node.q17Disconnect
  split
  · rename_i socket set
    refine serving_doing doing waits _ ?_ (stage _ rfl).1 (stage _ rfl).2
      (fair.node.congr rfl rfl rfl rfl rfl) (fun _ => owner) (fun x => le_rfl) ?_ rfl
    · rintro _ (_ | ⟨_, _ | ⟨_, ⟨⟩⟩⟩) <;> trivial
    · exact (List.Sublist.append_left (List.sublist_append_right ..) _).subperm
  · exact serving_doing doing waits [] (List.forall_mem_nil _) (stage _ rfl).1 (stage _ rfl).2
      (fair.node.congr rfl rfl rfl rfl rfl) (fun _ => owner) (fun x => le_rfl)
      (List.Subperm.refl _) (by rw [List.append_nil])

/-- The range that a node takes over borders on its own. -/
theorem q15_doing (borders : ∀ pdu, member.node.lastPdu = some (.netNewRange pdu) →
      pdu.rangeStart.toNat ≤ member.node.hashRange.2.toNat + 1 ∧
        member.node.hashRange.1.toNat ≤ pdu.rangeEnd.toNat + 1)
    (ends : member.node.q15 = .ok next) :
    net.Doing i first { member with node := next } [] := by
  obtain ⟨fair, -⟩ := doing.fair
  have le := UInt8.le_iff_toNat_le.mp (fair.range owner)
  unfold Node.q15 at ends
  split at ends
  · rename_i pdu parked
    have borders := borders pdu parked
    have proper : pdu.rangeStart ≤ pdu.rangeEnd := by
      refine (fair.node.mail (.netNewRange pdu) (List.mem_append_left _ ?_)).2
      rw [parked]
      exact List.mem_singleton_self _
    have le' := UInt8.le_iff_toNat_le.mp proper
    have takes {socket : TcpStream} {range : UInt8 × UInt8}
        (mine : socket.fd ∈ member.lanes.map Prod.fst) (ordered : range.1.toNat ≤ range.2.toNat)
        (inside : ∀ x, covers range.1 range.2 x = true →
          covers member.node.hashRange.1 member.node.hashRange.2 x = true ∨
            covers pdu.rangeStart pdu.rangeEnd x = true)
        (same : next = { member.node with
          state := .q6
          lastPdu := none
          hashRange := range
          effects := member.node.effects ++
            [.tcp socket.fd (.netNewRangeResponse NetNewRangeResponsePdu.new)] }) :
        net.Doing i first { member with node := next } [] := by
      rw [same]
      refine doing.write _ rfl ?_ rfl rfl (List.Subperm.refl _) ⟨{ fair.node with
        mail := fair.node.unpark }, fun _ => UInt8.le_iff_toNat_le.mpr ordered, trivial⟩
        (fun _ => rfl) (List.forall_mem_nil _) fun x => ?_
      · rintro _ (_ | ⟨_, ⟨⟩⟩)
        exact ⟨⟨⟨rfl, trivial⟩, trivial⟩, rfl, mine⟩
      · have mail : member.node.mail.countP (PDU.grants x) =
            (if covers pdu.rangeStart pdu.rangeEnd x = true then 1 else 0) +
              member.node.queued.countP (PDU.grants x) := by
          rw [Node.mail_eq, parked, Option.toList_some, List.countP_append, List.countP_singleton]
          rfl
        rw [Member.load, Member.load, owner, Bool.true_and, mail]
        change (if _ then 1 else 0) + member.node.queued.countP (PDU.grants x) + 0 ≤ _
        have own := inside x
        split
        · rename_i held
          rcases own (Bool.and_eq_true_iff.mp held).2 with old | new
          · rw [if_pos old]
            omega
          · rw [if_pos new]
            omega
        · omega
    dsimp only at ends
    split at ends
    · rename_i above
      obtain ⟨socket, set, ends⟩ := bind_eq_ok ends
      have start : pdu.rangeStart.toNat = member.node.hashRange.2.toNat + 1 := by
        have below := member.node.hashRange.2.toNat_lt
        have not_last : member.node.hashRange.2.toNat ≠ 255 := fun last =>
          above.1 (UInt8.toNat_inj.mp last)
        rw [above.2, UInt8.toNat_add, UInt8.toNat_one]
        omega
      refine takes (fd_mem_of_successor (unwrap_eq_ok set)) ?_ (fun x held => ?_)
        (Except.ok.inj ends).symm
      · dsimp only
        omega
      · rw [covers_iff] at held ⊢
        rw [covers_iff]
        dsimp only at held
        omega
    · rename_i below
      obtain ⟨socket, set, ends⟩ := bind_eq_ok ends
      have start : pdu.rangeStart.toNat ≤ member.node.hashRange.2.toNat := by
        have bound := pdu.rangeStart.toNat_lt
        by_contra after
        refine below ⟨fun last => ?_, UInt8.toNat_inj.mp ?_⟩
        · rw [last] at after borders
          have small : (255 : UInt8).toNat = 255 := rfl
          omega
        · rw [UInt8.toNat_add, UInt8.toNat_one]
          omega
      refine takes (fd_mem_of_predecessor (unwrap_eq_ok set)) ?_ (fun x held => ?_)
        (Except.ok.inj ends).symm
      · exact start
      · rw [covers_iff] at held ⊢
        rw [covers_iff]
        dsimp only at held
        omega
  · cases ends

theorem q11_doing (state : member.node.state = .q11) {toSuccessor : Bool}
    (ends : member.node.q11Ask = .ok (toSuccessor, next)) :
    net.Doing i first { member with
      node := next
      waits := true } [] := by
  obtain ⟨fair, -⟩ := doing.fair
  have asks {socket : TcpStream} (mine : socket.fd ∈ member.lanes.map Prod.fst)
      (same : next = member.node.emit [.tcp socket.fd (.netNewRange
        (NetNewRangePdu.new member.node.hashRange.1 member.node.hashRange.2))]) :
      net.Doing i first { member with
        node := next
        waits := true } [] := by
    have idle : Member.owns { member with
        node := next
        waits := true } = false := by
      have still : next.state = .q11 := by rw [same, Node.emit, state]
      rw [Member.owns, still, Bool.not_true, Bool.and_false]
    have one (x fd : ℕ) : (sentTo [.tcp socket.fd (.netNewRange (NetNewRangePdu.new
        member.node.hashRange.1 member.node.hashRange.2))] fd).countP (PDU.grants x) =
          if fd = otherEnd socket.fd ∧
            covers member.node.hashRange.1 member.node.hashRange.2 x = true then 1 else 0 :=
      sentTo_grant silent_nil silent_nil x fd
    rw [same] at idle ⊢
    refine doing.stay ⟨rfl, rfl, rfl, ⟨fair.node.congr rfl rfl rfl rfl rfl, fun owned => ?_, ?_⟩,
      id, ?_, List.forall_mem_nil _, otherEnd socket.fd, fun x => ?_, fun x fd other => ?_⟩
      ⟨?_, ?_, List.Subperm.refl _⟩
    · rw [idle] at owned
      cases owned
    · rw [Member.Staged, Node.emit, state]
      trivial
    · rintro _ (_ | ⟨_, ⟨⟩⟩)
      exact ⟨⟨rfl, trivial⟩, fair.range owner⟩
    · rw [one, Member.load_of_idle idle, Member.load_of_owns owner,
        if_congr (and_iff_right rfl) rfl rfl]
      exact Nat.le_of_eq (Nat.add_comm ..)
    · rw [one, if_neg fun both => other both.1]
    · rintro _ (_ | ⟨_, ⟨⟩⟩)
      rfl
    · rintro fd pdu (_ | ⟨_, ⟨⟩⟩)
      exact mine
  unfold Node.q11Ask at ends
  split at ends
  · rename_i successor predecessor set set'
    dsimp only at ends
    split at ends
    · cases ends
      exact asks (fd_mem_of_successor set) rfl
    · cases ends
      exact asks (fd_mem_of_predecessor set') rfl
  · cases ends
  · cases ends

end

theorem q18_doing (doing : net.Doing i first member []) (state : member.node.state = .q18)
    (ends : member.node.q18 = .ok next) : net.Doing i first { member with node := next } [] := by
  obtain ⟨fair, -⟩ := doing.fair
  obtain ⟨moved, transferred, ends⟩ := bind_eq_ok ends
  obtain ⟨socket, goes, rfl⟩ := Node.transfer_eq_ok transferred
  have mine : socket.fd ∈ member.lanes.map Prod.fst := by
    unfold Node.transferTo at goes
    split at goes
    · exact fd_mem_of_successor goes
    · exact fd_mem_of_predecessor goes
  rcases Option.eq_none_or_eq_some member.node.successor with unset | ⟨successor, set⟩
  · simp only [unset] at ends
    cases ends
  rcases Option.eq_none_or_eq_some member.node.successorListen with unset | ⟨toConnect, listen⟩
  · simp only [set, Node.emit, unset] at ends
    cases ends
  rcases Option.eq_none_or_eq_some member.node.predecessor with unset | ⟨predecessor, set'⟩
  · simp only [set, Node.emit, listen, unset] at ends
    cases ends
  simp only [set, Node.emit, listen, set', pure_bind] at ends
  cases ends
  refine serving_doing doing member.waits (member.node.inserts socket.fd member.node.hashRange.1
    member.node.hashRange.2 ++ ([.tcp successor.fd (.netCloseConnection NetCloseConnectionPdu.new),
      .shutdown successor.fd] ++ [.tcp predecessor.fd (.netLeaving
        (NetLeavingPdu.new toConnect.address toConnect.port)), .shutdown predecessor.fd]))
    ?_ ?_ ?_ { fair.node with
      mail := fair.node.mail
      values := fun entry mem => fair.node.values entry (List.mem_of_mem_filter mem) }
    (fun owned => ?_) (fun x => le_rfl) ?_ ?_
  · intro effect mem
    rcases List.mem_append.mp mem with insert | farewell
    · obtain ⟨pdu, rfl, sent, quiet⟩ := Node.inserts_sent fair.node.values effect insert
      exact ⟨sent, quiet, mine⟩
    · rcases farewell with _ | ⟨_, _ | ⟨_, _ | ⟨_, _ | ⟨_, ⟨⟩⟩⟩⟩⟩
      · exact ⟨⟨⟨rfl, trivial⟩, trivial⟩, rfl, fd_mem_of_successor set⟩
      · trivial
      · exact ⟨⟨⟨rfl, trivial⟩, trivial⟩, rfl, fd_mem_of_predecessor set'⟩
      · trivial
  · rw [Member.inRing]
    simp only [state]
    rfl
  · rw [Member.Staged]
    simp only [state]
  · cases owned
  · simp only [Member.lanes, Member.successorLane, Member.predecessorLane, set, set']
    exact List.Subperm.refl _
  · simp only [listen, List.append_assoc]

/-! ## Waiting -/

/-- A connection is accepted; nothing of an old one is left in the wrapper. -/
theorem accept_doing {env : Env} {state : State} {next : Member}
    (doing : net.Doing i first member [])
    (goes : (member.node.state = .q5 ∨ member.node.state = .q17) ∧ state = .q6 ∨
      member.node.state = .q7 ∧ state = .q8)
    (accepts : env.accept member.node.opened = member.backlog.head?)
    (clear : member.node.predecessorWrapper.buffer = [])
    (accepted : member.accept env state = .ok (some next)) : net.Doing i first next [] := by
  obtain ⟨fair, -⟩ := doing.fair
  unfold Member.accept at accepted
  split at accepted
  · cases accepted
  · rename_i socket backlog queue
    obtain ⟨node, opens, accepted⟩ := bind_eq_ok accepted
    rw [Node.acceptPredecessor, accepts, queue, List.head?_cons] at opens
    cases opens
    cases accepted
    have owns : Member.owns { member with
        node := { member.node with state := state }
        waits := false } = true → member.owns = true := by
      intro owned
      obtain ⟨running, holds⟩ := Bool.and_eq_true_iff.mp owned
      rw [Member.owns, Bool.and_eq_true_iff]
      refine ⟨running, ?_⟩
      rcases goes with ⟨before | before, rfl⟩ | ⟨before, rfl⟩
      · rw [before]
      · rw [before]
      · cases holds
    refine doing.write ([.accept socket.fd] ++ Node.dropped member.node.predecessor) ?_ ?_ rfl rfl
      ?_ ⟨fair.node.congr rfl rfl rfl rfl rfl, fun owned => fair.range (owns owned), ?_⟩
      (fun ring => ?_) (List.forall_mem_nil _) (Member.load_le_of_mail owns rfl rfl)
    · exact List.append_assoc ..
    · intro effect mem
      rcases List.mem_append.mp mem with accepts | drops
      · rw [List.mem_singleton.mp accepts]
        trivial
      · obtain ⟨old, -, rfl⟩ := Option.map_eq_some_iff.mp (Option.mem_toList.mp drops)
        trivial
    · have before : member.lanes = member.successorLane ++ (member.predecessorLane ++
          TcpStream.lane [] socket :: backlog.map (TcpStream.lane [])) := by
        rw [Member.lanes, queue, List.map_cons]
      rw [before]
      change (member.successorLane ++ (TcpStream.lane member.node.predecessorWrapper.buffer
        socket :: backlog.map (TcpStream.lane []))).Subperm _
      rw [clear]
      exact (List.Sublist.append_left (List.sublist_append_right ..) _).subperm
    · rw [Member.Staged]
      rcases goes with ⟨-, rfl⟩ | ⟨-, rfl⟩ <;> trivial
    · rw [Member.inRing] at ring ⊢
      rcases goes with ⟨-, rfl⟩ | ⟨before, rfl⟩
      · rfl
      · rw [before] at ring
        cases ring

theorem await_eq_ok {poll : Except String (Option Message × Node)}
    {received : Node → PDU → Except String Node} {next : Member}
    (awaited : member.await poll received = .ok (some next)) :
    ∃ message node, poll = .ok (message, node) ∧
      (message = none ∧ next = { member with node := node } ∨
        ∃ found last, message = some found ∧ received node found.1 = .ok last ∧
          next = { member with
            node := last
            waits := false }) := by
  obtain ⟨⟨message, node⟩, polled, awaited⟩ := bind_eq_ok awaited
  refine ⟨message, node, polled, ?_⟩
  cases message with
  | none =>
      cases awaited
      exact Or.inl ⟨rfl, rfl⟩
  | some found =>
      obtain ⟨last, receives, awaited⟩ := bind_eq_ok awaited
      cases awaited
      exact Or.inr ⟨found, last, rfl, receives, rfl⟩

theorem pollPduUdp_doing {message : Option Message}
    (doing : net.Doing i member { member with node := node } [])
    (polled : node.pollPduUdp = .ok (message, last)) :
    net.Doing i member { member with node := last } (message.toList.map Prod.fst) ∧
      last = { node with
        udpSocket := last.udpSocket
        udpWrapper := last.udpWrapper } := by
  obtain ⟨wrapper, answer, polled⟩ := bind_eq_ok polled
  obtain ⟨queue, buffer⟩ := wrapper
  cases queue with
  | nil =>
      cases polled
      exact ⟨(Node.readUdp_doing doing answer (List.append_nil _).symm).1, rfl⟩
  | cons found queue =>
      cases polled
      exact ⟨(Node.readUdp_doing doing answer (List.singleton_append).symm).1, rfl⟩

theorem pollPdu_doing {message : Option Message} {side : Bool}
    (doing : net.Doing i member { member with node := node } [])
    (polled : node.pollPdu side = .ok (message, last)) :
    net.Doing i member { member with node := last } (message.toList.map Prod.fst) ∧
      last = { node with
        successor := last.successor
        successorWrapper := last.successorWrapper
        predecessor := last.predecessor
        predecessorWrapper := last.predecessorWrapper } ∧
      (side = false → last.successorWrapper = node.successorWrapper) := by
  unfold Node.pollPdu at polled
  split at polled
  · rename_i successor
    obtain ⟨socket, set, polled⟩ := bind_eq_ok polled
    obtain ⟨⟨closed, wrapper, socket'⟩, answer, polled⟩ := bind_eq_ok polled
    have set := unwrap_eq_ok set
    obtain ⟨queue, buffer⟩ := wrapper
    cases queue with
    | nil =>
        cases polled
        have read := Node.readSuccessor_doing doing set answer (List.append_nil _).symm
        exact ⟨read, rfl, fun other => nomatch successor.symm.trans other⟩
    | cons found queue =>
        cases polled
        have read := Node.readSuccessor_doing doing set answer (List.singleton_append).symm
        exact ⟨read, rfl, fun other => nomatch successor.symm.trans other⟩
  · obtain ⟨socket, set, polled⟩ := bind_eq_ok polled
    obtain ⟨⟨closed, wrapper, socket'⟩, answer, polled⟩ := bind_eq_ok polled
    have set := unwrap_eq_ok set
    obtain ⟨queue, buffer⟩ := wrapper
    cases queue with
    | nil =>
        cases polled
        have read := Node.readPredecessor_doing doing set answer (List.append_nil _).symm
        exact ⟨read, rfl, fun _ => rfl⟩
    | cons found queue =>
        cases polled
        have read := Node.readPredecessor_doing doing set answer (List.singleton_append).symm
        exact ⟨read, rfl, fun _ => rfl⟩

section

variable {next : Member} (doing : net.Doing i member member [])

include doing

theorem q2Received_doing (state : member.node.state = .q2)
    (awaited : member.await member.node.pollPduUdp Node.q2Received = .ok (some next)) :
    net.Doing i member next [] := by
  obtain ⟨message, node, polled, ⟨rfl, rfl⟩ | ⟨⟨pdu, sender⟩, last, rfl, receives, rfl⟩⟩ :=
    await_eq_ok awaited
  · exact (pollPduUdp_doing doing polled).1
  · obtain ⟨doing, kept⟩ := pollPduUdp_doing doing polled
    obtain ⟨fair, -⟩ := doing.fair
    cases pdu with
    | stunResponse pdu =>
        cases receives
        refine joining_doing doing false [] (List.forall_mem_nil _) (Or.inr (Or.inl rfl)) ?_
          (fair.node.congr rfl rfl rfl rfl rfl) (fun x => Nat.le_add_right ..) ?_
        · rw [kept, Member.inRing, state]
          rfl
        · rw [List.append_nil]
    | _ => cases receives

theorem q3Received_doing (state : member.node.state = .q3)
    (awaited : member.await member.node.pollPduUdp Node.q3Received = .ok (some next)) :
    net.Doing i member next [] := by
  obtain ⟨message, node, polled, ⟨rfl, rfl⟩ | ⟨⟨pdu, sender⟩, last, rfl, receives, rfl⟩⟩ :=
    await_eq_ok awaited
  · exact (pollPduUdp_doing doing polled).1
  · obtain ⟨doing, kept⟩ := pollPduUdp_doing doing polled
    obtain ⟨fair, fine⟩ := doing.fair
    have fine := fine pdu (List.mem_singleton_self _)
    cases pdu with
    | netGetNodeResponse pdu =>
        rw [Node.q3Received] at receives
        split at receives
        · rename_i unnamed
          exact absurd unnamed.2 fine.2
        · cases receives
          have mail : ∀ parked ∈ Node.mail { node with
              lastPdu := some (.netGetNodeResponse pdu)
              state := .q7 }, parked.Fine := by
            intro parked mem
            rcases List.mem_cons.mp mem with rfl | queued
            · exact fine
            · exact fair.node.unpark parked queued
          refine joining_doing doing false [] (List.forall_mem_nil _) (by tauto) ?_
            { fair.node with mail := mail } (fun x => ?_) ?_
          · rw [kept, Member.inRing, state]
            rfl
          · have queued := node.queued_le x
            have quiet : PDU.grants x (.netGetNodeResponse pdu) = false := rfl
            rw [Node.mail_eq, Option.toList_some, List.countP_append, List.countP_singleton, quiet,
              if_neg Bool.false_ne_true, Nat.zero_add]
            exact queued.trans (Nat.le_add_right ..)
          · rw [List.append_nil]
    | _ => cases receives

theorem q11Received_doing {side : Bool}
    (awaited : member.await (member.node.pollPdu side) Node.q11Received = .ok (some next)) :
    net.Doing i member next [] := by
  obtain ⟨message, node, polled, ⟨rfl, rfl⟩ | ⟨⟨pdu, sender⟩, last, rfl, receives, rfl⟩⟩ :=
    await_eq_ok awaited
  · exact (pollPdu_doing doing polled).1
  · obtain ⟨doing, -⟩ := pollPdu_doing doing polled
    obtain ⟨fair, -⟩ := doing.fair
    cases pdu with
    | netNewRangeResponse pdu =>
        cases receives
        refine serving_doing doing false [] (List.forall_mem_nil _) rfl trivial
          (fair.node.congr rfl rfl rfl rfl rfl) (fun owned => ?_) (fun x => Nat.le_add_right ..)
          (List.Subperm.refl _) ?_
        · rw [Member.owns, Bool.and_false] at owned
          cases owned
        · rw [List.append_nil]
    | _ => cases receives

end

end

end

end DhtRing.TestNode

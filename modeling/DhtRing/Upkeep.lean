import DhtRing.Flow

/-!
# The steps of a change are orderly

The steps of a join and of a leave, with the entries that they transfer.
-/

set_option autoImplicit false

namespace DhtRing

variable {net net' : Net} {plan plan' : Plan} {stage stage' : Change}

/-! ## Entries -/

section

variable {selfData : SelfData} {keys : List Ssn} {ssn : Ssn}

theorem listed_keys (mirrored : Mirrored selfData keys) {some_keys : List Ssn}
    (sub : ∀ key ∈ some_keys, key ∈ keys) :
    (selfData.listed some_keys).map Prod.fst = some_keys := by
  induction some_keys with
  | nil => rfl
  | cons key rest ih =>
      obtain ⟨pair, stored⟩ := Option.isSome_iff_exists.mp
        ((mirrored.get_isSome key).mpr (sub key List.mem_cons_self))
      have later := ih fun other mem => sub other (List.mem_cons_of_mem _ mem)
      simp only [SelfData.listed] at later ⊢
      simp [stored, later]

theorem mem_listed_get {entry : Ssn × ValuePair} {some_keys : List Ssn}
    (mem : entry ∈ selfData.listed some_keys) :
    entry.1 ∈ some_keys ∧ selfData.get entry.1 = some entry.2 := by
  obtain ⟨key, listed, eq⟩ := List.mem_filterMap.mp mem
  obtain ⟨pair, stored, rfl⟩ := Option.map_eq_some_iff.mp eq
  exact ⟨listed, stored⟩

theorem Mirrored.keys_nodup (mirrored : Mirrored selfData keys) : keys.Nodup := by
  obtain ⟨ht, -, mirrors⟩ := mirrored
  exact mirrors.nodup

theorem Mirrored.get_eq_none (mirrored : Mirrored selfData keys) (absent : ssn ∉ keys) :
    selfData.get ssn = none := by
  rw [← mirrored.get_isSome, Bool.not_eq_true, Option.isSome_eq_false_iff] at absent
  exact Option.isNone_iff_eq_none.mp absent

end

theorem performAll_shut {req : Option ℕ} {effects : List Effect}
    (kept : ∀ fd, .close fd ∉ effects) : (net.performAll req effects).shut = net.shut := by
  refine performAll_induct (P := fun other => other.shut = net.shut) rfl effects ?_
  intro other effect mem same
  cases effect with
  | tcp fd pdu =>
      simp only [Net.perform]
      split <;> exact same
  | close fd => exact absurd mem (kept fd)
  | _ => exact same

/-! ## Transferred entries -/

theorem insertAll_replies (fd : Loc) (entries : List (Ssn × ValuePair)) (tag : Option ℕ) :
    (insertAll fd entries).filterMap (Effect.reply tag) = [] := by
  rw [List.filterMap_eq_nil_iff]
  intro effect mem
  obtain ⟨entry, -, rfl⟩ := List.mem_map.mp mem
  rfl

section

variable {n : Addr} {fd : Loc} {entries : List (Ssn × ValuePair)}

theorem requests_transferred {loc : Loc} {msg : Msg}
    (requests : net'.requests =
      Function.update net.requests fd (net.requests fd ++ entries.map transfer))
    (mem : msg ∈ net'.requests loc) :
    msg ∈ net.requests loc ∨ loc = fd ∧ ∃ entry ∈ entries, msg = transfer entry := by
  rw [requests] at mem
  by_cases here : loc = fd
  · subst here
    rw [Function.update_self, List.mem_append] at mem
    rcases mem with old | new
    · exact Or.inl old
    · obtain ⟨entry, listed, eq⟩ := List.mem_map.mp new
      exact Or.inr ⟨rfl, entry, listed, eq.symm⟩
  · rw [Function.update_of_ne here] at mem
    exact Or.inl mem

/-- Entries are sent to the node that owns them now. -/
theorem Orderly.transferred (orderly : Orderly net plan stage) (there : net'.InStage plan' stage')
    (requests : net'.requests =
      Function.update net.requests fd (net.requests fd ++ entries.map transfer))
    (tidy : ∀ n, (net'.node n).pc.inRing = true → Tidy (net'.node n).selfData)
    (ordered : stage'.Ordered net'.queue)
    (served : ∀ loc, ∀ msg ∈ net.requests loc, net.topology.Served loc → net'.topology.Served loc)
    (reads : net'.topology.Served fd) (late : stage'.early = false)
    (owned : plan' = plan ∨ stage.early = true)
    (owner : ∀ entry ∈ entries, plan'.own (hashSsn entry.1).toNat = fd.reader)
    (bequest : stage'.Bequest net'.topology plan') : Orderly net' plan' stage' where
  inStage := there
  tidy := tidy
  ordered := ordered
  served loc msg mem := by
    rcases requests_transferred requests mem with old | ⟨rfl, -⟩
    · exact served loc msg old (orderly.served loc msg old)
    · exact reads
  late early := by
    rw [late] at early
    cases early
  owned loc msg ssn mem untagged key := by
    rcases requests_transferred requests mem with old | ⟨rfl, entry, listed, rfl⟩
    · rcases owned with rfl | early
      · exact orderly.owned loc msg ssn old untagged key
      · exact absurd untagged (orderly.late early loc msg old)
    · cases key
      exact owner entry listed
  downs c msg mem := by
    rcases requests_transferred requests mem with old | ⟨-, entry, -, rfl⟩
    · exact orderly.downs c msg old
    · rfl
  bequest := bequest

theorem Net.Flow.transferred {keys moved : List Ssn} {proc : Proc}
    (mirrored : Mirrored (net.node n).selfData keys) (sub : moved.Sublist keys)
    (inRing : (net.node n).pc.inRing = true) (node : net'.node = Function.update net.node n proc)
    (requests : net'.requests = Function.update net.requests fd
      (net.requests fd ++ ((net.node n).selfData.listed moved).map transfer))
    (applied : net'.applied = net.applied) (replies : net'.replies = net.replies)
    (left : ∀ key, (if proc.pc.inRing then proc.selfData.get key else none) =
      if key ∈ moved then none else (net.node n).selfData.get key) : net.Flow net' := by
  have listed := listed_keys mirrored fun key mem => sub.subset mem
  refine .spread n fd _ requests applied replies ?_ ?_ ?_ ?_
  · rw [listed]
    exact mirrored.keys_nodup.sublist sub
  · intro entry mem
    rw [Net.stored, if_pos inRing]
    exact (mem_listed_get mem).2
  · intro key
    rw [listed, Net.stored, Net.stored, node, Function.update_self, if_pos inRing]
    exact left key
  · intro m other
    funext key
    rw [Net.stored, Net.stored, node, Function.update_of_ne other]

end

/-! ## Splitting -/

section

variable {j a : Addr} {loc : Loc} {maxSpan : UInt8} {max : Addr} {msg : Msg} {rest : List Msg}
  {outcome : Outcome} {keys : List Ssn} {pre : List Effect} {oldSucc : Addr}

theorem Orderly.fresh_queue (orderly : Orderly net plan (.joining j a loc maxSpan max)) {c : Conn}
    (target : c.target = j) : net.queue (.up c) = [] := by
  have joining : Joining net.topology net.control plan j a loc maxSpan max := orderly.inStage
  have requests : net.requests (.up c) = [] := by
    rw [List.eq_nil_iff_forall_not_mem]
    intro msg mem
    obtain ⟨-, reads⟩ := orderly.served _ msg mem
    rw [target] at reads
    rcases reads with fds | waits
    · rw [joining.noIn.fds] at fds
      cases fds
    · rw [joining.backlog] at waits
      cases waits
  have control : net.control (.up c) = [] := by
    rw [joining.posts, post_cons]
    refine if_neg fun eq => ?_
    have reader := joining.reader_eq
    rw [eq] at reader
    exact joining.fresh ((target.symm.trans reader) ▸ joining.reader)
  rw [List.eq_nil_iff_forall_not_mem]
  intro msg mem
  cases key : msg.pdu.requestKey with
  | some ssn =>
      have there : msg ∈ net.requests (.up c) := mem_requests.mpr ⟨mem, by rw [key]; rfl⟩
      rw [requests] at there
      cases there
  | none =>
      have there : msg.pdu ∈ net.control (.up c) :=
        List.mem_filterMap.mpr ⟨msg, mem, by simp [key]⟩
      rw [control] at there
      cases there

theorem Orderly.split_queue (orderly : Orderly net plan (.joining j a loc maxSpan max))
    (queue : net.queue loc = msg :: rest) (plain : msg.pdu.requestKey = none)
    (splits : Splits net.env (net.node a).selfData keys j oldSucc pre outcome)
    (before : pre = [] ∨ ∃ c, pre = [.tcp (.up c) .netCloseConnection] ∧ c.target ≠ j) (pc : Pc) :
    let conn := net.env.conn (net.node a).selfData j
    let entries := (net.node a).selfData.listed
      (keys.filter fun key => !checkRange ((net.node a).selfData.halved net.env j) key)
    let net' := (((net.note a msg).setQueue loc rest).commit a pc msg.tag outcome)
    net'.requests = Function.update net.requests (.up conn) (entries.map transfer) ∧
      (∃ msg rest, net'.queue (.up conn) = msg :: rest ∧ msg.pdu.requestKey = none) ∧
      ∀ c, pre = [.tcp (.up c) .netCloseConnection] → net.shut (.up c) = false →
        ∃ before msg, net'.queue (.up c) = before ++ [msg] ∧ msg.pdu.requestKey = none := by
  intro conn entries net'
  have joining : Joining net.topology net.control plan j a loc maxSpan max := orderly.inStage
  have note : net.note a msg = net := by
    rw [Net.note, plain]
  have tag : msg.tag = none := by
    rw [Msg.tag, plain]
  have fresh := orderly.fresh_queue (show conn.target = j from rfl)
  have serial : conn.serial = net.serial := rfl
  have is_open : net.shut (.up conn) = false := (joining.ring.fresh conn (Nat.le_of_eq serial.symm)).1
  -- the calls before the entries send no request and close nothing
  let first := pre ++ [.connect conn, .tcp (.up conn) ((net.node a).selfData.grants oldSucc)]
  have effects : outcome.effects = first ++ insertAll (.up conn) entries := by
    rw [splits.effects]
    simp only [first, List.append_assoc, List.cons_append, List.nil_append]
    rfl
  have before : ∀ effect ∈ pre, ∃ c, effect = .tcp (.up c) .netCloseConnection ∧ c.target ≠ j := by
    intro effect mem
    rcases before with rfl | ⟨c, rfl, other⟩
    · cases mem
    · exact ⟨c, List.mem_singleton.mp mem, other⟩
  have sends : ∀ fd pdu, .tcp fd pdu ∈ first → pdu.requestKey = none := by
    intro fd pdu mem
    rcases List.mem_append.mp mem with old | new
    · obtain ⟨c, eq, -⟩ := before _ old
      cases eq
      rfl
    · simp only [List.mem_cons, reduceCtorEq, Effect.tcp.injEq, List.not_mem_nil, or_false,
        false_or] at new
      rw [new.2]
      rfl
  have no_close : ∀ fd, Effect.close fd ∉ first := by
    intro fd mem
    rcases List.mem_append.mp mem with old | new
    · obtain ⟨c, eq, -⟩ := before _ old
      cases eq
    · simp at new
  have no_close' : ∀ fd, Effect.close fd ∉ outcome.effects := by
    intro fd mem
    rw [effects] at mem
    rcases List.mem_append.mp mem with old | new
    · exact no_close fd old
    · obtain ⟨entry, -, eq⟩ := List.mem_map.mp new
      cases eq
  have apart : ∀ c, .tcp (.up c) .netCloseConnection ∈ pre → Loc.up conn ≠ .up c := by
    intro c mem eq
    obtain ⟨c', eq', other⟩ := before _ mem
    cases eq'
    cases eq
    exact other rfl
  have waits : ∀ fd, net.shut fd = false → net'.queue fd = Function.update net.queue loc rest fd ++
      (outcome.effects.filterMap (Effect.sentTo fd)).map fun pdu => ⟨pdu, none⟩ := by
    intro fd opened
    change ((((net.note a msg).setQueue loc rest).performAll msg.tag outcome.effects)).queue fd = _
    rw [note, tag, performAll_queue (show (net.setQueue loc rest).shut fd = false from opened) _
      (no_close' fd)]
    rfl
  have elsewhere : Loc.up conn ≠ loc := by
    rintro rfl
    rw [queue] at fresh
    cases fresh
  refine ⟨?_, ?_, ?_⟩
  · change ((((net.note a msg).setQueue loc rest).performAll msg.tag outcome.effects)).requests = _
    have none_yet : net.requests (.up conn) = [] := by
      rw [Net.requests, fresh]
      rfl
    rw [note, tag, effects, performAll_append, performAll_insertAll,
      performAll_requests_plain sends, requests_of_plain queue plain, none_yet, List.nil_append]
    rw [performAll_shut no_close]
    exact is_open
  · rw [waits _ is_open, Function.update_of_ne elsewhere, fresh, splits.effects, List.filterMap_append]
    have nothing : pre.filterMap (Effect.sentTo (.up conn)) = [] := by
      rw [List.filterMap_eq_nil_iff]
      intro effect mem
      obtain ⟨c, rfl, other⟩ := before effect mem
      exact if_neg fun eq => apart c mem eq.symm
    rw [nothing]
    have head : (Effect.connect conn :: .tcp (.up conn) ((net.node a).selfData.grants oldSucc) ::
        insertAll (.up conn) entries).filterMap (Effect.sentTo (.up conn)) =
        (net.node a).selfData.grants oldSucc ::
          (insertAll (.up conn) entries).filterMap (Effect.sentTo (.up conn)) := by
      rw [List.filterMap_cons_none rfl, List.filterMap_cons_some (Effect.sentTo_self ..)]
    exact ⟨⟨(net.node a).selfData.grants oldSucc, none⟩, _,
      congrArg (List.map fun pdu => (⟨pdu, none⟩ : Msg)) head, rfl⟩
  · rintro c rfl opened
    have mem : Effect.tcp (.up c) .netCloseConnection ∈
        [Effect.tcp (.up c) .netCloseConnection] := List.mem_cons_self
    rw [waits _ opened, splits.effects, List.filterMap_append, List.map_append, ← List.append_assoc]
    have nothing : (Effect.connect conn :: .tcp (.up conn) ((net.node a).selfData.grants oldSucc) ::
        insertAll (.up conn) entries).filterMap (Effect.sentTo (.up c)) = [] := by
      rw [List.filterMap_eq_nil_iff]
      intro effect later
      rcases List.mem_cons.mp later with rfl | later
      · rfl
      · rcases List.mem_cons.mp later with rfl | later
        · exact if_neg (apart c mem)
        · obtain ⟨entry, -, rfl⟩ := List.mem_map.mp later
          exact if_neg (apart c mem)
    rw [nothing, List.map_nil, List.append_nil]
    refine ⟨Function.update net.queue loc rest (.up c), ⟨.netCloseConnection, none⟩, ?_, rfl⟩
    rw [List.filterMap_cons_some (Effect.sentTo_self ..)]
    rfl

/-- The keys outside the lower half of a full range are those of the new node. -/
theorem Orderly.split_owner (orderly : Orderly net plan (.joining j a loc maxSpan max))
    (mirrored : Mirrored (net.node a).selfData keys) (wide : plan.lo a < plan.hi a) :
    let data := (net.node a).selfData
    ∀ entry ∈ data.listed (keys.filter fun key => !checkRange (data.halved net.env j) key),
      (plan.split a (middlePoint data.rangeStart data.rangeEnd).toNat j).own
        (hashSsn entry.1).toNat = j := by
  intro data entry mem
  have joining : Joining net.topology net.control plan j a loc maxSpan max := orderly.inStage
  have q6 : (net.node a).pc = .q6 := joining.idle a joining.reader
  obtain ⟨from_lo, below, -, ends⟩ := joining.middle wide
  obtain ⟨start, -⟩ := joining.ring.node_range joining.reader (by rw [q6]; rfl)
  obtain ⟨keys', mirrored', -, inside⟩ := orderly.tidy a (by rw [q6]; rfl)
  obtain ⟨stored, out⟩ := List.mem_filter.mp (mem_listed_get mem).1
  have above : checkRange data entry.1 = true := by
    apply inside
    rw [← mirrored'.get_isSome]
    exact (mirrored.get_isSome entry.1).mpr stored
  rw [checkRange_eq_true] at above
  have not_below : ¬ (data.rangeStart.toNat ≤ (hashSsn entry.1).toNat ∧
      (hashSsn entry.1).toNat ≤ (middlePoint data.rangeStart data.rangeEnd).toNat) := by
    intro kept
    rw [(checkRange_eq_true (data.halved net.env j) entry.1).mpr kept] at out
    cases out
  refine if_pos ⟨?_, ?_⟩
  · omega
  · rw [← ends]
    exact above.2

theorem Splits.replies {env : Env} {selfData : SelfData}
    (splits : Splits env selfData keys j oldSucc pre outcome)
    (before : pre = [] ∨ ∃ c, pre = [.tcp (.up c) .netCloseConnection]) (tag : Option ℕ) :
    outcome.effects.filterMap (Effect.reply tag) = [] := by
  have none_before : pre.filterMap (Effect.reply tag) = [] := by
    rcases before with rfl | ⟨c, rfl⟩
    · rfl
    · rfl
  rw [splits.effects, List.filterMap_append, none_before, List.nil_append,
    List.filterMap_cons_none rfl, List.filterMap_cons_none rfl]
  exact insertAll_replies ..

/-- The node that splits keeps the lower half, and the entries outside it go to the new
node. -/
theorem Orderly.after_split (orderly : Orderly net plan (.joining j a loc maxSpan max))
    (queue : net.queue loc = msg :: rest) (plain : msg.pdu.requestKey = none)
    (mirrored : Mirrored (net.node a).selfData keys) (room : keys.length ≤ maxSize)
    (splits : Splits net.env (net.node a).selfData keys j oldSucc pre outcome) {lower : Lower}
    (before : (pre = [] ∧ lower = .waiting) ∨ ∃ c, net.topology.Out a c (plan.next a) ∧
      pre = [.tcp (.up c) .netCloseConnection] ∧ lower = .closing c)
    (ctl : outcome.ctl = .run ∨ outcome.ctl = .accept)
    (wide : plan.lo a < plan.hi a)
    (there :
      let data := (net.node a).selfData
      let mid := middlePoint data.rangeStart data.rangeEnd
      (((net.note a msg).setQueue loc rest).commit a .q6 msg.tag outcome).InStage
        (plan.split a mid.toNat j) (.repair j (plan.next a)
          (.accepting a ⟨a, j, net.topology.serial⟩ (mid + 1) data.rangeEnd) lower)) :
    let data := (net.node a).selfData
    let mid := middlePoint data.rangeStart data.rangeEnd
    Orderly (((net.note a msg).setQueue loc rest).commit a .q6 msg.tag outcome)
      (plan.split a mid.toNat j) (.repair j (plan.next a)
        (.accepting a ⟨a, j, net.topology.serial⟩ (mid + 1) data.rangeEnd) lower) ∧
      net.Flow (((net.note a msg).setQueue loc rest).commit a .q6 msg.tag outcome) := by
  intro data mid
  have joining : Joining net.topology net.control plan j a loc maxSpan max := orderly.inStage
  have ring := joining.ring
  have q6 : (net.node a).pc = .q6 := joining.idle a joining.reader
  have listening : (net.node a).selfData.listening = a := ring.listening a
  have fresh_j : ∀ c m, net.topology.Out a c m → m = plan.next a → c.target ≠ j := by
    rintro c m out rfl eq
    exact joining.fresh ((out.target.symm.trans eq) ▸ Plan.member_next ring.tiled joining.reader)
  have conn : net.env.conn (net.node a).selfData j = ⟨a, j, net.topology.serial⟩ := by
    rw [Env.conn, listening]
    rfl
  have pc : (Pc.q6.after outcome.ctl).inRing = true ∧ (Pc.q6.after outcome.ctl).serving = true := by
    rcases ctl with run | accept
    · rw [run]
      exact ⟨rfl, rfl⟩
    · rw [accept]
      exact ⟨rfl, rfl⟩
  obtain ⟨requests, first, last⟩ := orderly.split_queue queue plain splits (by
    rcases before with ⟨rfl, -⟩ | ⟨c, out, rfl, -⟩
    · exact Or.inl rfl
    · exact Or.inr ⟨c, rfl, fresh_j c _ out rfl⟩) .q6
  have node : (((net.note a msg).setQueue loc rest).commit a .q6 msg.tag outcome).node =
      Function.update net.node a ⟨Pc.q6.after outcome.ctl, outcome.selfData⟩ := by
    rw [commit_node, setQueue_node, note_node]
  have note : net.note a msg = net := by
    rw [Net.note, plain]
  have topology : (((net.note a msg).setQueue loc rest).commit a .q6 msg.tag outcome).topology =
      (outcome.effects.foldl Topology.perform net.topology).put a (Pc.q6.after outcome.ctl)
        outcome.selfData.wiring := by
    rw [commit_topology, setQueue_topology, note_topology]
  have applied : (((net.note a msg).setQueue loc rest).commit a .q6 msg.tag outcome).applied =
      net.applied := by
    rw [Net.commit, setNode_applied, performAll_applied, setQueue_applied, note]
  have replies : (((net.note a msg).setQueue loc rest).commit a .q6 msg.tag outcome).replies =
      net.replies := by
    have first : pre = [] ∨ ∃ c, pre = [.tcp (.up c) .netCloseConnection] := by
      rcases before with ⟨nothing, -⟩ | ⟨c, -, closes, -⟩
      · exact Or.inl nothing
      · exact Or.inr ⟨c, closes⟩
    have silent := splits.replies first msg.tag
    rw [Net.commit, setNode_replies, performAll_replies, silent, setQueue_replies, note,
      List.append_nil]
  -- nothing was on its way to the new node
  have none_yet : net.requests (.up (net.env.conn (net.node a).selfData j)) = [] := by
    rw [Net.requests, orderly.fresh_queue rfl]
    rfl
  rw [← List.nil_append (List.map ..), ← none_yet] at requests
  rw [conn] at requests first
  generalize ((net.note a msg).setQueue loc rest).commit a .q6 msg.tag outcome = net' at *
  have repair : Repair net'.topology net'.control (plan.split a mid.toNat j) j (plan.next a)
    (.accepting a ⟨a, j, net.topology.serial⟩ (mid + 1) data.rangeEnd) lower := there
  obtain ⟨-, -, -, out_j, -, -, backlog, -⟩ := repair.upper_ok
  have goodbye : lower.Ordered net'.queue := by
    rcases before with ⟨-, rfl⟩ | ⟨c, out, eq, rfl⟩
    · trivial
    · exact last c eq out.is_open
  constructor
  · refine orderly.transferred there requests (tidy_update node orderly.tidy fun _ =>
      splits.tidy room) ⟨first, goodbye⟩ ?_ ?_ rfl (Or.inr rfl) (orderly.split_owner mirrored wide)
      trivial
    · intro other found old served
      rw [topology]
      refine served.put _ pc.2 ?_ ?_
      · rintro c rfl - - -
        exact absurd (orderly.downs c found old) (orderly.late rfl _ found old)
      · rintro c rfl - fds
        have wiring : outcome.selfData.wiring = (data.halved net.env j).wiring := splits.wiring
        rw [wiring]
        exact fds
    · refine Topology.served_waiting rfl backlog ?_
      have pc_j : (net'.node j).pc = .q7Accept := repair.pc_x repair.upper_ok.1
      change (net'.node j).pc.listens = true
      rw [pc_j]
      rfl
  · refine .transferred mirrored List.filter_sublist (by rw [q6]; rfl) node requests applied
      replies fun key => ?_
    rw [if_pos pc.1, splits.get]
    by_cases out : checkRange (data.halved net.env j) key = false
    · by_cases mem : key ∈ keys
      · simp [mem, data, out]
      · simp [mem, mirrored.get_eq_none mem]
    · simp [data, out]

end

/-! ## Ranges and goodbyes -/

section

variable {env : Env} {selfData : SelfData}

theorem updateRange_widens (selfData : SelfData) (rangeStart rangeEnd : UInt8) :
    let after := (updateRange selfData rangeStart rangeEnd).selfData
    after.fdsPredecessor = selfData.fdsPredecessor ∧
      ∀ key, checkRange selfData key = true → checkRange after key = true := by
  intro after
  have widens : ∀ data : SelfData, data.rangeStart ≤ selfData.rangeStart →
      selfData.rangeEnd ≤ data.rangeEnd → ∀ key, checkRange selfData key = true →
        checkRange data key = true := by
    intro data start stop key inside
    rw [checkRange_eq_true] at inside ⊢
    rw [UInt8.le_iff_toNat_le] at start stop
    omega
  unfold after updateRange
  dsimp only
  split
  · rename_i less
    rw [sendOrExit_selfData]
    exact ⟨rfl, widens _ (UInt8.le_of_lt less) (UInt8.le_refl _)⟩
  · split
    · rename_i more
      rw [sendOrExit_selfData]
      exact ⟨rfl, widens _ (UInt8.le_refl _) (UInt8.le_of_lt more)⟩
    · rw [sendOrExit_selfData]
      exact ⟨rfl, fun _ inside => inside⟩

theorem handleNetNewRange_tidy (tidy : Tidy selfData) (rangeStart rangeEnd : UInt8) :
    Tidy (handleNetNewRange selfData rangeStart rangeEnd).selfData := by
  obtain ⟨table, ssns, -⟩ := updateRange_store selfData rangeStart rangeEnd
  exact tidy.widen table ssns (updateRange_widens selfData rangeStart rangeEnd).2

theorem handleNetNewRange_sends (selfData : SelfData) (rangeStart rangeEnd : UInt8) :
    ∀ effect ∈ (handleNetNewRange selfData rangeStart rangeEnd).effects,
      ∃ fd, effect = .tcp fd .netNewRangeResponse := by
  intro effect mem
  unfold handleNetNewRange updateRange sendOrExit at mem
  dsimp only at mem
  split at mem
  · split at mem
    · exact ⟨_, List.mem_singleton.mp mem⟩
    · cases mem
  · split at mem
    · split at mem
      · exact ⟨_, List.mem_singleton.mp mem⟩
      · cases mem
    · split at mem
      · exact ⟨_, List.mem_singleton.mp mem⟩
      · cases mem

theorem handleNetLeavingPdu_keeps (env : Env) (selfData : SelfData) (new : Addr) :
    let outcome := handleNetLeavingPdu env selfData new
    outcome.selfData.hashTable = selfData.hashTable ∧ outcome.selfData.ssns = selfData.ssns ∧
      outcome.selfData.fdsPredecessor = selfData.fdsPredecessor ∧
      (∀ key, checkRange outcome.selfData key = checkRange selfData key) ∧
      ∀ effect ∈ outcome.effects, (∃ fd, effect = .close fd) ∨ ∃ conn, effect = .connect conn := by
  intro outcome
  have closes : ∀ effect ∈ closeSuccessor selfData, ∃ fd, effect = .close fd := by
    intro effect mem
    unfold closeSuccessor at mem
    split at mem
    · exact ⟨_, List.mem_singleton.mp mem⟩
    · cases mem
  unfold outcome
  rw [handleNetLeavingPdu_eq]
  split
  · exact ⟨rfl, rfl, rfl, fun _ => rfl, fun effect mem => Or.inl (closes effect mem)⟩
  · split
    · refine ⟨rfl, rfl, rfl, fun _ => rfl, ?_⟩
      intro effect mem
      rcases List.mem_append.mp mem with old | new
      · exact Or.inl (closes effect old)
      · exact Or.inr ⟨_, List.mem_singleton.mp new⟩
    · exact ⟨rfl, rfl, rfl, fun _ => rfl, fun effect mem => Or.inl (closes effect mem)⟩

theorem handleNetCloseConnection_keeps (selfData : SelfData) :
    let outcome := handleNetCloseConnection selfData
    outcome.selfData.hashTable = selfData.hashTable ∧ outcome.selfData.ssns = selfData.ssns ∧
      outcome.selfData.fdsSuccessor = selfData.fdsSuccessor ∧
      (∀ key, checkRange outcome.selfData key = checkRange selfData key) ∧
      ∀ effect ∈ outcome.effects, ∃ fd, effect = .close fd := by
  intro outcome
  have closes : ∀ effect ∈ closePredecessor selfData, ∃ fd, effect = .close fd := by
    intro effect mem
    unfold closePredecessor at mem
    split at mem
    · exact ⟨_, List.mem_singleton.mp mem⟩
    · cases mem
  unfold outcome handleNetCloseConnection
  dsimp only
  split
  · exact ⟨rfl, rfl, rfl, fun _ => rfl, closes⟩
  · exact ⟨rfl, rfl, rfl, fun _ => rfl, closes⟩

end

theorem performAll_queue_quiet {req : Option ℕ} {effects : List Effect}
    (quiet : ∀ fd pdu, .tcp fd pdu ∉ effects) :
    (net.performAll req effects).queue = net.queue := by
  refine performAll_induct (P := fun other => other.queue = net.queue) rfl effects ?_
  intro other effect mem same
  cases effect with
  | tcp fd pdu => exact absurd mem (quiet fd pdu)
  | _ => exact same

/-- When a goodbye is read, no request waits behind it. -/
theorem requests_nil_of_last {loc : Loc} {msg : Msg} {rest : List Msg}
    (queue : net.queue loc = msg :: rest) (plain : msg.pdu.requestKey = none)
    (last : ∃ before goodbye, net.queue loc = before ++ [goodbye] ∧ goodbye.pdu.requestKey = none)
    (single : (net.control loc).length ≤ 1) : net.requests loc = [] := by
  obtain ⟨before, goodbye, there, plain'⟩ := last
  cases before with
  | nil =>
      rw [Net.requests, there, List.nil_append, List.filter_singleton, plain']
      rfl
  | cons first before =>
      rw [there] at queue
      obtain ⟨rfl, -⟩ := List.cons.inj queue
      rw [Net.control, there] at single
      simp [plain, plain'] at single

theorem commit_wiring_of_ne {req : Option ℕ} {n l : Addr} {back : Pc} {outcome : Outcome}
    (other : l ≠ n) :
    (net.commit n back req outcome).topology.wiring l = net.topology.wiring l := by
  change ((net.commit n back req outcome).node l).selfData.wiring = _
  rw [commit_node, Function.update_of_ne other]
  rfl

theorem Offered.bequeaths {l p s : Addr} {c c' : Conn}
    (offered : Offered net.topology net.control plan l p s c c') {x : ℕ}
    (from_start : (net.topology.wiring l).rangeStart.toNat ≤ x)
    (to_stop : x ≤ (net.topology.wiring l).rangeEnd.toNat) :
    (plan.handOver l (plan.heir p l)).own x =
      if (net.topology.wiring l).rangeStart = 0 then s else p := by
  have ring := offered.ring
  have mem : plan.Member l := offered.next_p ▸ Plan.member_next ring.tiled offered.between.prev
  have pc : (net.node l).pc = .awaitResponse := offered.pc
  obtain ⟨start, stop⟩ := ring.node_range mem (by rw [pc]; rfl)
  have start : (net.topology.wiring l).rangeStart.toNat = plan.lo l := start
  have stop : (net.topology.wiring l).rangeEnd.toNat = plan.hi l := stop
  have owner : plan.own x = l := by
    apply Tiling.Tiled.own_eq ring.tiled mem
    · omega
    · omega
  have zero := offered.reader_eq.2
  have heir : (plan.handOver l (plan.heir p l)).own x = plan.heir p l := by
    exact if_pos owner
  rw [heir, Plan.heir, offered.next_l]
  simp only [zero]

section

variable {x y n : Addr} {i : FdsIndex} {c : Conn} {upper : Upper} {lower : Lower} {msg : Msg}
  {rest : List Msg}

theorem Orderly.leaving_step (orderly : Orderly net plan (.repair n y (.orphan c) lower))
    (queue : net.queue (.down c) = msg :: rest) (plain : msg.pdu.requestKey = none)
    (posted : net.control = post ((.down c, .netLeaving y) :: lower.posts))
    (net_eq : net' = ((net.note n msg).setQueue (.down c) rest).commit n .q6 msg.tag
      (handleNetLeavingPdu net.env (net.node n).selfData y)) :
    (∃ plan' stage', Orderly net' plan' stage' ∧
      net.Leads plan (.repair n y (.orphan c) lower) (.deliver n i) plan' stage') ∧ net.Flow net' := by
  have repair : Repair net.topology net.control plan n y (.orphan c) lower := orderly.inStage
  have q6 : (net.node n).pc = .q6 := repair.orphan_q6
  have tidy := orderly.tidy n (by rw [q6]; rfl)
  have ctl : (handleNetLeavingPdu net.env (net.node n).selfData y).ctl = .run := by
    rw [handleNetLeavingPdu_eq]
    split
    · rfl
    · rw [if_pos repair.answers_y]
  obtain ⟨table, ssns, pred, range, quiet⟩ :=
    handleNetLeavingPdu_keeps net.env (net.node n).selfData y
  have sends : ∀ fd pdu, .tcp fd pdu ∉
      (handleNetLeavingPdu net.env (net.node n).selfData y).effects := by
    intro fd pdu mem
    rcases quiet _ mem with ⟨_, eq⟩ | ⟨_, eq⟩
    · cases eq
    · cases eq
  have silent : (handleNetLeavingPdu net.env (net.node n).selfData y).effects.filterMap
      (Effect.reply msg.tag) = [] := by
    rw [List.filterMap_eq_nil_iff]
    intro effect mem
    rcases quiet effect mem with ⟨_, rfl⟩ | ⟨_, rfl⟩
    · rfl
    · rfl
  have none_left : net.requests (.down c) = [] := by
    apply requests_nil_of_last queue plain orderly.ordered.1
    rw [posted, post_cons, if_pos rfl, post_of_not_mem]
    · rfl
    · intro entry mem
      cases lower with
      | closing c' =>
          rw [List.mem_singleton.mp mem]
          simp
      | _ => cases mem
  have waits : (((net.note n msg).setQueue (.down c) rest).commit n .q6 msg.tag
      (handleNetLeavingPdu net.env (net.node n).selfData y)).queue =
      Function.update net.queue (.down c) rest := by
    rw [Net.commit, setNode_queue, performAll_queue_quiet sends, setQueue_queue, note_queue]
  have after : ∀ upper', upper'.Ordered (Function.update net.queue (.down c) rest) →
      net'.InStage plan (.repair n y upper' lower) →
      Orderly net' plan (.repair n y upper' lower) ∧ net.Flow net' := by
    intro upper' first there
    subst net_eq
    refine orderly.after_control queue plain there ?_ silent q6 (by rw [ctl]; rfl)
      (tidy.widen table ssns fun key inside => (range key).trans inside)
      ⟨by rw [ctl]; rfl, fun key => by rw [SelfData.get, SelfData.get, table]⟩ ?_ ?_ ?_
      (fun early => by cases early) (Or.inl rfl) trivial
    · intro fd pdu mem
      exact absurd mem (sends fd pdu)
    · rw [waits]
      refine ⟨first, ?_⟩
      cases lower with
      | closing c' =>
          obtain ⟨before, goodbye, last, plain'⟩ := orderly.ordered.2
          exact ⟨before, goodbye, (Function.update_of_ne (by simp) ..).trans last, plain'⟩
      | _ => trivial
    · rintro c' ⟨found, mem⟩ source fds
      have out : net.topology.Out n c c.target := repair.upper_ok.1
      cases fds.symm.trans out.fds
      rw [none_left] at mem
      cases mem
    · intro c' _ _ fds
      exact pred.trans fds
  rcases repair.after_leaving (net_eq ▸ after_handler queue plain posted) with
    ⟨apart, there⟩ | ⟨same, there⟩
  · obtain ⟨orderly', flow⟩ := after (.connected ⟨n, y, net.topology.serial⟩) trivial there
    exact ⟨⟨plan, _, orderly', .leaving n y c lower _ i (Or.inl ⟨apart, rfl⟩)⟩, flow⟩
  · obtain ⟨orderly', flow⟩ := after .alone trivial there
    exact ⟨⟨plan, _, orderly', .leaving n y c lower _ i (Or.inr ⟨same, rfl⟩)⟩, flow⟩

theorem Orderly.close_step (orderly : Orderly net plan (.repair x n upper (.closing c)))
    (queue : net.queue (.up c) = msg :: rest) (plain : msg.pdu.requestKey = none)
    (posted : net.control = post ((.up c, .netCloseConnection) :: upper.posts n))
    (net_eq : net' = ((net.note n msg).setQueue (.up c) rest).commit n .q6 msg.tag
      (handleNetCloseConnection (net.node n).selfData)) :
    (∃ plan' stage', Orderly net' plan' stage' ∧
      net.Leads plan (.repair x n upper (.closing c)) (.deliver n i) plan' stage') ∧ net.Flow net' := by
  have repair : Repair net.topology net.control plan x n upper (.closing c) := orderly.inStage
  have q6 : (net.node n).pc = .q6 := repair.pc_y
  have tidy := orderly.tidy n (by rw [q6]; rfl)
  obtain ⟨table, ssns, succ, range, quiet⟩ :=
    handleNetCloseConnection_keeps (net.node n).selfData
  have ctl : (Pc.q6.after (handleNetCloseConnection (net.node n).selfData).ctl).serving = true ∧
      (Pc.q6.after (handleNetCloseConnection (net.node n).selfData).ctl).inRing = true := by
    unfold handleNetCloseConnection
    dsimp only
    split
    · exact ⟨rfl, rfl⟩
    · exact ⟨rfl, rfl⟩
  have sends : ∀ fd pdu, .tcp fd pdu ∉
      (handleNetCloseConnection (net.node n).selfData).effects := by
    intro fd pdu mem
    obtain ⟨_, eq⟩ := quiet _ mem
    cases eq
  have silent : (handleNetCloseConnection (net.node n).selfData).effects.filterMap
      (Effect.reply msg.tag) = [] := by
    rw [List.filterMap_eq_nil_iff]
    intro effect mem
    obtain ⟨_, rfl⟩ := quiet effect mem
    rfl
  have elsewhere : ∀ entry ∈ upper.posts n, entry.1 ≠ .up c := by
    rintro ⟨loc, pdu⟩ mem rfl
    obtain ⟨-, reader, apart, -⟩ := Upper.posts_cases repair.upper_ok mem
    exact apart c rfl (reader.symm.trans repair.lower_ok.1.target)
  have none_left : net.requests (.up c) = [] := by
    apply requests_nil_of_last queue plain orderly.ordered.2
    rw [posted, post_cons, if_pos rfl, post_of_not_mem elsewhere]
    rfl
  have waits : (((net.note n msg).setQueue (.up c) rest).commit n .q6 msg.tag
      (handleNetCloseConnection (net.node n).selfData)).queue =
      Function.update net.queue (.up c) rest := by
    rw [Net.commit, setNode_queue, performAll_queue_quiet sends, setQueue_queue, note_queue]
  have after : ∀ lower', lower'.Ordered (Function.update net.queue (.up c) rest) →
      net'.InStage plan (.repair x n upper lower') →
      Orderly net' plan (.repair x n upper lower') ∧ net.Flow net' := by
    intro lower' last there
    subst net_eq
    refine orderly.after_control queue plain there ?_ silent q6 ctl.1
      (tidy.widen table ssns fun key inside => (range key).trans inside)
      ⟨ctl.2, fun key => by rw [SelfData.get, SelfData.get, table]⟩ ?_ ?_ ?_
      (fun early => by cases early) (Or.inl rfl) trivial
    · intro fd pdu mem
      exact absurd mem (sends fd pdu)
    · rw [waits]
      refine ⟨?_, last⟩
      have at_x := orderly.ordered.1
      cases upper with
      | accepting w c' start stop =>
          obtain ⟨first, later, head, plain'⟩ := at_x
          have apart : Loc.up c' ≠ .up c := elsewhere _ (List.mem_singleton.mpr rfl)
          exact ⟨first, later, (Function.update_of_ne apart ..).trans head, plain'⟩
      | receiving c' start stop =>
          obtain ⟨first, later, head, plain'⟩ := at_x
          have apart : Loc.up c' ≠ .up c := elsewhere _ (List.mem_singleton.mpr rfl)
          exact ⟨first, later, (Function.update_of_ne apart ..).trans head, plain'⟩
      | orphan c' =>
          obtain ⟨before, goodbye, last, plain'⟩ := at_x
          exact ⟨before, goodbye, (Function.update_of_ne (by simp) ..).trans last, plain'⟩
      | _ => trivial
    · intro c' _ _ fds
      exact succ.trans fds
    · rintro c' ⟨found, mem⟩ target fds
      have inn : net.topology.In n c := repair.lower_ok.1
      cases fds.symm.trans inn.fds
      rw [none_left] at mem
      cases mem
  rcases repair.after_close (net_eq ▸ after_handler queue plain posted) with
    ⟨apart, there⟩ | ⟨same, there⟩
  · obtain ⟨orderly', flow⟩ := after .waiting trivial there
    exact ⟨⟨plan, _, orderly', .close x n c upper _ i (Or.inl ⟨apart, rfl⟩)⟩, flow⟩
  · obtain ⟨orderly', flow⟩ := after .alone trivial there
    exact ⟨⟨plan, _, orderly', .close x n c upper _ i (Or.inr ⟨same, rfl⟩)⟩, flow⟩

end

section

variable {n : Addr} {i : FdsIndex}

theorem Orderly.control_step (orderly : Orderly net plan stage)
    (careful : Careful net (.deliver n i)) (stepped : net.step (.deliver n i) = some net')
    (control : ∀ loc msg rest, (net.node n).reads n i = some loc → net.queue loc = msg :: rest →
      msg.pdu.requestKey = none) :
    (∃ plan' stage', Orderly net' plan' stage' ∧ net.Leads plan stage (.deliver n i) plan' stage') ∧
      net.Flow net' := by
  have inStage := orderly.inStage
  obtain ⟨plan', stage', there, leads⟩ :=
    inStage.deliver (orderly.unharmed careful stepped) stepped control
  obtain ⟨back, loc, msg, rest, outcome, polls, reads, queue, dispatched, rfl⟩ :=
    deliver_eq_some stepped
  have plain := control loc msg rest reads queue
  clear control
  obtain ⟨rfl, posts, handles, posted⟩ := inStage.handles polls reads queue plain
  have q6 : (net.node n).pc = .q6 := by
    rcases polls_cases polls with ⟨q6, -⟩ | ⟨j, new, -, eq⟩
    · exact q6
    · cases eq
  have tidy := orderly.tidy n (by rw [q6]; rfl)
  obtain ⟨pdu, pdu_eq⟩ : ∃ pdu, msg.pdu = pdu := ⟨_, rfl⟩
  rw [pdu_eq] at handles dispatched posted
  cases handles with
  | join j a loc maxSpan max =>
      have joining : Joining net.topology net.control plan j n loc maxSpan max := inStage
      suffices Orderly _ plan' stage' ∧ net.Flow _ from ⟨⟨plan', stage', this.1, leads⟩, this.2⟩
      cases dispatched
      cases leads with
      | forward i c several other elects =>
          rcases joining.outcome tidy with ⟨c', pdu', -, -, out, plain', run⟩ |
            ⟨keys, alone, -⟩ | ⟨c', keys, -, named, -⟩
          · rw [run] at there ⊢
            refine orderly.after_control queue plain there ?_ rfl q6 rfl tidy ⟨rfl, fun _ => rfl⟩
              trivial (fun _ _ _ fds => fds) (fun _ _ _ fds => fds) (fun _ => rfl) (Or.inl rfl) trivial
            intro fd sent mem
            cases List.mem_singleton.mp mem
            exact plain'
          · exact absurd alone several
          · exact absurd named other
      | split j a loc maxSpan max i mid lower splits below middle =>
          subst middle
          have wide := joining.wide splits
          rcases joining.outcome tidy with ⟨c', pdu', several, other, -⟩ |
            ⟨keys, alone, mirrored, room, ctl, split⟩ |
            ⟨c', keys, several, -, out, mirrored, room, ctl, split⟩
          · exact absurd splits (not_or.mpr ⟨several, other⟩)
          · refine orderly.after_split queue plain mirrored room split (Or.inl ⟨rfl, ?_⟩) (Or.inr ctl)
              wide there
            rcases below with ⟨-, waiting⟩ | ⟨several, -⟩
            · exact waiting
            · exact absurd alone several
          · refine orderly.after_split queue plain mirrored room split (Or.inr ⟨c', out, rfl, ?_⟩)
              (Or.inl ctl) wide there
            rcases below with ⟨alone, -⟩ | ⟨-, c, out', eq⟩
            · exact absurd alone several
            · cases out.fds.symm.trans out'.fds
              exact eq
  | newRange l p s c c' =>
      have offered : Offered net.topology net.control plan l p s c c' := inStage
      suffices Orderly _ plan' stage' ∧ net.Flow _ from ⟨⟨plan', stage', this.1, leads⟩, this.2⟩
      cases dispatched
      cases leads with
      | take l p s c c' i =>
          obtain ⟨table, ssns, succ⟩ := updateRange_store (net.node (plan.heir p l)).selfData
            (net.topology.wiring l).rangeStart (net.topology.wiring l).rangeEnd
          obtain ⟨pred, -⟩ := updateRange_widens (net.node (plan.heir p l)).selfData
            (net.topology.wiring l).rangeStart (net.topology.wiring l).rangeEnd
          have sends := handleNetNewRange_sends (net.node (plan.heir p l)).selfData
            (net.topology.wiring l).rangeStart (net.topology.wiring l).rangeEnd
          have taken : Taken _ _ _ l p s c c' := there
          have heir_ne : plan.heir p l ≠ l :=
            (Plan.heir_member offered.ring.tiled offered.between.prev offered.next_p
              offered.between.other).2
          have pc := taken.idle (plan.heir p l) ((Plan.member_handOver offered.ring.tiled
            offered.between.prev offered.next_p offered.between.other).mpr
              ⟨heir_ne, (Plan.heir_member offered.ring.tiled offered.between.prev offered.next_p
                offered.between.other).1⟩)
          rw [commit_topology] at pc
          have pc : Pc.q6.after _ = .q6 := (Function.update_self ..).symm.trans pc
          refine orderly.after_control queue plain there ?_ ?_ q6 (by rw [pc]; rfl)
            (handleNetNewRange_tidy tidy _ _) ⟨by rw [pc]; rfl, fun key => ?_⟩ trivial ?_ ?_
            (fun _ => rfl) (Or.inr rfl) ?_
          · intro fd sent mem
            obtain ⟨fd', eq⟩ := sends _ mem
            cases eq
            rfl
          · rw [List.filterMap_eq_nil_iff]
            intro effect mem
            obtain ⟨fd, rfl⟩ := sends effect mem
            rfl
          · rw [SelfData.get, SelfData.get, handleNetNewRange, table]
          · intro c _ _ fds
            exact succ.trans fds
          · intro c _ _ fds
            exact pred.trans fds
          · intro x
            rw [commit_wiring_of_ne (Ne.symm heir_ne), setQueue_topology, note_topology]
            exact offered.bequeaths
  | leaving x y c lower =>
      cases dispatched
      exact orderly.leaving_step queue plain posted rfl
  | close x y upper c =>
      cases dispatched
      exact orderly.close_step queue plain posted rfl

end

end DhtRing

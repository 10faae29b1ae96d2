import DhtRing.Changes

/-!
# The stages of a membership change

Which stage a change is in, that every step of the network leads from one stage to a
later one, and that a change that is not over can go on.
-/

set_option autoImplicit false

namespace DhtRing

variable {net : Net} {plan : Plan}

inductive Change where
  | idle
  | joining (j a : Addr) (loc : Loc) (maxSpan : UInt8) (max : Addr)
  | offered (l p s : Addr) (c c' : Conn)
  | taken (l p s : Addr) (c c' : Conn)
  | polling (l p s : Addr) (c c' : Conn) (i : FdsIndex)
  | repair (x y : Addr) (upper : Upper) (lower : Lower)

def Change.Holds (T : Topology) (control : Loc → List Pdu) (plan : Plan) : Change → Prop
  | .idle => Idle T control plan
  | .joining j a loc maxSpan max => Joining T control plan j a loc maxSpan max
  | .offered l p s c c' => Offered T control plan l p s c c'
  | .taken l p s c c' => Taken T control plan l p s c c'
  | .polling l p s c c' i => Polling T control plan l p s c c' i
  | .repair x y upper lower => Repair T control plan x y upper lower

def Net.InStage (net : Net) (plan : Plan) (stage : Change) : Prop :=
  stage.Holds net.topology net.control plan

theorem Change.Holds.at {T : Topology} {control : Loc → List Pdu} (stage : Change)
    (holds : stage.Holds T control plan) (topology : net.topology = T)
    (same : net.control = control) : net.InStage plan stage := by
  subst topology same
  exact holds

theorem Topology.put_self (T : Topology) {n : Addr} {pc : Pc} (same : T.pc n = pc) :
    T.put n pc (T.wiring n) = T := by
  unfold Topology.put
  rw [← same, Function.update_eq_self, Function.update_eq_self]

theorem Ring.node_range {bare guest : Addr → Prop} (ring : Ring net.topology plan bare guest)
    {n : Addr} (mem : plan.Member n) (born : (net.node n).pc.born = true) :
    (net.node n).selfData.rangeStart.toNat = plan.lo n ∧
      (net.node n).selfData.rangeEnd.toNat = plan.hi n :=
  ring.range n mem born

/-! ## Joining -/

section

variable {j a : Addr} {loc : Loc} {maxSpan : UInt8} {max : Addr}

theorem Joining.wide (joining : Joining net.topology net.control plan j a loc maxSpan max)
    (splits : plan.next a = a ∨ max = a) : plan.lo a < plan.hi a := by
  rcases splits with alone | rfl
  · obtain ⟨start, stop⟩ := (Plan.next_eq_self joining.ring.tiled joining.reader).mp alone
    omega
  · rcases joining.named with ⟨unset, -⟩ | ⟨-, wide⟩
    · exact absurd (by rw [unset]) (joining.ring.port max joining.reader)
    · exact wide

theorem Joining.middle (joining : Joining net.topology net.control plan j a loc maxSpan max)
    (wide : plan.lo a < plan.hi a) :
    let data := (net.node a).selfData
    let mid := middlePoint data.rangeStart data.rangeEnd
    plan.lo a ≤ mid.toNat ∧ mid.toNat < plan.hi a ∧ (mid + 1).toNat = mid.toNat + 1 ∧
      data.rangeEnd.toNat = plan.hi a := by
  intro data mid
  have pc : (net.node a).pc = .q6 := joining.idle a joining.reader
  have range : data.rangeStart.toNat = plan.lo a ∧ data.rangeEnd.toNat = plan.hi a :=
    joining.ring.node_range joining.reader (by rw [pc]; rfl)
  obtain ⟨start, stop⟩ := range
  have lt : data.rangeStart < data.rangeEnd := by
    rw [UInt8.lt_iff_toNat_lt]
    omega
  have middle := toNat_middlePoint (UInt8.le_of_lt lt)
  refine ⟨?_, ?_, toNat_middlePoint_succ lt, stop⟩
  · change plan.lo a ≤ (middlePoint data.rangeStart data.rangeEnd).toNat
    omega
  · change (middlePoint data.rangeStart data.rangeEnd).toNat < plan.hi a
    omega

theorem Joining.reader_eq (joining : Joining net.topology net.control plan j a loc maxSpan max) :
    loc.reader = a := by
  rcases joining.reads with rfl | ⟨c, inn, rfl⟩
  · rfl
  · exact inn.target

/-- What the calls of a split leave: the old successor may have been told first, and
entries may follow the response. -/
theorem After.split {net' : Net} {k : Addr} {pc : Pc} {data : SelfData} {pre moved : List Effect}
    {conn : Conn} {pdu : Pdu} {mid : UInt8}
    (before : ∀ effect ∈ pre, ∃ c pdu, effect = .tcp (.up c) pdu ∧ net.shut (.up c) = false)
    (after : After net net' k pc data (pre ++ .connect conn :: .tcp (.up conn) pdu :: moved) [])
    (eq : conn = ⟨k, j, net.topology.serial⟩) (plain : pdu.requestKey = none)
    (fresh : net.shut (.up conn) = false)
    (sent : ∀ effect ∈ moved, ∃ ssn pair, effect = .tcp (.up conn) (.valInsert ssn pair))
    (backlog : net.topology.backlog j = [])
    (wiring : data.wiring = { net.topology.wiring k with
      rangeEnd := mid
      successor := ⟨some conn, j⟩
      fdsSuccessor := some conn }) :
    net'.topology = net.topology.split k j mid pc ∧
      net'.control = post (pre.filterMap Effect.control ++ [(.up conn, pdu)]) := by
  have sends : ∀ effect ∈ Effect.tcp (.up conn) pdu :: moved, ∃ fd pdu, effect = .tcp fd pdu := by
    intro effect mem
    rcases List.mem_cons.mp mem with rfl | mem
    · exact ⟨_, _, rfl⟩
    · obtain ⟨ssn, pair, eq⟩ := sent effect mem
      exact ⟨_, _, eq⟩
  have sends_before : ∀ effect ∈ pre, ∃ fd pdu, effect = .tcp fd pdu := by
    intro effect mem
    obtain ⟨c, pdu, eq, -⟩ := before effect mem
    exact ⟨_, _, eq⟩
  constructor
  · rw [after.topology, List.foldl_append, foldl_perform_sends _ sends_before, List.foldl_cons,
      foldl_perform_sends _ sends, wiring, eq]
    simp [Topology.perform, Topology.put, Topology.split, backlog]
  · rw [after.control]
    · have requests : moved.filterMap Effect.control = [] := by
        rw [List.filterMap_eq_nil_iff]
        intro effect mem
        obtain ⟨ssn, pair, rfl⟩ := sent effect mem
        rfl
      have control : Effect.control (.tcp (.up conn) pdu) = some (.up conn, pdu) := by
        simp [Effect.control, plain]
      rw [List.nil_append, List.filterMap_append, List.filterMap_cons_none rfl,
        List.filterMap_cons_some control, requests]
    · intro fd pdu' mem
      rw [List.mem_append, List.mem_cons, List.mem_cons] at mem
      constructor
      · rcases mem with old | conn | first | later
        · obtain ⟨c, _, eq, is_open⟩ := before _ old
          cases eq
          exact is_open
        · cases conn
        · cases first
          exact fresh
        · obtain ⟨_, _, eq⟩ := sent _ later
          cases eq
          exact fresh
      · intro closes
        rw [List.mem_append, List.mem_cons] at closes
        rcases closes with old | conn | new
        · obtain ⟨_, _, eq⟩ := sends_before _ old
          cases eq
        · cases conn
        · obtain ⟨_, _, eq⟩ := sends _ new
          cases eq

def Elects (plan : Plan) (a : Addr) (maxSpan : UInt8) (max : Addr) (maxSpan' : UInt8)
    (max' : Addr) :
    Prop :=
  (maxSpan' = maxSpan ∧ max' = max ∧ max ≠ a ∧ (maxSpan = 0 → ¬ plan.lo a < plan.hi a)) ∨
    (maxSpan.toNat < maxSpan'.toNat ∧ max' = a ∧ plan.lo a < plan.hi a)

theorem Joining.elects (joining : Joining net.topology net.control plan j a loc maxSpan max)
    (other : max ≠ a) :
    ∃ maxSpan' max',
      (if (maxSpan.toNat : Int) < (net.node a).selfData.selfRange
        then Pdu.netJoin j (UInt8.ofInt (net.node a).selfData.selfRange) a
        else .netJoin j maxSpan max) = .netJoin j maxSpan' max' ∧
      Elects plan a maxSpan max maxSpan' max' := by
  have pc : (net.node a).pc = .q6 := joining.idle a joining.reader
  obtain ⟨start, stop⟩ := joining.ring.node_range joining.reader (by rw [pc]; rfl)
  have nonempty := (joining.ring.tiled a joining.reader).nonempty
  have bounded := (joining.ring.tiled a joining.reader).bounded
  have range : (net.node a).selfData.selfRange = ((plan.hi a - plan.lo a : ℕ) : Int) := by
    rw [SelfData.selfRange, start, stop]
    omega
  have span : (UInt8.ofInt (net.node a).selfData.selfRange).toNat = plan.hi a - plan.lo a := by
    rw [range, ofInt_natCast, UInt8.toNat_ofNat']
    omega
  by_cases larger : (maxSpan.toNat : Int) < (net.node a).selfData.selfRange
  · refine ⟨_, _, if_pos larger, Or.inr ⟨?_, rfl, ?_⟩⟩
    · rw [span]
      omega
    · omega
  · refine ⟨_, _, if_neg larger, Or.inl ⟨rfl, rfl, other, ?_⟩⟩
    rintro rfl wide
    rw [UInt8.toNat_zero] at larger
    omega

/-- The `NET_JOIN` is handled: it goes on to the next node, or its reader splits. -/
theorem Joining.after (joining : Joining net.topology net.control plan j a loc maxSpan max)
    {net' : Net} (sound : (handleNetJoin net.env (net.node a).selfData j maxSpan max).ctl ≠ .fault)
    (after : After net net' a
      (Pc.after .q6 (handleNetJoin net.env (net.node a).selfData j maxSpan max).ctl)
      (handleNetJoin net.env (net.node a).selfData j maxSpan max).selfData
      (handleNetJoin net.env (net.node a).selfData j maxSpan max).effects []) :
    (plan.next a ≠ a ∧ max ≠ a ∧ ∃ maxSpan' max' c, Elects plan a maxSpan max maxSpan' max' ∧
      net'.InStage plan (.joining j (plan.next a) (.up c) maxSpan' max')) ∨
    (plan.next a = a ∨ max = a) ∧
      let data := (net.node a).selfData
      let mid := middlePoint data.rangeStart data.rangeEnd
      ∃ lower, ((plan.next a = a ∧ lower = .waiting) ∨
          plan.next a ≠ a ∧ ∃ c, net.topology.Out a c (plan.next a) ∧ lower = .closing c) ∧
        net'.InStage (plan.split a mid.toNat j) (.repair j (plan.next a)
          (.accepting a ⟨a, j, net.topology.serial⟩ (mid + 1) data.rangeEnd) lower) := by
  have ring := joining.ring
  have q6 : net.topology.pc a = .q6 := joining.idle a joining.reader
  have listening : (net.node a).selfData.listening = a := ring.listening a
  have answers : net.env.answers j = true := by
    have pc : (net.node j).pc = .q7Accept := joining.pc
    simp [Net.env, pc, Pc.listens]
  have conn : net.env.conn (net.node a).selfData j = ⟨a, j, net.topology.serial⟩ := by
    rw [Env.conn, listening]
    rfl
  have fresh : net.shut (.up ⟨a, j, net.topology.serial⟩) = false := (ring.fresh _ le_rfl).1
  rcases ring.linked a joining.reader fun bare => bare with
    ⟨several, c, out, inn, empty⟩ | ⟨alone, noOut, noIn, empty⟩
  · have linked : (net.node a).selfData.predecessor ≠ none := by
      obtain ⟨p, c', c'', -, between⟩ := ring.between joining.reader (Ne.symm several)
      rw [show (net.node a).selfData.predecessor = _ from between.in_l.predecessor]
      simp
    have successor : (net.node a).selfData.successor = ⟨some c, plan.next a⟩ := out.successor
    have linked' : (net.node a).selfData.successor.socket ≠ none := by
      rw [successor]
      simp
    have out_open : net.shut (.up c) = false := out.is_open
    by_cases named : max = a
    · right
      have wide := joining.wide (Or.inr named)
      obtain ⟨from_lo, below, above, ends⟩ := joining.middle wide
      obtain ⟨data, moved, ctl, run, wiring, ctl_cases, sent⟩ := handleNetJoin_resolve
        maxSpan linked linked' (named.trans listening.symm) answers
      rw [conn] at run wiring sent
      rw [run] at after sound
      obtain rfl := ctl_cases.resolve_right sound
      rw [sendSuccessor, successor] at after
      have split := joining.split joining.reader from_lo below above ends out inn empty
        (Ne.symm several)
      obtain ⟨topology, control⟩ := After.split (by simpa using out_open) after rfl rfl fresh sent
        joining.backlog wiring
      have apart : Loc.up ⟨a, j, net.topology.serial⟩ ≠ .up c := by
        intro eq
        cases eq
        exact lt_irrefl _ out.old
      rw [post_swap apart] at split
      exact ⟨Or.inr named, .closing c, Or.inr ⟨Ne.symm several, c, out, rfl⟩, Change.Holds.at
        (.repair j (plan.next a) (.accepting a _ _ _) (.closing c)) split topology control⟩
    · left
      rw [handleNetJoin_forward net.env j maxSpan linked linked' (by rwa [listening]), sendSuccessor,
        successor, listening] at after
      obtain ⟨maxSpan', max', eq, elects⟩ := joining.elects named
      rw [eq] at after
      have named' : (maxSpan' = maxSpan ∧ max' = max) ∨ (max' = a ∧ plan.lo a < plan.hi a) := by
        rcases elects with ⟨span, same, -⟩ | ⟨-, self, wide⟩
        · exact Or.inl ⟨span, same⟩
        · exact Or.inr ⟨self, wide⟩
      refine ⟨Ne.symm several, named, maxSpan', max', c, elects,
        Change.Holds.at _ (joining.forward inn named') ?_ ?_⟩
      · exact after.topology.trans (net.topology.put_self q6)
      · refine (after.control ?_).trans rfl
        simpa using out_open
  · have wide := joining.wide (Or.inl alone.symm)
    obtain ⟨from_lo, below, above, ends⟩ := joining.middle wide
    obtain ⟨data, moved, ctl, run, wiring, ctl_cases, sent⟩ :=
      handleNetJoin_alone max maxSpan noIn.predecessor noOut.socket answers
    rw [conn] at run wiring sent
    rw [run] at after sound
    obtain rfl := ctl_cases.resolve_right sound
    right
    have split := joining.splitAlone joining.reader from_lo below above ends alone.symm noIn
      (alone ▸ empty)
    obtain ⟨topology, control⟩ := After.split
      (show ∀ effect ∈ ([] : List Effect), _ by simp) after rfl rfl fresh sent
      joining.backlog wiring
    rw [listening] at control
    refine ⟨Or.inl alone.symm, .waiting, Or.inl ⟨alone.symm, rfl⟩, ?_⟩
    rw [← alone]
    exact Change.Holds.at (.repair j a (.accepting a _ _ _) .waiting) split topology control

end

/-! ## Leaving -/

section

variable {l p s : Addr} {c c' : Conn} {net' : Net}

theorem Offered.reader_eq (offered : Offered net.topology net.control plan l p s c c') :
    (if (net.topology.wiring l).rangeStart = 0 then Loc.up c' else .down c).reader = plan.heir p l ∧
      ((net.topology.wiring l).rangeStart = 0 ↔ plan.lo l = 0) := by
  have ring := offered.ring
  have mem : plan.Member l := offered.next_p ▸ Plan.member_next ring.tiled offered.between.prev
  have born : (net.topology.pc l).born = true := by
    rw [offered.pc]
    rfl
  have start := (ring.range l mem born).1
  have zero : (net.topology.wiring l).rangeStart = 0 ↔ plan.lo l = 0 := by
    rw [← start, ← UInt8.toNat_inj, UInt8.toNat_zero]
  refine ⟨?_, zero⟩
  unfold Plan.heir
  by_cases here : (net.topology.wiring l).rangeStart = 0
  · rw [if_pos here, if_pos (zero.mp here), offered.next_l]
    exact offered.between.out_l.target
  · rw [if_neg here, if_neg fun eq => here (zero.mpr eq)]
    exact offered.between.out_p.source

theorem Offered.after (offered : Offered net.topology net.control plan l p s c c')
    (after :
      let h := plan.heir p l
      let outcome := handleNetNewRange (net.node h).selfData (net.topology.wiring l).rangeStart
        (net.topology.wiring l).rangeEnd
      After net net' h (Pc.after .q6 outcome.ctl) outcome.selfData outcome.effects []) :
    net'.InStage (plan.handOver l (plan.heir p l)) (.taken l p s c c') := by
  have ring := offered.ring
  have tiled := ring.tiled
  have between := offered.between
  obtain ⟨apart, mem, up, down⟩ :=
    Plan.ends_before tiled between.prev offered.next_p between.other
  have zero := offered.reader_eq.2
  obtain ⟨mem_h, not_l⟩ := Plan.heir_member tiled between.prev offered.next_p between.other
  have born : ∀ n, plan.Member n → (net.topology.pc n).born = true := by
    intro n mem_n
    by_cases here : n = l
    · rw [here, offered.pc]
      rfl
    · rw [offered.idle n mem_n here]
      rfl
  obtain ⟨start_l, stop_l⟩ := ring.range l mem (born l mem)
  have pc_h := offered.idle _ mem_h not_l
  dsimp only at after
  by_cases first : plan.lo l = 0
  · have heir : plan.heir p l = s := by
      rw [Plan.heir, if_pos first, offered.next_l]
    rw [heir] at after mem_h pc_h
    have range : (net.node s).selfData.rangeStart.toNat = plan.lo s ∧
        (net.node s).selfData.rangeEnd.toNat = plan.hi s := ring.range s mem_h (born s mem_h)
    have less : (net.topology.wiring l).rangeStart < (net.node s).selfData.rangeStart := by
      have := up first
      rw [offered.next_l] at this
      rw [UInt8.lt_iff_toNat_lt, start_l, range.1]
      omega
    have fd : (net.node s).selfData.fdsPredecessor = some c' := between.in_s.fds
    have run : handleNetNewRange (net.node s).selfData (net.topology.wiring l).rangeStart
        (net.topology.wiring l).rangeEnd =
        ⟨{ (net.node s).selfData with rangeStart := (net.topology.wiring l).rangeStart },
          [.tcp (.down c') .netNewRangeResponse], .run⟩ := by
      simp [handleNetNewRange, updateRange, less, sendOrExit, SelfData.fd, fd]
    rw [run] at after
    have take := offered.take heir.symm
      (show (net.topology.wiring l).rangeStart.toNat = _ by simp [Plan.handOver, first, start_l])
      (show (net.topology.wiring s).rangeEnd.toNat = _ from
        range.2.trans (by simp [Plan.handOver, first]))
    rw [if_pos (zero.mpr first)] at take
    rw [heir]
    refine Change.Holds.at (.taken l p s c c') take ?_ ?_
    · rw [after.topology]
      unfold Topology.put Topology.ranged
      congr 1
      exact (congrArg (Function.update net.topology.pc s) pc_h.symm).trans
        (Function.update_eq_self s net.topology.pc)
    · refine (after.control ?_).trans rfl
      have is_open : net.shut (.down c') = false := between.in_s.is_open
      simpa using is_open
  · have heir : plan.heir p l = p := by
      rw [Plan.heir, if_neg first]
    rw [heir] at after mem_h pc_h
    have range : (net.node p).selfData.rangeStart.toNat = plan.lo p ∧
        (net.node p).selfData.rangeEnd.toNat = plan.hi p := ring.range p mem_h (born p mem_h)
    have nonempty := (tiled p mem_h).nonempty
    have nonempty_l := (tiled l mem).nonempty
    have adjacent := down first
    have not_less : ¬ (net.topology.wiring l).rangeStart < (net.node p).selfData.rangeStart := by
      rw [UInt8.lt_iff_toNat_lt, start_l, range.1]
      omega
    have more : (net.node p).selfData.rangeEnd < (net.topology.wiring l).rangeEnd := by
      rw [UInt8.lt_iff_toNat_lt, stop_l, range.2]
      omega
    have fd : (net.node p).selfData.fdsSuccessor = some c := between.out_p.fds
    have run : handleNetNewRange (net.node p).selfData (net.topology.wiring l).rangeStart
        (net.topology.wiring l).rangeEnd =
        ⟨{ (net.node p).selfData with rangeEnd := (net.topology.wiring l).rangeEnd },
          [.tcp (.up c) .netNewRangeResponse], .run⟩ := by
      simp [handleNetNewRange, updateRange, not_less, more, sendOrExit, SelfData.fd, fd]
    rw [run] at after
    have take := offered.take heir.symm (show (net.topology.wiring p).rangeStart.toNat = _ from
        range.1.trans (by simp [Plan.handOver, first]))
      (show (net.topology.wiring l).rangeEnd.toNat = _ by simp [Plan.handOver, first, stop_l])
    rw [if_neg fun eq => first (zero.mp eq)] at take
    rw [heir]
    refine Change.Holds.at (.taken l p s c c') take ?_ ?_
    · rw [after.topology]
      unfold Topology.put Topology.ranged
      congr 1
      exact (congrArg (Function.update net.topology.pc p) pc_h.symm).trans
        (Function.update_eq_self p net.topology.pc)
    · refine (after.control ?_).trans rfl
      have is_open : net.shut (.up c) = false := between.out_p.is_open
      simpa using is_open

theorem Between.sockets (between : Between net.topology plan l p s c c') :
    (net.node l).selfData.successor = ⟨some c', s⟩ ∧
      (net.node l).selfData.predecessor = some c ∧
      net.shut (.up c') = false ∧ net.shut (.down c) = false :=
  ⟨between.out_l.successor, between.in_l.predecessor, between.out_l.is_open, between.in_l.is_open⟩

theorem Idle.after_leave (idle : Idle net.topology net.control plan) (mem : plan.Member l)
    (several : plan.next l ≠ l)
    (after : After net net' l .awaitResponse (net.node l).selfData (offerRange (net.node l).selfData)
      []) :
    ∃ p s c c', net'.InStage plan (.offered l p s c c') := by
  obtain ⟨p, c, c', between, offered⟩ := idle.leave mem several
  obtain ⟨successor, predecessor, up, down⟩ := between.sockets
  refine ⟨p, plan.next l, c, c', Change.Holds.at
    (.offered l p (plan.next l) c c') offered ?_ ?_⟩
  · rw [after.topology, foldl_perform_sends]
    · unfold Topology.put Topology.goesOn
      congr 1
      exact Function.update_eq_self l net.topology.wiring
    · intro effect mem
      unfold offerRange sendSuccessor sendPredecessor at mem
      dsimp only at mem
      rw [successor, predecessor] at mem
      split at mem
      · exact ⟨_, _, List.mem_singleton.mp mem⟩
      · exact ⟨_, _, List.mem_singleton.mp mem⟩
  · have wiring : net.topology.wiring l = (net.node l).selfData.wiring := rfl
    have control := after.control
    unfold offerRange sendSuccessor sendPredecessor at control
    dsimp only at control
    rw [successor, predecessor] at control
    rw [wiring]
    by_cases first : (net.node l).selfData.rangeStart = 0
    · rw [if_pos first] at control
      rw [if_pos (show (net.node l).selfData.wiring.rangeStart = 0 from first)]
      exact control (by simpa using up)
    · rw [if_neg first] at control
      rw [if_neg (show (net.node l).selfData.wiring.rangeStart ≠ 0 from first)]
      exact control (by simpa using down)

theorem Taken.after (taken : Taken net.topology net.control plan l p s c c')
    (sound : (handOver (net.node l).selfData true).ctl ≠ .fault)
    (after : After net net' l
      (Pc.after (.lastPoll .udp (net.node l).selfData.successor.destAddr)
        (handOver (net.node l).selfData true).ctl)
      (handOver (net.node l).selfData true).selfData (handOver (net.node l).selfData true).effects
      []) :
    net'.InStage plan (.polling l p s c c' .udp) := by
  have between := taken.between
  obtain ⟨successor, predecessor, up, down⟩ := between.sockets
  obtain ⟨runs, wiring⟩ := handOver_granted sound
  rw [runs, successor] at after
  have inserts : ∀ effect ∈ (handOver (net.node l).selfData true).effects, ∃ fd ssn pair,
      net.shut fd = false ∧ effect = .tcp fd (.valInsert ssn pair) := by
    intro effect mem
    obtain ⟨fd, ssn, pair, held, eq⟩ := handOver_inserts mem
    refine ⟨fd, ssn, pair, ?_, eq⟩
    have fds : (net.node l).selfData.fdsSuccessor = some c' := between.out_l.fds
    have fds' : (net.node l).selfData.fdsPredecessor = some c := between.in_l.fds
    cases heir : (net.node l).selfData.heir with
    | udp => simp [SelfData.fd, heir] at held
    | successor =>
        rw [heir, SelfData.fd, fds] at held
        cases held
        exact up
    | predecessor =>
        rw [heir, SelfData.fd, fds'] at held
        cases held
        exact down
  refine Change.Holds.at (.polling l p s c c' .udp) taken.reply ?_ ?_
  · rw [after.topology, foldl_perform_sends, wiring]
    · rfl
    · intro effect mem
      obtain ⟨fd, ssn, pair, -, eq⟩ := inserts effect mem
      exact ⟨_, _, eq⟩
  · rw [after.control]
    · have requests : (handOver (net.node l).selfData true).effects.filterMap Effect.control = [] := by
        rw [List.filterMap_eq_nil_iff]
        intro effect mem
        obtain ⟨fd, ssn, pair, -, rfl⟩ := inserts effect mem
        rfl
      rw [requests]
      rfl
    · intro fd pdu mem
      obtain ⟨fd', ssn, pair, is_open, eq⟩ := inserts _ mem
      cases eq
      refine ⟨is_open, fun closes => ?_⟩
      obtain ⟨_, _, _, -, eq⟩ := inserts _ closes
      cases eq

theorem Polling.after {i : FdsIndex} (polling : Polling net.topology net.control plan l p s c c' i)
    (after : After net net' l (.exited true) (net.node l).selfData
      (sayGoodbye (net.node l).selfData s) []) :
    net'.InStage plan (.repair p s (.orphan c) (.closing c')) := by
  obtain ⟨successor, predecessor, up, down⟩ := polling.between.sockets
  have calls : sayGoodbye (net.node l).selfData s =
      [.tcp (.up c') .netCloseConnection, .tcp (.down c) (.netLeaving s)] := by
    rw [sayGoodbye, sendSuccessor, sendPredecessor, successor, predecessor]
    rfl
  rw [calls] at after
  refine Change.Holds.at (.repair p s (.orphan c) (.closing c')) polling.finish ?_ ?_
  · rw [after.topology]
    unfold Topology.put Topology.goesOn
    congr 1
    exact Function.update_eq_self l net.topology.wiring
  · rw [after.control, post_swap]
    · rfl
    · simp
    · intro fd pdu mem
      simp only [List.mem_cons, Effect.tcp.injEq, List.not_mem_nil, or_false, reduceCtorEq,
        or_self, not_false_eq_true, and_true] at mem ⊢
      rcases mem with ⟨rfl, -⟩ | ⟨rfl, -⟩
      · exact up
      · exact down

end

/-! ## Repairing the links -/

section

variable {x y : Addr} {upper : Upper} {lower : Lower} {c : Conn} {net' : Net}

theorem Repair.answers_y (repair : Repair net.topology net.control plan x y upper lower) :
    net.env.answers y = true := by
  have pc : (net.node y).pc = lower.pc := repair.pc_y
  cases lower <;> simp [Net.env, pc, Lower.pc, Pc.listens, Pc.serving]

/-- The upper node of a broken link to another node is idle once it has its range. -/
theorem Repair.orphan_q6 (repair : Repair net.topology net.control plan x y (.orphan c) lower) :
    net.topology.pc x = .q6 := by
  by_cases apart : x = y
  · have pc := repair.pc_y
    have ok := repair.lower_ok
    rw [← apart] at pc
    cases lower with
    | waiting => exact absurd apart ok.1
    | closing c' => exact pc
    | alone => exact pc
  · exact repair.pc_x apart

theorem Repair.whole_iff (repair : Repair net.topology net.control plan x y upper (.closing c)) :
    ((net.node y).selfData.rangeStart = 0 ∧ (net.node y).selfData.rangeEnd = 255) ↔ x = y := by
  have ring := repair.ring
  have mem_y : plan.Member y := repair.next ▸ Plan.member_next ring.tiled repair.member
  have born : (net.topology.pc y).born = true := by
    rw [repair.pc_y]
    rfl
  have range : (net.node y).selfData.rangeStart.toNat = plan.lo y ∧
      (net.node y).selfData.rangeEnd.toNat = plan.hi y := ring.range y mem_y born
  have last : (255 : UInt8).toNat = 255 := rfl
  have whole : ((net.node y).selfData.rangeStart = 0 ∧ (net.node y).selfData.rangeEnd = 255) ↔
      plan.lo y = 0 ∧ plan.hi y = 255 := by
    rw [← UInt8.toNat_inj, ← UInt8.toNat_inj, range.1, range.2, UInt8.toNat_zero, last]
  rw [whole, ← Plan.next_eq_self ring.tiled mem_y]
  constructor
  · intro self
    exact (repair.next_eq mem_y self).symm
  · rintro rfl
    exact repair.next

theorem Repair.after_leaving (repair : Repair net.topology net.control plan x y (.orphan c) lower)
    (after :
      let outcome := handleNetLeavingPdu net.env (net.node x).selfData y
      After net net' x (Pc.after .q6 outcome.ctl) outcome.selfData outcome.effects lower.posts) :
    (x ≠ y ∧ net'.InStage plan (.repair x y (.connected ⟨x, y, net.topology.serial⟩) lower)) ∨
      (x = y ∧ net'.InStage plan (.repair x y .alone lower)) := by
  obtain ⟨out, -⟩ := repair.upper_ok
  have q6 := repair.orphan_q6
  have listening : (net.node x).selfData.listening = x := repair.ring.listening x
  have socket : (net.node x).selfData.successor = ⟨some c, c.target⟩ := out.successor
  have closes : closeSuccessor (net.node x).selfData = [.close (.up c)] := by
    rw [closeSuccessor, socket]
  dsimp only at after
  rw [handleNetLeavingPdu_eq, listening, closes] at after
  by_cases apart : x = y
  · right
    refine ⟨apart, ?_⟩
    subst apart
    rw [if_pos rfl] at after
    refine Change.Holds.at (.repair x x .alone lower) repair.leavingLast ?_ ?_
    · rw [after.topology]
      unfold Topology.disconnect Topology.put
      congr 1
      exact (congrArg (Function.update net.topology.pc x) q6.symm).trans
        (Function.update_eq_self x net.topology.pc)
    · exact (after.control (by simp)).trans (congrArg post (List.append_nil _))
  · left
    refine ⟨apart, ?_⟩
    rw [if_neg (Ne.symm apart), if_pos repair.answers_y, Env.conn, listening] at after
    refine Change.Holds.at (.repair x y (.connected ⟨x, y, net.topology.serial⟩) lower)
      (repair.leaving apart) ?_ ?_
    · rw [after.topology]
      rfl
    · exact (after.control (by simp)).trans (congrArg post (List.append_nil _))

theorem Repair.after_close (repair : Repair net.topology net.control plan x y upper (.closing c))
    (after :
      let outcome := handleNetCloseConnection (net.node y).selfData
      After net net' y (Pc.after .q6 outcome.ctl) outcome.selfData outcome.effects
        (upper.posts y)) :
    (x ≠ y ∧ net'.InStage plan (.repair x y upper .waiting)) ∨
      (x = y ∧ net'.InStage plan (.repair x y upper .alone)) := by
  obtain ⟨inn, -⟩ := repair.lower_ok
  have q6 : net.topology.pc y = .q6 := repair.pc_y
  have predecessor : (net.node y).selfData.predecessor = some c := inn.predecessor
  have closes : closePredecessor (net.node y).selfData = [.close (.down c)] := by
    rw [closePredecessor, predecessor]
  dsimp only at after
  rw [handleNetCloseConnection, closes] at after
  by_cases apart : x = y
  · right
    refine ⟨apart, ?_⟩
    rw [if_pos (repair.whole_iff.mpr apart)] at after
    subst apart
    refine Change.Holds.at (.repair x x upper .alone) repair.closeLast ?_ ?_
    · exact after.topology
    · exact (after.control (by simp)).trans (congrArg post (List.append_nil _))
  · left
    refine ⟨apart, ?_⟩
    rw [if_neg fun whole => apart (repair.whole_iff.mp whole)] at after
    refine Change.Holds.at (.repair x y upper .waiting) (repair.close apart) ?_ ?_
    · exact after.topology
    · exact (after.control (by simp)).trans (congrArg post (List.append_nil _))

theorem Repair.after_response {rangeStart rangeEnd : UInt8}
    (repair : Repair net.topology net.control plan x y (.receiving c rangeStart rangeEnd) lower)
    (after :
      let outcome := q8 net.env (net.node x).selfData y rangeStart rangeEnd
      After net net' x (Pc.after .q6 outcome.ctl) outcome.selfData outcome.effects lower.posts) :
    net'.InStage plan (.repair x y (.connected ⟨x, y, net.topology.serial⟩) lower) := by
  have listening : (net.node x).selfData.listening = x := repair.ring.listening x
  dsimp only at after
  rw [q8_answered rangeStart rangeEnd repair.answers_y, Env.conn, listening] at after
  refine Change.Holds.at (.repair x y (.connected ⟨x, y, net.topology.serial⟩) lower)
    repair.response ?_ ?_
  · rw [after.topology]
    rfl
  · exact (after.control (by simp)).trans (congrArg post (List.append_nil _))

end

end DhtRing

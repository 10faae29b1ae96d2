import DhtRing.Membership

/-!
# The phases of a leave

From the offered range to the repair of the links around the node that left, each
step as an update of the topology.
-/

set_option autoImplicit false

namespace DhtRing

variable {T : Topology} {control : Loc → List Pdu} {plan : Plan}

/-! ## The offer -/

def Topology.goesOn (T : Topology) (l : Addr) (pc : Pc) : Topology :=
  { T with pc := Function.update T.pc l pc }

theorem Topology.touches_goesOn (T : Topology) (l : Addr) (pc : Pc) :
    Touches T (T.goesOn l pc) l where
  pc _ other := Function.update_of_ne other ..
  wiring _ _ := rfl
  shut _ _ := rfl
  serial := le_rfl

section

variable {l n m p s : Addr} {c c' : Conn} {pc : Pc}

theorem Topology.Linked.goesOn (linked : T.Linked n m) : (T.goesOn l pc).Linked n m := by
  rcases linked with ⟨other, c, out, inn, waits⟩ | ⟨rfl, out, inn, waits⟩
  · exact Or.inl ⟨other, c, out.congr rfl rfl rfl le_rfl, inn.congr rfl rfl rfl le_rfl, waits⟩
  · exact Or.inr ⟨rfl, ⟨out.socket, out.fds⟩, ⟨inn.predecessor, inn.fds⟩, waits⟩

theorem Topology.Held.goesOn (held : T.Held n) : (T.goesOn l pc).Held n :=
  ⟨held.successor, held.predecessor⟩

theorem Between.goesOn (between : Between T plan l p s c c') :
    Between (T.goesOn n pc) plan l p s c c' where
  prev := between.prev
  other := between.other
  other' := between.other'
  out_p := between.out_p.congr rfl rfl rfl le_rfl
  in_l := between.in_l.congr rfl rfl rfl le_rfl
  out_l := between.out_l.congr rfl rfl rfl le_rfl
  in_s := between.in_s.congr rfl rfl rfl le_rfl
  backlog_l := between.backlog_l
  backlog_s := between.backlog_s

end

theorem Ring.between {guest : Addr → Prop} (ring : Ring T plan (fun _ => False) guest) {l : Addr}
    (mem : plan.Member l) (several : plan.next l ≠ l) :
    ∃ p c c', plan.next p = l ∧ Between T plan l p (plan.next l) c c' := by
  have tiled := ring.tiled
  obtain ⟨p, mem_p, next_p⟩ := Plan.exists_prev tiled mem
  rcases ring.linked p mem_p (fun bare => bare) with ⟨other, c, out, inn, empty⟩ | ⟨self, -⟩
  · rcases ring.linked l mem (fun bare => bare) with ⟨other', c', out', inn', empty'⟩ | ⟨self, -⟩
    · rw [next_p] at other out inn empty
      exact ⟨p, c, c', next_p, mem_p, other, other', out, inn, out', inn', empty, empty'⟩
    · exact absurd self.symm several
  · rw [next_p] at self
    rw [self] at next_p
    exact absurd next_p several

theorem Idle.leave (idle : Idle T control plan) {l : Addr} (mem : plan.Member l)
    (several : plan.next l ≠ l) :
    ∃ p c c', Between T plan l p (plan.next l) c c' ∧
      Offered (T.goesOn l .awaitResponse)
        (post [(if (T.wiring l).rangeStart = 0 then .up c' else .down c,
          .netNewRange (T.wiring l).rangeStart (T.wiring l).rangeEnd)])
        plan l p (plan.next l) c c' := by
  obtain ⟨p, c, c', next_p, between⟩ := idle.ring.between mem several
  have touches := T.touches_goesOn l .awaitResponse
  refine ⟨p, c, c', between, ?_, between.goesOn, next_p, rfl, ?_, Function.update_self .., rfl⟩
  · refine idle.ring.touch touches (fun mem _ => ?_) ?_ ?_ (idle.ring.listening l)
      (idle.ring.held l).goesOn idle.ring.fresh
    · apply idle.ring.range l mem
      rw [idle.idle l mem]
      rfl
    · intro n mem_n _ _
      exact (idle.ring.linked n mem_n fun bare => bare).goesOn
    · intro n outside _ near
      rcases near with rfl | guest | backlog
      · exact absurd mem outside
      · exact guest.elim
      · exact absurd rfl backlog
  · intro n mem_n other
    rw [touches.pc n other]
    exact idle.idle n mem_n

/-! ## The range taken -/

def Topology.ranged (T : Topology) (h : Addr) (rangeStart rangeEnd : UInt8) : Topology :=
  { T with
    wiring := Function.update T.wiring h { T.wiring h with
      rangeStart := rangeStart
      rangeEnd := rangeEnd } }

section

variable {h n m : Addr} {rangeStart rangeEnd : UInt8} {c : Conn}

theorem Topology.ranged_wiring (T : Topology) (h n : Addr) (rangeStart rangeEnd : UInt8) :
    ((T.ranged h rangeStart rangeEnd).wiring n).successor = (T.wiring n).successor ∧
      ((T.ranged h rangeStart rangeEnd).wiring n).fdsSuccessor = (T.wiring n).fdsSuccessor ∧
      ((T.ranged h rangeStart rangeEnd).wiring n).predecessor = (T.wiring n).predecessor ∧
      ((T.ranged h rangeStart rangeEnd).wiring n).fdsPredecessor = (T.wiring n).fdsPredecessor ∧
      ((T.ranged h rangeStart rangeEnd).wiring n).listening = (T.wiring n).listening := by
  by_cases here : n = h
  · rw [here, show (T.ranged h rangeStart rangeEnd).wiring h = _ from Function.update_self ..]
    exact ⟨rfl, rfl, rfl, rfl, rfl⟩
  · rw [show (T.ranged h rangeStart rangeEnd).wiring n = _ from Function.update_of_ne here ..]
    exact ⟨rfl, rfl, rfl, rfl, rfl⟩

theorem Topology.Out.ranged (out : T.Out n c m) : (T.ranged h rangeStart rangeEnd).Out n c m := by
  obtain ⟨successor, fds, -⟩ := T.ranged_wiring h n rangeStart rangeEnd
  exact out.congr successor fds rfl le_rfl

theorem Topology.In.ranged (inn : T.In m c) : (T.ranged h rangeStart rangeEnd).In m c := by
  obtain ⟨-, -, predecessor, fds, -⟩ := T.ranged_wiring h m rangeStart rangeEnd
  exact inn.congr predecessor fds rfl le_rfl

theorem Topology.Linked.ranged (linked : T.Linked n m) :
    (T.ranged h rangeStart rangeEnd).Linked n m := by
  rcases linked with ⟨other, c, out, inn, waits⟩ | ⟨rfl, out, inn, waits⟩
  · exact Or.inl ⟨other, c, out.ranged, inn.ranged, waits⟩
  · obtain ⟨successor, fds, predecessor, fds', -⟩ := T.ranged_wiring h n rangeStart rangeEnd
    exact Or.inr ⟨rfl, ⟨by rw [successor, out.socket], fds.trans out.fds⟩,
      ⟨predecessor.trans inn.predecessor, fds'.trans inn.fds⟩, waits⟩

end

section

variable {l p s : Addr} {c c' : Conn}

theorem Between.ranged (between : Between T plan l p s c c') {plan' : Plan} (prev : plan'.Member p)
    (h : Addr) (rangeStart rangeEnd : UInt8) :
    Between (T.ranged h rangeStart rangeEnd) plan' l p s c c' where
  prev := prev
  other := between.other
  other' := between.other'
  out_p := between.out_p.ranged
  in_l := between.in_l.ranged
  out_l := between.out_l.ranged
  in_s := between.in_s.ranged
  backlog_l := between.backlog_l
  backlog_s := between.backlog_s

theorem Offered.take (offered : Offered T control plan l p s c c') {h : Addr}
    (heir : h = plan.heir p l) {rangeStart rangeEnd : UInt8}
    (start : rangeStart.toNat = (plan.handOver l h).lo h)
    (stop : rangeEnd.toNat = (plan.handOver l h).hi h) :
    Taken (T.ranged h rangeStart rangeEnd)
      (post [(if (T.wiring l).rangeStart = 0 then .down c' else .up c, .netNewRangeResponse)])
      (plan.handOver l h) l p s c c' := by
  have ring := offered.ring
  have tiled := ring.tiled
  have between := offered.between
  have prev := between.prev
  have next_p := offered.next_p
  have other := between.other
  obtain ⟨mem_h, not_l⟩ := Plan.heir_member tiled prev next_p other
  rw [← heir] at mem_h not_l
  have members : ∀ n, (plan.handOver l h).Member n ↔ n ≠ l ∧ plan.Member n := by
    intro n
    rw [heir]
    exact Plan.member_handOver tiled prev next_p other
  have wiring_h : (T.ranged h rangeStart rangeEnd).wiring h = _ := Function.update_self ..
  have wiring : ∀ n, n ≠ h → (T.ranged h rangeStart rangeEnd).wiring n = T.wiring n :=
    fun n other => Function.update_of_ne other ..
  refine ⟨⟨?_, ?_, ?_, ?_, ?_, ?_, ?_, ring.fresh⟩, ?_, ?_, ?_, ?_, offered.pc, ?_⟩
  · rw [heir]
    exact Plan.tiled_handOver tiled prev next_p other
  · intro n mem born
    by_cases here : n = h
    · rw [here, wiring_h]
      exact ⟨start, stop⟩
    · obtain ⟨-, old⟩ := (members n).mp mem
      obtain ⟨start, stop⟩ := ring.range n old born
      rw [wiring n here, start, stop]
      unfold Plan.handOver
      split
      · exact ⟨(Function.update_of_ne here _ _).symm, rfl⟩
      · exact ⟨rfl, (Function.update_of_ne here _ _).symm⟩
  · intro n mem not_p
    obtain ⟨-, old⟩ := (members n).mp mem
    rw [heir, Plan.next_handOver tiled prev next_p old not_p]
    exact (ring.linked n old fun bare => bare).ranged
  · intro n outside not_guest
    apply ring.away n _ fun guest => guest
    intro old
    exact outside ((members n).mpr ⟨not_guest, old⟩)
  · intro n mem
    exact ring.port n ((members n).mp mem).2
  · intro n
    obtain ⟨-, -, -, -, listening⟩ := T.ranged_wiring h n rangeStart rangeEnd
    exact listening.trans (ring.listening n)
  · intro n
    obtain ⟨-, fds, -, fds', -⟩ := T.ranged_wiring h n rangeStart rangeEnd
    constructor
    · intro c held
      exact (ring.held n).successor c (fds ▸ held)
    · intro c held
      exact (ring.held n).predecessor c (fds' ▸ held)
  · intro mem
    exact ((members l).mp mem).1 rfl
  · exact between.ranged ((members p).mpr ⟨other, prev⟩) h rangeStart rangeEnd
  · rw [heir, Plan.next_handOver_prev tiled prev next_p other]
    exact offered.next_l
  · intro n mem
    obtain ⟨apart, old⟩ := (members n).mp mem
    exact offered.idle n old apart
  · rw [wiring l (Ne.symm not_l)]

/-! ## The last poll and the farewell -/

theorem Ring.touch_guest (ring : Ring T plan (· = p) (· = l)) (gone : ¬ plan.Member l)
    {T' : Topology} (touches : Touches T T' l) {guest' : Addr → Prop}
    (backlog : T'.backlog = T.backlog) (away : ¬ guest' l → T'.Away l)
    (listening : (T'.wiring l).listening = l) (held : T'.Held l)
    (fresh : ∀ c, T'.serial ≤ c.serial → T'.shut (.up c) = false ∧ T'.shut (.down c) = false) :
    Ring T' plan (· = p) guest' := by
  refine ring.touch touches (fun mem => absurd mem gone) ?_ ?_ listening held fresh
  · intro n mem not_p near
    rcases near with rfl | next | bare | other
    · exact absurd mem gone
    · exact absurd (next ▸ Plan.member_next ring.tiled mem) gone
    · exact absurd bare not_p
    · exact absurd (by rw [backlog]) other
  · intro n _ not_guest near
    rcases near with rfl | rfl | other
    · exact away not_guest
    · exact away not_guest
    · exact absurd (by rw [backlog]) other

def Topology.handedOver (T : Topology) (l : Addr) (pc : Pc) : Topology :=
  (T.ranged l 255 255).goesOn l pc

theorem Taken.reply (taken : Taken T control plan l p s c c') :
    Polling (T.handedOver l (.lastPoll .udp s)) (post []) plan l p s c c' .udp := by
  have ring := taken.ring
  have between := taken.between.ranged taken.between.prev l 255 255
  have wiring := T.ranged_wiring l l 255 255
  have touches : Touches T (T.handedOver l (.lastPoll .udp s)) l :=
    ⟨fun n other => Function.update_of_ne other .., fun n other => Function.update_of_ne other ..,
      fun _ _ => rfl, le_rfl⟩
  refine ⟨?_, taken.gone, between.goesOn, taken.next_p, ?_, Function.update_self .., ?_, rfl⟩
  · refine ring.touch_guest taken.gone touches rfl (fun guest => absurd rfl guest) ?_ ?_ ?_
    · exact wiring.2.2.2.2.trans (ring.listening l)
    · obtain ⟨-, fds, -, fds', -⟩ := wiring
      constructor
      · intro c held
        exact (ring.held l).successor c (fds ▸ held)
      · intro c held
        exact (ring.held l).predecessor c (fds' ▸ held)
    · exact ring.fresh
  · intro n mem
    have other : n ≠ l := fun eq => taken.gone (eq ▸ mem)
    rw [touches.pc n other]
    exact taken.idle n mem
  · rw [show (T.handedOver l (.lastPoll .udp s)).wiring l = _ from Function.update_self ..]
    exact ⟨rfl, rfl⟩

theorem Polling.turn {i : FdsIndex} (polling : Polling T control plan l p s c c' i)
    (i' : FdsIndex) : Polling (T.goesOn l (.lastPoll i' s)) control plan l p s c c' i' := by
  have touches := T.touches_goesOn l (.lastPoll i' s)
  refine ⟨?_, polling.gone, polling.between.goesOn, polling.next_p, ?_, Function.update_self ..,
    polling.range, polling.posts⟩
  · exact polling.ring.touch_guest polling.gone touches rfl (fun guest => absurd rfl guest)
      (polling.ring.listening l) (polling.ring.held l).goesOn polling.ring.fresh
  · intro n mem
    have other : n ≠ l := fun eq => polling.gone (eq ▸ mem)
    rw [touches.pc n other]
    exact polling.idle n mem

theorem Polling.finish {i : FdsIndex} (polling : Polling T control plan l p s c c' i) :
    Repair (T.goesOn l (.exited true))
      (post [(.down c, .netLeaving s), (.up c', .netCloseConnection)]) plan p s (.orphan c)
      (.closing c') := by
  have between := polling.between
  have touches := T.touches_goesOn l (.exited true)
  have exited : (T.goesOn l (.exited true)).pc l = .exited true := Function.update_self ..
  have idle : ∀ n, plan.Member n → (T.goesOn l (.exited true)).pc n = .q6 := by
    intro n mem
    have other : n ≠ l := fun eq => polling.gone (eq ▸ mem)
    rw [touches.pc n other]
    exact polling.idle n mem
  have mem_s : plan.Member s := polling.next_p ▸ Plan.member_next polling.ring.tiled between.prev
  refine ⟨?_, between.prev, polling.next_p, fun n mem _ _ => idle n mem, fun _ => idle p between.prev,
    idle s mem_s, ⟨?_, ?_⟩, ⟨?_, Or.inl ?_⟩, between.backlog_s, rfl⟩
  · have ring : Ring (T.goesOn l (.exited true)) plan (· = p) fun _ => False :=
      polling.ring.touch_guest polling.gone touches rfl
      (fun _ => Or.inr exited) (polling.ring.listening l) (polling.ring.held l).goesOn
      polling.ring.fresh
    refine ⟨ring.tiled, ring.range, ?_, ring.away, ring.port, ring.listening, ring.held, ring.fresh⟩
    intro n mem whole
    exact ring.linked n mem fun bare => whole (Or.inl bare)
  · rw [between.out_p.target]
    exact touches.out between.other between.out_p
  · rw [between.out_p.target]
    exact exited
  · exact touches.inn (Ne.symm between.other') between.in_s
  · rw [between.out_l.source]
    exact exited

end

end DhtRing

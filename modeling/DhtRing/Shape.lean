import DhtRing.Histories

/-!
# The shape of the ring

Ranges and links of the nodes after joins and leaves.
-/

set_option autoImplicit false

namespace DhtRing

open Transition

variable {net net' : Net} {plan : Plan} {map : Ssn → Option ValuePair}
  {replies : List (Addr × Msg)} {first : Addr}

def Net.Live (net : Net) (n : Addr) : Prop := (net.node n).pc.serving = true

def Net.Follows (net : Net) (n m : Addr) : Prop :=
  ∃ conn, (net.node n).selfData.successor.socket = some conn ∧ conn.target = m

def Net.Alone (net : Net) (n : Addr) : Prop := ∀ m, net.Live m → m = n

/-- Ranges, links and remembered addresses fit together. -/
structure Net.WellFormed (net : Net) : Prop where
  nonempty : ∀ n, net.Live n → (net.node n).selfData.rangeStart ≤ (net.node n).selfData.rangeEnd
  partition : ∀ point : UInt8, ∃! n, net.Live n ∧ (net.node n).selfData.rangeStart ≤ point ∧
    point ≤ (net.node n).selfData.rangeEnd
  -- the byte after 255 is 0
  successor : ∀ n, net.Live n → ¬ net.Alone n → ∃ m conn, net.Live m ∧
    (net.node n).selfData.successor = ⟨some conn, (net.node m).selfData.listening⟩ ∧
    conn.source = n ∧ conn.target = m ∧ (net.node m).selfData.predecessor = some conn ∧
    (net.node m).selfData.rangeStart = (net.node n).selfData.rangeEnd + 1
  predecessor : ∀ m, net.Live m → ¬ net.Alone m → ∃ n conn, net.Live n ∧
    (net.node m).selfData.predecessor = some conn ∧ conn.source = n ∧
    (net.node n).selfData.successor.socket = some conn
  around : ∀ n m, net.Live n → net.Live m → Relation.ReflTransGen net.Follows n m
  alone : ∀ n, net.Live n → ((net.node n).selfData.predecessor = none ∧
      (net.node n).selfData.successor.socket = none ↔
    net.Alone n ∧ (net.node n).selfData.rangeStart = 0 ∧ (net.node n).selfData.rangeEnd = 255)

section

variable {n m : Addr}

theorem Settled.live_iff (settled : Settled map replies net plan) :
    net.Live n ↔ plan.Member n := settled.orderly.inStage.serving_iff n

theorem Settled.alone_iff (settled : Settled map replies net plan) (mem : plan.Member n) :
    net.Alone n ↔ plan.next n = n := by
  have tiled := settled.orderly.inStage.ring.tiled
  constructor
  · intro alone
    exact alone _ (settled.live_iff.mpr (Plan.member_next tiled mem))
  · intro self m live
    by_contra other
    exact Plan.several tiled mem (settled.live_iff.mp live) other self

theorem Settled.node_range (settled : Settled map replies net plan) (mem : plan.Member n) :
    (net.node n).selfData.rangeStart.toNat = plan.lo n ∧
      (net.node n).selfData.rangeEnd.toNat = plan.hi n := by
  have inStage := settled.orderly.inStage
  have q6 : (net.node n).pc = .q6 := Idle.idle inStage n mem
  exact inStage.ring.node_range mem (by rw [q6]; rfl)

theorem Settled.link (settled : Settled map replies net plan) (mem : plan.Member n)
    (several : plan.next n ≠ n) :
    ∃ conn, (net.node n).selfData.successor = ⟨some conn, plan.next n⟩ ∧ conn.source = n ∧
      conn.target = plan.next n ∧ (net.node (plan.next n)).selfData.predecessor = some conn := by
  have idle : Idle net.topology net.control plan := settled.orderly.inStage
  rcases idle.ring.linked n mem fun bare => bare with ⟨-, conn, out, inn, -⟩ | ⟨self, -⟩
  · exact ⟨conn, out.successor, out.source, out.target, inn.predecessor⟩
  · exact absurd self.symm several

theorem Settled.rangeStart_next (settled : Settled map replies net plan) (mem : plan.Member n) :
    (net.node (plan.next n)).selfData.rangeStart = (net.node n).selfData.rangeEnd + 1 := by
  have tiled := settled.orderly.inStage.ring.tiled
  obtain ⟨-, stop⟩ := settled.node_range mem
  obtain ⟨start, -⟩ := settled.node_range (Plan.member_next tiled mem)
  have lo : plan.lo (plan.next n) = if plan.hi n + 1 = 256 then 0 else plan.hi n + 1 :=
    Tiling.Tiled.lo_next tiled mem
  rw [← UInt8.toNat_inj, start, lo, UInt8.toNat_add, stop]
  have := (tiled n mem).bounded
  split
  · rename_i last
    rw [show (1 : UInt8).toNat = 1 from rfl, last]
  · rw [show (1 : UInt8).toNat = 1 from rfl]
    omega

theorem Settled.wellFormed (settled : Settled map replies net plan) : net.WellFormed := by
  have tiled := settled.orderly.inStage.ring.tiled
  have listening := settled.orderly.inStage.ring.listening
  have inside : ∀ {n}, plan.Member n → ∀ point : UInt8,
      ((net.node n).selfData.rangeStart ≤ point ∧ point ≤ (net.node n).selfData.rangeEnd) ↔
        plan.own point.toNat = n := by
    intro n mem point
    obtain ⟨start, stop⟩ := settled.node_range mem
    rw [UInt8.le_iff_toNat_le, UInt8.le_iff_toNat_le, start, stop]
    exact ((tiled n mem).exact _ point.toNat_lt).symm
  refine ⟨?_, ?_, ?_, ?_, ?_, ?_⟩
  · intro n live
    have mem := settled.live_iff.mp live
    obtain ⟨start, stop⟩ := settled.node_range mem
    rw [UInt8.le_iff_toNat_le, start, stop]
    exact (tiled n mem).nonempty
  · intro point
    have mem : plan.Member (plan.own point.toNat) := ⟨_, point.toNat_lt, rfl⟩
    refine ⟨_, ⟨settled.live_iff.mpr mem, (inside mem point).mpr rfl⟩, ?_⟩
    rintro m ⟨live, bounds⟩
    exact ((inside (settled.live_iff.mp live) point).mp bounds).symm
  · intro n live several
    have mem := settled.live_iff.mp live
    rw [settled.alone_iff mem] at several
    obtain ⟨conn, successor, source, target, predecessor⟩ := settled.link mem several
    refine ⟨plan.next n, conn, settled.live_iff.mpr (Plan.member_next tiled mem), ?_, source,
      target, predecessor, settled.rangeStart_next mem⟩
    rw [successor, show (net.node (plan.next n)).selfData.listening = _ from listening _]
  · intro m live several
    have mem := settled.live_iff.mp live
    rw [settled.alone_iff mem] at several
    obtain ⟨p, mem_p, rfl⟩ := Plan.exists_prev tiled mem
    have apart : plan.next p ≠ p := by
      intro self
      rw [self] at several
      exact several self
    obtain ⟨conn, successor, source, -, predecessor⟩ := settled.link mem_p apart
    exact ⟨p, conn, settled.live_iff.mpr mem_p, predecessor, source, by rw [successor]⟩
  · intro n m live live'
    have mem := settled.live_iff.mp live
    by_cases alone : net.Alone n
    · rw [alone m live']
    · have linked : ∀ b c, plan.Member b ∧ plan.next b = c → net.Follows b c := by
        rintro b c ⟨mem_b, rfl⟩
        have several : plan.next b ≠ b := by
          intro self
          rw [← settled.alone_iff mem_b] at self
          refine alone fun k live_k => ?_
          rw [self k live_k, self n live]
        obtain ⟨conn, successor, -, target, -⟩ := settled.link mem_b several
        exact ⟨conn, by rw [successor], target⟩
      exact Relation.ReflTransGen.mono linked n m
        (Tiling.Tiled.reach tiled mem (settled.live_iff.mp live'))
  · intro n live
    have mem := settled.live_iff.mp live
    obtain ⟨start, stop⟩ := settled.node_range mem
    have ends : ((net.node n).selfData.rangeStart = 0 ∧ (net.node n).selfData.rangeEnd = 255) ↔
        plan.next n = n := by
      rw [Plan.next_eq_self tiled mem, ← start, ← stop, ← UInt8.toNat_inj, ← UInt8.toNat_inj]
      rfl
    rw [ends, settled.alone_iff mem, and_self]
    have idle : Idle net.topology net.control plan := settled.orderly.inStage
    rcases idle.ring.linked n mem fun bare => bare with ⟨other, conn, out, -⟩ | ⟨self, noOut, noIn, -⟩
    · have connected : (net.node n).selfData.successor = ⟨some conn, plan.next n⟩ := out.successor
      constructor
      · rintro ⟨-, unconnected⟩
        rw [connected] at unconnected
        cases unconnected
      · intro self
        exact absurd self.symm other
    · exact ⟨fun _ => self.symm, fun _ => ⟨noIn.predecessor, noOut.socket⟩⟩

end

/-! ## Joins and leaves -/

def Net.AdmitsChange (net : Net) (op : Op) : Prop := op.changes = true ∧ net.Admits op

theorem Changing.requests_nil {stage : Change}
    (changing : Changing (fun _ => none) replies net plan stage) (loc : Loc) :
    net.requests loc = [] := by
  rw [List.eq_nil_iff_forall_not_mem]
  intro msg mem
  obtain ⟨entry, rfl⟩ := changing.ledger.transfers loc msg mem (changing.clientless loc msg mem)
  have nothing := (changing.ledger.entries entry.1).eq_nil (.link loc)
  have carried : entry.2 ∈ net.entries entry.1 (.link loc) :=
    List.mem_filterMap.mpr ⟨_, mem, if_pos rfl⟩
  rw [nothing] at carried
  cases carried

theorem internal_upholds : Upholds Internal (Changing (fun _ => none) replies) := by
  refine changing_upholds (fun _ _ allowed => allowed) ?_
  rintro net plan stage act changing - n i loc msg rest call - - - queue asks
  have key : ∃ ssn, msg.pdu.requestKey = some ssn := by
    generalize msg.pdu = pdu at asks
    cases pdu <;> first | exact ⟨_, rfl⟩ | cases asks
  obtain ⟨ssn, key⟩ := key
  have mem := mem_requests_head queue key
  rw [changing.requests_nil loc] at mem
  cases mem

theorem History.unused {ops : List Op} (history : History Internal Net.AdmitsChange first ops net)
    (port : first.port ≠ 0) : ∃ plan, Settled (fun _ => none) [] net plan := by
  induction history with
  | founded => exact ⟨_, settled_founded port⟩
  | operation _ admitted stepped run rest ih =>
      obtain ⟨plan, settled⟩ := ih
      obtain ⟨stage, changing, -⟩ := settled.change admitted.1 admitted.2 stepped
      obtain ⟨plan', stage', there⟩ := internal_upholds.run changing run
      exact ⟨plan', there.settled rest⟩

/-- After every history of joins and leaves the ring is well formed, and every further
join or leave comes to an end. -/
theorem history_wellFormed (port : first.port ≠ 0) {ops : List Op}
    (history : History Internal Net.AdmitsChange first ops net) :
    net.WellFormed ∧ ∀ op begun, net.AdmitsChange op → net.step op.act = some begun →
      Terminates Net.step Internal begun := by
  obtain ⟨plan, settled⟩ := history.unused port
  refine ⟨settled.wellFormed, fun op begun admitted stepped => ?_⟩
  obtain ⟨stage, changing, bound, bounded⟩ := settled.change admitted.1 admitted.2 stepped
  exact internal_upholds.terminates changing bounded

/-- A history without clients' requests, whose steps need no further condition. -/
theorem History.changes {ops : List Op} (history : History Undisturbed Net.Admits first ops net)
    (only : ∀ op ∈ ops, op.changes = true) : History Internal Net.AdmitsChange first ops net := by
  induction history with
  | founded => exact .founded
  | operation _ admitted stepped run rest ih =>
      refine .operation (ih fun op mem => only op (List.mem_append_left _ mem)) ?_ stepped
        (run.mono fun _ _ allowed => allowed.1) rest
      exact ⟨only _ (List.mem_append_right _ (List.mem_singleton_self _)), admitted⟩

def turnScript : Script :=
  [(.join nodeB nodeA, [.deliver nodeA .udp, .accept nodeB, .response nodeB, .accept nodeA]),
    (.leave nodeA, [.deliver nodeB .predecessor, .reply nodeA, .finish nodeA,
      .deliver nodeB .predecessor, .deliver nodeB .successor])]

theorem history_wellFormed_turnScript : ∃ net,
    History Internal Net.AdmitsChange nodeA (turnScript.map Prod.fst) net ∧ net.WellFormed ∧
      (net.node nodeB).selfData.rangeStart = 0 := by
  have performed : (perform (Net.founded nodeA) turnScript).map
      (fun net => (net.node nodeB).selfData.rangeStart) = some 0 := by decide +kernel
  obtain ⟨net, performed, start⟩ := Option.map_eq_some_iff.mp performed
  obtain ⟨history, -⟩ := history_of_perform turnScript .founded pair_founded performed
  have changes := history.changes fun op mem => by
    simp only [turnScript, List.nil_append, List.map_cons, List.map_nil, List.mem_cons,
      List.not_mem_nil, or_false] at mem
    rcases mem with rfl | rfl <;> rfl
  exact ⟨net, changes, (history_wellFormed (by decide) changes).1, start⟩

/-! ## The last node -/

/-- A change of the ring, also when the last node leaves. -/
def Net.AdmitsLast (net : Net) (op : Op) : Prop :=
  op.changes = true ∧ ∀ j entry, op = .join j entry → net.Few

/-- When the only node leaves, no range covers anything. -/
theorem last_leaves : ¬ ∀ first ops net, first.port ≠ 0 →
    History Internal Net.AdmitsLast first ops net → net.WellFormed := by
  intro claim
  obtain ⟨left, stepped, node⟩ : ∃ left, (Net.founded nodeA).step (Op.act (.leave nodeA)) =
      some left ∧ left.node = Function.update (Net.founded nodeA).node nodeA
        ⟨.exited true, q4 (SelfData.setup nodeA)⟩ := ⟨_, rfl, rfl⟩
  have pcs : ∀ n, (left.node n).pc = .absent ∨ (left.node n).pc = .exited true := by
    intro n
    rw [node]
    by_cases here : n = nodeA
    · rw [here, Function.update_self]
      exact Or.inr rfl
    · rw [Function.update_of_ne here, founded_other here]
      exact Or.inl rfl
  have rest : left.AtRest := by
    refine atRest_of_consumed (fun n => ?_) (fun n => (pcs n).imp_right Or.inl) fun n i => ?_
    · rcases pcs n with pc | pc <;> simp [Net.consumed, pc, Pc.serving]
    · rw [Option.eq_none_iff_forall_ne_some]
      intro after closes
      obtain ⟨back, conn, loc, fd, data, polls, -⟩ := eof_eq_some closes
      rcases pcs n with pc | pc <;> rw [pc] at polls <;> cases polls
  obtain ⟨n, ⟨live, -⟩, -⟩ := (claim nodeA _ left (by decide) (.operation .founded
    ⟨rfl, fun j entry eq => by cases eq⟩ stepped .nil rest)).partition 0
  rcases pcs n with pc | pc <;> rw [Net.Live, pc] at live <;> cases live

end DhtRing

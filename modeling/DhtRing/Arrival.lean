import DhtRing.OrderlySteps
import Mathlib.Algebra.BigOperators.Group.Finset.Basic
import Mathlib.Algebra.GroupWithZero.Nat

/-!
# Requests arrive

A node that sends a request on sends it closer to its owner, also past a node that
leaves.  So what is on its way comes to its end: every run of steps that the nodes take
by themselves is finite.
-/

set_option autoImplicit false

namespace DhtRing

variable {net net' : Net} {plan plan' : Plan} {stage stage' : Change}

/-! ## The way of a request -/

/-- How far it is from the node `n` to the owner of the point `x`.  A node that leaves
comes between its old neighbours. -/
def Change.way (plan : Plan) (stage : Change) (n : Addr) (x : ℕ) : ℕ :=
  match stage with
  | .taken l _ s _ _ | .polling l _ s _ _ _ =>
      if n = l then 2 * Tiling.gap 256 (plan.lo s) x + 1 else 2 * Tiling.gap 256 (plan.lo n) x
  | _ => 2 * Tiling.gap 256 (plan.lo n) x

theorem Change.Turns.way (turns : stage.Turns stage') : stage'.way plan = stage.way plan := by
  rcases turns with rfl | ⟨l, p, s, c, c', i, i', rfl, rfl⟩
  · rfl
  · rfl

theorem Change.way_of_not_guest {n : Addr} (not_guest : ¬ stage.Guest n) (x : ℕ) :
    stage.way plan n x = 2 * Tiling.gap 256 (plan.lo n) x := by
  cases stage with
  | taken l p s c c' => exact if_neg not_guest
  | polling l p s c c' i => exact if_neg not_guest
  | _ => rfl

theorem Net.InStage.not_guest (inStage : net.InStage plan stage) {n : Addr} (mem : plan.Member n) :
    ¬ stage.Guest n := by
  intro guest
  cases stage with
  | joining j a loc maxSpan max => exact Joining.fresh inStage (guest ▸ mem)
  | taken l p s c c' => exact Taken.gone inStage (guest ▸ mem)
  | polling l p s c c' i => exact Polling.gone inStage (guest ▸ mem)
  | _ => exact guest

/-- Where a polling node sends requests: on to the next node, to one that leaves, past
itself when it leaves, or to a node that has left. -/
theorem Net.InStage.sends_on (inStage : net.InStage plan stage) {n : Addr} {i : FdsIndex}
    {back : Pc}
    (polls : (net.node n).pc.polls i = some back) {c : Conn}
    (fds : (net.node n).selfData.fdsSuccessor = some c) :
    (plan.Member n ∧ (c.target = plan.next n ∨
        ∃ l, stage.Guest l ∧ c.target = l ∧ ∀ x,
          stage.way plan l x = 2 * Tiling.gap 256 (plan.lo (plan.next n)) x + 1)) ∨
      (∃ p s c₁ c₂ j, stage = .polling n p s c₁ c₂ j ∧ plan.Member s ∧ c.target = s) ∨
      (∃ y c₁ lower, stage = .repair n y (.orphan c₁) lower) ∧
        (net.node c.target).pc = .exited true := by
  have ring := inStage.ring
  have reach : ∀ {c' m}, net.topology.Out n c' m → c.target = m := by
    intro c' m out
    have held : (net.node n).selfData.fdsSuccessor = some c' := out.fds
    obtain rfl : c' = c := Option.some.inj (held.symm.trans fds)
    exact out.target
  rcases inStage.polling_cases polls with ⟨mem, q6⟩ | ⟨p, s, c₁, c₂, j, rfl⟩
  · by_cases bare : stage.Bare n
    · cases stage with
      | taken l p s c₁ c₂ =>
          have taken : Taken net.topology net.control plan l p s c₁ c₂ := inStage
          obtain rfl : n = p := bare
          refine Or.inl ⟨mem, Or.inr ⟨l, rfl, reach taken.between.out_p, fun x => ?_⟩⟩
          rw [taken.next_p]
          exact if_pos rfl
      | polling l p s c₁ c₂ j =>
          have polling : Polling net.topology net.control plan l p s c₁ c₂ j := inStage
          obtain rfl : n = p := bare
          refine Or.inl ⟨mem, Or.inr ⟨l, rfl, reach polling.between.out_p, fun x => ?_⟩⟩
          rw [polling.next_p]
          exact if_pos rfl
      | repair x y upper lower =>
          have repair : Repair net.topology net.control plan x y upper lower := inStage
          have ok := repair.upper_ok
          cases upper with
          | accepting w c' start stop =>
              rcases bare with rfl | feeds
              · have pc : (net.node n).pc = .q7Accept := repair.pc_x ok.1
                rw [q6] at pc
                cases pc
              · obtain rfl : n = w := feeds
                obtain ⟨-, -, next, out, -⟩ := ok
                exact Or.inl ⟨mem, Or.inl ((reach out).trans next.symm)⟩
          | receiving c' start stop =>
              obtain rfl : n = x := bare.resolve_right fun feeds => feeds
              have pc : (net.node n).pc = .q7Receive := repair.pc_x ok.1
              rw [q6] at pc
              cases pc
          | orphan c' =>
              obtain rfl : n = x := bare.resolve_right fun feeds => feeds
              have gone : (net.node c'.target).pc = .exited true := ok.2
              exact Or.inr (Or.inr ⟨⟨y, c', lower, rfl⟩, by rw [reach ok.1, gone]⟩)
          | connected c' =>
              obtain rfl : n = x := bare.resolve_right fun feeds => feeds
              exact Or.inl ⟨mem, Or.inl ((reach ok.2.1).trans repair.next.symm)⟩
          | alone =>
              obtain rfl : n = x := bare.resolve_right fun feeds => feeds
              have none_yet : (net.node n).selfData.fdsSuccessor = none := ok.2.fds
              rw [fds] at none_yet
              cases none_yet
      | _ => exact bare.elim
    · rcases ring.linked n mem bare with ⟨-, c', out, -⟩ | ⟨-, noOut, -⟩
      · exact Or.inl ⟨mem, Or.inl (reach out)⟩
      · have none_yet : (net.node n).selfData.fdsSuccessor = none := noOut.fds
        rw [fds] at none_yet
        cases none_yet
  · have polling : Polling net.topology net.control plan n p s c₁ c₂ j := inStage
    have mem_s := polling.next_p ▸ Plan.member_next ring.tiled polling.between.prev
    exact Or.inr (Or.inl ⟨p, s, c₁, c₂, j, rfl, mem_s, reach polling.between.out_l⟩)

theorem Net.InStage.closer (inStage : net.InStage plan stage) {n : Addr} {i : FdsIndex} {back : Pc}
    (polls : (net.node n).pc.polls i = some back) {c : Conn}
    (fds : (net.node n).selfData.fdsSuccessor = some c) (served : net.topology.Served (.up c))
    {ssn : Ssn} (out : checkRange (net.node n).selfData ssn = false) :
    stage.way plan c.target (hashSsn ssn).toNat < stage.way plan n (hashSsn ssn).toNat := by
  have ring := inStage.ring
  have bounded : (hashSsn ssn).toNat < 256 := (hashSsn ssn).toNat_lt
  rcases inStage.sends_on polls fds with ⟨mem, target⟩ | ⟨p, s, c₁, c₂, j, rfl, mem_s, target⟩ | ⟨-, gone⟩
  · have q6 : (net.node n).pc = .q6 := by
      rcases inStage.polling_cases polls with ⟨-, q6⟩ | ⟨p, s, c₁, c₂, j, rfl⟩
      · exact q6
      · exact absurd mem (Polling.gone inStage)
    have other : plan.own (hashSsn ssn).toNat ≠ n := by
      intro owner
      obtain ⟨start, stop⟩ := ring.node_range mem (by rw [q6]; rfl)
      have inside := Tiling.Tiled.at ring.tiled bounded
      rw [owner, ← start, ← stop, ← checkRange_eq_true, out] at inside
      cases inside
    have closer : Tiling.gap 256 (plan.lo (plan.next n)) (hashSsn ssn).toNat <
        Tiling.gap 256 (plan.lo n) (hashSsn ssn).toNat :=
      Tiling.Tiled.gap_next_lt ring.tiled mem bounded other
    rw [Change.way_of_not_guest (inStage.not_guest mem)]
    rcases target with next | ⟨l, -, there, way⟩
    · rw [next, Change.way_of_not_guest
        (inStage.not_guest (Plan.member_next ring.tiled mem))]
      omega
    · rw [there, way]
      omega
  · rw [target, Change.way_of_not_guest (inStage.not_guest mem_s)]
    simp [Change.way]
  · have listens : (net.node c.target).pc.listens = true := served.1
    rw [gone] at listens
    cases listens

/-! ## What is left to do -/

def Msg.point (msg : Msg) : ℕ :=
  match msg.pdu.requestKey with
  | some ssn => (hashSsn ssn).toNat
  | none => 0

theorem Msg.point_of_request {msg : Msg} {ssn : Ssn} (key : msg.pdu.requestKey = some ssn) :
    msg.point = (hashSsn ssn).toNat := by
  rw [Msg.point, key]

/-- The steps that requests at a place are from their ends. -/
def Change.toGo (plan : Plan) (stage : Change) (loc : Loc) (msgs : List Msg) : ℕ :=
  (msgs.map fun msg => stage.way plan loc.reader msg.point + 1).sum

@[simp] theorem toGo_nil (loc : Loc) : stage.toGo plan loc [] = 0 := rfl

@[simp] theorem toGo_cons (loc : Loc) (msg : Msg) (rest : List Msg) :
    stage.toGo plan loc (msg :: rest) =
      stage.way plan loc.reader msg.point + 1 + stage.toGo plan loc rest := by
  simp [Change.toGo]

@[simp] theorem toGo_append (loc : Loc) (first second : List Msg) :
    stage.toGo plan loc (first ++ second) = stage.toGo plan loc first + stage.toGo plan loc second := by
  simp [Change.toGo]

/-- The requests lie at finitely many places and are `w` steps from their ends. -/
def Change.Weighs (plan : Plan) (stage : Change) (requests : Loc → List Msg) (w : ℕ) : Prop :=
  ∃ places : Finset Loc, (∀ loc, loc ∉ places → requests loc = []) ∧
    ∑ loc ∈ places, stage.toGo plan loc (requests loc) = w

section

variable {requests : Loc → List Msg} {w : ℕ}

theorem Change.Weighs.at (weighs : stage.Weighs plan requests w) (loc : Loc) :
    ∃ places : Finset Loc, loc ∈ places ∧ (∀ other, other ∉ places → requests other = []) ∧
      ∑ other ∈ places, stage.toGo plan other (requests other) = w := by
  obtain ⟨places, outside, sum⟩ := weighs
  by_cases counted : loc ∈ places
  · exact ⟨places, counted, outside, sum⟩
  · refine ⟨insert loc places, Finset.mem_insert_self .., ?_, ?_⟩
    · intro other not_in
      exact outside other fun mem => not_in (Finset.mem_insert_of_mem mem)
    · rw [Finset.sum_insert counted, outside loc counted, toGo_nil, sum, Nat.zero_add]

theorem Change.Weighs.update (weighs : stage.Weighs plan requests w) (loc : Loc) (msgs : List Msg) :
    ∃ w', stage.Weighs plan (Function.update requests loc msgs) w' ∧
      w' + stage.toGo plan loc (requests loc) = w + stage.toGo plan loc msgs := by
  obtain ⟨places, counted, outside, sum⟩ := weighs.at loc
  refine ⟨_, ⟨places, ?_, rfl⟩, ?_⟩
  · intro other not_in
    have apart : other ≠ loc := fun eq => not_in (by rw [eq]; exact counted)
    rw [Function.update_of_ne apart]
    exact outside other not_in
  · have rest : ∑ other ∈ places.erase loc,
        stage.toGo plan other (Function.update requests loc msgs other) =
        ∑ other ∈ places.erase loc, stage.toGo plan other (requests other) := by
      refine Finset.sum_congr rfl fun other mem => ?_
      rw [Function.update_of_ne (Finset.ne_of_mem_erase mem)]
    have before := Finset.add_sum_erase places
      (fun other => stage.toGo plan other (requests other)) counted
    have after := Finset.add_sum_erase places
      (fun other => stage.toGo plan other (Function.update requests loc msgs other)) counted
    simp only [Function.update_self] at before after
    omega

theorem Change.Weighs.replan (weighs : stage.Weighs plan requests w) :
    ∃ w', stage'.Weighs plan' requests w' := by
  obtain ⟨places, outside, -⟩ := weighs
  exact ⟨_, places, outside, rfl⟩

theorem weighs_nothing (empty : ∀ loc, requests loc = []) : stage.Weighs plan requests 0 :=
  ⟨∅, fun loc _ => empty loc, rfl⟩

theorem Net.Flow.weighs (flow : net.Flow net') (weighs : stage.Weighs plan net.requests w) :
    ∃ w', stage'.Weighs plan' net'.requests w' := by
  cases flow with
  | still requests =>
      rw [requests]
      exact weighs.replan
  | serve n loc msg rest ssn outcome q6 head reader key in_range dispatched requests =>
      rw [requests]
      obtain ⟨_, after, -⟩ := weighs.update loc rest
      exact after.replan
  | pass n loc msg rest c head reader fds apart requests =>
      rw [requests]
      obtain ⟨_, after, -⟩ := weighs.update loc rest
      obtain ⟨_, after, -⟩ := after.update (.up c) (net.requests (.up c) ++ [msg])
      exact after.replan
  | spread n fd entries requests =>
      rw [requests]
      obtain ⟨_, after, -⟩ := weighs.update fd (net.requests fd ++ entries.map transfer)
      exact after.replan

theorem Net.Handled.weighs (handled : net.Handled net') (inStage : net.InStage plan stage)
    (weighs : stage.Weighs plan net.requests w) :
    ∃ w' < w, stage.Weighs plan net'.requests w' := by
  cases handled with
  | serve n loc msg rest ssn outcome q6 head reader key in_range dispatched requests =>
      obtain ⟨w', after, count⟩ := weighs.update loc rest
      rw [head, toGo_cons] at count
      rw [requests]
      exact ⟨w', by omega, after⟩
  | pass n i back loc msg rest ssn c polls head reader key out tagged fds served apart requests =>
      have closer := inStage.closer polls fds served out
      obtain ⟨w₁, taken, count⟩ := weighs.update loc rest
      obtain ⟨w₂, after, count'⟩ := taken.update (.up c) (net.requests (.up c) ++ [msg])
      rw [Function.update_of_ne apart, toGo_append, toGo_cons, toGo_nil] at count'
      rw [head, toGo_cons, reader] at count
      rw [Msg.point_of_request key] at count count'
      have target : (Loc.up c).reader = c.target := rfl
      rw [target] at count'
      rw [requests]
      exact ⟨w₂, by omega, after⟩

end

/-! ## Every run ends -/

structure Net.Bounded (net : Net) (plan : Plan) (stage : Change) (bound : ℕ × ℕ) : Prop where
  measured : stage.Measured plan bound.1
  weighs : stage.Weighs plan net.requests bound.2

/-- Every step brings the change closer to its end, or a request. -/
theorem Net.Goes.bounded {act : Act} (goes : net.Goes plan stage act net' plan' stage')
    (inStage : net.InStage plan stage) {bound : ℕ × ℕ} (bounded : net.Bounded plan stage bound) :
    ∃ bound', Prod.Lex (· < ·) (· < ·) bound' bound ∧ net'.Bounded plan' stage' bound' := by
  obtain ⟨m, w⟩ := bound
  obtain ⟨measured, weighs⟩ := bounded
  rcases goes with ⟨leads, flow⟩ | ⟨rfl, turns, handled⟩
  · obtain ⟨m', less, measured'⟩ := leads.measured inStage measured
    obtain ⟨w', weighs'⟩ : ∃ w', stage'.Weighs plan' net'.requests w' := flow.weighs weighs
    exact ⟨(m', w'), .left _ _ less, measured', weighs'⟩
  · obtain ⟨w', less, weighs'⟩ := handled.weighs inStage weighs
    refine ⟨(m, w'), .right _ less, ?_, ?_⟩
    · rcases turns with rfl | ⟨l, p, s, c, c', i, i', rfl, rfl⟩
      · exact measured
      · exact measured
    · obtain ⟨places, outside, sum⟩ := weighs'
      refine ⟨places, outside, ?_⟩
      rw [← sum]
      refine Finset.sum_congr rfl fun loc _ => ?_
      rw [Change.toGo, Change.toGo, turns.way]

end DhtRing

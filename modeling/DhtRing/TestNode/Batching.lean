import DhtRing.TestNode.Rounds

/-!
# PDUs that meet in one round

`handle_pdu` parks a PDU in `last_pdu` and schedules a state; the next PDU of the round that
`q6` acts on, or a close request, takes the place of both.  So a round does the same as one
round for each PDU exactly when nothing comes behind a parked PDU.
-/

set_option autoImplicit false

namespace DhtRing.TestNode.Node

/-! ## One round, and a round for each PDU -/

def batched (env : Env) (node : Node) (pdus : List (PDU × Source)) (interrupt : Bool) :
    Except String Node := do
  let node ← node.round env pdus interrupt
  node.settle env

/-- Each PDU in a round of its own, and then the close request. -/
def oneByOne (env : Env) (close : Bool) : List (PDU × Source) → Node → Except String Node
  | [], node => node.batched env [] close
  | x :: pdus, node => do
      let node ← node.batched env [x] false
      oneByOne env close pdus node

def separately (env : Env) (node : Node) (pdus : List (PDU × Source)) (interrupt : Bool) :
    Except String Node :=
  oneByOne env (node.shouldClose || interrupt) pdus { node with shouldClose := false }

/-- How many parked PDUs a later PDU or the close request takes the place of. -/
def overwritten (close : Bool) : List (PDU × Source) → Node → ℕ
  | [], node => if node.parked && close then 1 else 0
  | x :: pdus, node =>
      (if node.parked && x.1.accepted then 1 else 0) +
        match node.handlePdu x.1 x.2 with
        | .error _ => 0
        | .ok next => overwritten close pdus next

/-- The round does what one round for each PDU does, and no PDU is dropped. -/
def BatchingHarmless (env : Env) (node : Node) (pdus : List (PDU × Source)) (interrupt : Bool) :
    Prop :=
  node.batched env pdus interrupt = node.separately env pdus interrupt ∧
    node.overwritten (node.shouldClose || interrupt) pdus = 0

/-- Nothing that `q6` acts on comes behind a parked PDU, if the node gets as far as that. -/
def NothingBehind (node : Node) (pdus : List (PDU × Source)) (close : Bool) : Prop :=
  ∀ before x after, pdus = before ++ x :: after → parks x →
    (∀ y ∈ before, ¬ node.fatal y) → (∀ y ∈ after, y.1.accepted = false) ∧ close = false

/-! ## What one PDU does -/

variable {env : Env} {node next : Node} {x : PDU × Source}

theorem handlePdu_of_ignored (ignored : x.1.accepted = false) (node : Node) :
    node.handlePdu x.1 x.2 = .ok node := by
  obtain ⟨pdu, source⟩ := x
  cases pdu <;> first | rfl | cases ignored

theorem handlePdu_of_fatal (panics : node.fatal x = true) :
    ∃ e, node.handlePdu x.1 x.2 = .error e := by
  obtain ⟨pdu, source⟩ := x
  cases key : pdu.key with
  | none => 
      cases pdu with
      | netCloseConnection pdu =>
          cases source with
          | predecessor sender => cases panics
          | udp sender => exact ⟨_, rfl⟩
          | successor sender => exact ⟨_, rfl⟩
      | valInsert pdu => cases key
      | valRemove pdu => cases key
      | valLookup pdu => cases key
      | _ => cases panics
  | some ssn =>
      have outside : node.inMyRange ssn = false ∧ node.successor = none := by
        cases pdu <;> cases key <;>
          simpa [fatal, PDU.key] using panics
      rw [handlePdu_of_key key, if_neg (by simp [outside.1]), forward_of_none outside.2]
      exact ⟨_, rfl⟩

theorem handlePdu_of_parks (waits : parks x = true) (node : Node) :
    ∃ next, node.handlePdu x.1 x.2 = .ok next ∧ next.parked = true ∧ Kept node next ∧
      next.hashRange = node.hashRange := by
  obtain ⟨pdu, source⟩ := x
  cases pdu with
  | netJoin pdu => exact ⟨_, rfl, rfl, ⟨⟨rfl, rfl⟩, rfl, rfl⟩, rfl⟩
  | netNewRange pdu => exact ⟨_, rfl, rfl, ⟨⟨rfl, rfl⟩, rfl, rfl⟩, rfl⟩
  | netLeaving pdu => exact ⟨_, rfl, rfl, ⟨⟨rfl, rfl⟩, rfl, rfl⟩, rfl⟩
  | netCloseConnection pdu =>
      cases source with
      | predecessor sender => exact ⟨_, rfl, rfl, ⟨⟨rfl, rfl⟩, rfl, rfl⟩, rfl⟩
      | udp sender => cases waits
      | successor sender => cases waits
  | _ => cases waits

theorem handlePdu_of_request (accepted : x.1.accepted = true) (runs : parks x = false)
    (safe : node.fatal x = false) :
    ∃ next, node.handlePdu x.1 x.2 = .ok next ∧ next.state = .q6 ∧ Kept node next ∧
      next.hashRange = node.hashRange := by
  obtain ⟨pdu, source⟩ := x
  cases key : pdu.key with
  | none =>
      cases pdu with
      | netCloseConnection pdu =>
          cases source with
          | predecessor sender => cases runs
          | udp sender => cases safe
          | successor sender => cases safe
      | valInsert pdu => cases key
      | valRemove pdu => cases key
      | valLookup pdu => cases key
      | netJoin pdu => cases runs
      | netNewRange pdu => cases runs
      | netLeaving pdu => cases runs
      | _ => cases accepted
  | some ssn =>
      rw [handlePdu_of_key key]
      by_cases mine : node.inMyRange ssn = true
      · rw [if_pos mine]
        refine ⟨_, rfl, rfl, ?_, ?_⟩
        · cases pdu <;> exact ⟨⟨rfl, rfl⟩, rfl, rfl⟩
        · cases pdu <;> rfl
      · have set : node.successor ≠ none := by
          intro unset
          cases pdu <;> cases key <;> simp [fatal, PDU.key, unset, mine] at safe
        obtain ⟨socket, set⟩ := Option.ne_none_iff_exists'.mp set
        rw [if_neg mine, forward_of_some set]
        exact ⟨_, rfl, rfl, ⟨⟨rfl, rfl⟩, rfl, rfl⟩, rfl⟩

theorem fatal_congr (successor : next.successor = node.successor)
    (range : next.hashRange = node.hashRange)
    (y : PDU × Source) : next.fatal y = node.fatal y := by
  obtain ⟨pdu, source⟩ := y
  have mine : ∀ ssn, next.inMyRange ssn = node.inMyRange ssn := by
    intro ssn
    rw [inMyRange, inMyRange, range]
  cases pdu <;> cases source <;> simp only [fatal, successor, mine]

/-- The three kinds of PDU that do not end in a panic. -/
theorem handlePdu_of_safe (safe : node.fatal x = false) :
    ∃ next, node.handlePdu x.1 x.2 = .ok next ∧ Kept node next ∧
      next.hashRange = node.hashRange ∧
      (x.1.accepted = false ∧ next = node ∨ parks x = true ∧ next.parked = true ∨
        parks x = false ∧ next.state = .q6) := by
  by_cases waits : parks x = true
  · obtain ⟨next, handled, parked, kept, range⟩ := handlePdu_of_parks waits node
    exact ⟨next, handled, kept, range, Or.inr (Or.inl ⟨waits, parked⟩)⟩
  · have runs := eq_false_of_ne_true waits
    by_cases accepted : x.1.accepted = true
    · obtain ⟨next, handled, state, kept, range⟩ := handlePdu_of_request accepted runs safe
      exact ⟨next, handled, kept, range, Or.inr (Or.inr ⟨runs, state⟩)⟩
    · have ignored := eq_false_of_ne_true accepted
      exact ⟨node, handlePdu_of_ignored ignored node, ⟨⟨rfl, rfl⟩, rfl, rfl⟩, rfl,
        Or.inl ⟨ignored, rfl⟩⟩

/-! ## What is dropped -/

theorem overwritten_cons (close : Bool) (pdus : List (PDU × Source)) (node : Node) :
    node.overwritten close (x :: pdus) = 0 ↔
      (node.parked = true → x.1.accepted = false) ∧
        ∀ next, node.handlePdu x.1 x.2 = .ok next → next.overwritten close pdus = 0 := by
  rw [overwritten, Nat.add_eq_zero_iff]
  refine and_congr ?_ ?_
  · by_cases waits : node.parked = true
    · by_cases accepted : x.1.accepted = true
      · simp [waits, accepted]
      · simp [waits, accepted]
    · simp [waits]
  · cases node.handlePdu x.1 x.2 with
    | error e => simp
    | ok next => simp

/-- Nothing is dropped when nothing comes behind the PDU that is parked already, nor behind
one that the round parks. -/
theorem overwritten_eq_zero_iff {close : Bool} : ∀ {pdus : List (PDU × Source)} {node : Node},
    node.overwritten close pdus = 0 ↔
      (node.parked = true → (∀ y ∈ pdus, y.1.accepted = false) ∧ close = false) ∧
        node.NothingBehind pdus close := by
  intro pdus
  induction pdus with
  | nil =>
      intro node
      have nothing : node.NothingBehind [] close := by
        intro before x after split
        simp at split
      rw [overwritten]
      by_cases waits : node.parked = true <;> cases close <;> simp [waits, nothing]
  | cons x pdus ih =>
      intro node
      rw [overwritten_cons]
      constructor
      · rintro ⟨head, rest⟩
        refine ⟨?_, ?_⟩
        · intro waits
          have ignored := head waits
          have tail := (ih.mp (rest node (handlePdu_of_ignored ignored node))).1 waits
          refine ⟨?_, tail.2⟩
          rintro y (_ | ⟨_, inside⟩)
          · exact ignored
          · exact tail.1 y inside
        · intro before y after split waits safe
          cases before with
          | nil =>
              obtain ⟨rfl, rfl⟩ := List.cons.inj split
              obtain ⟨next, handled, parked, -⟩ := handlePdu_of_parks waits node
              exact (ih.mp (rest next handled)).1 parked
          | cons z before =>
              obtain ⟨rfl, rfl⟩ := List.cons.inj split
              have safe_head := eq_false_of_ne_true (safe x (List.mem_cons_self ..))
              obtain ⟨next, handled, kept, range, -⟩ := handlePdu_of_safe safe_head
              refine (ih.mp (rest next handled)).2 before y after rfl waits ?_
              intro u inside
              rw [fatal_congr kept.successor range]
              exact safe u (List.mem_cons_of_mem _ inside)
      · rintro ⟨head, behind⟩
        refine ⟨fun waits => (head waits).1 x (List.mem_cons_self ..), ?_⟩
        intro next handled
        have safe : node.fatal x = false := by
          by_contra panics
          obtain ⟨e, failed⟩ := handlePdu_of_fatal (eq_true_of_ne_false panics)
          rw [failed] at handled
          cases handled
        obtain ⟨next', handled', kept, range, kinds⟩ := handlePdu_of_safe safe
        obtain rfl := Except.ok.inj (handled.symm.trans handled')
        refine ih.mpr ⟨?_, ?_⟩
        · intro waits
          rcases kinds with ⟨-, rfl⟩ | ⟨parks_x, -⟩ | ⟨-, state⟩
          · exact ⟨fun y inside => (head waits).1 y (List.mem_cons_of_mem _ inside),
              (head waits).2⟩
          · exact behind [] x pdus rfl parks_x (by simp)
          · simp [parked, state] at waits
        · intro before y after split waits safe_before
          refine behind (x :: before) y after (by rw [split, List.cons_append]) waits ?_
          intro u inside
          rcases List.mem_cons.mp inside with rfl | inside
          · simp [safe]
          · rw [← fatal_congr kept.successor range]
            exact safe_before u inside

/-! ## Between two rounds -/

theorem step_of_q6 (state : node.state = .q6) (env : Env) : node.step env = .ok node := by
  rw [step, state]

theorem settle_of_step (stays : node.step env = .ok node) : node.settle env = .ok node := by
  rw [settle, stays, ok_bind, stays]

theorem settle_ends (env : Env) (waits : node.parked = true) :
    Ends (fun _ => True) (fun next => Timeless node next ∧ next.state = .q6)
      (node.settle env) := by
  have twice {first : Except String Node} (at_once : Ends Other
      (fun next => Timeless node next ∧ next.state = .q6) first) :
      Ends (fun _ => True) (fun next => Timeless node next ∧ next.state = .q6)
        (first >>= fun next => next.step env) := by
    refine (at_once.mono (fun _ _ => trivial) fun _ holds => holds).bind fun next holds => ?_
    rw [step_of_q6 holds.2]
    exact .ok holds
  have others : ∀ e, Other e → True := fun _ _ => trivial
  unfold settle
  simp only [parked, Bool.or_eq_true, decide_eq_true_eq] at waits
  rcases waits with ((join | range) | leaving) | closing
  · have first : node.step env = node.q12 := by rw [step, join]
    rw [first]
    refine ((q12_ends node).mono others fun _ holds => holds).bind ?_
    rintro next ⟨kept, -, alone | ⟨elected | passing, set⟩⟩
    · rw [step, alone]
      refine (q5_ends env next).mono others fun last holds => ?_
      exact ⟨kept.timeless.trans holds.1, holds.2.1⟩
    · rw [step, elected]
      refine (q13_ends env next).mono others fun last holds => ?_
      exact ⟨kept.timeless.trans holds.1, holds.2.1⟩
    · rw [step, passing]
      refine (q14_ends next (by rw [kept.successor, set])).mono others fun last holds => ?_
      exact ⟨kept.timeless.trans holds.1.timeless, holds.2.2⟩
  · have first : node.step env = node.q15 := by rw [step, range]
    rw [first]
    exact twice ((q15_ends node).mono (fun _ other => other)
      fun last holds => ⟨holds.1.timeless, holds.2.1⟩)
  · have first : node.step env = node.q16 env := by rw [step, leaving]
    rw [first]
    exact twice ((q16_ends env node).mono (fun _ other => other)
      fun last holds => ⟨holds.1, holds.2.1⟩)
  · have first : node.step env = node.q17 env := by rw [step, closing]
    rw [first]
    exact twice ((q17_ends env node).mono (fun _ other => other)
      fun last holds => ⟨holds.1, holds.2⟩)

/-! ## Rounds on a node that has just told the tracker that it is alive -/

theorem sendAlive_fresh (env : Env) (node : Node) :
    env.now - (node.sendAlive env).lastAlive ≤ 10 := by
  unfold sendAlive
  split
  · exact (Nat.sub_self _).le.trans (Nat.zero_le _)
  · rename_i early
    exact Nat.le_of_not_lt early

theorem sendAlive_of_fresh (fresh : env.now - node.lastAlive ≤ 10) :
    node.sendAlive env = node := by
  rw [sendAlive, if_neg (Nat.not_lt.mpr fresh)]

theorem sendAlive_keeps (env : Env) (node : Node) :
    (node.sendAlive env).state = node.state ∧
      (node.sendAlive env).shouldClose = node.shouldClose ∧
      (node.sendAlive env).successor = node.successor ∧
      (node.sendAlive env).hashRange = node.hashRange := by
  unfold sendAlive
  split <;> exact ⟨rfl, rfl, rfl, rfl⟩

def withClose (node : Node) (close : Bool) : Node := { node with shouldClose := close }

theorem handlePdu_withClose (close : Bool) (pdu : PDU) (source : Source) :
    (node.withClose close).handlePdu pdu source =
      (·.withClose close) <$> node.handlePdu pdu source := by
  cases key : pdu.key with
  | some ssn =>
      rw [handlePdu_of_key key, handlePdu_of_key key]
      have mine : (node.withClose close).inMyRange ssn = node.inMyRange ssn := rfl
      rw [mine]
      split
      · cases pdu <;> rfl
      · rcases Option.eq_none_or_eq_some node.successor with unset | ⟨socket, set⟩
        · rw [forward_of_none unset, forward_of_none (by exact unset)]
          rfl
        · rw [forward_of_some set, forward_of_some (by exact set)]
          rfl
  | none =>
      cases pdu with
      | netCloseConnection pdu => cases source <;> rfl
      | valInsert pdu => cases key
      | valRemove pdu => cases key
      | valLookup pdu => cases key
      | _ => rfl

theorem handlePdus_withClose (close : Bool) (pdus : List (PDU × Source)) : ∀ node : Node,
    (node.withClose close).handlePdus pdus = (·.withClose close) <$> node.handlePdus pdus := by
  induction pdus with
  | nil =>
      intro node
      rfl
  | cons x pdus ih =>
      intro node
      rw [handlePdus, List.foldlM_cons, handlePdu_withClose, handlePdus, List.foldlM_cons]
      cases node.handlePdu x.1 x.2 with
      | error e => rfl
      | ok next => exact ih next

def finish (env : Env) (close : Bool) (node : Node) : Except String Node :=
  (checkClose (node.withClose close)).settle env

theorem batched_eq (env : Env) (node : Node) (pdus : List (PDU × Source)) (interrupt : Bool) :
    node.batched env pdus interrupt =
      (((node.withClose false).sendAlive env).handlePdus pdus >>=
        finish env (node.shouldClose || interrupt)) := by
  have alive : (node.withClose false).sendAlive env = (node.sendAlive env).withClose false := by
    unfold sendAlive
    have same : (node.withClose false).lastAlive = node.lastAlive := rfl
    rw [same]
    split <;> rfl
  have close := (sendAlive_keeps env node).2.1
  rw [batched, round, alive, handlePdus_withClose]
  cases handled : (node.sendAlive env).handlePdus pdus with
  | error e => rfl
  | ok next =>
      have same := handlePdus_withClose (node.sendAlive env).shouldClose pdus (node.sendAlive env)
      change (node.sendAlive env).handlePdus pdus = _ at same
      rw [handled] at same
      have kept : next.shouldClose = node.shouldClose := by
        rw [Except.ok.inj same, ← close]
        rfl
      rw [← kept]
      rfl

theorem withClose_self (node : Node) : node.withClose node.shouldClose = node := rfl

theorem batched_of_fresh (fresh : env.now - node.lastAlive ≤ 10)
    (running : node.shouldClose = false)
    (pdus : List (PDU × Source)) (interrupt : Bool) :
    node.batched env pdus interrupt = (node.handlePdus pdus >>= finish env interrupt) := by
  have same : node.withClose false = node := by rw [← running, withClose_self]
  rw [batched_eq, same, sendAlive_of_fresh fresh, running, Bool.false_or]

theorem finish_of_open (running : node.shouldClose = false) (env : Env) :
    finish env false node = node.settle env := by
  have same : node.withClose false = node := by rw [← running, withClose_self]
  rw [finish, same, checkClose, running]
  rfl

theorem finish_of_q6 (state : node.state = .q6) (running : node.shouldClose = false)
    (env : Env) : finish env false node = .ok node := by
  rw [finish_of_open running]
  exact settle_of_step (step_of_q6 state env)

theorem oneByOne_of_ignored {close : Bool} : ∀ {pdus : List (PDU × Source)},
    (∀ y ∈ pdus, y.1.accepted = false) → close = false → ∀ {node : Node},
    env.now - node.lastAlive ≤ 10 → node.state = .q6 → node.shouldClose = false →
      oneByOne env close pdus node = .ok node := by
  intro pdus ignored close node fresh state running
  subst close
  induction pdus with
  | nil =>
      rw [oneByOne, batched_of_fresh fresh running]
      exact finish_of_q6 state running env
  | cons x pdus ih =>
      have one : node.handlePdus [x] = .ok node := by
        rw [handlePdus, List.foldlM_cons,
          handlePdu_of_ignored (ignored x (List.mem_cons_self ..))]
        rfl
      rw [oneByOne, batched_of_fresh fresh running, one, ok_bind,
        finish_of_q6 state running, ok_bind]
      exact ih fun y inside => ignored y (List.mem_cons_of_mem _ inside)

theorem handlePdus_of_ignored {pdus : List (PDU × Source)}
    (ignored : ∀ y ∈ pdus, y.1.accepted = false) (node : Node) :
    node.handlePdus pdus = .ok node := by
  induction pdus with
  | nil => rfl
  | cons x pdus ih =>
      rw [handlePdus, List.foldlM_cons, handlePdu_of_ignored (ignored x (List.mem_cons_self ..))]
      exact ih fun y inside => ignored y (List.mem_cons_of_mem _ inside)

theorem handlePdus_eq_oneByOne {close : Bool} : ∀ {pdus : List (PDU × Source)} {node : Node},
    env.now - node.lastAlive ≤ 10 → node.state = .q6 → node.shouldClose = false →
    node.NothingBehind pdus close →
      (node.handlePdus pdus >>= finish env close) = oneByOne env close pdus node := by
  intro pdus
  induction pdus with
  | nil =>
      intro node fresh _ running _
      rw [oneByOne, batched_of_fresh fresh running]
  | cons x pdus ih =>
      intro node fresh state running behind
      have one : node.handlePdus [x] = node.handlePdu x.1 x.2 := by
        rw [handlePdus, List.foldlM_cons]
        cases node.handlePdu x.1 x.2 <;> rfl
      rw [oneByOne, batched_of_fresh fresh running, one, handlePdus, List.foldlM_cons]
      by_cases panics : node.fatal x = true
      · obtain ⟨e, failed⟩ := handlePdu_of_fatal panics
        rw [failed]
        rfl
      · have safe := eq_false_of_ne_true panics
        obtain ⟨next, handled, kept, range, kinds⟩ := handlePdu_of_safe safe
        have fresh_next : env.now - next.lastAlive ≤ 10 := by
          rw [kept.timeless.1]
          exact fresh
        have running_next : next.shouldClose = false := by rw [kept.timeless.2, running]
        have behind_next : next.NothingBehind pdus close := by
          intro before y after split waits safe_before
          refine behind (x :: before) y after (by rw [split, List.cons_append]) waits ?_
          intro u inside
          rcases List.mem_cons.mp inside with rfl | inside
          · exact panics
          · rw [← fatal_congr kept.successor range]
            exact safe_before u inside
        rw [handled, ok_bind, ok_bind]
        rcases kinds with ⟨-, rfl⟩ | ⟨waits, parked⟩ | ⟨-, state_next⟩
        · rw [finish_of_q6 state running, ok_bind]
          exact ih fresh state running behind_next
        · -- The PDU is parked, and the rest of the round is ignored.
          obtain ⟨ignored, rfl⟩ := behind [] x pdus rfl waits (by simp)
          change (next.handlePdus pdus >>= _) = _
          rw [handlePdus_of_ignored ignored, ok_bind, finish_of_open running_next]
          have settled := settle_ends env parked
          cases last : next.settle env with
          | error e => rfl
          | ok last' =>
              rw [last] at settled
              obtain ⟨timeless, state_last⟩ := settled.value
              symm
              rw [ok_bind]
              have fresh_last : env.now - last'.lastAlive ≤ 10 := by
                rw [timeless.1]
                exact fresh_next
              exact oneByOne_of_ignored ignored rfl fresh_last state_last
                (timeless.2.trans running_next)
        · rw [finish_of_q6 state_next running_next, ok_bind]
          exact ih fresh_next state_next running_next behind_next

theorem batched_sendAlive (env : Env) (node : Node) (pdus : List (PDU × Source))
    (interrupt : Bool) :
    (node.sendAlive env).batched env pdus interrupt = node.batched env pdus interrupt := by
  rw [batched, round, sendAlive_of_fresh (sendAlive_fresh env node), batched, round]

theorem oneByOne_sendAlive (env : Env) (close : Bool) (pdus : List (PDU × Source)) (node : Node) :
    oneByOne env close pdus (node.sendAlive env) = oneByOne env close pdus node := by
  cases pdus with
  | nil => rw [oneByOne, batched_sendAlive, oneByOne]
  | cons x pdus => rw [oneByOne, batched_sendAlive, oneByOne]

/-- Batching is harmless exactly when nothing comes behind a parked PDU. -/
theorem batchingHarmless_iff (env : Env) (node : Node) (pdus : List (PDU × Source))
    (interrupt : Bool) (ready : node.state = .q6) :
    node.BatchingHarmless env pdus interrupt ↔
      node.NothingBehind pdus (node.shouldClose || interrupt) := by
  have free : node.parked = false := by simp [parked, ready]
  constructor
  · rintro ⟨-, none⟩
    exact (overwritten_eq_zero_iff.mp none).2
  · intro behind
    refine ⟨?_, overwritten_eq_zero_iff.mpr ⟨fun waits => ?_, behind⟩⟩
    · rw [batched_eq, separately]
      change _ = oneByOne env _ pdus (node.withClose false)
      rw [← oneByOne_sendAlive]
      obtain ⟨state, close, successor, range⟩ := sendAlive_keeps env (node.withClose false)
      refine handlePdus_eq_oneByOne (sendAlive_fresh ..) (state.trans ready) close ?_
      intro before x after split waits safe
      refine behind before x after split waits fun y inside => ?_
      have same : _ = node.fatal y := fatal_congr (successor.trans rfl) (range.trans rfl) y
      rw [← same]
      exact safe y inside
    · rw [free] at waits
      cases waits

def reachable : Env where
  now := 0
  connect opened addr := some ⟨opened, addr, [], false⟩
  accept opened := some ⟨opened, ⟨0, 0⟩, [], false⟩

def founder : Node :=
  { (Node.new ⟨1, 5000⟩ 4000 4001).q4 with ownAddress := some 1 }

def join : PDU × Source := (.netJoin (NetJoinPdu.new 2 4002 0 0 0), .udp ⟨2, 4003⟩)

def insert : PDU × Source :=
  (.valInsert (ValInsertPdu.new (List.replicate 12 '0') ['n'] ['e']), .udp ⟨3, 4004⟩)

/-- The join comes last. -/
theorem batchingHarmless_iff_insertFirst :
    founder.BatchingHarmless reachable [insert, join] false := by
  refine (batchingHarmless_iff reachable founder [insert, join] false rfl).mpr ?_
  intro before x after split waits _
  rcases before with _ | ⟨y, _ | ⟨z, before⟩⟩
  · obtain ⟨rfl, rfl⟩ := List.cons.inj split
    cases waits
  · obtain ⟨-, split⟩ := List.cons.inj split
    obtain ⟨-, rfl⟩ := List.cons.inj split
    exact ⟨by simp, rfl⟩
  · simp at split

/-- The request of the client takes the place of the join, and the node stays alone. -/
theorem join_overwritten :
    ¬ founder.BatchingHarmless reachable [join, insert] false ∧
      (·.successor.isSome) <$> founder.batched reachable [join, insert] false = .ok false ∧
      (·.successor.isSome) <$> founder.separately reachable [join, insert] false = .ok true := by
  have one : founder.overwritten false [join, insert] = 1 := by decide
  refine ⟨?_, by decide, by decide⟩
  rintro ⟨-, none⟩
  exact absurd (one.symm.trans none) (by decide)

end DhtRing.TestNode.Node

import DhtRing.Lib.Transition
import Mathlib.Algebra.BigOperators.Group.Finset.Piecewise
import Mathlib.Algebra.GroupWithZero.Nat
import Mathlib.Logic.Function.Iterate

/-!
# Requests that are handed on

Stations, each with an inbox and a link from the stations before it.  A station takes the
first request of its inbox or of its link.  It keeps the request if it is the owner, and
else hands it on to the next station.  What comes in at one station for one owner is kept
there in the order in which it came in, and each request takes as many turns as its way
has stations.
-/

set_option autoImplicit false

namespace Relay

open Transition

/-! ## Lists one behind the other -/

section

variable {α : Type*} {Q Q' : ℕ → List α} {a : α} {rest : List α} {d k : ℕ}

def downTo (Q : ℕ → List α) : ℕ → List α
  | 0 => Q 0
  | d + 1 => Q (d + 1) ++ downTo Q d

theorem downTo_congr (same : ∀ k, k ≤ d → Q' k = Q k) : downTo Q' d = downTo Q d := by
  induction d with
  | zero => exact same 0 (Nat.le_refl _)
  | succ d ih =>
      rw [downTo, downTo, same (d + 1) (Nat.le_refl _),
        ih fun k le => same k (Nat.le_succ_of_le le)]

theorem downTo_append (first : Q' 0 = Q 0 ++ rest) (same : ∀ k, 0 < k → k ≤ d → Q' k = Q k) :
    downTo Q' d = downTo Q d ++ rest := by
  induction d with
  | zero => exact first
  | succ d ih =>
      rw [downTo, downTo, same (d + 1) (Nat.succ_pos _) (Nat.le_refl _),
        ih fun k pos le => same k pos (Nat.le_succ_of_le le), List.append_assoc]

theorem downTo_last (head : Q d = a :: Q' d) (same : ∀ k, k < d → Q' k = Q k) :
    downTo Q d = a :: downTo Q' d := by
  cases d with
  | zero => exact head
  | succ d =>
      rw [downTo, downTo, head, List.cons_append,
        downTo_congr fun k le => same k (Nat.lt_succ_of_le le)]

theorem downTo_move (head : Q k = a :: Q' k) (above : Q' (k + 1) = Q (k + 1) ++ [a])
    (same : ∀ j, j ≤ d → j ≠ k → j ≠ k + 1 → Q' j = Q j) (less : k < d) :
    downTo Q' d = downTo Q d := by
  induction d with
  | zero => exact absurd less (Nat.not_lt_zero _)
  | succ d ih =>
      rw [downTo, downTo]
      by_cases here : k = d
      · subst here
        rw [above, downTo_last head fun j lt => same j (by omega) (by omega) (by omega),
          List.append_assoc, List.singleton_append]
      · rw [same (d + 1) (Nat.le_refl _) (by omega) (by omega),
          ih (fun j le => same j (Nat.le_succ_of_le le)) (by omega)]

end

/-! ## Stations -/

/-- Which station comes behind which, where a request comes in and whose it is. -/
structure Routing (ι α : Type*) where
  next : ι → ι
  origin : α → ι
  owner : α → ι

structure Queues (ι α : Type*) where
  inbox : ι → List α
  link : ι → List α
  /-- What the station has kept. -/
  kept : ι → List α

inductive Act (ι α : Type*) where
  | enter (a : α)
  | fromInbox (i : ι)
  | fromLink (i : ι)

def Queues.empty {ι α : Type*} : Queues ι α := ⟨fun _ => [], fun _ => [], fun _ => []⟩

def entered {ι α : Type*} (acts : List (Act ι α)) : List α :=
  acts.filterMap fun act => match act with
    | .enter a => some a
    | _ => none

def turns {ι α : Type*} (acts : List (Act ι α)) : ℕ :=
  acts.countP fun act => match act with
    | .enter _ => false
    | _ => true

section

variable {ι α : Type*} [DecidableEq ι] (r : Routing ι α)

def Queues.pass (q : Queues ι α) (i : ι) (a : α) : Queues ι α :=
  if r.owner a = i then { q with kept := Function.update q.kept i (q.kept i ++ [a]) }
  else { q with link := Function.update q.link (r.next i) (q.link (r.next i) ++ [a]) }

def Queues.step (q : Queues ι α) : Act ι α → Option (Queues ι α)
  | .enter a =>
      some { q with
        inbox := Function.update q.inbox (r.origin a) (q.inbox (r.origin a) ++ [a]) }
  | .fromInbox i =>
      match q.inbox i with
      | [] => none
      | a :: rest => some ({ q with inbox := Function.update q.inbox i rest }.pass r i a)
  | .fromLink i =>
      match q.link i with
      | [] => none
      | a :: rest => some ({ q with link := Function.update q.link i rest }.pass r i a)

/-- The `k`-th queue on the way from `s`. -/
def Queues.stage (q : Queues ι α) (s : ι) : ℕ → List α
  | 0 => q.inbox s
  | k + 1 => q.link (r.next^[k + 1] s)

/-- It takes `d` steps from `s` to come to `o` for the first time. -/
def Routing.Away (s o : ι) (d : ℕ) : Prop := r.next^[d] s = o ∧ ∀ k < d, r.next^[k] s ≠ o

def Routing.between (s o : ι) (a : α) : Bool := decide (r.origin a = s ∧ r.owner a = o)

/-- The requests from `s` to `o`: those that are kept, and those on the way. -/
def Queues.line (q : Queues ι α) (s o : ι) (d : ℕ) : List α :=
  (q.kept o).filter (r.between s o) ++
    downTo (fun k => (q.stage r s k).filter (r.between s o)) d

structure Queues.OnWay (q : Queues ι α) : Prop where
  inbox : ∀ i, ∀ a ∈ q.inbox i, r.origin a = i
  link : ∀ i, ∀ a ∈ q.link i, ∃ k, r.next^[k + 1] (r.origin a) = i ∧
    ∀ j, j ≤ k → r.next^[j] (r.origin a) ≠ r.owner a
  kept : ∀ i, ∀ a ∈ q.kept i, r.owner a = i

end

/-! ## The way -/

section

variable {ι α : Type*} {r : Routing ι α} {s o : ι} {d d' i j k : ℕ}

theorem Routing.Away.injective (away : r.Away s o d) (i_le : i ≤ d) (j_le : j ≤ d)
    (same : r.next^[i] s = r.next^[j] s) : i = j := by
  -- from the later of the two it is not as far as from the earlier one
  have shorter : ∀ {i j : ℕ}, i < j → j ≤ d → r.next^[i] s ≠ r.next^[j] s := by
    intro i j less le same
    have arrives : r.next^[d - j + i] s = o := by
      rw [Function.iterate_add_apply, same, ← Function.iterate_add_apply,
        Nat.sub_add_cancel le, away.1]
    exact away.2 _ (by omega) arrives
  rcases Nat.lt_trichotomy i j with less | eq | less
  · exact absurd same (shorter less j_le)
  · exact eq
  · exact absurd same.symm (shorter less i_le)

theorem Routing.Away.unique (away : r.Away s o d) (away' : r.Away s o d') : d = d' := by
  rcases Nat.lt_trichotomy d d' with less | eq | less
  · exact absurd away.1 (away'.2 d less)
  · exact eq
  · exact absurd away'.1 (away.2 d' less)

theorem Routing.Away.next (away : r.Away s o (d + 1)) : r.Away (r.next s) o d := by
  refine ⟨?_, fun k less => ?_⟩
  · rw [← Function.iterate_succ_apply]
    exact away.1
  · rw [← Function.iterate_succ_apply]
    exact away.2 (k + 1) (Nat.succ_lt_succ less)

end

/-! ## One turn -/

section

variable {ι α : Type*} [DecidableEq ι] {r : Routing ι α} {q q' q₁ : Queues ι α} {s o i : ι}
  {a : α} {rest : List α} {d k : ℕ}

theorem Queues.step_cases {act : Act ι α} (stepped : q.step r act = some q') :
    (∃ a, act = .enter a ∧ q' = { q with
      inbox := Function.update q.inbox (r.origin a) (q.inbox (r.origin a) ++ [a]) }) ∨
    (∃ i a rest, act = .fromInbox i ∧ q.inbox i = a :: rest ∧
      q' = { q with inbox := Function.update q.inbox i rest }.pass r i a) ∨
    ∃ i a rest, act = .fromLink i ∧ q.link i = a :: rest ∧
      q' = { q with link := Function.update q.link i rest }.pass r i a := by
  cases act with
  | enter a =>
      cases stepped
      exact Or.inl ⟨a, rfl, rfl⟩
  | fromInbox i =>
      rw [Queues.step] at stepped
      split at stepped
      · cases stepped
      · rename_i a rest here
        cases stepped
        exact Or.inr (Or.inl ⟨i, a, rest, rfl, here, rfl⟩)
  | fromLink i =>
      rw [Queues.step] at stepped
      split at stepped
      · cases stepped
      · rename_i a rest here
        cases stepped
        exact Or.inr (Or.inr ⟨i, a, rest, rfl, here, rfl⟩)

@[simp] theorem Queues.pass_inbox (q : Queues ι α) (i : ι) (a : α) :
    (q.pass r i a).inbox = q.inbox := by
  rw [Queues.pass]
  split <;> rfl

theorem Queues.pass_of_owner (q : Queues ι α) (owner : r.owner a = i) :
    q.pass r i a = { q with kept := Function.update q.kept i (q.kept i ++ [a]) } :=
  if_pos owner

theorem Queues.pass_of_ne (q : Queues ι α) (other : r.owner a ≠ i) :
    q.pass r i a =
      { q with link := Function.update q.link (r.next i) (q.link (r.next i) ++ [a]) } :=
  if_neg other

theorem filter_update {f : ι → List α} {p : α → Bool} {i : ι} {new : List α}
    (same : new.filter p = (f i).filter p) (j : ι) :
    (Function.update f i new j).filter p = (f j).filter p := by
  by_cases here : j = i
  · rw [here, Function.update_self, same]
  · rw [Function.update_of_ne here]

theorem Queues.line_congr
    (kept : (q'.kept o).filter (r.between s o) = (q.kept o).filter (r.between s o))
    (inbox : ∀ j, (q'.inbox j).filter (r.between s o) = (q.inbox j).filter (r.between s o))
    (link : ∀ j, (q'.link j).filter (r.between s o) = (q.link j).filter (r.between s o)) :
    q'.line r s o d = q.line r s o d := by
  rw [Queues.line, Queues.line, kept]
  refine congrArg _ (downTo_congr fun k _ => ?_)
  cases k with
  | zero => exact inbox s
  | succ k => exact link _

theorem Queues.pass_line_of_other (other : r.between s o a = false) :
    (q.pass r i a).line r s o d = q.line r s o d := by
  have unseen : ∀ list : List α, (list ++ [a]).filter (r.between s o) =
      list.filter (r.between s o) := by
    intro list
    simp [other]
  by_cases owner : r.owner a = i
  · rw [Queues.pass_of_owner q owner]
    exact Queues.line_congr (filter_update (unseen _) o) (fun _ => rfl) fun _ => rfl
  · rw [Queues.pass_of_ne q owner]
    exact Queues.line_congr rfl (fun _ => rfl) (filter_update (unseen _))

theorem Queues.pass_line (away : r.Away s o d) (le : k ≤ d) (here : r.next^[k] s = i)
    (between : r.between s o a = true) (head : q.stage r s k = a :: q₁.stage r s k)
    (same : ∀ j, j ≤ d → j ≠ k → q₁.stage r s j = q.stage r s j) (kept : q₁.kept = q.kept) :
    (q₁.pass r i a).line r s o d = q.line r s o d := by
  obtain ⟨-, owner⟩ := of_decide_eq_true between
  have head' : (q.stage r s k).filter (r.between s o) =
      a :: (q₁.stage r s k).filter (r.between s o) := by
    rw [head, List.filter_cons_of_pos between]
  have one : [a].filter (r.between s o) = [a] := List.filter_cons_of_pos between
  rw [Queues.line, Queues.line]
  by_cases at_owner : r.owner a = i
  · have last : k = d := by
      by_contra before
      exact away.2 k (by omega) (here.trans (at_owner.symm.trans owner))
    subst last
    have up : downTo (fun k => (q.stage r s k).filter (r.between s o)) k =
        a :: downTo (fun k => (q₁.stage r s k).filter (r.between s o)) k :=
      downTo_last head' fun j less => by rw [same j (by omega) (by omega)]
    rw [Queues.pass_of_owner q₁ at_owner, up]
    dsimp only
    rw [at_owner.symm.trans owner, Function.update_self, List.filter_append, one, kept,
      List.append_assoc, List.singleton_append]
    rfl
  · have before : k < d := by
      refine Nat.lt_of_le_of_ne le ?_
      rintro rfl
      exact at_owner (owner.trans (away.1.symm.trans here))
    have next : r.next i = r.next^[k + 1] s := by
      rw [← here, Function.iterate_succ_apply']
    rw [Queues.pass_of_ne q₁ at_owner]
    dsimp only
    rw [kept]
    refine congrArg _ (downTo_move (k := k) (a := a) ?_ ?_ ?_ before)
    · rw [head']
      cases k with
      | zero => rfl
      | succ k =>
          have apart : r.next^[k + 1] s ≠ r.next i := by
            rw [next]
            intro eq
            exact absurd (away.injective le before eq) (by omega)
          simp only [Queues.stage, Function.update_of_ne apart]
    · simp only [Queues.stage, next, Function.update_self]
      rw [List.filter_append, one]
      have later := same (k + 1) before (by omega)
      simp only [Queues.stage] at later
      rw [later]
    · intro j j_le not_here not_next
      rw [← same j j_le not_here]
      cases j with
      | zero => rfl
      | succ j =>
          have apart : r.next^[j + 1] s ≠ r.next i := by
            rw [next]
            intro eq
            exact not_next (away.injective j_le before eq)
          simp only [Queues.stage, Function.update_of_ne apart]

/-! ## Runs -/

omit [DecidableEq ι] in
theorem Queues.empty_onWay : (Queues.empty : Queues ι α).OnWay r where
  inbox _ _ mem := absurd mem List.not_mem_nil
  link _ _ mem := absurd mem List.not_mem_nil
  kept _ _ mem := absurd mem List.not_mem_nil

theorem mem_of_mem_tail {f : ι → List α} {j : ι} {b : α} (head : f i = a :: rest)
    (mem : b ∈ Function.update f i rest j) : b ∈ f j := by
  by_cases here : j = i
  · rw [here, Function.update_self] at mem
    rw [here, head]
    exact List.mem_cons_of_mem _ mem
  · rw [Function.update_of_ne here] at mem
    exact mem

theorem mem_or_eq_of_mem_append {f : ι → List α} {j : ι} {b : α}
    (mem : b ∈ Function.update f i (f i ++ [a]) j) : b ∈ f j ∨ j = i ∧ b = a := by
  by_cases here : j = i
  · rw [here, Function.update_self] at mem
    rw [here]
    exact (List.mem_append.mp mem).imp_right fun new => ⟨rfl, List.mem_singleton.mp new⟩
  · rw [Function.update_of_ne here] at mem
    exact Or.inl mem

theorem Queues.OnWay.pass (onWay : q.OnWay r) (here : r.next^[k] (r.origin a) = i)
    (before : ∀ j < k, r.next^[j] (r.origin a) ≠ r.owner a) : (q.pass r i a).OnWay r := by
  by_cases owner : r.owner a = i
  · rw [Queues.pass_of_owner q owner]
    refine ⟨onWay.inbox, onWay.link, fun j b mem => ?_⟩
    rcases mem_or_eq_of_mem_append mem with old | ⟨rfl, rfl⟩
    · exact onWay.kept j b old
    · exact owner
  · rw [Queues.pass_of_ne q owner]
    refine ⟨onWay.inbox, fun j b mem => ?_, onWay.kept⟩
    rcases mem_or_eq_of_mem_append mem with old | ⟨rfl, rfl⟩
    · exact onWay.link j b old
    · refine ⟨k, by rw [Function.iterate_succ_apply', here], fun j le => ?_⟩
      rcases Nat.lt_or_eq_of_le le with less | rfl
      · exact before j less
      · rw [here]
        exact Ne.symm owner

theorem Queues.OnWay.step {act : Act ι α} (onWay : q.OnWay r) (stepped : q.step r act = some q') :
    q'.OnWay r := by
  rcases Queues.step_cases stepped with ⟨a, -, rfl⟩ | ⟨i, a, rest, -, here, rfl⟩ |
    ⟨i, a, rest, -, here, rfl⟩
  · refine ⟨fun j b mem => ?_, onWay.link, onWay.kept⟩
    rcases mem_or_eq_of_mem_append mem with old | ⟨rfl, rfl⟩
    · exact onWay.inbox j b old
    · rfl
  · apply Queues.OnWay.pass (k := 0)
    · exact ⟨fun j b mem => onWay.inbox j b (mem_of_mem_tail here mem), onWay.link, onWay.kept⟩
    · exact onWay.inbox i a (by rw [here]; exact List.mem_cons_self)
    · exact fun j less => absurd less (Nat.not_lt_zero j)
  · obtain ⟨k, at_i, before⟩ := onWay.link i a (by rw [here]; exact List.mem_cons_self)
    apply Queues.OnWay.pass (k := k + 1)
    · exact ⟨onWay.inbox, fun j b mem => onWay.link j b (mem_of_mem_tail here mem), onWay.kept⟩
    · exact at_i
    · exact fun j less => before j (Nat.le_of_lt_succ less)

/-- A turn leaves the line as it is, and what comes in goes to its end. -/
theorem Queues.OnWay.step_line {act : Act ι α} (onWay : q.OnWay r)
    (stepped : q.step r act = some q') (away : r.Away s o d) :
    q'.line r s o d = q.line r s o d ++ (entered [act]).filter (r.between s o) := by
  rcases Queues.step_cases stepped with ⟨a, rfl, rfl⟩ | ⟨i, a, rest, rfl, here, rfl⟩ |
    ⟨i, a, rest, rfl, here, rfl⟩
  · rw [Queues.line, Queues.line, List.append_assoc]
    refine congrArg _ (downTo_append ?_ ?_)
    · simp only [Queues.stage]
      change _ = (q.inbox s).filter _ ++ [a].filter _
      by_cases at_origin : s = r.origin a
      · rw [at_origin, Function.update_self, List.filter_append]
      · have other : r.between s o a = false := decide_eq_false fun both => at_origin both.1.symm
        rw [Function.update_of_ne at_origin, List.filter_cons_of_neg (by simp [other]),
          List.filter_nil, List.append_nil]
    · intro k pos _
      obtain ⟨k, rfl⟩ := Nat.exists_eq_succ_of_ne_zero (Nat.ne_of_gt pos)
      rfl
  · change _ = _ ++ []
    rw [List.append_nil]
    cases between : r.between s o a with
    | false =>
        rw [Queues.pass_line_of_other between]
        refine Queues.line_congr rfl (filter_update ?_) fun _ => rfl
        rw [here, List.filter_cons_of_neg (by simp [between])]
    | true =>
        have at_s : s = i := by
          rw [← (of_decide_eq_true between).1]
          exact onWay.inbox i a (by rw [here]; exact List.mem_cons_self)
        refine Queues.pass_line away (Nat.zero_le d) at_s between ?_ ?_ rfl
        · simp only [Queues.stage, at_s, here, Function.update_self]
        · intro j _ pos
          obtain ⟨j, rfl⟩ := Nat.exists_eq_succ_of_ne_zero pos
          rfl
  · change _ = _ ++ []
    rw [List.append_nil]
    cases between : r.between s o a with
    | false =>
        rw [Queues.pass_line_of_other between]
        refine Queues.line_congr rfl (fun _ => rfl) (filter_update ?_)
        rw [here, List.filter_cons_of_neg (by simp [between])]
    | true =>
        obtain ⟨origin, owner⟩ := of_decide_eq_true between
        obtain ⟨k, at_i, before⟩ := onWay.link i a (by rw [here]; exact List.mem_cons_self)
        rw [origin] at at_i before
        have le : k + 1 ≤ d := by
          by_contra past
          exact before d (by omega) (away.1.trans owner.symm)
        refine Queues.pass_line away le at_i between ?_ ?_ rfl
        · simp only [Queues.stage, at_i, here, Function.update_self]
        · intro j j_le not_here
          cases j with
          | zero => rfl
          | succ j =>
              have apart : r.next^[j + 1] s ≠ i := by
                rw [← at_i]
                exact fun eq => not_here (away.injective j_le le eq)
              simp only [Queues.stage, Function.update_of_ne apart]

omit [DecidableEq ι] in
theorem entered_append (first later : List (Act ι α)) :
    entered (first ++ later) = entered first ++ entered later :=
  List.filterMap_append

omit [DecidableEq ι] in
theorem entered_replicate {act : Act ι α} (turn : entered [act] = []) (k : ℕ) :
    entered (List.replicate k act) = [] := by
  induction k with
  | zero => rfl
  | succ k ih => rw [List.replicate_succ', entered_append, ih, turn, List.nil_append]

omit [DecidableEq ι] in
theorem turns_replicate {act : Act ι α} (turn : turns [act] = 1) (k : ℕ) :
    turns (List.replicate k act) = k := by
  induction k with
  | zero => rfl
  | succ k ih => rw [List.replicate_succ', turns, List.countP_append, ← turns, ih, ← turns, turn]

variable {ok : Queues ι α → Act ι α → Prop} {acts : List (Act ι α)}

theorem run_onWay (run : Run (Queues.step r) ok .empty acts q) : q.OnWay r :=
  run.invariant Queues.empty_onWay fun _ _ _ onWay _ stepped => onWay.step stepped

/-- What is kept of the requests from one station to one owner, and what is on the way, are
all that have come in, in order. -/
theorem run_line (run : Run (Queues.step r) ok .empty acts q) (away : r.Away s o d) :
    q.line r s o d = (entered acts).filter (r.between s o) := by
  refine run.induct (P := fun acts q => q.line r s o d = (entered acts).filter (r.between s o))
    ?_ ?_
  · have none_yet : ∀ d, downTo (fun k =>
        ((Queues.empty : Queues ι α).stage r s k).filter (r.between s o)) d = [] := by
      intro d
      induction d with
      | zero => rfl
      | succ d ih =>
          rw [downTo, ih]
          rfl
    rw [Queues.line, none_yet]
    rfl
  · intro acts q act q' before ih _ stepped
    rw [(run_onWay before).step_line stepped away, ih, entered_append, List.filter_append]

theorem run_kept_prefix (run : Run (Queues.step r) ok q acts q') (i : ι) :
    q.kept i <+: q'.kept i := by
  have passed : ∀ (q₁ : Queues ι α) (j : ι) (a : α), q₁.kept i <+: (q₁.pass r j a).kept i := by
    intro q₁ j a
    by_cases owner : r.owner a = j
    · rw [Queues.pass_of_owner q₁ owner]
      by_cases here : i = j
      · rw [here]
        dsimp only
        rw [Function.update_self]
        exact List.prefix_append _ _
      · dsimp only
        rw [Function.update_of_ne here]
    · rw [Queues.pass_of_ne q₁ owner]
  refine run.invariant (P := fun q' => q.kept i <+: q'.kept i) (List.prefix_refl _) ?_
  intro q₁ act q₂ so_far _ stepped
  refine so_far.trans ?_
  rcases Queues.step_cases stepped with ⟨a, rfl, rfl⟩ | ⟨j, a, rest, rfl, here, rfl⟩ |
    ⟨j, a, rest, rfl, here, rfl⟩
  · exact List.prefix_refl _
  · exact passed { q₁ with inbox := Function.update q₁.inbox j rest } j a
  · exact passed { q₁ with link := Function.update q₁.link j rest } j a

theorem run_mem (run : Run (Queues.step r) ok .empty acts q) :
    ∀ i a, a ∈ q.inbox i ∨ a ∈ q.link i ∨ a ∈ q.kept i → a ∈ entered acts := by
  refine run.induct (P := fun acts q => ∀ i a,
    a ∈ q.inbox i ∨ a ∈ q.link i ∨ a ∈ q.kept i → a ∈ entered acts) ?_ ?_
  · rintro i a (mem | mem | mem) <;> exact absurd mem List.not_mem_nil
  · intro acts q act q' _ ih _ stepped i b mem
    rw [entered_append, List.mem_append]
    -- the request that a station takes was there before
    have passed : ∀ {q₁ : Queues ι α} {j : ι} {a : α}, a ∈ entered acts →
        (∀ i b, b ∈ q₁.inbox i ∨ b ∈ q₁.link i ∨ b ∈ q₁.kept i → b ∈ entered acts) →
          b ∈ (q₁.pass r j a).inbox i ∨ b ∈ (q₁.pass r j a).link i ∨ b ∈ (q₁.pass r j a).kept i →
            b ∈ entered acts := by
      intro q₁ j a taken before mem
      by_cases owner : r.owner a = j
      · rw [Queues.pass_of_owner q₁ owner] at mem
        rcases mem with mem | mem | mem
        · exact before i b (Or.inl mem)
        · exact before i b (Or.inr (Or.inl mem))
        · rcases mem_or_eq_of_mem_append mem with old | ⟨-, rfl⟩
          · exact before i b (Or.inr (Or.inr old))
          · exact taken
      · rw [Queues.pass_of_ne q₁ owner] at mem
        rcases mem with mem | mem | mem
        · exact before i b (Or.inl mem)
        · rcases mem_or_eq_of_mem_append mem with old | ⟨-, rfl⟩
          · exact before i b (Or.inr (Or.inl old))
          · exact taken
        · exact before i b (Or.inr (Or.inr mem))
    rcases Queues.step_cases stepped with ⟨a, rfl, rfl⟩ | ⟨j, a, rest, rfl, here, rfl⟩ |
      ⟨j, a, rest, rfl, here, rfl⟩
    · rcases mem with mem | mem | mem
      · rcases mem_or_eq_of_mem_append mem with old | ⟨-, rfl⟩
        · exact Or.inl (ih i b (Or.inl old))
        · exact Or.inr (List.mem_singleton_self b)
      · exact Or.inl (ih i b (Or.inr (Or.inl mem)))
      · exact Or.inl (ih i b (Or.inr (Or.inr mem)))
    · left
      refine passed (ih j a (Or.inl (by rw [here]; exact List.mem_cons_self))) ?_ mem
      rintro i b (mem | mem)
      · exact ih i b (Or.inl (mem_of_mem_tail here mem))
      · exact ih i b (Or.inr mem)
    · left
      refine passed (ih j a (Or.inr (Or.inl (by rw [here]; exact List.mem_cons_self)))) ?_ mem
      rintro i b (mem | mem | mem)
      · exact ih i b (Or.inl mem)
      · exact ih i b (Or.inr (Or.inl (mem_of_mem_tail here mem)))
      · exact ih i b (Or.inr (Or.inr mem))

def Queues.Quiet (q : Queues ι α) : Prop := ∀ i, q.inbox i = [] ∧ q.link i = []

/-- When nothing waits, an owner has kept what has come in for it, in the order of each
station. -/
theorem run_kept (run : Run (Queues.step r) ok .empty acts q) (away : r.Away s o d)
    (quiet : q.Quiet) :
    (q.kept o).filter (r.between s o) = (entered acts).filter (r.between s o) := by
  have none_left : ∀ d, downTo (fun k => (q.stage r s k).filter (r.between s o)) d = [] := by
    intro d
    induction d with
    | zero =>
        change (q.inbox s).filter _ = []
        rw [(quiet s).1]
        rfl
    | succ d ih =>
        rw [downTo, ih]
        change (q.link _).filter _ ++ [] = []
        rw [(quiet _).2]
        rfl
  rw [← run_line run away, Queues.line, none_left, List.append_nil]

/-! ## Several requests at once -/

theorem Queues.pass_kept (q : Queues ι α) (i j : ι) (a : α) :
    (q.pass r i a).kept j =
      q.kept j ++ if j = i then [a].filter fun a => r.owner a = i else [] := by
  by_cases owner : r.owner a = i
  · rw [Queues.pass_of_owner q owner]
    by_cases here : j = i
    · simp [here, owner]
    · simp [here]
  · rw [Queues.pass_of_ne q owner]
    simp [owner]

theorem Queues.pass_link (q : Queues ι α) (i j : ι) (a : α) :
    (q.pass r i a).link j =
      q.link j ++ if j = r.next i then [a].filter fun a => r.owner a ≠ i else [] := by
  by_cases owner : r.owner a = i
  · rw [Queues.pass_of_owner q owner]
    simp [owner]
  · rw [Queues.pass_of_ne q owner]
    by_cases here : j = r.next i
    · simp [here, owner]
    · simp [here]

theorem run_fromInbox (i : ι) (rest : List α) (requests : List α) : ∀ {q : Queues ι α},
    q.inbox i = requests ++ rest →
      ∃ q', Run (Queues.step r) (fun _ _ => True) q
          (List.replicate requests.length (.fromInbox i)) q' ∧
        (∀ j, q'.inbox j = if j = i then rest else q.inbox j) ∧
        (∀ j, q'.link j =
          q.link j ++ if j = r.next i then requests.filter fun a => r.owner a ≠ i else []) ∧
        ∀ j, q'.kept j =
          q.kept j ++ if j = i then requests.filter fun a => r.owner a = i else [] := by
  induction requests with
  | nil =>
      intro q here
      refine ⟨q, .nil, fun j => ?_, fun j => by simp, fun j => by simp⟩
      split
      · rename_i same
        rw [same, here, List.nil_append]
      · rfl
  | cons a requests ih =>
      intro q here
      have stepped : q.step r (.fromInbox i) = some ({ q with
          inbox := Function.update q.inbox i (requests ++ rest) }.pass r i a) := by
        rw [Queues.step, here]
        rfl
      obtain ⟨q', run, inbox, link, kept⟩ := ih (q := { q with
          inbox := Function.update q.inbox i (requests ++ rest) }.pass r i a) (by simp)
      refine ⟨q', Run.append (Run.snoc .nil trivial stepped) run, fun j => ?_, fun j => ?_,
        fun j => ?_⟩
      · rw [inbox, Queues.pass_inbox]
        split
        · rfl
        · rename_i other
          exact Function.update_of_ne other _ _
      · rw [link, Queues.pass_link, List.append_assoc]
        split
        · rw [← List.filter_append, List.singleton_append]
        · rfl
      · rw [kept, Queues.pass_kept, List.append_assoc]
        split
        · rw [← List.filter_append, List.singleton_append]
        · rfl

theorem run_fromLink (i : ι) (requests : List α) : ∀ {q : Queues ι α} {rest : List α},
    q.link i = requests ++ rest →
      ∃ q', Run (Queues.step r) (fun _ _ => True) q
          (List.replicate requests.length (.fromLink i)) q' ∧
        (∀ j, q'.inbox j = q.inbox j) ∧
        (∀ j, q'.link j = (if j = i then rest else q.link j) ++
          if j = r.next i then requests.filter fun a => r.owner a ≠ i else []) ∧
        ∀ j, q'.kept j =
          q.kept j ++ if j = i then requests.filter fun a => r.owner a = i else [] := by
  induction requests with
  | nil =>
      intro q rest here
      refine ⟨q, .nil, fun j => rfl, fun j => ?_, fun j => by simp⟩
      split
      · rename_i same
        rw [same, here]
        simp
      · simp
  | cons a requests ih =>
      intro q rest here
      have stepped : q.step r (.fromLink i) = some ({ q with
          link := Function.update q.link i (requests ++ rest) }.pass r i a) := by
        rw [Queues.step, here]
        rfl
      -- what is handed on may come back to the same link, behind the rest
      have left : ({ q with link := Function.update q.link i (requests ++ rest) }.pass r i a).link i =
          requests ++ (rest ++ if i = r.next i then [a].filter fun a => r.owner a ≠ i else []) := by
        rw [Queues.pass_link]
        dsimp only
        rw [Function.update_self, List.append_assoc]
      obtain ⟨q', run, inbox, link, kept⟩ := ih left
      refine ⟨q', Run.append (Run.snoc .nil trivial stepped) run, fun j => ?_, fun j => ?_,
        fun j => ?_⟩
      · rw [inbox, Queues.pass_inbox]
      · rw [link, Queues.pass_link]
        by_cases at_i : j = i
        · subst at_i
          rw [if_pos rfl, if_pos rfl, List.append_assoc]
          split
          · rw [← List.filter_append, List.singleton_append]
          · rfl
        · rw [if_neg at_i, if_neg at_i, List.append_assoc]
          dsimp only
          rw [Function.update_of_ne at_i]
          split
          · rw [← List.filter_append, List.singleton_append]
          · rfl
      · rw [kept, Queues.pass_kept, List.append_assoc]
        split
        · rw [← List.filter_append, List.singleton_append]
        · rfl

end

/-! ## How many turns it takes -/

section

variable {ι α : Type*} [DecidableEq ι] [Fintype ι] {r : Routing ι α} {q q' : Queues ι α}
  {away : ι → ι → ℕ}

def Routing.toGo (r : Routing ι α) (away : ι → ι → ℕ) (i : ι) (requests : List α) : ℕ :=
  (requests.map fun a => away i (r.owner a) + 1).sum

def Queues.work (r : Routing ι α) (away : ι → ι → ℕ) (q : Queues ι α) : ℕ :=
  ∑ i, r.toGo away i (q.inbox i) + ∑ i, r.toGo away i (q.link i)

/-- Every owner is found from every station, and it takes `away` steps. -/
def Routing.Reaches (r : Routing ι α) (away : ι → ι → ℕ) : Prop := ∀ i o, r.Away i o (away i o)

omit [DecidableEq ι] [Fintype ι] in
theorem Routing.toGo_append (i : ι) (first later : List α) :
    r.toGo away i (first ++ later) = r.toGo away i first + r.toGo away i later := by
  rw [Routing.toGo, List.map_append, List.sum_append, Routing.toGo, Routing.toGo]

omit [DecidableEq ι] [Fintype ι] in
theorem Routing.toGo_cons (i : ι) (a : α) (rest : List α) :
    r.toGo away i (a :: rest) = away i (r.owner a) + 1 + r.toGo away i rest := by
  rw [Routing.toGo, List.map_cons, List.sum_cons, Routing.toGo]

omit [DecidableEq ι] [Fintype ι] in
theorem Routing.toGo_singleton (i : ι) (a : α) :
    r.toGo away i [a] = away i (r.owner a) + 1 := by
  rw [Routing.toGo_cons]
  rfl

theorem sum_toGo_update (r : Routing ι α) (away : ι → ι → ℕ) (f : ι → List α) (j : ι)
    (new : List α) :
    ∑ i, r.toGo away i (Function.update f j new i) + r.toGo away j (f j) =
      ∑ i, r.toGo away i (f i) + r.toGo away j new := by
  have moved : (fun i => r.toGo away i (Function.update f j new i)) =
      Function.update (fun i => r.toGo away i (f i)) j (r.toGo away j new) := by
    funext i
    by_cases here : i = j
    · subst here
      rw [Function.update_self, Function.update_self]
    · rw [Function.update_of_ne here, Function.update_of_ne here]
  have rest := Finset.sum_erase_add Finset.univ (fun i => r.toGo away i (f i)) (Finset.mem_univ j)
  rw [moved, Finset.sum_update_of_mem (Finset.mem_univ j), ← Finset.erase_eq, ← rest]
  omega

theorem Routing.Reaches.pass (reaches : r.Reaches away) (q : Queues ι α) (i : ι) (a : α) :
    (q.pass r i a).work r away = q.work r away + away i (r.owner a) := by
  by_cases owner : r.owner a = i
  · have here : away i (r.owner a) = 0 :=
      (reaches i (r.owner a)).unique ⟨owner.symm, fun k less => absurd less (Nat.not_lt_zero k)⟩
    rw [Queues.pass_of_owner q owner, here]
    rfl
  · have one_less : away i (r.owner a) = away (r.next i) (r.owner a) + 1 := by
      have found := reaches i (r.owner a)
      cases steps : away i (r.owner a) with
      | zero =>
          rw [steps] at found
          exact absurd found.1.symm owner
      | succ d =>
          rw [steps] at found
          rw [(reaches (r.next i) (r.owner a)).unique found.next]
    have sums := sum_toGo_update r away q.link (r.next i)
      (q.link (r.next i) ++ [a])
    have one : r.toGo away (r.next i) [a] = away i (r.owner a) := by
      rw [Routing.toGo_singleton, one_less]
    rw [Routing.toGo_append, one] at sums
    rw [Queues.pass_of_ne q owner, Queues.work, Queues.work]
    dsimp only
    omega

theorem Routing.Reaches.step {act : Act ι α} (reaches : r.Reaches away)
    (stepped : q.step r act = some q') :
    q'.work r away + turns [act] =
      q.work r away + ((entered [act]).map fun a => away (r.origin a) (r.owner a) + 1).sum := by
  rcases Queues.step_cases stepped with ⟨a, rfl, rfl⟩ | ⟨i, a, rest, rfl, here, rfl⟩ |
    ⟨i, a, rest, rfl, here, rfl⟩
  · have sums := sum_toGo_update r away q.inbox (r.origin a)
      (q.inbox (r.origin a) ++ [a])
    have one : ((entered [Act.enter (ι := ι) a]).map fun a =>
        away (r.origin a) (r.owner a) + 1).sum = away (r.origin a) (r.owner a) + 1 :=
      List.sum_singleton
    rw [Routing.toGo_append, Routing.toGo_singleton] at sums
    rw [one, Queues.work, Queues.work]
    change _ + 0 = _
    dsimp only
    omega
  · have sums := sum_toGo_update r away q.inbox i rest
    rw [here, Routing.toGo_cons] at sums
    rw [reaches.pass, Queues.work, Queues.work]
    change _ + 1 = _ + 0
    dsimp only
    omega
  · have sums := sum_toGo_update r away q.link i rest
    rw [here, Routing.toGo_cons] at sums
    rw [reaches.pass, Queues.work, Queues.work]
    change _ + 1 = _ + 0
    dsimp only
    omega

/-- The requests that come in take one turn for each station on their way, and no more. -/
theorem Routing.Reaches.run {ok : Queues ι α → Act ι α → Prop} {acts : List (Act ι α)}
    (reaches : r.Reaches away) (run : Run (Queues.step r) ok q acts q') :
    q'.work r away + turns acts =
      q.work r away + ((entered acts).map fun a => away (r.origin a) (r.owner a) + 1).sum := by
  refine run.induct (P := fun acts q' => q'.work r away + turns acts = q.work r away +
    ((entered acts).map fun a => away (r.origin a) (r.owner a) + 1).sum) rfl ?_
  intro acts q₁ act q₂ _ ih _ stepped
  have one := reaches.step stepped
  rw [entered_append, List.map_append, List.sum_append, turns, List.countP_append, ← turns,
    ← turns]
  omega

end

end Relay

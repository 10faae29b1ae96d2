import DhtRing.Naming
import DhtRing.Lib.AtMostOne

/-!
# The halves of a split

A node answers a `NET_JOIN` by cutting its range in two.  Every point of the ring
belongs to at most one node in `q6` or one PDU that hands a range on; on this
rests that what a node grants was its own.
-/

set_option autoImplicit false

namespace DhtRing

open Transition AtMostOne

/-! ## Cutting a range -/

def covers (rangeStart rangeEnd : UInt8) (x : Nat) : Bool :=
  decide (rangeStart.toNat ≤ x) && decide (x ≤ rangeEnd.toNat)

theorem covers_iff (rangeStart rangeEnd : UInt8) (x : Nat) :
    covers rangeStart rangeEnd x = true ↔ rangeStart.toNat ≤ x ∧ x ≤ rangeEnd.toNat := by
  simp [covers]

/-- An addition in `u8` that panics on overflow. -/
def checkedAdd (a b : UInt8) : Option UInt8 :=
  if a.toNat + b.toNat < 256 then some (a + b) else none

def checkedSub (a b : UInt8) : Option UInt8 := if b.toNat ≤ a.toNat then some (a - b) else none

/-- `split_range` of the Rust node: the new `hash_range` and the range that it
answers. -/
def splitRange (hashRange : UInt8 × UInt8) : Option ((UInt8 × UInt8) × (UInt8 × UInt8)) := do
  let (min, max) := hashRange
  let maxp ← checkedAdd ((← checkedSub max min) / 2) min
  let mins ← checkedAdd maxp 1
  return ((min, maxp), (mins, max))

/-- A range is cut into two proper halves, without a wrap of the byte arithmetic. -/
structure ProperSplit (rangeStart rangeEnd : UInt8) (kept granted : UInt8 × UInt8) : Prop where
  lt : rangeStart < rangeEnd
  kept_nonempty : kept.1 ≤ kept.2
  granted_nonempty : granted.1 ≤ granted.2
  disjoint : ∀ x, covers kept.1 kept.2 x = false ∨ covers granted.1 granted.2 x = false
  union : ∀ x, covers rangeStart rangeEnd x =
    (covers kept.1 kept.2 x || covers granted.1 granted.2 x)
  middle : kept.2.toNat = rangeStart.toNat + (rangeEnd.toNat - rangeStart.toNat) / 2
  above : granted.1.toNat = kept.2.toNat + 1
  rust : splitRange (rangeStart, rangeEnd) = some (kept, granted)

theorem splitRange_eq {rangeStart rangeEnd : UInt8} (lt : rangeStart < rangeEnd) :
    splitRange (rangeStart, rangeEnd) = some ((rangeStart, middlePoint rangeStart rangeEnd),
      (middlePoint rangeStart rangeEnd + 1, rangeEnd)) := by
  have le := UInt8.le_of_lt lt
  have middle := toNat_middlePoint le
  have lt' := UInt8.lt_iff_toNat_lt.mp lt
  have below := rangeEnd.toNat_lt
  have half : ((rangeEnd - rangeStart) / 2).toNat =
      (rangeEnd.toNat - rangeStart.toNat) / 2 := by
    rw [UInt8.toNat_div, UInt8.toNat_sub_of_le _ _ le, UInt8.toNat_ofNat]
  have first : checkedSub rangeEnd rangeStart = some (rangeEnd - rangeStart) :=
    if_pos (by omega)
  have second : checkedAdd ((rangeEnd - rangeStart) / 2) rangeStart =
      some (middlePoint rangeStart rangeEnd) := by
    rw [checkedAdd, if_pos (by omega), Option.some.injEq]
    apply UInt8.toNat_inj.mp
    rw [middle, UInt8.toNat_add, half]
    omega
  have third : checkedAdd (middlePoint rangeStart rangeEnd) 1 =
      some (middlePoint rangeStart rangeEnd + 1) := by
    apply if_pos
    rw [middle, UInt8.toNat_one]
    omega
  simp [splitRange, first, second, third]

theorem properSplit_middlePoint {rangeStart rangeEnd : UInt8} (lt : rangeStart < rangeEnd) :
    ProperSplit rangeStart rangeEnd (rangeStart, middlePoint rangeStart rangeEnd)
      (middlePoint rangeStart rangeEnd + 1, rangeEnd) := by
  have middle := toNat_middlePoint (UInt8.le_of_lt lt)
  have above := toNat_middlePoint_succ lt
  have lt' := UInt8.lt_iff_toNat_lt.mp lt
  refine ⟨lt, ?_, ?_, ?_, ?_, middle, above, splitRange_eq lt⟩
  · rw [UInt8.le_iff_toNat_le, middle]
    dsimp only
    omega
  · rw [UInt8.le_iff_toNat_le, above, middle]
    dsimp only
    omega
  · intro x
    rw [← Bool.not_eq_true, ← Bool.not_eq_true, covers_iff, covers_iff, above]
    dsimp only
    omega
  · intro x
    rw [Bool.eq_iff_iff, Bool.or_eq_true, covers_iff, covers_iff, covers_iff, above]
    dsimp only
    omega

/-! ## Who has a point of the ring -/

def Pdu.handsOn : Pdu → Option (UInt8 × UInt8)
  | .netJoinResponse _ rangeStart rangeEnd => some (rangeStart, rangeEnd)
  | .netNewRange rangeStart rangeEnd => some (rangeStart, rangeEnd)
  | _ => none

def Pdu.grants (x : Nat) (pdu : Pdu) : Bool := pdu.handsOn.any fun range => covers range.1 range.2 x

def Pc.inQ6 : Pc → Bool
  | .q6 | .q6Accept => true
  | _ => false

def Proc.load (x : Nat) (proc : Proc) : Nat :=
  if proc.pc.inQ6 && covers proc.selfData.rangeStart proc.selfData.rangeEnd x then 1 else 0

/-- How often a node has the point `x` or a queue passes it on. -/
def Net.load (net : Net) (x : Nat) : Addr ⊕ Loc → Nat
  | .inl n => (net.node n).load x
  | .inr loc => (net.queue loc).countP fun msg => msg.pdu.grants x

/-- A node that handles a `NET_JOIN` with this maximum splits: it is alone, or it has
two neighbours and is the node that the PDU names. -/
def SelfData.splitsFor (selfData : SelfData) (max : Addr) : Prop :=
  (selfData.predecessor = none ∧ selfData.successor.socket = none) ∨
    (selfData.predecessor ≠ none ∧ selfData.successor.socket ≠ none ∧ max = selfData.listening)

/-- A step without an overdue split: a node that splits is in `q6` and the PDU's
maximum is not larger than its span; and a range offered to a node in `q6` borders
on its own. -/
def Timely (net : Net) : Act → Prop
  | .deliver n i =>
      ∀ loc msg rest, (net.node n).reads n i = some loc → net.queue loc = msg :: rest →
        (∀ src maxSpan max, msg.pdu = .netJoin src maxSpan max →
          (net.node n).selfData.splitsFor max →
            (net.node n).pc = .q6 ∧ (maxSpan.toNat : Int) ≤ (net.node n).selfData.selfRange) ∧
        ∀ rangeStart rangeEnd, msg.pdu = .netNewRange rangeStart rangeEnd →
          (net.node n).pc = .q6 →
            rangeStart.toNat ≤ (net.node n).selfData.rangeEnd.toNat + 1 ∧
              (net.node n).selfData.rangeStart.toNat ≤ rangeEnd.toNat + 1
  | _ => True

theorem performAll_grants (net : Net) (req : Option Nat) (x : Nat) (loc : Loc)
    (effects : List Effect) :
    ((net.performAll req effects).queue loc).countP (fun msg => msg.pdu.grants x) ≤
      (net.queue loc).countP (fun msg => msg.pdu.grants x) +
        (effects.filterMap (Effect.sentTo loc)).countP (Pdu.grants x) := by
  induction effects generalizing net with
  | nil => simp
  | cons effect effects ih =>
      rw [performAll_cons]
      refine Nat.le_trans (ih _) ?_
      cases effect with
      | tcp fd pdu =>
          by_cases here : fd = loc
          · subst here
            simp only [Net.perform, List.filterMap_cons, Effect.sentTo_self, List.countP_cons]
            split
            · omega
            · simp only [Net.push, setQueue_queue, Function.update_self, List.countP_append,
                List.countP_singleton]
              omega
          · have other : loc ≠ fd := fun eq => here eq.symm
            simp only [Net.perform, List.filterMap_cons, Effect.sentTo_of_ne here]
            split
            · exact le_rfl
            · rw [Net.push, setQueue_queue, Function.update_of_ne other]
      | _ => exact le_rfl

/-! ## What a handler does with a range -/

def Silent (effects : List Effect) : Prop :=
  ∀ fd pdu, .tcp fd pdu ∈ effects → pdu.handsOn = none

def GrantsOnce (effects : List Effect) (conn : Conn) (rangeStart rangeEnd : UInt8) : Prop :=
  ∃ before next after, effects =
      before ++ .tcp (.up conn) (.netJoinResponse next rangeStart rangeEnd) :: after ∧
    Silent before ∧ Silent after

theorem Silent.count {effects : List Effect} (silent : Silent effects) (x : Nat) (loc : Loc) :
    (effects.filterMap (Effect.sentTo loc)).countP (Pdu.grants x) = 0 := by
  rw [List.countP_eq_zero]
  intro pdu mem
  obtain ⟨effect, mem_effect, sent⟩ := List.mem_filterMap.mp mem
  cases effect with
  | tcp fd sent_pdu =>
      simp only [Effect.sentTo] at sent
      split at sent
      · cases sent
        simp [Pdu.grants, silent fd pdu mem_effect]
      · cases sent
  | _ => cases sent

theorem GrantsOnce.count {effects : List Effect} {conn : Conn} {rangeStart rangeEnd : UInt8}
    (once : GrantsOnce effects conn rangeStart rangeEnd) (x : Nat) (loc : Loc) :
    (effects.filterMap (Effect.sentTo loc)).countP (Pdu.grants x) =
      if loc = .up conn ∧ covers rangeStart rangeEnd x = true then 1 else 0 := by
  obtain ⟨before, next, after, rfl, silent_before, silent_after⟩ := once
  rw [List.filterMap_append, List.countP_append, silent_before.count, List.filterMap_cons]
  by_cases here : loc = .up conn
  · subst here
    cases covered : covers rangeStart rangeEnd x <;>
      simp [Effect.sentTo_self, silent_after.count, Pdu.grants, Pdu.handsOn, covered]
  · simp [Effect.sentTo_of_ne (Ne.symm here), silent_after.count, here]

theorem silent_sendSuccessor {selfData : SelfData} {pdu : Pdu} (quiet : pdu.handsOn = none) :
    Silent (sendSuccessor selfData pdu) := by
  unfold sendSuccessor
  intro fd sent mem
  split at mem
  · simp only [List.mem_singleton, Effect.tcp.injEq] at mem
    rw [mem.2]
    exact quiet
  · simp at mem

theorem silent_inserts {effects : List Effect} {fd : Loc}
    (inserts : ∀ effect ∈ effects, ∃ ssn pair, effect = .tcp fd (.valInsert ssn pair)) :
    Silent effects := by
  intro fd' pdu mem
  obtain ⟨ssn, pair, eq⟩ := inserts _ mem
  cases eq
  rfl

theorem handleNetJoin_range {env : Env} {selfData : SelfData} {src max : Addr} {maxSpan : UInt8}
    {outcome : Outcome} (handled : handleNetJoin env selfData src maxSpan max = outcome) :
    let middle := middlePoint selfData.rangeStart selfData.rangeEnd
    (selfData.splitsFor max ∧ outcome.selfData.rangeStart = selfData.rangeStart ∧
        outcome.selfData.rangeEnd = middle ∧
        (∃ conn, GrantsOnce outcome.effects conn (middle + 1) selfData.rangeEnd) ∧
        outcome.selfData.predecessor = selfData.predecessor ∧
        (outcome.ctl = .run → selfData.predecessor ≠ none)) ∨
      (outcome.selfData.rangeStart = selfData.rangeStart ∧
        outcome.selfData.rangeEnd = selfData.rangeEnd ∧ Silent outcome.effects ∧
        outcome.selfData.predecessor = selfData.predecessor) := by
  intro middle
  have nothing : Silent [] := fun fd pdu mem => by simp at mem
  by_cases linked : selfData.predecessor = none
  · by_cases linked' : selfData.successor.socket = none
    · cases answered : env.answers src with
      | true =>
          obtain ⟨data, moved, ctl, run, wiring, ends, inserts⟩ :=
            handleNetJoin_alone max maxSpan linked linked' answered
          cases run.symm.trans handled
          refine Or.inl ⟨Or.inl ⟨linked, linked'⟩, congrArg Wiring.rangeStart wiring,
            congrArg Wiring.rangeEnd wiring, ⟨env.conn selfData src, [.connect _], _, moved, rfl, ?_,
              silent_inserts inserts⟩, congrArg Wiring.predecessor wiring, ?_⟩
          · intro fd pdu mem
            simp at mem
          · intro runs
            rcases ends with eq | eq <;> simp [eq] at runs
      | false =>
          rw [handleNetJoin, if_pos ⟨linked, linked'⟩, connectToTcp_refused answered] at handled
          cases handled
          exact Or.inr ⟨rfl, rfl, nothing, rfl⟩
    · rw [handleNetJoin, if_neg (by tauto), if_pos (Or.inl linked)] at handled
      cases handled
      exact Or.inr ⟨rfl, rfl, nothing, rfl⟩
  · by_cases linked' : selfData.successor.socket = none
    · rw [handleNetJoin, if_neg (by tauto), if_pos (Or.inr linked')] at handled
      cases handled
      exact Or.inr ⟨rfl, rfl, nothing, rfl⟩
    · by_cases named : max = selfData.listening
      · cases answered : env.answers src with
        | true =>
            obtain ⟨data, moved, ctl, run, wiring, ends, inserts⟩ :=
              handleNetJoin_resolve maxSpan linked linked' named answered
            cases run.symm.trans handled
            let before := sendSuccessor selfData .netCloseConnection ++
              [.connect (env.conn selfData src)]
            refine Or.inl ⟨Or.inr ⟨linked, linked', named⟩, congrArg Wiring.rangeStart wiring,
              congrArg Wiring.rangeEnd wiring, ⟨env.conn selfData src, before,
                selfData.successor.destAddr, moved, ?_, ?_, silent_inserts inserts⟩,
              congrArg Wiring.predecessor wiring, fun _ => linked⟩
            · simp [before, middle]
            · intro fd pdu mem
              rcases List.mem_append.mp mem with sent | sent
              · exact silent_sendSuccessor rfl fd pdu sent
              · simp at sent
        | false =>
            rw [handleNetJoin_unreachable maxSpan linked linked' named answered] at handled
            cases handled
            exact Or.inr ⟨rfl, rfl, silent_sendSuccessor rfl, rfl⟩
      · rw [handleNetJoin_forward env src maxSpan linked linked' named] at handled
        cases handled
        refine Or.inr ⟨rfl, rfl, silent_sendSuccessor ?_, rfl⟩
        split <;> rfl

theorem dispatch_range {env : Env} {selfData : SelfData} {pdu : Pdu} {outcome : Outcome}
    (dispatched : dispatch env selfData pdu = some outcome) :
    let middle := middlePoint selfData.rangeStart selfData.rangeEnd
    (∃ src maxSpan max, pdu = .netJoin src maxSpan max ∧ selfData.splitsFor max ∧
        outcome.selfData.rangeStart = selfData.rangeStart ∧ outcome.selfData.rangeEnd = middle ∧
        (∃ conn, GrantsOnce outcome.effects conn (middle + 1) selfData.rangeEnd) ∧
        outcome.selfData.predecessor = selfData.predecessor ∧
        (outcome.ctl = .run → selfData.predecessor ≠ none)) ∨
      (∃ rangeStart rangeEnd, pdu = .netNewRange rangeStart rangeEnd ∧ Silent outcome.effects ∧
        outcome.selfData.predecessor = selfData.predecessor ∧
        ((rangeStart < selfData.rangeStart ∧ outcome.selfData.rangeStart = rangeStart ∧
            outcome.selfData.rangeEnd = selfData.rangeEnd) ∨
          (selfData.rangeEnd < rangeEnd ∧ outcome.selfData.rangeStart = selfData.rangeStart ∧
            outcome.selfData.rangeEnd = rangeEnd) ∨
          outcome.ctl.ends = true)) ∨
      (outcome.selfData.rangeStart = selfData.rangeStart ∧
        outcome.selfData.rangeEnd = selfData.rangeEnd ∧ Silent outcome.effects ∧
        (outcome.ctl = .run → outcome.selfData.predecessor = selfData.predecessor ∨
          (selfData.rangeStart = 0 ∧ selfData.rangeEnd = 255))) := by
  intro middle
  cases request : pdu.requestKey with
  | some ssn =>
      obtain ⟨wiring, -, sent⟩ := dispatch_request request dispatched
      refine Or.inr (Or.inr ⟨congrArg Wiring.rangeStart wiring, congrArg Wiring.rangeEnd wiring, ?_,
        fun _ => Or.inl (congrArg Wiring.predecessor wiring)⟩)
      intro fd pdu' mem
      rcases sent _ mem with ⟨_, _, eq⟩ | ⟨_, _, eq⟩
      · cases eq
      · cases eq
        cases pdu <;> first | rfl | cases request
  | none =>
      cases pdu with
      | netJoin src maxSpan max =>
          cases dispatched
          rcases handleNetJoin_range (rfl : handleNetJoin env selfData src maxSpan max = _) with
            split | quiet
          · exact Or.inl ⟨src, maxSpan, max, rfl, split⟩
          · exact Or.inr (Or.inr ⟨quiet.1, quiet.2.1, quiet.2.2.1, fun _ => Or.inl quiet.2.2.2⟩)
      | netNewRange rangeStart rangeEnd =>
          cases dispatched
          refine Or.inr (Or.inl ⟨rangeStart, rangeEnd, rfl, ?_, ?_, ?_⟩)
          · intro fd pdu mem
            simp only [handleNetNewRange, updateRange, sendOrExit] at mem
            split at mem
            · split at mem <;> simp_all [Pdu.handsOn]
            · split at mem
              · split at mem <;> simp_all [Pdu.handsOn]
              · split at mem <;> simp_all [Pdu.handsOn]
          · simp only [handleNetNewRange, updateRange]
            split
            · rw [sendOrExit_selfData]
            · split <;> rw [sendOrExit_selfData]
          · simp only [handleNetNewRange, updateRange]
            split
            · rename_i lower
              rw [sendOrExit_selfData]
              exact Or.inl ⟨lower, rfl, rfl⟩
            · split
              · rename_i higher
                rw [sendOrExit_selfData]
                exact Or.inr (Or.inl ⟨higher, rfl, rfl⟩)
              · exact Or.inr (Or.inr rfl)
      | netLeaving new =>
          cases dispatched
          refine Or.inr (Or.inr ?_)
          rw [handleNetLeavingPdu_eq]
          have closes : ∀ tail, (∀ fd pdu, .tcp fd pdu ∉ tail) →
              Silent (closeSuccessor selfData ++ tail) := by
            intro tail rest fd pdu mem
            rcases List.mem_append.mp mem with first | later
            · unfold closeSuccessor at first
              split at first <;> simp at first
            · exact absurd later (rest fd pdu)
          split
          · exact ⟨rfl, rfl, by simpa using closes [] (by simp), fun _ => Or.inl rfl⟩
          · split
            · exact ⟨rfl, rfl, closes [.connect _] (by simp), fun _ => Or.inl rfl⟩
            · exact ⟨rfl, rfl, by simpa using closes [] (by simp), fun _ => Or.inl rfl⟩
      | netCloseConnection =>
          cases dispatched
          refine Or.inr (Or.inr ?_)
          have closes : Silent (closePredecessor selfData) := by
            intro fd pdu mem
            unfold closePredecessor at mem
            split at mem <;> simp at mem
          simp only [handleNetCloseConnection]
          split
          · rename_i whole
            exact ⟨rfl, rfl, closes, fun _ => Or.inr whole⟩
          · exact ⟨rfl, rfl, closes, by simp⟩
      | netJoinResponse _ _ _ => cases dispatched
      | netNewRangeResponse => cases dispatched
      | valLookupResponse _ _ => cases dispatched
      | _ => cases request

/-! ## The invariant -/

structure Proc.Sound (n : Addr) (proc : Proc) : Prop where
  le : proc.pc.inQ6 = true → proc.selfData.rangeStart ≤ proc.selfData.rangeEnd
  whole : proc.pc = .q6 → proc.selfData.predecessor = none →
    proc.selfData.rangeStart = 0 ∧ proc.selfData.rangeEnd = 255
  waits : proc.pc = .q7Receive → proc.selfData.predecessor ≠ none
  bound : proc.pc ≠ .absent → n.port ≠ 0

/-- No point of the ring is had twice, and every range that is had or handed on is
proper. -/
structure Apart (net : Net) : Prop where
  single : ∀ x, Single (net.load x)
  sound : ∀ n, (net.node n).Sound n
  handed : ∀ pdu range, net.flying pdu → pdu.handsOn = some range → range.1 ≤ range.2

theorem sound_idle {n : Addr} {proc : Proc} (bound : n.port ≠ 0) (idle : proc.pc.inQ6 = false)
    (waits : proc.pc ≠ .q7Receive) : proc.Sound n where
  le inQ6 := by simp [idle] at inQ6
  whole q6 := by simp [q6, Pc.inQ6] at idle
  waits pc := absurd pc waits
  bound _ := bound

theorem apart_founded {n : Addr} (bound : n.port ≠ 0) : Apart (Net.founded n) where
  single x := by
    have others : ∀ m, m ≠ n → (Net.founded n).load x (.inl m) = 0 := by
      intro m other
      simp [Net.load, Proc.load, Net.founded, other, Pc.inQ6]
    constructor
    · intro owner
      cases owner with
      | inl m =>
          simp only [Net.load, Proc.load]
          split <;> omega
      | inr loc => simp [Net.load, Net.founded]
    · intro owner owner' held held'
      cases owner with
      | inr loc => simp [Net.load, Net.founded] at held
      | inl m =>
          cases owner' with
          | inr loc => simp [Net.load, Net.founded] at held'
          | inl m' =>
              have same : m = n := by_contra fun other => held (others m other)
              have same' : m' = n := by_contra fun other => held' (others m' other)
              rw [same, same']
  sound m := by
    by_cases here : m = n
    · subst here
      constructor <;> simp [Net.founded, q4, bound]
    · constructor <;> simp [Net.founded, here, Pc.inQ6]
  handed pdu range flying _ := by
    obtain ⟨loc, msg, mem, -⟩ := flying
    simp [Net.founded] at mem

section

variable {net base : Net} {n : Addr} {proc : Proc} {effects : List Effect}

structure Acts (net base : Net) (n : Addr) : Prop where
  node : base.node = net.node
  queue : ∀ loc, (base.queue loc).Sublist (net.queue loc)

theorem Acts.load_node (acts : Acts net base n) (req : Option Nat) (x : Nat) (m : Addr) :
    ((base.performAll req effects).setNode n proc).load x (.inl m) =
      if m = n then proc.load x else net.load x (.inl m) := by
  simp only [Net.load, performAll_setNode_node, acts.node, Function.update_apply]
  split <;> rfl

theorem Acts.load_queue (acts : Acts net base n) (req : Option Nat) (effects : List Effect)
    (proc : Proc) (x : Nat) (loc : Loc) :
    ((base.performAll req effects).setNode n proc).load x (.inr loc) ≤
      net.load x (.inr loc) + (effects.filterMap (Effect.sentTo loc)).countP (Pdu.grants x) :=
  Nat.le_trans (performAll_grants base req x loc effects)
    (Nat.add_le_add_right ((acts.queue loc).countP_le ..) _)

theorem Acts.sound (acts : Acts net base n) (req : Option Nat) (before : ∀ m, (net.node m).Sound m)
    (after : proc.Sound n) (m : Addr) :
    ((((base.performAll req effects).setNode n proc)).node m).Sound m := by
  rw [performAll_setNode_node, acts.node]
  by_cases here : m = n
  · rw [here, Function.update_self]
    exact after
  · rw [Function.update_of_ne here]
    exact before m

theorem Acts.handed (acts : Acts net base n) (req : Option Nat)
    (before : ∀ pdu range, net.flying pdu → pdu.handsOn = some range → range.1 ≤ range.2)
    (after : ∀ fd pdu range, .tcp fd pdu ∈ effects → pdu.handsOn = some range →
      range.1 ≤ range.2) (pdu : Pdu) (range : UInt8 × UInt8)
    (flying : ((base.performAll req effects).setNode n proc).flying pdu)
    (hands : pdu.handsOn = some range) : range.1 ≤ range.2 := by
  have flying' : (base.performAll req effects).flying pdu := flying
  rcases flying_performAll flying' with old | ⟨fd, sent⟩
  · apply before pdu range (flying_of_queue ?_ old) hands
    exact fun loc msg mem => (acts.queue loc).subset mem
  · exact after fd pdu range sent hands

theorem Apart.keep (apart : Apart net) (req : Option Nat) (acts : Acts net base n)
    (silent : Silent effects) (sound : proc.Sound n)
    (less : ∀ x, proc.load x ≤ (net.node n).load x) :
    Apart ((base.performAll req effects).setNode n proc) where
  single x := by
    apply (apart.single x).mono
    intro owner
    cases owner with
    | inl m =>
        rw [acts.load_node req]
        split
        · rename_i here
          rw [here]
          exact less x
        · exact le_rfl
    | inr loc =>
        have := acts.load_queue req effects proc x loc
        rwa [silent.count] at this
  sound := acts.sound req apart.sound sound
  handed := by
    apply acts.handed req apart.handed
    intro fd pdu range sent hands
    rw [silent fd pdu sent] at hands
    cases hands

/-- A step in which the node takes a range that it has read. -/
theorem Apart.gain (apart : Apart net) (req : Option Nat) (acts : Acts net base n)
    (silent : Silent effects) (sound : proc.Sound n) {loc : Loc} {msg : Msg}
    (queue : net.queue loc = msg :: base.queue loc)
    (taken : ∀ x, proc.load x ≤ (net.node n).load x + if msg.pdu.grants x then 1 else 0) :
    Apart ((base.performAll req effects).setNode n proc) where
  single x := by
    refine (apart.single x).move (p := .inr loc) (q := .inl n) ?_ ?_
    · rw [acts.load_node req, if_pos rfl]
      have left := performAll_grants base req x loc effects
      rw [silent.count] at left
      have := taken x
      simp only [Net.load, queue, List.countP_cons]
      change List.countP _ ((base.performAll req effects).queue loc) + _ ≤ _
      omega
    · intro owner elsewhere other
      cases owner with
      | inl m =>
          rw [acts.load_node req, if_neg (by rintro rfl; exact other rfl)]
      | inr loc' =>
          have := acts.load_queue req effects proc x loc'
          rwa [silent.count] at this
  sound := acts.sound req apart.sound sound
  handed := by
    apply acts.handed req apart.handed
    intro fd pdu range sent hands
    rw [silent fd pdu sent] at hands
    cases hands

theorem Apart.lose (apart : Apart net) (req : Option Nat) (acts : Acts net base n)
    (sound : proc.Sound n) (fd : Loc)
    (proper : ∀ fd pdu range, .tcp fd pdu ∈ effects → pdu.handsOn = some range →
      range.1 ≤ range.2)
    (given : ∀ x, proc.load x + (effects.filterMap (Effect.sentTo fd)).countP (Pdu.grants x) ≤
      (net.node n).load x)
    (elsewhere : ∀ x loc, loc ≠ fd →
      (effects.filterMap (Effect.sentTo loc)).countP (Pdu.grants x) = 0) :
    Apart ((base.performAll req effects).setNode n proc) where
  single x := by
    refine (apart.single x).move (p := .inl n) (q := .inr fd) ?_ ?_
    · rw [acts.load_node req, if_pos rfl]
      have sent := acts.load_queue req effects proc x fd
      have := given x
      simp only [Net.load] at sent ⊢
      omega
    · intro owner other at_fd
      cases owner with
      | inl m =>
          rw [acts.load_node req, if_neg (by rintro rfl; exact other rfl)]
      | inr loc =>
          have := acts.load_queue req effects proc x loc
          rwa [elsewhere x loc (by rintro rfl; exact at_fd rfl)] at this
  sound := acts.sound req apart.sound sound
  handed := acts.handed req apart.handed proper

theorem Apart.push (apart : Apart net) (loc : Loc) (msg : Msg) (quiet : msg.pdu.handsOn = none) :
    Apart (net.push loc msg) where
  single x := by
    apply (apart.single x).mono
    intro owner
    cases owner with
    | inl m => exact le_rfl
    | inr other =>
        simp only [Net.load, Net.push, setQueue_queue, Function.update_apply]
        split
        · rename_i here
          rw [here]
          simp [Pdu.grants, quiet]
        · exact le_rfl
  sound := apart.sound
  handed pdu range flying hands := by
    rcases flying_push flying with old | rfl
    · exact apart.handed pdu range old hands
    · rw [quiet] at hands
      cases hands

end

/-! ## Steps -/

/-- A recorded maximum comes with a span. -/
def Spanned (net : Net) : Prop :=
  ∀ src maxSpan max, net.flying (.netJoin src maxSpan max) → max ≠ ⟨0, 0⟩ → maxSpan ≠ 0

theorem Spanned.step {net net' : Net} (spanned : Spanned net) {act : Act}
    (stepped : net.step act = some net') : Spanned net' := by
  intro src maxSpan max flying set
  rcases step_join_origin stepped flying with old | ⟨-, start⟩ | entered
  · exact spanned src maxSpan max old set
  · cases start
    exact absurd rfl set
  · obtain ⟨n, i, loc, msg, rest, maxSpan', -, -, -, -, -, rfl, larger, -⟩ := entered
    intro zero
    have nonneg : (0 : Int) ≤ (net.node n).selfData.selfRange := by omega
    obtain ⟨span, eq⟩ := Int.eq_ofNat_of_zero_le nonneg
    rw [eq, ofInt_natCast, ← UInt8.toNat_inj, UInt8.toNat_ofNat'] at zero
    have := (net.node n).selfData.rangeEnd.toNat_lt
    rw [SelfData.selfRange] at eq larger
    rw [UInt8.toNat_zero] at zero
    omega

section

variable {net net' : Net} {n : Addr} {i : FdsIndex} {loc : Loc} {msg : Msg} {rest : List Msg}

/-- A node that splits in time has more than one point. -/
theorem Apart.split_lt (apart : Apart net) (own : net.Addressed) (spanned : Spanned net)
    (timely : Timely net (.deliver n i)) (reads : (net.node n).reads n i = some loc)
    (queue : net.queue loc = msg :: rest) {src max : Addr} {maxSpan : UInt8}
    (pdu : msg.pdu = .netJoin src maxSpan max) (splits : (net.node n).selfData.splitsFor max) :
    (net.node n).pc = .q6 ∧ (net.node n).selfData.rangeStart < (net.node n).selfData.rangeEnd := by
  obtain ⟨q6, fresh⟩ := (timely loc msg rest reads queue).1 src maxSpan max pdu splits
  have sound := apart.sound n
  have le := UInt8.le_iff_toNat_le.mp (sound.le (by rw [q6]; rfl))
  refine ⟨q6, UInt8.lt_iff_toNat_lt.mpr ?_⟩
  rcases splits with ⟨alone, -⟩ | ⟨-, -, named⟩
  · obtain ⟨start, stop⟩ := sound.whole q6 alone
    rw [start, stop]
    decide
  · have flying : net.flying (.netJoin src maxSpan max) :=
      ⟨loc, msg, by rw [queue]; exact List.mem_cons_self, pdu⟩
    have set : max ≠ ⟨0, 0⟩ := by
      rw [named, own n]
      intro eq
      exact sound.bound (by simp [q6]) (by rw [eq])
    have span := spanned src maxSpan max flying set
    have : maxSpan.toNat ≠ 0 := fun zero => span (UInt8.toNat_inj.mp zero)
    rw [SelfData.selfRange] at fresh
    omega

theorem load_le_one (x : Nat) (proc : Proc) :
    proc.load x ≤ if covers proc.selfData.rangeStart proc.selfData.rangeEnd x then 1 else 0 := by
  unfold Proc.load
  split
  · rename_i both
    rw [Bool.and_eq_true] at both
    rw [if_pos both.2]
  · exact Nat.zero_le _

theorem load_of_inQ6 (x : Nat) {proc : Proc} (inQ6 : proc.pc.inQ6 = true) :
    proc.load x =
      if covers proc.selfData.rangeStart proc.selfData.rangeEnd x then 1 else 0 := by
  simp [Proc.load, inQ6]

theorem load_of_idle (x : Nat) {proc : Proc} (idle : proc.pc.inQ6 = false) : proc.load x = 0 := by
  simp [Proc.load, idle]

theorem lastPoll_after_idle (new : Addr) (ctl : Ctl) :
    ((Pc.lastPoll i new).after ctl).inQ6 = false ∧
      (Pc.lastPoll i new).after ctl ≠ .q7Receive := by
  cases ctl <;> simp [Pc.after, Pc.blocked, Pc.inQ6]

theorem count_halves {kept granted : Bool} {count : Nat} (disjoint : kept = false ∨ granted = false)
    (le : count ≤ if kept then 1 else 0) :
    (count + if granted then 1 else 0) ≤ if kept || granted then 1 else 0 := by
  cases kept <;> cases granted <;> simp_all

theorem load_ne_zero {x : Nat} {proc : Proc} (held : proc.load x ≠ 0) :
    proc.pc.inQ6 = true ∧ covers proc.selfData.rangeStart proc.selfData.rangeEnd x = true := by
  unfold Proc.load at held
  split at held
  · rename_i both
    exact Bool.and_eq_true_iff.mp both
  · exact absurd rfl held

theorem sound_after {data : SelfData} {ctl : Ctl} (bound : n.port ≠ 0)
    (le : ctl.ends = false → data.rangeStart ≤ data.rangeEnd)
    (whole : ctl = .run → data.predecessor = none → data.rangeStart = 0 ∧ data.rangeEnd = 255) :
    Proc.Sound n ⟨Pc.q6.after ctl, data⟩ := by
  cases ctl with
  | run => exact ⟨fun _ => le rfl, fun _ => whole rfl, by simp [Pc.after], fun _ => bound⟩
  | accept =>
      exact ⟨fun _ => le rfl, by simp [Pc.after, Pc.blocked], by simp [Pc.after, Pc.blocked],
        fun _ => bound⟩
  | exit text => exact sound_idle bound rfl (by simp [Pc.after])
  | fault => exact sound_idle bound rfl (by simp [Pc.after])

theorem Apart.deliver (apart : Apart net) (own : net.Addressed) (spanned : Spanned net)
    (timely : Timely net (.deliver n i)) (stepped : net.deliver n i = some net') : Apart net' := by
  obtain ⟨back, loc, msg, rest, outcome, polls, reads, queue, dispatched, rfl⟩ :=
    deliver_eq_some stepped
  let base := (net.note n msg).setQueue loc rest
  have base_queue : base.queue loc = rest := by simp [base]
  have acts : Acts net base n := by
    constructor
    · simp [base]
    · intro other
      by_cases here : other = loc
      · rw [here, base_queue, queue]
        exact List.sublist_cons_self ..
      · simp [base, Function.update_of_ne here]
  have sound := apart.sound n
  have bound := sound.bound (by rintro pc; rw [pc] at polls; cases polls)
  let proc : Proc := ⟨back.after outcome.ctl, outcome.selfData⟩
  change Apart ((base.performAll msg.tag outcome.effects).setNode n proc)
  rcases dispatch_range dispatched with split | takeover | quiet
  · obtain ⟨src, maxSpan, max, pdu, splits, start, stop, ⟨conn, once⟩, pred, linked⟩ := split
    obtain ⟨q6, lt⟩ := apart.split_lt own spanned timely reads queue pdu splits
    have halves := properSplit_middlePoint lt
    have back_q6 := (polls_q6 polls (Or.inl q6)).2
    refine apart.lose _ acts ?_ (.up conn) ?_ ?_ ?_
    · subst back_q6
      apply sound_after bound
      · intro _
        rw [start, stop]
        exact halves.kept_nonempty
      · intro run none
        exact absurd (pred ▸ none) (linked run)
    · intro fd sent range mem hands
      obtain ⟨before, next, after, eq, silent_before, silent_after⟩ := once
      rw [eq, List.mem_append, List.mem_cons] at mem
      rcases mem with first | here | later
      · rw [silent_before fd sent first] at hands
        cases hands
      · cases here
        cases hands
        exact halves.granted_nonempty
      · rw [silent_after fd sent later] at hands
        cases hands
    · intro x
      have kept := load_le_one x proc
      have had : (net.node n).load x = _ := load_of_inQ6 x (by rw [q6]; rfl)
      rw [halves.union x] at had
      simp only [proc, start, stop] at kept
      rw [once.count, had]
      simp only [true_and]
      exact count_halves (halves.disjoint x) kept
    · intro x other elsewhere
      rw [once.count, if_neg fun both => elsewhere both.1]
  · obtain ⟨rangeStart, rangeEnd, pdu, silent, pred, moved⟩ := takeover
    rcases polls_cases polls with ⟨q6, back_q6⟩ | ⟨j, new, pc, back_poll⟩
    · obtain ⟨low, high⟩ := (timely loc msg rest reads queue).2 rangeStart rangeEnd pdu q6
      have proper := UInt8.le_iff_toNat_le.mp (sound.le (by rw [q6]; rfl))
      apply apart.gain _ acts silent _ (queue.trans (by rw [base_queue]))
      · intro x
        have grants : msg.pdu.grants x = covers rangeStart rangeEnd x := by rw [pdu]; rfl
        have had : (net.node n).load x = _ := load_of_inQ6 x (by rw [q6]; rfl)
        rw [had, grants]
        by_cases held : proc.load x = 0
        · rw [held]
          exact Nat.zero_le _
        · obtain ⟨inQ6, covered⟩ := load_ne_zero held
          have once := load_of_inQ6 x inQ6
          rw [once, if_pos covered]
          rw [covers_iff] at covered
          have reached : covers (net.node n).selfData.rangeStart (net.node n).selfData.rangeEnd x =
              true ∨ covers rangeStart rangeEnd x = true := by
            rw [covers_iff, covers_iff]
            rcases moved with ⟨lower, start, stop⟩ | ⟨higher, start, stop⟩ | ended
            · simp only [proc, start, stop] at covered
              omega
            · simp only [proc, start, stop] at covered
              omega
            · subst back_q6
              simp only [proc] at inQ6
              cases ctl : outcome.ctl <;> simp [ctl, Ctl.ends, Pc.after, Pc.inQ6] at ended inQ6
          rcases reached with own_point | new_point
          · rw [if_pos own_point]
            omega
          · rw [if_pos new_point]
            omega
      · subst back_q6
        apply sound_after bound
        · intro goes_on
          rcases moved with ⟨lower, start, stop⟩ | ⟨higher, start, stop⟩ | ended
          · rw [start, stop, UInt8.le_iff_toNat_le]
            have := UInt8.lt_iff_toNat_lt.mp lower
            omega
          · rw [start, stop, UInt8.le_iff_toNat_le]
            have := UInt8.lt_iff_toNat_lt.mp higher
            omega
          · rw [goes_on] at ended
            cases ended
        · intro run none
          -- nothing borders on the whole ring
          obtain ⟨first, last⟩ := sound.whole q6 (pred ▸ none)
          rcases moved with ⟨lower, start, stop⟩ | ⟨higher, start, stop⟩ | ended
          · rw [first, UInt8.lt_iff_toNat_lt, UInt8.toNat_zero] at lower
            omega
          · rw [last, UInt8.lt_iff_toNat_lt] at higher
            have := rangeEnd.toNat_lt
            have : (255 : UInt8).toNat = 255 := rfl
            omega
          · rw [run] at ended
            cases ended
    · have idle := lastPoll_after_idle (i := i) new outcome.ctl
      rw [← back_poll] at idle
      exact apart.keep _ acts silent (sound_idle bound idle.1 idle.2)
        fun x => by rw [load_of_idle x idle.1]; exact Nat.zero_le _
  · obtain ⟨start, stop, silent, pred⟩ := quiet
    rcases polls_cases polls with ⟨q6, back_q6⟩ | ⟨j, new, pc, back_poll⟩
    · apply apart.keep _ acts silent
      · subst back_q6
        apply sound_after bound
        · intro _
          rw [start, stop]
          exact sound.le (by rw [q6]; rfl)
        · intro run none
          rw [start, stop]
          rcases pred run with same | whole
          · exact sound.whole q6 (same ▸ none)
          · exact whole
      · intro x
        have after := load_le_one x proc
        have had : (net.node n).load x = _ := load_of_inQ6 x (by rw [q6]; rfl)
        simp only [proc, start, stop] at after
        rwa [had]
    · have idle := lastPoll_after_idle (i := i) new outcome.ctl
      rw [← back_poll] at idle
      exact apart.keep _ acts silent (sound_idle bound idle.1 idle.2)
        fun x => by rw [load_of_idle x idle.1]; exact Nat.zero_le _

theorem offerRange_cases (selfData : SelfData) :
    offerRange selfData = [] ∨ ∃ fd, offerRange selfData =
      [.tcp fd (.netNewRange selfData.rangeStart selfData.rangeEnd)] := by
  unfold offerRange sendSuccessor sendPredecessor
  dsimp only
  split <;> split <;> simp

theorem silent_sayGoodbye (selfData : SelfData) (new : Addr) :
    Silent (sayGoodbye selfData new) := by
  intro fd pdu mem
  rcases List.mem_append.mp mem with first | later
  · exact silent_sendSuccessor rfl fd pdu first
  · unfold sendPredecessor at later
    split at later
    · simp only [List.mem_singleton, Effect.tcp.injEq] at later
      rw [later.2]
      rfl
    · simp at later

theorem Apart.retire (apart : Apart net) (req : Option Nat) {base : Net} {proc : Proc}
    {effects : List Effect} (acts : Acts net base n) (silent : Silent effects)
    (bound : n.port ≠ 0) (idle : proc.pc.inQ6 = false) (waits : proc.pc ≠ .q7Receive) :
    Apart ((base.performAll req effects).setNode n proc) := by
  apply apart.keep _ acts silent (sound_idle bound idle waits)
  intro x
  rw [load_of_idle x idle]
  exact Nat.zero_le _

theorem Apart.polled (apart : Apart net) {base : Net} (acts : Acts net base n) {back : Pc}
    (polls : (net.node n).pc.polls i = some back) {data : SelfData}
    (start : data.rangeStart = (net.node n).selfData.rangeStart)
    (stop : data.rangeEnd = (net.node n).selfData.rangeEnd)
    (pred : data.predecessor = (net.node n).selfData.predecessor) :
    Apart (base.setNode n ⟨back, data⟩) := by
  have silent : Silent [] := fun fd pdu mem => by simp at mem
  have sound := apart.sound n
  have bound := sound.bound (by rintro pc; rw [pc] at polls; cases polls)
  rcases polls_cases polls with ⟨q6, rfl⟩ | ⟨j, new, -, rfl⟩
  · refine apart.keep none acts silent ⟨fun _ => ?_, fun _ none => ?_, by simp,
      fun _ => bound⟩ fun x => ?_
    · rw [start, stop]
      exact sound.le (by rw [q6]; rfl)
    · rw [start, stop]
      exact sound.whole q6 (pred ▸ none)
    · have after := load_le_one x ⟨.q6, data⟩
      have had : (net.node n).load x = _ := load_of_inQ6 x (by rw [q6]; rfl)
      simp only [start, stop] at after
      rwa [had]
  · exact apart.retire none acts silent bound rfl (by simp)

theorem Apart.step (apart : Apart net) (own : net.Addressed) (spanned : Spanned net) {act : Act}
    (timely : Timely net act) (stepped : net.step act = some net') : Apart net' := by
  have same : ∀ m, Acts net net m := fun m => ⟨rfl, fun _ => .refl _⟩
  have read : ∀ m loc msgs, msgs.Sublist (net.queue loc) → Acts net (net.setQueue loc msgs) m := by
    intro m loc msgs sub
    refine ⟨rfl, fun other => ?_⟩
    by_cases here : other = loc
    · rw [here, setQueue_queue, Function.update_self]
      exact sub
    · rw [setQueue_queue, Function.update_of_ne here]
  have silent : Silent [] := fun fd pdu mem => by simp at mem
  cases act with
  | client m pdu =>
      obtain ⟨-, request, rfl⟩ := client_eq_some stepped
      have pushed := apart.push (.udp m) ⟨pdu, some net.issued⟩ (by
        cases pdu <;> first | rfl | cases request)
      exact ⟨pushed.single, pushed.sound, pushed.handed⟩
  | join j entry =>
      obtain ⟨-, port, -, rfl⟩ := join_eq_some stepped
      have pushed := apart.push (.udp entry) ⟨joinPdu j, none⟩ rfl
      exact pushed.retire none ⟨rfl, fun _ => .refl _⟩ silent port rfl (by simp)
  | leave m =>
      obtain ⟨q6, leaves⟩ := leave_eq_some stepped
      have sound := apart.sound m
      have bound := sound.bound (by simp [q6])
      have inQ6 : (net.node m).pc.inQ6 = true := by rw [q6]; rfl
      rcases leaves with ⟨-, -, rfl⟩ | ⟨-, rfl⟩
      · exact apart.retire none (same m) silent bound rfl (by simp)
      · rcases offerRange_cases (net.node m).selfData with nothing | ⟨fd, offer⟩
        · rw [nothing]
          exact apart.retire _ (same m) silent bound rfl (by simp)
        · rw [offer]
          apply apart.lose _ (same m) (sound_idle bound rfl (by simp)) fd
          · intro loc pdu range mem hands
            simp only [List.mem_singleton, Effect.tcp.injEq] at mem
            rw [mem.2] at hands
            cases hands
            exact sound.le inQ6
          · intro x
            rw [load_of_idle x rfl, load_of_inQ6 x inQ6, List.filterMap_cons, Effect.sentTo_self]
            cases covered : covers (net.node m).selfData.rangeStart
              (net.node m).selfData.rangeEnd x <;> simp [Pdu.grants, Pdu.handsOn, covered]
          · intro x loc elsewhere
            rw [List.filterMap_cons, Effect.sentTo_of_ne (Ne.symm elsewhere)]
            rfl
  | timeout m =>
      obtain ⟨waits, rfl⟩ := timeout_eq_some stepped
      have bound := (apart.sound m).bound (by rcases waits with pc | pc <;> simp [pc])
      exact apart.retire none (same m) silent bound rfl (by simp)
  | deliver m i => exact apart.deliver own spanned timely stepped
  | discard m i k =>
      obtain ⟨back, loc, msg, rest, polls, -, queue, -, rfl⟩ := discard_eq_some stepped
      refine apart.polled (read m loc _ ?_) polls rfl rfl rfl
      rw [queue]
      exact (List.drop_sublist k rest).cons msg
  | eof m i =>
      obtain ⟨back, conn, loc, fd, data, polls, -, -, -, held, rfl⟩ := eof_eq_some stepped
      have acts : Acts net { net with shut := Function.update net.shut fd true } m :=
        ⟨rfl, fun _ => .refl _⟩
      rcases held with ⟨-, -, -, rfl⟩ | ⟨-, -, -, rfl⟩ <;> exact apart.polled acts polls rfl rfl rfl
  | accept m =>
      obtain ⟨back, conn, rest, accepted, -, rfl⟩ := accept_eq_some stepped
      have acts : Acts net { net with backlog := Function.update net.backlog m rest } m :=
        ⟨rfl, fun _ => .refl _⟩
      have sound := apart.sound m
      have bound := sound.bound (by intro pc; rw [pc] at accepted; cases accepted)
      cases pc : (net.node m).pc with
      | q7Accept =>
          rw [pc] at accepted
          cases accepted
          refine apart.keep none acts silent ⟨by simp [Pc.inQ6], by simp,
            by simp [SelfData.acceptPredecessor], fun _ => bound⟩ fun x => ?_
          rw [load_of_idle x rfl]
          exact Nat.zero_le _
      | q6Accept =>
          rw [pc] at accepted
          cases accepted
          have inQ6 : (net.node m).pc.inQ6 = true := by rw [pc]; rfl
          refine apart.keep none acts silent ⟨fun _ => sound.le inQ6,
            by simp [SelfData.acceptPredecessor], by simp, fun _ => bound⟩ fun x => ?_
          rw [load_of_inQ6 x inQ6]
          exact load_le_one x _
      | lastPollAccept i new =>
          rw [pc] at accepted
          cases accepted
          exact apart.retire none acts silent bound rfl (by simp)
      | _ =>
          rw [pc] at accepted
          cases accepted
  | response m =>
      obtain ⟨waits, loc, -, ⟨next, rangeStart, rangeEnd, req, rest, queue, rfl⟩ | ⟨-, rfl⟩⟩ :=
        response_eq_some stepped
      · have sound := apart.sound m
        have bound := sound.bound (by simp [waits])
        have rest_queue : (net.setQueue loc rest).queue loc = rest := by simp
        have acts := read m loc rest (by rw [queue]; exact List.sublist_cons_self ..)
        have flying : net.flying (.netJoinResponse next rangeStart rangeEnd) :=
          ⟨loc, _, by rw [queue]; exact List.mem_cons_self, rfl⟩
        cases answered : net.env.answers next with
        | true =>
            rw [q8_answered rangeStart rangeEnd answered]
            refine apart.gain _ acts (fun fd pdu mem => by simp at mem) ?_
              (queue.trans (by rw [rest_queue])) fun x => ?_
            · apply sound_after bound
              · intro _
                exact apart.handed _ (rangeStart, rangeEnd) flying rfl
              · intro _ none
                exact absurd none (sound.waits waits)
            · exact Nat.le_trans (load_le_one x _) (Nat.le_add_left ..)
        | false =>
            rw [q8_refused rangeStart rangeEnd answered]
            exact apart.retire _ acts silent bound rfl (by simp [Pc.after])
      · have bound := (apart.sound m).bound (by simp [waits])
        exact apart.retire none (read m loc _ (List.tail_sublist _)) silent bound rfl
          (by simp)
  | reply m =>
      obtain ⟨waits, loc, granted, -, -, rfl⟩ := reply_eq_some stepped
      have bound := (apart.sound m).bound (by simp [waits])
      have idle := lastPoll_after_idle (i := .udp) (net.node m).selfData.successor.destAddr
        (handOver (net.node m).selfData granted).ctl
      refine apart.retire _ (read m loc _ (List.tail_sublist _)) ?_ bound idle.1 idle.2
      intro fd pdu mem
      obtain ⟨_, _, _, -, eq⟩ := handOver_inserts mem
      cases eq
      rfl
  | finish m =>
      obtain ⟨i, new, pc, rfl⟩ := finish_eq_some stepped
      have bound := (apart.sound m).bound (by simp [pc])
      exact apart.retire _ (same m) (silent_sayGoodbye _ new) bound rfl (by simp)

end

/-! ## Runs -/

def Net.handling (net : Net) (n : Addr) (i : FdsIndex) : Option Outcome :=
  match (net.node n).pc.polls i, (net.node n).reads n i with
  | some _, some loc =>
      (net.queue loc).head?.bind fun msg => dispatch net.env (net.node n).selfData msg.pdu
  | _, _ => none

theorem handling_eq_some {net : Net} {n : Addr} {i : FdsIndex} {outcome : Outcome}
    (handled : net.handling n i = some outcome) :
    ∃ loc msg rest, (net.node n).reads n i = some loc ∧ net.queue loc = msg :: rest ∧
      dispatch net.env (net.node n).selfData msg.pdu = some outcome := by
  unfold Net.handling at handled
  cases polls : (net.node n).pc.polls i with
  | none => simp [polls] at handled
  | some back =>
      cases reads : (net.node n).reads n i with
      | none => simp [polls, reads] at handled
      | some loc =>
          cases queue : net.queue loc with
          | nil => simp [polls, reads, queue] at handled
          | cons msg rest =>
              simp only [polls, reads, queue] at handled
              exact ⟨loc, msg, rest, rfl, queue, handled⟩

/-- Whenever node `n` handles the next PDU of descriptor `i` and answers a range in a
`NET_JOIN_RESPONSE`, it has cut its own range into two proper halves and nobody
else has or passes on a point of what it grants. -/
def SplitsProperly (net : Net) (n : Addr) (i : FdsIndex) : Prop :=
  ∀ outcome fd next rangeStart rangeEnd, net.handling n i = some outcome →
    .tcp fd (.netJoinResponse next rangeStart rangeEnd) ∈ outcome.effects →
      ProperSplit (net.node n).selfData.rangeStart (net.node n).selfData.rangeEnd
          (outcome.selfData.rangeStart, outcome.selfData.rangeEnd) (rangeStart, rangeEnd) ∧
        ∀ x, covers rangeStart rangeEnd x = true →
          ∀ owner, owner ≠ .inl n → net.load x owner = 0

theorem apart_of_run {n : Addr} (bound : n.port ≠ 0) {acts : List Act} {net : Net}
    (run : Run Net.step Timely (Net.founded n) acts net) :
    Apart net ∧ net.Addressed ∧ Spanned net := by
  have spanned : Spanned (Net.founded n) := by
    intro src maxSpan max flying
    obtain ⟨loc, msg, mem, -⟩ := flying
    simp [Net.founded] at mem
  exact run.invariant (P := fun net => Apart net ∧ net.Addressed ∧ Spanned net)
    ⟨apart_founded bound, addressed_founded n, spanned⟩ fun _ _ _ inv timely stepped =>
      ⟨inv.1.step inv.2.1 inv.2.2 timely stepped, inv.2.1.step stepped, inv.2.2.step stepped⟩

/-- In every run of timely steps nobody has a point that another has, and every split
is into proper halves of the node's own range. -/
theorem splitsProperly_of_run {n : Addr} (bound : n.port ≠ 0) {acts : List Act} {net : Net}
    (run : Run Net.step Timely (Net.founded n) acts net) :
    (∀ x, Single (net.load x)) ∧
      ∀ m i, Timely net (.deliver m i) → SplitsProperly net m i := by
  obtain ⟨apart, own, spanned⟩ := apart_of_run bound run
  refine ⟨apart.single, ?_⟩
  intro m i timely outcome fd next rangeStart rangeEnd handled sent
  obtain ⟨loc, msg, rest, reads, queue, dispatched⟩ := handling_eq_some handled
  rcases dispatch_range dispatched with split | takeover | quiet
  · obtain ⟨src, maxSpan, max, pdu, splits, start, stop, ⟨conn, once⟩, -, -⟩ := split
    obtain ⟨q6, lt⟩ := apart.split_lt own spanned timely reads queue pdu splits
    have halves := properSplit_middlePoint lt
    obtain ⟨before, next', after, eq, silent_before, silent_after⟩ := once
    rw [eq, List.mem_append, List.mem_cons] at sent
    rcases sent with first | here | later
    · cases silent_before _ _ first
    · cases here
      rw [start, stop]
      refine ⟨halves, fun x granted owner other => ?_⟩
      apply (apart.single x).eq_zero (p := .inl m) _ other
      have owned : covers (net.node m).selfData.rangeStart (net.node m).selfData.rangeEnd x =
          true := by
        rw [halves.union x, granted, Bool.or_true]
      change (net.node m).load x ≠ 0
      rw [load_of_inQ6 x (by rw [q6]; rfl), if_pos owned]
      exact Nat.one_ne_zero
    · cases silent_after _ _ later
  · obtain ⟨_, _, -, silent, -⟩ := takeover
    cases silent _ _ sent
  · cases quiet.2.2.1 _ _ sent

/-- A test for `Timely` in rings that nobody leaves. -/
def timelyJoins (net : Net) : Act → Bool
  | .deliver n i =>
      match (net.node n).reads n i with
      | none => true
      | some loc =>
          match net.queue loc with
          | ⟨.netJoin _ maxSpan _, _⟩ :: _ =>
              (net.node n).pc == .q6 &&
                decide ((maxSpan.toNat : Int) ≤ (net.node n).selfData.selfRange)
          | ⟨.netNewRange _ _, _⟩ :: _ => false
          | _ => true
  | _ => true

theorem timely_of_timelyJoins (net : Net) (act : Act) (passed : timelyJoins net act = true) :
    Timely net act := by
  cases act with
  | deliver n i =>
      intro loc msg rest reads queue
      constructor
      · intro src maxSpan max pdu _
        obtain ⟨pdu', req⟩ := msg
        cases pdu
        simp only [timelyJoins, reads, queue, Bool.and_eq_true, beq_iff_eq,
          decide_eq_true_eq] at passed
        exact passed
      · intro rangeStart rangeEnd pdu
        obtain ⟨pdu', req⟩ := msg
        cases pdu
        simp [timelyJoins, reads, queue] at passed
  | _ => trivial

def nameReturned : List Act := nameFirst ++ [.deliver nodeB .predecessor]

/-- The first node leaves while the `NET_JOIN` names it; in its last poll, with the
range 255 to 255, it grants the ring, which the second node has. -/
theorem leaving_node_splits : ∃ acts net outcome,
    Run Net.step (fun _ _ => True) (Net.founded nodeA) acts net ∧
      net.handling nodeA .predecessor = some outcome ∧
      .tcp (.up ⟨nodeA, nodeC, 2⟩) (.netJoinResponse nodeB 0 255) ∈ outcome.effects ∧
      (net.node nodeA).selfData.rangeStart = 255 ∧ (net.node nodeA).selfData.rangeEnd = 255 ∧
      net.load 0 (.inl nodeB) = 1 ∧ ¬ SplitsProperly net nodeA .predecessor := by
  have executed : (exec Net.step (Net.founded nodeA) (nameFirst ++ [.leave nodeA,
      .deliver nodeB .predecessor, .deliver nodeB .predecessor, .reply nodeA])).map
      (fun net => (((net.node nodeA).selfData.rangeStart, (net.node nodeA).selfData.rangeEnd),
        net.load 0 (.inl nodeB), (net.handling nodeA .predecessor).map fun outcome => decide
          (.tcp (.up ⟨nodeA, nodeC, 2⟩) (.netJoinResponse nodeB 0 255) ∈ outcome.effects))) =
      some ((255, 255), 1, some true) := by decide
  obtain ⟨net, reached, eq⟩ := Option.map_eq_some_iff.mp executed
  simp only [Prod.mk.injEq] at eq
  obtain ⟨⟨start, stop⟩, held, found⟩ := eq
  obtain ⟨outcome, handled, sent⟩ := Option.map_eq_some_iff.mp found
  have granted := of_decide_eq_true sent
  refine ⟨_, net, outcome, run_of_exec_true reached, handled, granted, start, stop, held, ?_⟩
  intro proper
  have lt := (proper outcome _ _ _ _ handled granted).1.lt
  rw [start, stop] at lt
  exact absurd lt (by decide)

end DhtRing

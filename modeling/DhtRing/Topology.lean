import DhtRing.Steps
import DhtRing.Lib.Tiling

/-!
# The shape of the ring

What the membership steps look at and change: the phases and wiring of the nodes,
the PDUs on their way that are not requests, and the connections.  A plan says
which node has which points; a ring follows the plan, save at the places where a
change is under way.
-/

set_option autoImplicit false

namespace DhtRing

open Tiling

/-! ## Plans -/

structure Plan where
  own : ℕ → Addr
  lo : Addr → ℕ
  hi : Addr → ℕ

namespace Plan

variable {plan : Plan} {n m k j l : Addr}

def Member (plan : Plan) (n : Addr) : Prop := Tiling.Member 256 plan.own n

def next (plan : Plan) (n : Addr) : Addr := Tiling.next 256 plan.own (plan.hi n)

def Tiled (plan : Plan) : Prop := Tiling.Tiled 256 plan.own plan.lo plan.hi

def split (plan : Plan) (k : Addr) (mid : ℕ) (j : Addr) : Plan where
  own := give plan.own (mid + 1) (plan.hi k) j
  lo := Function.update plan.lo j (mid + 1)
  hi := Function.update (Function.update plan.hi k mid) j (plan.hi k)

def handOver (plan : Plan) (l heir : Addr) : Plan where
  own := take plan.own l heir
  lo := if plan.lo l = 0 then Function.update plan.lo heir (plan.lo l) else plan.lo
  hi := if plan.lo l = 0 then plan.hi else Function.update plan.hi heir (plan.hi l)

theorem member_next (tiled : plan.Tiled) (mem : plan.Member n) : plan.Member (plan.next n) :=
  Tiling.member_next (by decide) _ (tiled n mem).bounded

theorem next_inj (tiled : plan.Tiled) (hn : plan.Member n) (hm : plan.Member m)
    (same : plan.next n = plan.next m) : n = m :=
  tiled.eq_of_next_eq hn hm same

theorem exists_prev (tiled : plan.Tiled) (mem : plan.Member n) :
    ∃ p, plan.Member p ∧ plan.next p = n :=
  Tiling.Tiled.exists_prev tiled mem

theorem next_eq_self (tiled : plan.Tiled) (mem : plan.Member n) :
    plan.next n = n ↔ plan.lo n = 0 ∧ plan.hi n = 255 := by
  constructor
  · intro self
    have := Tiling.Tiled.next_eq_self tiled mem self
    omega
  · intro whole
    exact Tiling.Tiled.next_self_of_whole tiled mem (by omega)

theorem member_split (tiled : plan.Tiled) (mem : plan.Member k) {mid : ℕ}
    (from_lo : plan.lo k ≤ mid) (below : mid < plan.hi k) :
    (plan.split k mid j).Member n ↔ n = j ∨ plan.Member n :=
  Tiling.Tiled.member_split tiled mem from_lo below n

theorem tiled_split (tiled : plan.Tiled) (mem : plan.Member k) {mid : ℕ}
    (from_lo : plan.lo k ≤ mid) (below : mid < plan.hi k) (fresh : ¬ plan.Member j) :
    (plan.split k mid j).Tiled :=
  Tiling.Tiled.split tiled mem from_lo below fresh

theorem next_split_self (tiled : plan.Tiled) (mem : plan.Member k) {mid : ℕ}
    (below : mid < plan.hi k) (fresh : ¬ plan.Member j) : (plan.split k mid j).next k = j := by
  have other : k ≠ j := fun eq => fresh (eq ▸ mem)
  simp only [next, split, Function.update_of_ne other, Function.update_self]
  exact Tiling.Tiled.next_split_self tiled mem below

theorem next_split_new (tiled : plan.Tiled) (mem : plan.Member k) {mid : ℕ}
    (from_lo : plan.lo k ≤ mid) : (plan.split k mid j).next j = plan.next k := by
  simp only [next, split, Function.update_self]
  exact Tiling.Tiled.next_split tiled mem from_lo mem

theorem next_split_of_ne (tiled : plan.Tiled) (mem : plan.Member k) {mid : ℕ}
    (from_lo : plan.lo k ≤ mid) (hn : plan.Member n) (not_k : n ≠ k) (not_j : n ≠ j) :
    (plan.split k mid j).next n = plan.next n := by
  simp only [next, split, Function.update_of_ne not_j, Function.update_of_ne not_k]
  exact Tiling.Tiled.next_split tiled mem from_lo hn

/-- The node that takes a leaving node's points: its successor, if these begin at 0,
and its predecessor `p` otherwise. -/
def heir (plan : Plan) (p l : Addr) : Addr := if plan.lo l = 0 then plan.next l else p

section

variable {p : Addr} (tiled : plan.Tiled) (hp : plan.Member p) (before : plan.next p = l)
  (other : p ≠ l)

include tiled hp before other

theorem ends_before : plan.next l ≠ l ∧ plan.Member l ∧
    (plan.lo l = 0 → plan.hi l + 1 = plan.lo (plan.next l)) ∧
    (plan.lo l ≠ 0 → plan.hi p + 1 = plan.lo l) := by
  have hl : plan.Member l := before ▸ member_next tiled hp
  have apart : plan.next l ≠ l := fun self =>
    other (next_inj tiled hp hl (before.trans self.symm))
  refine ⟨apart, hl, ?_, ?_⟩
  · intro zero
    have start : plan.lo (plan.next l) = _ := Tiling.Tiled.lo_next tiled hl
    have not_last : plan.hi l ≠ 255 := fun last =>
      apart ((next_eq_self tiled hl).mpr ⟨zero, last⟩)
    rw [start, if_neg (by omega)]
  · intro nonzero
    have start : plan.lo (plan.next p) = _ := Tiling.Tiled.lo_next tiled hp
    rw [before] at start
    split at start <;> omega

theorem heir_member : plan.Member (plan.heir p l) ∧ plan.heir p l ≠ l := by
  obtain ⟨apart, hl, -, -⟩ := ends_before tiled hp before other
  unfold heir
  split
  · exact ⟨member_next tiled hl, apart⟩
  · exact ⟨hp, other⟩

theorem member_handOver :
    (plan.handOver l (plan.heir p l)).Member n ↔ n ≠ l ∧ plan.Member n := by
  obtain ⟨mem, apart⟩ := heir_member tiled hp before other
  exact member_take mem apart n

theorem tiled_handOver : (plan.handOver l (plan.heir p l)).Tiled := by
  obtain ⟨apart, hl, up, down⟩ := ends_before tiled hp before other
  unfold handOver heir Tiled
  by_cases zero : plan.lo l = 0
  · simp only [if_pos zero]
    exact Tiling.Tiled.merge_prev tiled (member_next tiled hl) hl (up zero)
  · simp only [if_neg zero]
    exact Tiling.Tiled.merge_next tiled hp hl (down zero)

theorem next_handOver_prev : (plan.handOver l (plan.heir p l)).next p = plan.next l := by
  obtain ⟨apart, hl, up, down⟩ := ends_before tiled hp before other
  unfold next at before apart ⊢
  unfold handOver heir
  by_cases zero : plan.lo l = 0
  · simp only [if_pos zero, next_take, before, if_true]
    rfl
  · simp only [if_neg zero, Function.update_self, next_take]
    rw [if_neg apart]

omit other in
theorem next_handOver (hn : plan.Member n) (not_p : n ≠ p) :
    (plan.handOver l (plan.heir p l)).next n = plan.next n := by
  have not_before : plan.next n ≠ l := fun eq => not_p (next_inj tiled hn hp (eq.trans before.symm))
  unfold next at not_before ⊢
  unfold handOver heir
  by_cases zero : plan.lo l = 0
  · simp only [if_pos zero, next_take]
    rw [if_neg not_before]
  · simp only [if_neg zero, Function.update_of_ne not_p, next_take]
    rw [if_neg not_before]

end

end Plan

/-! ## Wiring -/

structure Topology where
  pc : Addr → Pc
  wiring : Addr → Wiring
  shut : Loc → Bool
  backlog : Addr → List Conn
  serial : ℕ

def Net.topology (net : Net) : Topology where
  pc n := (net.node n).pc
  wiring n := (net.node n).selfData.wiring
  shut := net.shut
  backlog := net.backlog
  serial := net.serial

def Net.control (net : Net) (loc : Loc) : List Pdu :=
  (net.queue loc).filterMap fun msg => if msg.pdu.requestKey.isNone then some msg.pdu else none

namespace Topology

variable {T T' : Topology} {n m k : Addr} {c : Conn} {plan : Plan}

structure Out (T : Topology) (n : Addr) (c : Conn) (m : Addr) : Prop where
  successor : (T.wiring n).successor = ⟨some c, m⟩
  fds : (T.wiring n).fdsSuccessor = some c
  source : c.source = n
  target : c.target = m
  old : c.serial < T.serial
  is_open : T.shut (.up c) = false

structure In (T : Topology) (m : Addr) (c : Conn) : Prop where
  predecessor : (T.wiring m).predecessor = some c
  fds : (T.wiring m).fdsPredecessor = some c
  target : c.target = m
  old : c.serial < T.serial
  is_open : T.shut (.down c) = false

structure NoOut (T : Topology) (n : Addr) : Prop where
  socket : (T.wiring n).successor.socket = none
  fds : (T.wiring n).fdsSuccessor = none

structure NoIn (T : Topology) (n : Addr) : Prop where
  predecessor : (T.wiring n).predecessor = none
  fds : (T.wiring n).fdsPredecessor = none

/-- `m` is the successor of `n`, on both sides; or `n` is alone. -/
def Linked (T : Topology) (n m : Addr) : Prop :=
  (n ≠ m ∧ ∃ c, T.Out n c m ∧ T.In m c ∧ T.backlog m = []) ∨
    (n = m ∧ T.NoOut n ∧ T.NoIn n ∧ T.backlog n = [])

def Away (T : Topology) (n : Addr) : Prop :=
  (T.pc n = .absent ∧ T.backlog n = []) ∨ T.pc n = .exited true

/-- A node reads from the connections that it made or that were made to it. -/
structure Held (T : Topology) (n : Addr) : Prop where
  successor : ∀ c, (T.wiring n).fdsSuccessor = some c → c.source = n
  predecessor : ∀ c, (T.wiring n).fdsPredecessor = some c → c.target = n

end Topology

def Pc.born : Pc → Bool
  | .q7Accept | .q7Receive => false
  | _ => true

/-- The nodes follow the plan, save that the members in `bare` may lack the link to
their successor, and that the addresses in `guest` are in use by other nodes. -/
structure Ring (T : Topology) (plan : Plan) (bare guest : Addr → Prop) : Prop where
  tiled : plan.Tiled
  range : ∀ n, plan.Member n → (T.pc n).born = true →
    (T.wiring n).rangeStart.toNat = plan.lo n ∧ (T.wiring n).rangeEnd.toNat = plan.hi n
  linked : ∀ n, plan.Member n → ¬ bare n → T.Linked n (plan.next n)
  away : ∀ n, ¬ plan.Member n → ¬ guest n → T.Away n
  port : ∀ n, plan.Member n → n.port ≠ 0
  listening : ∀ n, (T.wiring n).listening = n
  held : ∀ n, T.Held n
  fresh : ∀ c, T.serial ≤ c.serial → T.shut (.up c) = false ∧ T.shut (.down c) = false

structure Touches (T T' : Topology) (k : Addr) : Prop where
  pc : ∀ n, n ≠ k → T'.pc n = T.pc n
  wiring : ∀ n, n ≠ k → T'.wiring n = T.wiring n
  shut : ∀ loc, loc.writer ≠ some k → T'.shut loc = T.shut loc
  serial : T.serial ≤ T'.serial

section

variable {T T' : Topology} {n m k : Addr} {c : Conn} {plan : Plan} {bare guest : Addr → Prop}

theorem Topology.Out.congr (out : T.Out n c m)
    (successor : (T'.wiring n).successor = (T.wiring n).successor)
    (fds : (T'.wiring n).fdsSuccessor = (T.wiring n).fdsSuccessor)
    (shut : T'.shut (.up c) = T.shut (.up c)) (serial : T.serial ≤ T'.serial) : T'.Out n c m where
  successor := successor.trans out.successor
  fds := fds.trans out.fds
  source := out.source
  target := out.target
  old := lt_of_lt_of_le out.old serial
  is_open := shut.trans out.is_open

theorem Topology.In.congr (inn : T.In m c)
    (predecessor : (T'.wiring m).predecessor = (T.wiring m).predecessor)
    (fds : (T'.wiring m).fdsPredecessor = (T.wiring m).fdsPredecessor)
    (shut : T'.shut (.down c) = T.shut (.down c)) (serial : T.serial ≤ T'.serial) :
    T'.In m c where
  predecessor := predecessor.trans inn.predecessor
  fds := fds.trans inn.fds
  target := inn.target
  old := lt_of_lt_of_le inn.old serial
  is_open := shut.trans inn.is_open

theorem Touches.out (touches : Touches T T' k) (other : n ≠ k) (out : T.Out n c m) :
    T'.Out n c m := by
  have wiring := touches.wiring n other
  apply out.congr (by rw [wiring]) (by rw [wiring]) _ touches.serial
  apply touches.shut
  rw [Loc.writer, out.source]
  simpa using other

theorem Touches.inn (touches : Touches T T' k) (other : m ≠ k) (inn : T.In m c) : T'.In m c := by
  have wiring := touches.wiring m other
  apply inn.congr (by rw [wiring]) (by rw [wiring]) _ touches.serial
  apply touches.shut
  rw [Loc.writer, inn.target]
  simpa using other

theorem Touches.noOut (touches : Touches T T' k) (other : n ≠ k) (out : T.NoOut n) :
    T'.NoOut n := by
  have wiring := touches.wiring n other
  exact ⟨by rw [wiring, out.socket], by rw [wiring, out.fds]⟩

theorem Touches.noIn (touches : Touches T T' k) (other : n ≠ k) (inn : T.NoIn n) : T'.NoIn n := by
  have wiring := touches.wiring n other
  exact ⟨by rw [wiring, inn.predecessor], by rw [wiring, inn.fds]⟩

theorem Touches.linked (touches : Touches T T' k) (not_n : n ≠ k) (not_m : m ≠ k)
    (backlog : T'.backlog m = T.backlog m) (linked : T.Linked n m) : T'.Linked n m := by
  rcases linked with ⟨other, c, out, inn, waits⟩ | ⟨rfl, out, inn, waits⟩
  · exact Or.inl ⟨other, c, touches.out not_n out, touches.inn not_m inn, backlog.trans waits⟩
  · exact Or.inr ⟨rfl, touches.noOut not_n out, touches.noIn not_n inn, backlog.trans waits⟩

/-- What remains to be shown of a ring after one node was at work in it and the plan
stayed. -/
theorem Ring.touch (ring : Ring T plan bare guest) (touches : Touches T T' k)
    {bare' guest' : Addr → Prop}
    (range : plan.Member k → (T'.pc k).born = true →
      (T'.wiring k).rangeStart.toNat = plan.lo k ∧ (T'.wiring k).rangeEnd.toNat = plan.hi k)
    (linked : ∀ n, plan.Member n → ¬ bare' n →
      n = k ∨ plan.next n = k ∨ bare n ∨ T'.backlog (plan.next n) ≠ T.backlog (plan.next n) →
        T'.Linked n (plan.next n))
    (away : ∀ n, ¬ plan.Member n → ¬ guest' n →
      n = k ∨ guest n ∨ T'.backlog n ≠ T.backlog n → T'.Away n)
    (listening : (T'.wiring k).listening = k) (held : T'.Held k)
    (fresh : ∀ c, T'.serial ≤ c.serial → T'.shut (.up c) = false ∧ T'.shut (.down c) = false) :
    Ring T' plan bare' guest' where
  tiled := ring.tiled
  range n mem born := by
    by_cases here : n = k
    · subst here
      exact range mem born
    · rw [touches.pc n here] at born
      rw [touches.wiring n here]
      exact ring.range n mem born
  linked n mem whole := by
    by_cases near : n = k ∨ plan.next n = k ∨ bare n ∨
        T'.backlog (plan.next n) ≠ T.backlog (plan.next n)
    · exact linked n mem whole near
    · simp only [not_or, not_not] at near
      obtain ⟨not_k, not_next, not_bare, backlog⟩ := near
      exact touches.linked not_k not_next backlog (ring.linked n mem not_bare)
  away n outside not_guest := by
    by_cases near : n = k ∨ guest n ∨ T'.backlog n ≠ T.backlog n
    · exact away n outside not_guest near
    · simp only [not_or, not_not] at near
      obtain ⟨not_k, not_before, backlog⟩ := near
      rcases ring.away n outside not_before with ⟨absent, empty⟩ | gone
      · exact Or.inl ⟨(touches.pc n not_k).trans absent, backlog.trans empty⟩
      · exact Or.inr ((touches.pc n not_k).trans gone)
  port := ring.port
  listening n := by
    by_cases here : n = k
    · subst here
      exact listening
    · rw [touches.wiring n here]
      exact ring.listening n
  held n := by
    by_cases here : n = k
    · subst here
      exact held
    · have wiring := touches.wiring n here
      have before := ring.held n
      exact ⟨fun c fds => before.successor c (wiring ▸ fds),
        fun c fds => before.predecessor c (wiring ▸ fds)⟩
  fresh := fresh

structure Hears (T T' : Topology) (m : Addr) : Prop extends Touches T T' m where
  successor : (T'.wiring m).successor = (T.wiring m).successor
  fdsSuccessor : (T'.wiring m).fdsSuccessor = (T.wiring m).fdsSuccessor
  up : ∀ c, T'.shut (.up c) = T.shut (.up c)
  same_serial : T'.serial = T.serial
  backlog : ∀ n, n ≠ m → T'.backlog n = T.backlog n

theorem Hears.out (hears : Hears T T' m) {k : Addr} (out : T.Out n c k) :
    T'.Out n c k := by
  apply out.congr _ _ (hears.up c) hears.serial
  · by_cases here : n = m
    · rw [here, hears.successor]
    · rw [hears.wiring n here]
  · by_cases here : n = m
    · rw [here, hears.fdsSuccessor]
    · rw [hears.wiring n here]

theorem Hears.noOut (hears : Hears T T' m) (out : T.NoOut n) :
    T'.NoOut n := by
  by_cases here : n = m
  · rw [here] at out ⊢
    exact ⟨by rw [hears.successor, out.socket], by rw [hears.fdsSuccessor, out.fds]⟩
  · exact hears.toTouches.noOut here out

theorem Hears.inn (hears : Hears T T' m) {k : Addr} (other : k ≠ m) (inn : T.In k c) : T'.In k c :=
  hears.toTouches.inn other inn

theorem Ring.hears (ring : Ring T plan bare guest) (hears : Hears T T' m) (mem : plan.Member m)
    {bare' : Addr → Prop}
    (back : ∀ n, plan.Member n → ¬ bare' n →
      (plan.next n = m → T'.Linked n m) ∧ (plan.next n ≠ m → ¬ bare n))
    (born : (T'.pc m).born = true → (T.pc m).born = true)
    (range : (T'.wiring m).rangeStart = (T.wiring m).rangeStart ∧
      (T'.wiring m).rangeEnd = (T.wiring m).rangeEnd)
    (listening : (T'.wiring m).listening = (T.wiring m).listening)
    (held : ∀ c, (T'.wiring m).fdsPredecessor = some c → c.target = m)
    (fresh : ∀ c, T'.serial ≤ c.serial → T'.shut (.down c) = false) :
    Ring T' plan bare' guest := by
  refine ring.touch hears.toTouches ?_ ?_ ?_ ?_ ?_ ?_
  · intro mem_m born'
    rw [range.1, range.2]
    exact ring.range m mem_m (born born')
  · intro n mem_n whole _
    by_cases next : plan.next n = m
    · rw [next]
      exact (back n mem_n whole).1 next
    · rcases ring.linked n mem_n ((back n mem_n whole).2 next) with
        ⟨other, c, out, inn, waits⟩ | ⟨self, out, inn, waits⟩
      · exact Or.inl ⟨other, c, hears.out out, hears.inn next inn,
          (hears.backlog _ next).trans waits⟩
      · rw [← self] at next
        exact Or.inr ⟨self, hears.noOut out, hears.toTouches.noIn next inn,
          (hears.backlog _ next).trans waits⟩
  · intro n outside not_guest _
    have other : n ≠ m := fun eq => outside (eq ▸ mem)
    rcases ring.away n outside not_guest with ⟨absent, empty⟩ | gone
    · exact Or.inl ⟨(hears.pc n other).trans absent, (hears.backlog n other).trans empty⟩
    · exact Or.inr ((hears.pc n other).trans gone)
  · exact listening.trans (ring.listening m)
  · refine ⟨fun c fds => (ring.held m).successor c ?_, held⟩
    rwa [← hears.fdsSuccessor]
  · intro c new
    have old : T.serial ≤ c.serial := hears.same_serial ▸ new
    exact ⟨(hears.up c).trans (ring.fresh c old).1, fresh c new⟩

structure Speaks (T T' : Topology) (n m : Addr) : Prop extends Touches T T' n where
  predecessor : (T'.wiring n).predecessor = (T.wiring n).predecessor
  fdsPredecessor : (T'.wiring n).fdsPredecessor = (T.wiring n).fdsPredecessor
  down : ∀ c, T'.shut (.down c) = T.shut (.down c)
  backlog : ∀ k, k ≠ m → T'.backlog k = T.backlog k

theorem Speaks.inn (speaks : Speaks T T' n m) {k : Addr} (inn : T.In k c) : T'.In k c := by
  apply inn.congr _ _ (speaks.down c) speaks.serial
  · by_cases here : k = n
    · rw [here, speaks.predecessor]
    · rw [speaks.wiring k here]
  · by_cases here : k = n
    · rw [here, speaks.fdsPredecessor]
    · rw [speaks.wiring k here]

theorem Speaks.noIn (speaks : Speaks T T' n m) {k : Addr} (inn : T.NoIn k) : T'.NoIn k := by
  by_cases here : k = n
  · rw [here] at inn ⊢
    exact ⟨by rw [speaks.predecessor, inn.predecessor], by rw [speaks.fdsPredecessor, inn.fds]⟩
  · exact speaks.toTouches.noIn here inn

theorem Ring.speaks (ring : Ring T plan bare guest) (speaks : Speaks T T' n m)
    (mem : plan.Member n) (next : plan.next n = m) {bare' : Addr → Prop}
    (back : ∀ k, k ≠ n → ¬ bare' k → ¬ bare k) (loose : bare' n)
    (range : (T'.pc n).born = true →
      (T'.wiring n).rangeStart.toNat = plan.lo n ∧ (T'.wiring n).rangeEnd.toNat = plan.hi n)
    (listening : (T'.wiring n).listening = (T.wiring n).listening)
    (held : ∀ c, (T'.wiring n).fdsSuccessor = some c → c.source = n)
    (fresh : ∀ c, T'.serial ≤ c.serial → T'.shut (.up c) = false) :
    Ring T' plan bare' guest := by
  refine ring.touch speaks.toTouches (fun _ => range) ?_ ?_ ?_ ?_ ?_
  · intro k mem_k whole _
    have other : k ≠ n := fun eq => whole (eq ▸ loose)
    have elsewhere : plan.next k ≠ m := fun eq =>
      other (Plan.next_inj ring.tiled mem_k mem (eq.trans next.symm))
    have backlog := speaks.backlog _ elsewhere
    rcases ring.linked k mem_k (back k other whole) with ⟨apart, c, out, inn, waits⟩ |
      ⟨self, out, inn, waits⟩
    · exact Or.inl ⟨apart, c, speaks.toTouches.out other out, speaks.inn inn,
        backlog.trans waits⟩
    · rw [← self] at backlog
      exact Or.inr ⟨self, speaks.toTouches.noOut other out, speaks.noIn inn, backlog.trans waits⟩
  · intro k outside not_guest _
    have other : k ≠ n := fun eq => outside (eq ▸ mem)
    have elsewhere : k ≠ m := fun eq =>
      outside (eq ▸ next ▸ Plan.member_next ring.tiled mem)
    rcases ring.away k outside not_guest with ⟨absent, empty⟩ | gone
    · exact Or.inl ⟨(speaks.pc k other).trans absent, (speaks.backlog k elsewhere).trans empty⟩
    · exact Or.inr ((speaks.pc k other).trans gone)
  · exact listening.trans (ring.listening n)
  · refine ⟨held, fun c fds => (ring.held n).predecessor c ?_⟩
    rwa [← speaks.fdsPredecessor]
  · intro c new
    have old : T.serial ≤ c.serial := Nat.le_trans speaks.serial new
    exact ⟨fresh c new, (speaks.down c).trans (ring.fresh c old).2⟩

end

end DhtRing

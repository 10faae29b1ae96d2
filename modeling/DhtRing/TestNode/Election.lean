import DhtRing.Lib.RingElection
import DhtRing.TestNode.Rounds

/-!
# The election of a `NET_JOIN`

A `NET_JOIN` goes round a ring of nodes in `Q6` until a node finds its listening address in
it.  Every node listens on `0.0.0.0`, so that the port alone says who that is.
-/

set_option autoImplicit false

namespace DhtRing.TestNode

open RingElection (Elected Mistaken)

/-! ## One node -/

namespace Node

/-- A `NET_JOIN` in a round of its own: `run` up to `Q13`, or back to `Q6`. -/
def handleJoin (env : Env) (node : Node) (pdu : NetJoinPdu) (source : Source) :
    Except String Node := do
  let node ← node.round env [(.netJoin pdu, source)] false
  let node ← node.step env
  if node.state = .q14 then node.step env else return node

def forwarded (node : Node) : Option NetJoinPdu :=
  match node.effects.getLast? with
  | some (.tcp _ (.netJoin pdu)) => some pdu
  | _ => none

def span (node : Node) : ℕ := node.hashRange.2.toNat - node.hashRange.1.toNat

/-- A node of a ring in which nothing is going on. -/
structure Quiet (node : Node) : Prop where
  state : node.state = .q6
  stays : node.shouldClose = false
  connected : node.successor.isSome
  anywhere : node.listenAddr.address = 0
  bound : node.listenAddr.port ≠ 0
  ordered : node.hashRange.1 ≤ node.hashRange.2

structure Same (node next : Node) : Prop where
  hashRange : next.hashRange = node.hashRange
  listenAddr : next.listenAddr = node.listenAddr

def visited (node : Node) (pdu : NetJoinPdu) : NetJoinPdu :=
  if node.hashRange.2 - node.hashRange.1 > pdu.maxSpan then
    { pdu with
      maxSpan := node.hashRange.2 - node.hashRange.1
      maxAddress := node.listenAddr.address
      maxPort := node.listenAddr.port }
  else pdu

end Node

/-! ## The ring -/

structure QuietRing (n : ℕ) where
  nodes : Fin n → Node
  several : 2 ≤ n
  quiet : ∀ i, (nodes i).Quiet
  different : ∀ i j, (nodes i).ownAddress = (nodes j).ownAddress →
    (nodes i).listenAddr.port = (nodes j).listenAddr.port → i = j
  partition : ∀ hash, ∃! i, (nodes i).hashRange.1 ≤ hash ∧ hash ≤ (nodes i).hashRange.2
  wide : ∃ i, 0 < (nodes i).span

namespace QuietRing

variable {n : ℕ} (ring : QuietRing n)

def place (i : ℕ) : Fin n := ⟨i % n, Nat.mod_lt _ (Nat.zero_lt_of_lt ring.several)⟩

def spanAt (i : ℕ) : ℕ := (ring.nodes (ring.place i)).span

def portAt (i : ℕ) : UInt16 := (ring.nodes (ring.place i)).listenAddr.port

structure Travel (n : ℕ) where
  nodes : Fin n → Node
  pdu : NetJoinPdu

def travel (env : ℕ → Env) (source : ℕ → Source) (pdu : NetJoinPdu) (entry : ℕ) :
    ℕ → Except String (Travel n)
  | 0 => return ⟨ring.nodes, pdu⟩
  | k + 1 => do
      let now ← travel env source pdu entry k
      let node ← (now.nodes (ring.place (entry + k))).handleJoin (env k) now.pdu (source k)
      match node.state, node.forwarded with
      | .q6, some pdu => return ⟨Function.update now.nodes (ring.place (entry + k)) node, pdu⟩
      | _, _ => throw "elected"

/-- Within `2 n` handlings a node of the largest span enters `Q13`, and the nodes before it
forward the PDU and keep their ranges. -/
def ElectsLargest (env : ℕ → Env) (source : ℕ → Source) (pdu : NetJoinPdu) (entry : ℕ) : Prop :=
  ∃ k < 2 * n, ∃ now, ring.travel env source pdu entry k = .ok now ∧
    (∀ i, (now.nodes i).hashRange = (ring.nodes i).hashRange) ∧
    (∃ elected, (now.nodes (ring.place (entry + k))).handleJoin (env k) now.pdu (source k) =
      .ok elected ∧ elected.state = .q13) ∧
    ∀ i, (ring.nodes i).span ≤ ring.spanAt (entry + k)

end QuietRing

/-! ## One handling -/

namespace Node

variable {env : Env} {node next : Node} {pdu : NetJoinPdu} {source : Source}

theorem sendAlive_eq (env : Env) (node : Node) :
    node.sendAlive env = { node with
      lastAlive := (node.sendAlive env).lastAlive, effects := (node.sendAlive env).effects } := by
  unfold sendAlive
  split <;> rfl

def joining (node : Node) (pdu : NetJoinPdu) : Node :=
  { node with lastPdu := some (.netJoin pdu), state := .q12 }

theorem checkClose_of_open (stays : node.shouldClose = false) :
    checkClose { node with shouldClose := node.shouldClose || false } = node := by
  have same : { node with shouldClose := node.shouldClose || false } = node := by
    rw [Bool.or_false]
  rw [same, checkClose, if_neg (by simp [stays])]

theorem round_join (stays : node.shouldClose = false) (env : Env) (pdu : NetJoinPdu)
    (source : Source) :
    node.round env [(.netJoin pdu, source)] false = .ok ((node.sendAlive env).joining pdu) := by
  have stays : ((node.sendAlive env).joining pdu).shouldClose = false := by
    rw [sendAlive_eq]
    exact stays
  have handled : (node.sendAlive env).handlePdus [(.netJoin pdu, source)] =
      .ok ((node.sendAlive env).joining pdu) := rfl
  rw [round, handled, ok_bind, checkClose_of_open stays]
  rfl

theorem q12_joining (connected : node.successor.isSome) (pdu : NetJoinPdu) :
    (node.joining pdu).q12 = .ok { node.joining pdu with
      state := if node.listenAddr = ⟨pdu.maxAddress, pdu.maxPort⟩ then .q13 else .q14 } := by
  have set : (node.joining pdu).successor.isNone = false := by
    change node.successor.isNone = false
    rw [Option.isNone_eq_false_iff, connected]
  have taken : (node.joining pdu).takeNetJoin "Invalid state change, last_pdu is not NetJoin" =
      .ok pdu := rfl
  rw [q12, set, taken]
  change (if node.listenAddr = ⟨pdu.maxAddress, pdu.maxPort⟩ then _ else _) = _
  split <;> rfl

theorem q14_passing {socket : TcpStream} (set : node.successor = some socket)
    (ordered : node.hashRange.1 ≤ node.hashRange.2) (pdu : NetJoinPdu) :
    q14 { node.joining pdu with state := .q14 } =
      .ok { node.emit [.tcp socket.fd (.netJoin (node.visited pdu))] with
        lastPdu := none, state := .q6 } := by
  have taken : takeNetJoin { node.joining pdu with state := .q14 }
      "Invalid state change, last_pdu is not NetJoin" = .ok pdu := rfl
  have difference : checkedSub node.hashRange.2 node.hashRange.1 =
      .ok (node.hashRange.2 - node.hashRange.1) := if_pos ordered
  have sent : ({ node with lastPdu := none, state := .q14 }).forward (.netJoin (node.visited pdu)) =
      .ok ({ node with lastPdu := none, state := .q14 }.emit
        [.tcp socket.fd (.netJoin (node.visited pdu))]) := forward_of_some (by exact set) _
  rw [q14, taken, ok_bind]
  change (checkedSub node.hashRange.2 node.hashRange.1 >>= _) = _
  rw [difference, ok_bind]
  change (({ node with lastPdu := none, state := .q14 }).forward
    (.netJoin (node.visited pdu)) >>= _) = _
  rw [sent]
  rfl

theorem handleJoin_eq {socket : TcpStream} (quiet : node.Quiet)
    (set : node.successor = some socket) (env : Env) (pdu : NetJoinPdu) (source : Source) :
    node.handleJoin env pdu source = .ok (
      if node.listenAddr = ⟨pdu.maxAddress, pdu.maxPort⟩ then
        { (node.sendAlive env).joining pdu with state := .q13 }
      else
        { (node.sendAlive env).emit [.tcp socket.fd (.netJoin (node.visited pdu))] with
          lastPdu := none, state := .q6 }) := by
  have connected : (node.sendAlive env).successor.isSome := by
    rw [sendAlive_eq]
    exact quiet.connected
  have set_alive : (node.sendAlive env).successor = some socket := by
    rw [sendAlive_eq]
    exact set
  have ordered : (node.sendAlive env).hashRange.1 ≤ (node.sendAlive env).hashRange.2 := by
    rw [sendAlive_eq]
    exact quiet.ordered
  have address : (node.sendAlive env).listenAddr = node.listenAddr := by rw [sendAlive_eq]
  have visits : (node.sendAlive env).visited pdu = node.visited pdu := by
    rw [sendAlive_eq]
    rfl
  have first : ((node.sendAlive env).joining pdu).step env =
      ((node.sendAlive env).joining pdu).q12 := rfl
  rw [handleJoin, round_join quiet.stays, ok_bind, first, q12_joining connected, ok_bind, address]
  by_cases own : node.listenAddr = ⟨pdu.maxAddress, pdu.maxPort⟩
  · rw [if_pos own, if_pos own]
    rfl
  · rw [if_neg own, if_neg own, ← visits]
    exact q14_passing set_alive ordered pdu

structure Carries (pdu : NetJoinPdu) (token : RingElection.Token UInt16) : Prop where
  record : pdu.maxSpan.toNat = token.record
  anywhere : pdu.maxAddress = 0
  holder : pdu.maxPort = token.holder.getD 0
  bound : token.holder ≠ some 0

variable {token : RingElection.Token UInt16}

theorem Carries.own_iff (carries : Carries pdu token) (quiet : node.Quiet) :
    node.listenAddr = ⟨pdu.maxAddress, pdu.maxPort⟩ ↔
      token.holder = some node.listenAddr.port := by
  constructor
  · intro own
    have port : node.listenAddr.port = token.holder.getD 0 := by
      rw [own]
      exact carries.holder
    cases holder : token.holder with
    | none =>
        rw [holder] at port
        exact absurd port quiet.bound
    | some other =>
        rw [holder] at port
        rw [port]
        rfl
  · intro mine
    have port := carries.holder
    rw [mine] at port
    rw [carries.anywhere, port, ← quiet.anywhere]
    rfl

theorem Carries.visited (carries : Carries pdu token) (quiet : node.Quiet) :
    Carries (node.visited pdu) (token.visit node.span node.listenAddr.port) := by
  have width : (node.hashRange.2 - node.hashRange.1).toNat = node.span :=
    UInt8.toNat_sub_of_le _ _ quiet.ordered
  have larger : node.hashRange.2 - node.hashRange.1 > pdu.maxSpan ↔ token.record < node.span := by
    rw [gt_iff_lt, UInt8.lt_iff_toNat_lt, width, carries.record]
  unfold Node.visited RingElection.Token.visit
  by_cases new : token.record < node.span
  · rw [if_pos (larger.mpr new), if_pos new]
    refine ⟨width, quiet.anywhere, rfl, ?_⟩
    intro zero
    exact quiet.bound (Option.some.inj zero)
  · rw [if_neg (fun yes => new (larger.mp yes)), if_neg new]
    exact carries

/-- A handling of the `NET_JOIN` is a visit of the token. -/
theorem Carries.handleJoin (carries : Carries pdu token) (quiet : node.Quiet) (env : Env)
    (source : Source) :
    (token.holder = some node.listenAddr.port →
      ∃ elected, node.handleJoin env pdu source = .ok elected ∧ elected.state = .q13) ∧
    (token.holder ≠ some node.listenAddr.port →
      ∃ next pdu', node.handleJoin env pdu source = .ok next ∧ next.state = .q6 ∧
        next.forwarded = some pdu' ∧ next.Quiet ∧ Same node next ∧
        Carries pdu' (token.visit node.span node.listenAddr.port)) := by
  obtain ⟨socket, set⟩ := Option.isSome_iff_exists.mp quiet.connected
  have own := carries.own_iff quiet
  refine ⟨fun mine => ?_, fun others => ?_⟩
  · rw [handleJoin_eq quiet set, if_pos (own.mpr mine)]
    exact ⟨_, rfl, rfl⟩
  · rw [handleJoin_eq quiet set, if_neg (fun yes => others (own.mp yes))]
    refine ⟨_, node.visited pdu, rfl, rfl, ?_, ?_, ?_, carries.visited quiet⟩
    · simp [forwarded, emit]
    · rw [sendAlive_eq]
      exact ⟨rfl, quiet.stays, quiet.connected, quiet.anywhere, quiet.bound, quiet.ordered⟩
    · rw [sendAlive_eq]
      exact ⟨rfl, rfl⟩

end Node

/-! ## The way round the ring -/

namespace QuietRing

open Node (Carries Same)

variable {n : ℕ} {ring : QuietRing n} {env : ℕ → Env} {source : ℕ → Source} {pdu : NetJoinPdu}
variable {entry k : ℕ} {now : Travel n}

def tokenAt (ring : QuietRing n) (entry k : ℕ) : RingElection.Token UInt16 :=
  RingElection.token ring.spanAt ring.portAt entry k

theorem travel_of_unnamed (env : ℕ → Env) (source : ℕ → Source) (fresh : Carries pdu ⟨0, none⟩)
    (k : ℕ) (unnamed : ∀ j < k, (ring.tokenAt entry j).holder ≠ some (ring.portAt (entry + j))) :
    ∃ now, ring.travel env source pdu entry k = .ok now ∧
      Carries now.pdu (ring.tokenAt entry k) ∧
      ∀ i, (now.nodes i).Quiet ∧ Same (ring.nodes i) (now.nodes i) := by
  induction k with
  | zero => exact ⟨⟨ring.nodes, pdu⟩, rfl, fresh, fun i => ⟨ring.quiet i, rfl, rfl⟩⟩
  | succ k ih =>
      obtain ⟨now, travelled, carries, same⟩ := ih fun j before => unnamed j (by omega)
      obtain ⟨quiet, range, address⟩ := same (ring.place (entry + k))
      have port : (now.nodes (ring.place (entry + k))).listenAddr.port = ring.portAt (entry + k) := by
        rw [address]
        rfl
      have width : (now.nodes (ring.place (entry + k))).span = ring.spanAt (entry + k) := by
        rw [Node.span, range]
        rfl
      have others := unnamed k (Nat.lt_succ_self k)
      rw [← port] at others
      obtain ⟨next, pdu', handled, state, sent, quiet', same', carries'⟩ :=
        (carries.handleJoin quiet (env k) (source k)).2 others
      refine ⟨⟨Function.update now.nodes (ring.place (entry + k)) next, pdu'⟩, ?_, ?_, ?_⟩
      · rw [travel, travelled, ok_bind, handled, ok_bind, state, sent]
        rfl
      · rw [width, port] at carries'
        exact carries'
      · intro i
        dsimp only
        by_cases here : i = ring.place (entry + k)
        · subst here
          rw [Function.update_self]
          exact ⟨quiet', same'.hashRange.trans range, same'.listenAddr.trans address⟩
        · rw [Function.update_of_ne here]
          exact same i

theorem unnamed_of_travel (fresh : Carries pdu ⟨0, none⟩) : ∀ {k : ℕ} {now : Travel n},
    ring.travel env source pdu entry k = .ok now →
      ∀ j < k, (ring.tokenAt entry j).holder ≠ some (ring.portAt (entry + j)) := by
  intro k
  induction k with
  | zero =>
      intro now _ j before
      exact absurd before (Nat.not_lt_zero j)
  | succ k ih =>
      intro now travelled j before
      cases last : ring.travel env source pdu entry k with
      | error e =>
          rw [travel, last] at travelled
          cases travelled
      | ok t =>
          rcases Nat.lt_succ_iff_lt_or_eq.mp before with before | rfl
          · exact ih last j before
          · intro named
            obtain ⟨t', again, carries, same⟩ := travel_of_unnamed env source fresh j (ih last)
            obtain rfl := Except.ok.inj (last.symm.trans again)
            obtain ⟨quiet, -, address⟩ := same (ring.place (entry + j))
            have port : (t.nodes (ring.place (entry + j))).listenAddr.port =
                ring.portAt (entry + j) := by
              rw [address]
              rfl
            rw [← port] at named
            obtain ⟨elected, handled, state⟩ :=
              (carries.handleJoin quiet (env j) (source j)).1 named
            rw [travel, last, ok_bind, handled, ok_bind, state] at travelled
            cases travelled

theorem electsLargest_iff_elected (fresh : Carries pdu ⟨0, none⟩) :
    ring.ElectsLargest env source pdu entry ↔
      ∃ k < 2 * n, Elected ring.spanAt ring.portAt entry k ∧
        ∀ i, (ring.nodes i).span ≤ ring.spanAt (entry + k) := by
  constructor
  · rintro ⟨k, inside, now, travelled, -, ⟨elected, handled, state⟩, largest⟩
    have unnamed := unnamed_of_travel fresh travelled
    refine ⟨k, inside, ⟨?_, unnamed⟩, largest⟩
    obtain ⟨now', again, carries, same⟩ := travel_of_unnamed env source fresh k unnamed
    obtain rfl := Except.ok.inj (travelled.symm.trans again)
    obtain ⟨quiet, -, address⟩ := same (ring.place (entry + k))
    have port : (now.nodes (ring.place (entry + k))).listenAddr.port = ring.portAt (entry + k) := by
      rw [address]
      rfl
    by_contra others
    change (ring.tokenAt entry k).holder ≠ _ at others
    rw [← port] at others
    obtain ⟨next, pdu', handled', state', -⟩ :=
      (carries.handleJoin quiet (env k) (source k)).2 others
    obtain rfl := Except.ok.inj (handled.symm.trans handled')
    rw [state] at state'
    cases state'
  · rintro ⟨k, inside, elected, largest⟩
    obtain ⟨now, travelled, carries, same⟩ :=
      travel_of_unnamed env source fresh k elected.first
    obtain ⟨quiet, -, address⟩ := same (ring.place (entry + k))
    have named : (ring.tokenAt entry k).holder =
        some (now.nodes (ring.place (entry + k))).listenAddr.port := by
      rw [address]
      exact elected.found
    refine ⟨k, inside, now, travelled, fun i => (same i).2.hashRange, ?_, largest⟩
    exact (carries.handleJoin quiet (env k) (source k)).1 named

theorem around (ring : QuietRing n) (i : ℕ) :
    ring.spanAt (i + n) = ring.spanAt i ∧ ring.portAt (i + n) = ring.portAt i := by
  have same : ring.place (i + n) = ring.place i := Fin.ext (Nat.add_mod_right i n)
  exact ⟨by rw [spanAt, same, spanAt], by rw [portAt, same, portAt]⟩

theorem covers (ring : QuietRing n) (entry i : ℕ) :
    ∃ j < n, ring.spanAt i = ring.spanAt (entry + j) := by
  have positive := Nat.zero_lt_of_lt ring.several
  have start := Nat.mod_lt entry positive
  have aim := Nat.mod_lt i positive
  obtain ⟨j, inside, hits⟩ : ∃ j < n, (entry % n + j) % n = i % n := by
    by_cases before : entry % n ≤ i % n
    · refine ⟨i % n - entry % n, by omega, ?_⟩
      rw [Nat.add_sub_cancel' before, Nat.mod_mod]
    · refine ⟨n + i % n - entry % n, by omega, ?_⟩
      rw [Nat.add_sub_cancel' (by omega), Nat.add_mod_left, Nat.mod_mod]
  refine ⟨j, inside, ?_⟩
  have same : ring.place i = ring.place (entry + j) := by
    apply Fin.ext
    change i % n = (entry + j) % n
    rw [← hits, Nat.mod_add_mod]
  rw [spanAt, same, spanAt]

theorem place_val (ring : QuietRing n) (i : Fin n) : ring.place i = i :=
  Fin.ext (Nat.mod_eq_of_lt i.isLt)

theorem largest_iff (ring : QuietRing n) (s : ℕ) :
    (∀ i, (ring.nodes i).span ≤ s) ↔ ∀ i, ring.spanAt i ≤ s := by
  constructor
  · intro all i
    exact all (ring.place i)
  · intro all i
    have here := all i
    rw [spanAt, place_val] at here
    exact here

/-- From every entry the election finds a node of the largest span, if and only if no node
behind a node with the same port, and with nodes of smaller spans and of other ports between
them, has less than the largest span. -/
theorem electsLargest_iff (ring : QuietRing n) :
    (∀ env source srcAddress srcPort entry,
      ring.ElectsLargest env source (NetJoinPdu.new srcAddress srcPort 0 0 0) entry) ↔
      ∀ x y, ¬ Mistaken ring.spanAt ring.portAt n x y := by
  have fresh (srcAddress : UInt32) (srcPort : UInt16) :
      Carries (NetJoinPdu.new srcAddress srcPort 0 0 0) ⟨0, none⟩ := ⟨rfl, rfl, rfl, by simp⟩
  rw [← RingElection.elects_largest_iff ring.around ring.covers]
  constructor
  · intro all entry k elected
    have found := all (fun _ => ⟨0, fun _ _ => none, fun _ => none⟩) (fun _ => .udp ⟨0, 0⟩) 0 0 entry
    rw [electsLargest_iff_elected (fresh 0 0)] at found
    obtain ⟨j, -, elected', largest⟩ := found
    obtain rfl := elected.unique elected'
    exact (ring.largest_iff _).mp largest
  · intro largest env source srcAddress srcPort entry
    rw [electsLargest_iff_elected (fresh srcAddress srcPort)]
    obtain ⟨x, wide⟩ := ring.wide
    have several : ∃ i, 0 < ring.spanAt i := ⟨x, by rw [spanAt, place_val]; exact wide⟩
    have somebody : ∃ k < 2 * n, Elected ring.spanAt ring.portAt entry k :=
      RingElection.exists_elected ring.around (ring.covers entry) several
    obtain ⟨k, inside, elected⟩ := somebody
    exact ⟨k, inside, elected, (ring.largest_iff _).mpr (largest entry k elected)⟩

def portForwarded (address : UInt32) (range : UInt8 × UInt8) : Node :=
  { Node.new ⟨1, 5000⟩ 4001 4000 with
    state := .q6
    ownAddress := some address
    hashRange := range
    successor := some ⟨0, ⟨3 - address, 4000⟩, [], false⟩
    predecessor := some ⟨1, ⟨3 - address, 4000⟩, [], false⟩ }

/-- Two nodes with the same port at two addresses. -/
def samePort : QuietRing 2 where
  nodes i := if i = 0 then portForwarded 1 (0, 200) else portForwarded 2 (201, 255)
  several := le_rfl
  quiet := by
    intro i
    match i with
    | 0 => exact ⟨rfl, rfl, rfl, rfl, by decide, by decide⟩
    | 1 => exact ⟨rfl, rfl, rfl, rfl, by decide, by decide⟩
  different := by decide
  partition := by
    intro hash
    by_cases low : hash ≤ 200
    · refine ⟨0, ⟨UInt8.zero_le, low⟩, ?_⟩
      rintro i inside
      match i with
      | 0 => rfl
      | 1 =>
          have high : 201 ≤ hash := inside.1
          rw [UInt8.le_iff_toNat_le] at low high
          exact absurd (high.trans low) (by decide)
    · have high : 201 ≤ hash := by
        rw [UInt8.le_iff_toNat_le] at low ⊢
        exact Nat.lt_of_not_le low
      refine ⟨1, ⟨high, UInt8.le_iff_toNat_le.mpr (Nat.le_of_lt_succ hash.toNat_lt)⟩, ?_⟩
      rintro i inside
      match i with
      | 0 => exact absurd inside.2 low
      | 1 => rfl
  wide := ⟨0, by decide⟩

/-- The second node takes the first one's port for its own. -/
theorem samePort_elects_smaller :
    ¬ samePort.ElectsLargest (fun _ => ⟨0, fun _ _ => none, fun _ => none⟩)
      (fun _ => .udp ⟨3, 4002⟩) (NetJoinPdu.new 3 4003 0 0 0) 0 := by
  have fresh : Carries (NetJoinPdu.new 3 4003 0 0 0) ⟨0, none⟩ := ⟨rfl, rfl, rfl, by simp⟩
  have second : Elected samePort.spanAt samePort.portAt 0 1 := by
    refine ⟨by decide, ?_⟩
    intro j before
    obtain rfl := Nat.lt_one_iff.mp before
    simp [RingElection.token]
  rw [electsLargest_iff_elected fresh]
  rintro ⟨k, -, elected, largest⟩
  obtain rfl := second.unique elected
  exact absurd (largest 0) (by decide)

end QuietRing

end DhtRing.TestNode

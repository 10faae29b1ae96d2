import DhtRing.Naming

/-!
# Founding the ring

Nodes that start beside the tracker: `q3`, then `q4` or `q7` and `q8`, then the
rounds of `q6`, and the main loop of `tracker.rs`.  Datagrams are not lost and
arrive in any order; no node leaves and none of the tracker's nodes times out.
Joining through a node of the network is one step: who answers the `NET_JOIN` is
the matter of the ring.
-/

set_option autoImplicit false

namespace DhtRing

open Transition Relation

/-- The datagrams between the nodes and the tracker, with the node at the other
end. -/
inductive Datagram where
  | netGetNode (sender : Addr)
  | netGetNodeResponse (dest node : Addr)
  | netAlive (sender : Addr)
deriving DecidableEq

inductive Stage where
  | off
  /-- `q3`: `NET_GET_NODE` is sent. -/
  | q3
  /-- `q7` and `q8`: the node joins through `entry`. -/
  | q7 (entry : Addr)
  /-- `q6`, entered from `q4` with the range `[0, 255]`. -/
  | alone
  /-- `q6`, entered from `q8`. -/
  | joined (entry : Addr)
deriving DecidableEq

def Stage.inNetwork : Stage → Bool
  | .alone | .joined _ => true
  | _ => false

def Stage.entry : Stage → Option Addr
  | .q7 entry | .joined entry => some entry
  | _ => none

structure Startup where
  stage : Addr → Stage
  /-- The keys of the tracker's `nodes`. -/
  nodes : List Addr
  datagrams : List Datagram

def Startup.initial : Startup := ⟨fun _ => .off, [], []⟩

def Startup.setStage (s : Startup) (n : Addr) (stage : Stage) : Startup :=
  { s with stage := Function.update s.stage n stage }

/-! ## Steps -/

/-- The tracker handles a datagram; `k` is the key that the iterator over `nodes`
yields first. -/
def tracker (nodes : List Addr) (k : Addr) : Datagram → Option (List Addr × List Datagram)
  | .netAlive sender => some (nodes.insert sender, [])
  | .netGetNode sender =>
      if nodes = [] then some (nodes, [.netGetNodeResponse sender ⟨0, 0⟩])
      else if k ∈ nodes then some (nodes, [.netGetNodeResponse sender k])
      else none
  | .netGetNodeResponse _ _ => none

/-- What `main` goes on with when `q3` has read the response. -/
def Stage.answered (node : Addr) : Stage :=
  if node.address = 0 then .alone else .q7 node

/-- The node sends `NET_GET_NODE`.  Its address is the one that its datagrams come
from. -/
def Startup.start (s : Startup) (n : Addr) : Option Startup :=
  if s.stage n = .off ∧ n.address ≠ 0 then
    some { s.setStage n .q3 with datagrams := s.datagrams ++ [.netGetNode n] }
  else none

def Startup.track (s : Startup) (datagram : Datagram) (k : Addr) : Option Startup :=
  if datagram ∈ s.datagrams then
    (tracker s.nodes k datagram).map fun (nodes, replies) =>
      { s with nodes := nodes, datagrams := s.datagrams.erase datagram ++ replies }
  else none

def Startup.receive (s : Startup) (n node : Addr) : Option Startup :=
  if s.stage n = .q3 ∧ .netGetNodeResponse n node ∈ s.datagrams then
    some { s.setStage n (.answered node) with
      datagrams := s.datagrams.erase (.netGetNodeResponse n node) }
  else none

def Startup.join (s : Startup) (n : Addr) : Option Startup :=
  match s.stage n with
  | .q7 entry => if (s.stage entry).inNetwork then some (s.setStage n (.joined entry)) else none
  | _ => none

def Startup.alive (s : Startup) (n : Addr) : Option Startup :=
  if (s.stage n).inNetwork then some { s with datagrams := s.datagrams ++ [.netAlive n] }
  else none

inductive StartAct where
  | start (n : Addr)
  | track (datagram : Datagram) (k : Addr)
  | receive (n node : Addr)
  | join (n : Addr)
  | alive (n : Addr)

def Startup.step (s : Startup) : StartAct → Option Startup
  | .start n => s.start n
  | .track datagram k => s.track datagram k
  | .receive n node => s.receive n node
  | .join n => s.join n
  | .alive n => s.alive n

/-! ## One ring -/

/-- `a` is in the ring that `b` was in when `a` joined through it. -/
def Startup.JoinedThrough (s : Startup) (a b : Addr) : Prop := s.stage a = .joined b

/-- At most one node has taken `q4`, every node that was named to another one is in
the network, and the nodes of the network are in one ring. -/
structure Startup.OneRing (s : Startup) : Prop where
  founder : ∀ a b, s.stage a = .alone → s.stage b = .alone → a = b
  named : ∀ n entry, (s.stage n).entry = some entry → (s.stage entry).inNetwork
  ring : ∀ a b, (s.stage a).inNetwork → (s.stage b).inNetwork →
    Join (ReflTransGen s.JoinedThrough) a b

def Startup.ToldAlone (s : Startup) (n : Addr) : Prop :=
  s.stage n = .alone ∨ ∃ node : Addr, node.address = 0 ∧ .netGetNodeResponse n node ∈ s.datagrams

def Startup.AnswersOnce (s : Startup) : StartAct → Prop
  | .track (.netGetNode _) _ => s.nodes = [] → ∀ n, ¬ s.ToldAlone n
  | _ => True

/-! ## Steps taken apart -/

theorem start_cases {s t : Startup} {n : Addr} (stepped : s.start n = some t) :
    s.stage n = .off ∧ n.address ≠ 0 ∧
      t = { s.setStage n .q3 with datagrams := s.datagrams ++ [.netGetNode n] } := by
  rw [Startup.start] at stepped
  split at stepped
  · rename_i fresh
    cases stepped
    exact ⟨fresh.1, fresh.2, rfl⟩
  · cases stepped

theorem track_cases {s t : Startup} {datagram : Datagram} {k : Addr}
    (stepped : s.track datagram k = some t) :
    datagram ∈ s.datagrams ∧ ∃ nodes replies, tracker s.nodes k datagram = some (nodes, replies) ∧
      t = { s with nodes := nodes, datagrams := s.datagrams.erase datagram ++ replies } := by
  rw [Startup.track] at stepped
  split at stepped
  · rename_i arrived
    obtain ⟨⟨nodes, replies⟩, handled, rfl⟩ := Option.map_eq_some_iff.mp stepped
    exact ⟨arrived, nodes, replies, handled, rfl⟩
  · cases stepped

theorem receive_cases {s t : Startup} {n node : Addr} (stepped : s.receive n node = some t) :
    s.stage n = .q3 ∧ .netGetNodeResponse n node ∈ s.datagrams ∧
      t = { s.setStage n (.answered node) with
        datagrams := s.datagrams.erase (.netGetNodeResponse n node) } := by
  rw [Startup.receive] at stepped
  split at stepped
  · rename_i waits
    cases stepped
    exact ⟨waits.1, waits.2, rfl⟩
  · cases stepped

theorem startupJoin_cases {s t : Startup} {n : Addr} (stepped : s.join n = some t) :
    ∃ entry, s.stage n = .q7 entry ∧ (s.stage entry).inNetwork ∧
      t = s.setStage n (.joined entry) := by
  rw [Startup.join] at stepped
  split at stepped
  · rename_i entry waits
    split at stepped
    · rename_i serves
      cases stepped
      exact ⟨entry, waits, serves, rfl⟩
    · cases stepped
  · cases stepped

theorem alive_cases {s t : Startup} {n : Addr} (stepped : s.alive n = some t) :
    (s.stage n).inNetwork ∧ t = { s with datagrams := s.datagrams ++ [.netAlive n] } := by
  rw [Startup.alive] at stepped
  split at stepped
  · rename_i serves
    cases stepped
    exact ⟨serves, rfl⟩
  · cases stepped

theorem tracker_cases {nodes nodes' : List Addr} {k : Addr} {datagram : Datagram}
    {replies : List Datagram} (handled : tracker nodes k datagram = some (nodes', replies)) :
    (∃ n, datagram = .netAlive n ∧ nodes' = nodes.insert n ∧ replies = []) ∨
    (∃ n, datagram = .netGetNode n ∧ nodes = [] ∧ nodes' = nodes ∧
      replies = [.netGetNodeResponse n ⟨0, 0⟩]) ∨
    (∃ n, datagram = .netGetNode n ∧ k ∈ nodes ∧ nodes' = nodes ∧
      replies = [.netGetNodeResponse n k]) := by
  cases datagram with
  | netAlive n =>
      cases handled
      exact Or.inl ⟨n, rfl, rfl, rfl⟩
  | netGetNode n =>
      rw [tracker] at handled
      split at handled
      · rename_i empty
        cases handled
        exact Or.inr (Or.inl ⟨n, rfl, empty, rfl, rfl⟩)
      · split at handled
        · rename_i known
          cases handled
          exact Or.inr (Or.inr ⟨n, rfl, known, rfl, rfl⟩)
        · cases handled
  | netGetNodeResponse dest node => cases handled

/-! ## What holds in every state -/

def Datagram.Sound (s : Startup) : Datagram → Prop
  | .netGetNode _ => True
  | .netGetNodeResponse _ node => node.address = 0 ∨ (s.stage node).inNetwork
  | .netAlive sender => (s.stage sender).inNetwork

def Startup.Kept (s t : Startup) : Prop :=
  ∀ n, (s.stage n).inNetwork → t.stage n = s.stage n

theorem Startup.Kept.inNetwork {s t : Startup} (kept : s.Kept t) {n : Addr}
    (serves : (s.stage n).inNetwork) : (t.stage n).inNetwork := by
  rw [kept n serves]
  exact serves

theorem Startup.Kept.sound {s t : Startup} (kept : s.Kept t) {datagram : Datagram}
    (sound : datagram.Sound s) : datagram.Sound t := by
  cases datagram with
  | netGetNode sender => trivial
  | netGetNodeResponse dest node => exact Or.imp_right kept.inNetwork sound
  | netAlive sender => exact kept.inNetwork sound

theorem Startup.Kept.through {s t : Startup} (kept : s.Kept t) {a b : Addr}
    (through : ReflTransGen s.JoinedThrough a b) : ReflTransGen t.JoinedThrough a b := by
  refine ReflTransGen.mono (fun a b joined => ?_) _ _ through
  have serves : (s.stage a).inNetwork := by
    rw [show s.stage a = .joined b from joined]
    rfl
  exact (kept a serves).trans joined

theorem setStage_kept {s : Startup} {n : Addr} (stage : Stage)
    (outside : (s.stage n).inNetwork = false) : s.Kept (s.setStage n stage) := by
  intro m serves
  have other : m ≠ n := by
    rintro rfl
    rw [outside] at serves
    cases serves
  exact Function.update_of_ne other _ _

theorem setStage_alone {s : Startup} {n a : Addr} {stage : Stage}
    (alone : (s.setStage n stage).stage a = .alone) :
    s.stage a = .alone ∨ a = n ∧ stage = .alone := by
  by_cases same : a = n
  · subst same
    exact Or.inr ⟨rfl, (Function.update_self _ _ _).symm.trans alone⟩
  · exact Or.inl ((Function.update_of_ne same _ _).symm.trans alone)

structure Startup.Inv (s : Startup) : Prop where
  address : ∀ n, s.stage n ≠ .off → n.address ≠ 0
  nodes : ∀ n ∈ s.nodes, (s.stage n).inNetwork
  datagrams : ∀ datagram ∈ s.datagrams, datagram.Sound s
  entry : ∀ n entry, (s.stage n).entry = some entry → (s.stage entry).inNetwork
  root : ∀ n, (s.stage n).inNetwork →
    ∃ founder, s.stage founder = .alone ∧ ReflTransGen s.JoinedThrough n founder
  one : ∀ a b, s.ToldAlone a → s.ToldAlone b → a = b

theorem Startup.Inv.oneRing {s : Startup} (inv : s.Inv) : s.OneRing where
  founder a b first second := inv.one a b (Or.inl first) (Or.inl second)
  named := inv.entry
  ring a b first second := by
    obtain ⟨founder, alone, through⟩ := inv.root a first
    obtain ⟨founder', alone', through'⟩ := inv.root b second
    obtain rfl := inv.one founder founder' (Or.inl alone) (Or.inl alone')
    exact ⟨founder, through, through'⟩

theorem initial_inv : Startup.initial.Inv where
  address n started := absurd rfl started
  nodes n mem := absurd mem List.not_mem_nil
  datagrams datagram mem := absurd mem List.not_mem_nil
  entry n entry named := by cases named
  root n serves := by cases serves
  one a b told := by
    rcases told with alone | ⟨node, empty, mem⟩
    · cases alone
    · exact absurd mem List.not_mem_nil

theorem Startup.Inv.quiet {s t : Startup} (inv : s.Inv) (stage : t.stage = s.stage)
    (nodes : ∀ n ∈ t.nodes, (s.stage n).inNetwork)
    (datagrams : ∀ datagram ∈ t.datagrams, datagram.Sound s)
    (one : ∀ a b, t.ToldAlone a → t.ToldAlone b → a = b) : t.Inv := by
  have kept : s.Kept t := fun n _ => by rw [stage]
  refine ⟨?_, ?_, fun datagram mem => kept.sound (datagrams datagram mem), ?_, ?_, one⟩
  · rw [stage]
    exact inv.address
  · rw [stage]
    exact nodes
  · rw [stage]
    exact inv.entry
  · intro n serves
    rw [stage] at serves ⊢
    obtain ⟨founder, alone, through⟩ := inv.root n serves
    exact ⟨founder, alone, kept.through through⟩

/-- A node outside the network goes on.  Where it enters the network it comes from
the tracker's empty answer or joins through a node of the network. -/
theorem Startup.Inv.setStage {s : Startup} (inv : s.Inv) {n : Addr} {stage : Stage}
    {datagrams : List Datagram} (outside : (s.stage n).inNetwork = false)
    (address : n.address ≠ 0)
    (sound : ∀ datagram ∈ datagrams, datagram.Sound s)
    (entry : ∀ entry, stage.entry = some entry → (s.stage entry).inNetwork)
    (one : ∀ a, ({ s.setStage n stage with datagrams := datagrams } : Startup).ToldAlone a →
      s.ToldAlone a) :
    Startup.Inv { s.setStage n stage with datagrams := datagrams } := by
  have kept : s.Kept { s.setStage n stage with datagrams := datagrams } :=
    setStage_kept stage outside
  have self : (s.setStage n stage).stage n = stage := Function.update_self _ _ _
  have others : ∀ m, m ≠ n → (s.setStage n stage).stage m = s.stage m :=
    fun m other => Function.update_of_ne other _ _
  refine ⟨?_, ?_, fun datagram mem => kept.sound (sound datagram mem), ?_, ?_, ?_⟩
  · intro m started
    by_cases same : m = n
    · rw [same]
      exact address
    · rw [others m same] at started
      exact inv.address m started
  · intro m mem
    exact kept.inNetwork (inv.nodes m mem)
  · intro m e named
    by_cases same : m = n
    · subst same
      rw [self] at named
      exact kept.inNetwork (entry e named)
    · rw [others m same] at named
      exact kept.inNetwork (inv.entry m e named)
  · intro m serves
    by_cases same : m = n
    · subst same
      rw [self] at serves
      cases stage with
      | alone => exact ⟨m, self, .refl⟩
      | joined e =>
          have member := entry e rfl
          obtain ⟨founder, alone, through⟩ := inv.root e member
          have founds : (s.stage founder).inNetwork := by
            rw [alone]
            rfl
          exact ⟨founder, (kept founder founds).trans alone, .head self (kept.through through)⟩
      | off => cases serves
      | q3 => cases serves
      | q7 e => cases serves
    · rw [others m same] at serves
      obtain ⟨founder, alone, through⟩ := inv.root m serves
      have founds : (s.stage founder).inNetwork := by
        rw [alone]
        rfl
      exact ⟨founder, (kept founder founds).trans alone, kept.through through⟩
  · intro a b first second
    exact inv.one a b (one a first) (one b second)

/-! ## The steps keep it -/

theorem Startup.Inv.start {s t : Startup} (inv : s.Inv) {n : Addr}
    (stepped : s.start n = some t) : t.Inv := by
  obtain ⟨off, address, rfl⟩ := start_cases stepped
  refine inv.setStage (by rw [off]; rfl) address ?_ (fun entry named => by cases named) ?_
  · intro datagram mem
    rcases List.mem_append.mp mem with old | new
    · exact inv.datagrams datagram old
    · rw [List.mem_singleton.mp new]
      trivial
  · rintro a (alone | ⟨node, empty, mem⟩)
    · exact Or.inl ((setStage_alone alone).resolve_right fun new => by cases new.2)
    · rcases List.mem_append.mp mem with old | new
      · exact Or.inr ⟨node, empty, old⟩
      · cases List.mem_singleton.mp new

theorem Startup.Inv.receive {s t : Startup} (inv : s.Inv) {n node : Addr}
    (stepped : s.receive n node = some t) : t.Inv := by
  obtain ⟨waits, arrived, rfl⟩ := receive_cases stepped
  have sound := inv.datagrams _ arrived
  have left : ∀ datagram ∈ s.datagrams.erase (.netGetNodeResponse n node), datagram ∈ s.datagrams :=
    fun datagram mem => List.mem_of_mem_erase mem
  refine inv.setStage (by rw [waits]; rfl) (inv.address n (by rw [waits]; simp))
    (fun datagram mem => inv.datagrams datagram (left datagram mem)) ?_ ?_
  · intro entry named
    rw [Stage.answered] at named
    split at named
    · cases named
    · rename_i address
      cases named
      exact sound.resolve_left address
  · rintro a (alone | ⟨other, empty, mem⟩)
    · rcases setStage_alone alone with before | ⟨rfl, founds⟩
      · exact Or.inl before
      · -- a founder was told before
        rw [Stage.answered] at founds
        split at founds
        · rename_i address
          exact Or.inr ⟨node, address, arrived⟩
        · cases founds
    · exact Or.inr ⟨other, empty, left _ mem⟩

theorem Startup.Inv.join {s t : Startup} (inv : s.Inv) {n : Addr}
    (stepped : s.join n = some t) : t.Inv := by
  obtain ⟨entry, waits, serves, rfl⟩ := startupJoin_cases stepped
  refine inv.setStage (by rw [waits]; rfl) (inv.address n (by rw [waits]; simp)) inv.datagrams ?_ ?_
  · intro e named
    cases named
    exact serves
  · rintro a (alone | told)
    · exact Or.inl ((setStage_alone alone).resolve_right fun new => by cases new.2)
    · exact Or.inr told

theorem Startup.Inv.alive {s t : Startup} (inv : s.Inv) {n : Addr}
    (stepped : s.alive n = some t) : t.Inv := by
  obtain ⟨serves, rfl⟩ := alive_cases stepped
  have told : ∀ a, ({ s with datagrams := s.datagrams ++ [.netAlive n] } : Startup).ToldAlone a →
      s.ToldAlone a := by
    rintro a (alone | ⟨node, empty, mem⟩)
    · exact Or.inl alone
    · rcases List.mem_append.mp mem with old | new
      · exact Or.inr ⟨node, empty, old⟩
      · cases List.mem_singleton.mp new
  refine inv.quiet rfl inv.nodes ?_ fun a b first second =>
    inv.one a b (told a first) (told b second)
  intro datagram mem
  rcases List.mem_append.mp mem with old | new
  · exact inv.datagrams datagram old
  · rw [List.mem_singleton.mp new]
    exact serves

theorem Startup.Inv.track {s t : Startup} (inv : s.Inv) {datagram : Datagram} {k : Addr}
    (once : s.AnswersOnce (.track datagram k)) (stepped : s.track datagram k = some t) :
    t.Inv := by
  obtain ⟨arrived, nodes, replies, handled, rfl⟩ := track_cases stepped
  have left : ∀ d ∈ s.datagrams.erase datagram, d ∈ s.datagrams :=
    fun d mem => List.mem_of_mem_erase mem
  rcases tracker_cases handled with ⟨n, rfl, rfl, rfl⟩ | ⟨n, rfl, none, rfl, rfl⟩ |
    ⟨n, rfl, known, rfl, rfl⟩
  · have told : ∀ a, ({ s with nodes := s.nodes.insert n
                               datagrams := s.datagrams.erase (.netAlive n) ++ [] } :
        Startup).ToldAlone a → s.ToldAlone a := by
      rintro a (alone | ⟨node, empty, mem⟩)
      · exact Or.inl alone
      · rw [List.append_nil] at mem
        exact Or.inr ⟨node, empty, left _ mem⟩
    refine inv.quiet rfl ?_ ?_ fun a b first second => inv.one a b (told a first) (told b second)
    · intro m mem
      rcases List.mem_insert_iff.mp mem with rfl | old
      · exact inv.datagrams _ arrived
      · exact inv.nodes m old
    · intro d mem
      rw [List.append_nil] at mem
      exact inv.datagrams d (left d mem)
  · -- the first empty answer: nobody else was told
    have only : ∀ a, ({ s with nodes := s.nodes
                               datagrams := s.datagrams.erase (.netGetNode n) ++
                                 [.netGetNodeResponse n ⟨0, 0⟩] } : Startup).ToldAlone a →
        a = n := by
      rintro a (alone | ⟨node, empty, mem⟩)
      · exact absurd (Or.inl alone) (once none a)
      · rcases List.mem_append.mp mem with old | new
        · exact absurd (Or.inr ⟨node, empty, left _ old⟩) (once none a)
        · cases List.mem_singleton.mp new
          rfl
    refine inv.quiet rfl inv.nodes ?_ fun a b first second =>
      (only a first).trans (only b second).symm
    intro d mem
    rcases List.mem_append.mp mem with old | new
    · exact inv.datagrams d (left d old)
    · rw [List.mem_singleton.mp new]
      exact Or.inl rfl
  · have serves := inv.nodes k known
    have address : k.address ≠ 0 := by
      refine inv.address k fun off => ?_
      rw [off] at serves
      cases serves
    have told : ∀ a, ({ s with nodes := s.nodes
                               datagrams := s.datagrams.erase (.netGetNode n) ++
                                 [.netGetNodeResponse n k] } : Startup).ToldAlone a →
        s.ToldAlone a := by
      rintro a (alone | ⟨node, empty, mem⟩)
      · exact Or.inl alone
      · rcases List.mem_append.mp mem with old | new
        · exact Or.inr ⟨node, empty, left _ old⟩
        · cases List.mem_singleton.mp new
          exact absurd empty address
    refine inv.quiet rfl inv.nodes ?_ fun a b first second =>
      inv.one a b (told a first) (told b second)
    intro d mem
    rcases List.mem_append.mp mem with old | new
    · exact inv.datagrams d (left d old)
    · rw [List.mem_singleton.mp new]
      exact Or.inr serves

theorem Startup.Inv.step {s t : Startup} (inv : s.Inv) {act : StartAct}
    (once : s.AnswersOnce act) (stepped : s.step act = some t) : t.Inv := by
  cases act with
  | start n => exact inv.start stepped
  | track datagram k => exact inv.track once stepped
  | receive n node => exact inv.receive stepped
  | join n => exact inv.join stepped
  | alive n => exact inv.alive stepped

/-- However many nodes start and however their datagrams arrive: one ring is founded,
if the tracker tells only one node that the network is empty. -/
theorem oneRing_of_run {s : Startup} {acts : List StartAct}
    (run : Run Startup.step Startup.AnswersOnce .initial acts s) : s.OneRing := by
  have inv : s.Inv :=
    run.invariant initial_inv fun t act u inv once stepped => inv.step once stepped
  exact inv.oneRing

theorem firstAsks_run : ∃ s, exec Startup.step .initial
      [.start nodeA, .track (.netGetNode nodeA) nodeA] = some s ∧
    Run Startup.step Startup.AnswersOnce .initial
      [.start nodeA, .track (.netGetNode nodeA) nodeA] s := by
  refine ⟨_, rfl, .snoc (.snoc .nil trivial rfl) ?_ rfl⟩
  rintro - n (alone | ⟨node, -, mem⟩)
  · rcases setStage_alone alone with before | ⟨-, new⟩
    · cases before
    · cases new
  · cases List.mem_singleton.mp mem

def Startup.knows (s : Startup) : StartAct → Bool
  | .track (.netGetNode _) _ => !s.nodes.isEmpty
  | _ => true

theorem answersOnce_of_knows (s : Startup) (act : StartAct) (known : s.knows act = true) :
    s.AnswersOnce act := by
  cases act with
  | track datagram k =>
      cases datagram with
      | netGetNode n =>
          intro none
          simp [Startup.knows, none] at known
      | _ => trivial
  | _ => trivial

/-- The first node founds the ring and registers, then a second one joins. -/
theorem oneRing_of_secondJoins : ∃ acts s,
    Run Startup.step Startup.AnswersOnce .initial acts s ∧ s.stage nodeA = .alone ∧
      s.stage nodeB = .joined nodeA ∧ s.OneRing := by
  obtain ⟨first, asked, run⟩ := firstAsks_run
  have executed : ((exec Startup.step .initial
      [.start nodeA, .track (.netGetNode nodeA) nodeA]).bind fun first =>
      execChecked Startup.step Startup.knows first
        [.receive nodeA ⟨0, 0⟩, .alive nodeA, .track (.netAlive nodeA) nodeA, .start nodeB,
          .track (.netGetNode nodeB) nodeA, .receive nodeB nodeA, .join nodeB]).map
      (fun s => (s.stage nodeA, s.stage nodeB)) = some (.alone, .joined nodeA) := by decide
  obtain ⟨last, reached, eq⟩ := Option.map_eq_some_iff.mp executed
  simp only [Prod.mk.injEq] at eq
  rw [asked, Option.bind_some] at reached
  have rest := run_of_execChecked answersOnce_of_knows reached
  exact ⟨_, last, run.append rest, eq.1, eq.2, oneRing_of_run (run.append rest)⟩

/-- Two nodes ask before the first of them has sent its `NET_ALIVE`, and both found a
ring. -/
theorem two_rings_founded : ∃ acts s, exec Startup.step .initial acts = some s ∧ ¬ s.OneRing := by
  have executed : (exec Startup.step .initial
      [.start nodeA, .start nodeB, .track (.netGetNode nodeA) nodeA,
        .track (.netGetNode nodeB) nodeA, .receive nodeA ⟨0, 0⟩, .receive nodeB ⟨0, 0⟩]).map
      (fun s => (s.stage nodeA, s.stage nodeB)) = some (.alone, .alone) := by decide
  obtain ⟨s, reached, eq⟩ := Option.map_eq_some_iff.mp executed
  simp only [Prod.mk.injEq] at eq
  refine ⟨_, s, reached, fun one => ?_⟩
  have same := one.founder nodeA nodeB eq.1 eq.2
  revert same
  decide

end DhtRing

import DhtRing.Lib.Transition
import DhtRing.TestNode.Node
import DhtRing.TestNode.Tracker

/-!
# Finding a node

The nodes in `q6` and the tracker on one clock.  A node in C sends a `NET_ALIVE` in each round
of `q6`, a Rust node when the last one was more than ten seconds ago.  The tracker lists every
node that has been in `q6` for a while and takes its rounds fast enough, and none that has not
begun a round for long.  The poll of a round ends after five seconds at both kinds of node.
-/

set_option autoImplicit false

namespace DhtRing.TestNode

open Transition Leases

def seconds (n : ℕ) : ℕ := n * 1000000000

/-! ## Nodes and tracker -/

/-- What decides whether a node sends a `NET_ALIVE` in a round of `q6`. -/
inductive Heart where
  | c
  | rust (lastAlive : ℕ)
deriving DecidableEq

def Heart.round (now : ℕ) : Heart → Bool × Heart
  | .c => (true, .c)
  | .rust lastAlive =>
      if asSecs (now - lastAlive) > 10 then (true, .rust now) else (false, .rust lastAlive)

structure Participant where
  heart : Heart
  /-- When it came to `q6`. -/
  entered : ℕ
  /-- How long its longest round took. -/
  longest : ℕ
deriving DecidableEq

structure Discovery where
  /-- The time in nanoseconds. -/
  clock : ℕ
  tracker : Tracker
  /-- When the tracker has checked its nodes. -/
  checked : ℕ
  /-- Datagrams on their way to the tracker, and when they were sent. -/
  toTracker : List (ℕ × Datagram)
  participant : Addr → Option Participant
  /-- When a node has begun its last round of `q6`. -/
  lastRound : Addr → ℕ

inductive Question where
  | stunLookup
  | netGetNode
deriving DecidableEq

def Question.pdu : Question → PDU
  | .stunLookup => .stunLookup StunLookupPdu.new
  | .netGetNode => .netGetNode NetGetNodePdu.new

inductive DiscoveryAct where
  /-- Time passes. -/
  | pass (duration : ℕ)
  /-- A node comes to `q6`, where its first round begins. -/
  | enter (node : Addr) (heart : Heart)
  | round (node : Addr)
  | leave (node : Addr)
  | ask (sender : Addr) (question : Question)
  /-- A round of the tracker, in which it reads what has arrived. -/
  | track (arrived rest : List (ℕ × Datagram)) (first : List Addr → Addr)

/-- At most how long it is until a datagram is handled, and until the tracker checks its nodes
again. -/
structure Timing where
  delay : ℕ
  check : ℕ

def netAliveOf (node : Addr) : Datagram := ⟨node, (PDU.netAlive NetAlivePdu.new).toBytes⟩

namespace Discovery

/-- No datagram and no check takes too long.  A Rust node starts with a `last_alive` of 100
seconds ago. -/
def Allowed (timing : Timing) (s : Discovery) : DiscoveryAct → Prop
  | .pass duration =>
      (∀ datagram ∈ s.toTracker, s.clock + duration ≤ datagram.1 + timing.delay) ∧
      s.clock + duration ≤ s.checked + timing.check
  | .enter _ (.rust lastAlive) => lastAlive + seconds 100 ≤ s.clock
  | .track _ _ first => ∀ keys ≠ [], first keys ∈ keys
  | _ => True

variable (s : Discovery)

def initial (timeout clock : ℕ) : Discovery where
  clock := clock
  tracker := .new timeout
  checked := clock
  toTracker := []
  participant _ := none
  lastRound _ := 0

def begin (node : Addr) (participant : Participant) : Discovery :=
  let beat := participant.heart.round s.clock
  { s with
    participant := Function.update s.participant node (some { participant with heart := beat.2 })
    lastRound := Function.update s.lastRound node s.clock
    toTracker := s.toTracker ++ if beat.1 then [(s.clock, netAliveOf node)] else [] }

def ask (sender : Addr) (question : Question) : Discovery :=
  { s with toTracker := s.toTracker ++ [(s.clock, ⟨sender, question.pdu.toBytes⟩)] }

def trackRound (arrived : List (ℕ × Datagram)) (first : List Addr → Addr) : Tracker.Round :=
  ⟨arrived.map Prod.snd, fun _ => s.clock, fun _ => s.clock, first⟩

def step : DiscoveryAct → Option Discovery
  | .pass duration => some { s with clock := s.clock + duration }
  | .enter node heart =>
      if s.participant node = none then some (s.begin node ⟨heart, s.clock, 0⟩) else none
  | .round node => (s.participant node).map fun participant =>
      s.begin node { participant with
        longest := max participant.longest (s.clock - s.lastRound node) }
  | .leave node => some { s with participant := Function.update s.participant node none }
  | .ask sender question => some (s.ask sender question)
  | .track arrived rest first =>
      if (arrived ++ rest).Perm s.toTracker then
        match s.tracker.round (s.trackRound arrived first) with
        | .ok tracker => some { s with tracker := tracker, checked := s.clock, toTracker := rest }
        | .error _ => none
      else none

end Discovery

/-! ## Time -/

section

variable {duration n now lastRound : ℕ} {heart : Heart}

theorem asSecs_lt_iff : asSecs duration < n ↔ duration < seconds n :=
  Nat.div_lt_iff_lt_mul (by decide)

/-- `send_alive` of the Rust node, on a clock that shows whole seconds. -/
theorem Heart.round_rust (env : Env) (node : Node) :
    (Heart.rust (seconds node.lastAlive)).round (seconds env.now) =
      (decide ((node.sendAlive env).effects ≠ node.effects),
        .rust (seconds (node.sendAlive env).lastAlive)) := by
  have elapsed : asSecs (seconds env.now - seconds node.lastAlive) = env.now - node.lastAlive := by
    rw [asSecs, seconds, seconds, ← Nat.sub_mul]
    exact Nat.mul_div_cancel _ (by decide)
  rw [Heart.round, elapsed, Node.sendAlive]
  split
  · have sends : node.effects ++ [.udp (.netAlive NetAlivePdu.new) node.trackerAddr] ≠
        node.effects := by simp
    exact congrArg (·, _) (decide_eq_true sends).symm
  · simp

def Heart.last (lastRound : ℕ) : Heart → ℕ
  | .c => lastRound
  | .rust lastAlive => lastAlive

/-- Behind a round the last `NET_ALIVE` is at most eleven seconds old, and it is this one if one
is sent. -/
theorem Heart.round_spec (before : heart.last lastRound ≤ lastRound) (later : lastRound ≤ now) :
    (heart.round now).2.last now ≤ now ∧ now < (heart.round now).2.last now + seconds 11 ∧
      (if (heart.round now).1 then (heart.round now).2.last now = now
        else (heart.round now).2.last now = heart.last lastRound) := by
  have positive : 0 < seconds 11 := by decide
  cases heart with
  | c => exact ⟨Nat.le_refl _, Nat.lt_add_of_pos_right positive, rfl⟩
  | rust lastAlive =>
      rw [Heart.round]
      split
      · exact ⟨Nat.le_refl _, Nat.lt_add_of_pos_right positive, rfl⟩
      · rename_i recent
        have young : now - lastAlive < seconds 11 :=
          asSecs_lt_iff.mp (Nat.lt_succ_of_le (Nat.not_lt.mp recent))
        have before' : lastAlive ≤ lastRound := before
        refine ⟨before'.trans later, ?_, rfl⟩
        change now < lastAlive + seconds 11
        omega

end

/-! ## A round of the tracker -/

section

variable {tracker : Tracker} {round : Tracker.Round} {node : Addr} {now lastAlive : ℕ}

def Reports (messages : List Message) (node : Addr) : Prop :=
  ∃ pdu, (PDU.netAlive pdu, node) ∈ messages

theorem reports_cons {message : Message} {rest : List Message} :
    Reports (message :: rest) node ↔
      (∃ pdu, message = (PDU.netAlive pdu, node)) ∨ Reports rest node := by
  simp only [Reports, List.mem_cons, exists_or, eq_comm]

theorem handle_touched (first : List Addr → Addr) (message : Message) :
    (tracker.handle first now message).nodes.Touched node lastAlive ↔
      ((∃ pdu, message = (PDU.netAlive pdu, node)) ∧ lastAlive = now) ∨
        (¬ (∃ pdu, message = (PDU.netAlive pdu, node)) ∧
          tracker.nodes.Touched node lastAlive) := by
  obtain ⟨pdu, sender⟩ := message
  cases pdu with
  | netAlive pdu =>
      change (tracker.nodes.touch sender now).Touched node lastAlive ↔ _
      rw [Table.touched_touch]
      by_cases same : node = sender
      · subst same
        simp
      · simp [same, Ne.symm same]
  | _ =>
      change tracker.nodes.Touched node lastAlive ↔ _
      simp

theorem handleAll_touched (handled : ∀ k, round.handled k = now) (messages : List Message) :
    ∀ {k : ℕ} {tracker : Tracker},
      ((Tracker.handleAll round k messages tracker).nodes.Touched node lastAlive ↔
        (Reports messages node ∧ lastAlive = now) ∨
          (¬ Reports messages node ∧ tracker.nodes.Touched node lastAlive)) := by
  induction messages with
  | nil =>
      intro k tracker
      have none : ¬ Reports [] node := by
        rintro ⟨pdu, mem⟩
        exact absurd mem List.not_mem_nil
      simp [Tracker.handleAll, none]
  | cons message rest ih =>
      intro k tracker
      rw [Tracker.handleAll, ih, handle_touched, reports_cons, handled]
      tauto

theorem handle_keys (first : List Addr → Addr) (message : Message) :
    node ∈ (tracker.handle first now message).nodes.keys ↔
      (∃ pdu, message = (PDU.netAlive pdu, node)) ∨ node ∈ tracker.nodes.keys := by
  rw [Table.mem_keys_iff, Table.mem_keys_iff]
  simp only [handle_touched]
  constructor
  · rintro ⟨lastAlive, ⟨reports, -⟩ | ⟨-, touched⟩⟩
    · exact Or.inl reports
    · exact Or.inr ⟨lastAlive, touched⟩
  · intro known
    by_cases reports : ∃ pdu, message = (PDU.netAlive pdu, node)
    · exact ⟨now, Or.inl ⟨reports, rfl⟩⟩
    · obtain ⟨lastAlive, touched⟩ := known.resolve_left reports
      exact ⟨lastAlive, Or.inr ⟨reports, touched⟩⟩

theorem handleAll_frame (messages : List Message) : ∀ {k : ℕ} {tracker : Tracker},
    (Tracker.handleAll round k messages tracker).timeout = tracker.timeout ∧
      (Tracker.handleAll round k messages tracker).udpWrapper = tracker.udpWrapper := by
  induction messages with
  | nil => exact fun {_ _} => ⟨rfl, rfl⟩
  | cons message rest ih =>
      intro k tracker
      have same : (tracker.handle round.first (round.handled k) message).timeout =
            tracker.timeout ∧
          (tracker.handle round.first (round.handled k) message).udpWrapper =
            tracker.udpWrapper := by
        obtain ⟨pdu, sender⟩ := message
        cases pdu <;> exact ⟨rfl, rfl⟩
      rw [Tracker.handleAll, ih.1, ih.2]
      exact same

theorem retain_touched {checked : Addr → ℕ} :
    (tracker.retain checked).nodes.Touched node lastAlive ↔
      tracker.nodes.Touched node lastAlive ∧
        checked node - lastAlive < seconds tracker.timeout := by
  rw [Tracker.retain, Table.touched_sweep, ← asSecs_lt_iff]
  split <;> simp_all

/-- A response to a `NET_GET_NODE` from a table with the nodes that were listed before the round,
and some that have reported in it. -/
def Tracker.RespondsFrom (tracker : Tracker) (first : List Addr → Addr) (messages : List Message)
    (pdu : NetGetNodeResponsePdu) : Prop :=
  ∃ between : Tracker, pdu = between.getNode first ∧
    (∀ node ∈ tracker.nodes.keys, node ∈ between.nodes.keys) ∧
    ∀ node ∈ between.nodes.keys, node ∈ tracker.nodes.keys ∨ Reports messages node

theorem handle_sent (tracker : Tracker) (now : ℕ) (first : List Addr → Addr) (message : Message)
    (rest : List Message) :
    ∃ replies, (tracker.handle first now message).sent = tracker.sent ++ replies ∧
      ∀ pdu asker, (PDU.netGetNodeResponse pdu, asker) ∈ replies →
        tracker.RespondsFrom first (message :: rest) pdu := by
  obtain ⟨pdu, sender⟩ := message
  cases pdu with
  | netGetNode pdu =>
      refine ⟨_, rfl, fun pdu' asker mem => ?_⟩
      cases List.mem_singleton.mp mem
      exact ⟨tracker, rfl, fun _ listed => listed, fun _ listed => Or.inl listed⟩
  | stunLookup pdu =>
      refine ⟨_, rfl, fun pdu' asker mem => ?_⟩
      cases List.mem_singleton.mp mem
  | _ => exact ⟨[], (List.append_nil _).symm, fun _ _ mem => absurd mem List.not_mem_nil⟩

theorem handleAll_sent (messages : List Message) : ∀ {k : ℕ} {tracker : Tracker},
    ∃ replies, (Tracker.handleAll round k messages tracker).sent = tracker.sent ++ replies ∧
      ∀ pdu asker, (PDU.netGetNodeResponse pdu, asker) ∈ replies →
        tracker.RespondsFrom round.first messages pdu := by
  induction messages with
  | nil =>
      intro k tracker
      exact ⟨[], (List.append_nil _).symm, fun _ _ mem => absurd mem List.not_mem_nil⟩
  | cons message rest ih =>
      intro k tracker
      obtain ⟨now_sent, here, from_here⟩ :=
        handle_sent tracker (round.handled k) round.first message rest
      obtain ⟨later_sent, later, from_later⟩ :=
        @ih (k + 1) (tracker.handle round.first (round.handled k) message)
      refine ⟨now_sent ++ later_sent, ?_, fun pdu asker mem => ?_⟩
      · rw [Tracker.handleAll, later, here, List.append_assoc]
      · rcases List.mem_append.mp mem with mem | mem
        · exact from_here pdu asker mem
        · obtain ⟨between, responds, kept, known⟩ := from_later pdu asker mem
          refine ⟨between, responds, fun node listed => ?_, fun node listed => ?_⟩
          · exact kept node ((handle_keys _ _).mpr (Or.inr listed))
          · rcases known node listed with listed' | reports
            · rcases (handle_keys _ _).mp listed' with reports | listed'
              · exact Or.inr (reports_cons.mpr (Or.inl reports))
              · exact Or.inl listed'
            · exact Or.inr (reports_cons.mpr (Or.inr reports))

end

/-! ## Datagrams on their way -/

def Datagram.ForTracker (datagram : Datagram) : Prop :=
  datagram = netAliveOf datagram.sender ∨ ∃ question : Question, datagram.bytes = question.pdu.toBytes

theorem Question.carries (question : Question) (sender : Addr) :
    (⟨sender, question.pdu.toBytes⟩ : Datagram).Carries [question.pdu] := by
  cases question with
  | stunLookup => exact ⟨List.forall_mem_singleton.mpr ⟨rfl, trivial⟩, rfl, Nat.le_of_ble_eq_true rfl⟩
  | netGetNode => exact ⟨List.forall_mem_singleton.mpr ⟨rfl, trivial⟩, rfl, Nat.le_of_ble_eq_true rfl⟩

theorem Datagram.ForTracker.carries {datagram : Datagram} (known : datagram.ForTracker) :
    ∃ pdu, datagram.Carries [pdu] ∧
      ((∃ pdu', pdu = .netAlive pdu') ↔ datagram = netAliveOf datagram.sender) := by
  rcases known with alive | ⟨question, bytes⟩
  · refine ⟨.netAlive NetAlivePdu.new, ?_, iff_of_true ⟨_, rfl⟩ alive⟩
    rw [alive]
    exact ⟨List.forall_mem_singleton.mpr ⟨rfl, trivial⟩, rfl, Nat.le_of_ble_eq_true rfl⟩
  · obtain ⟨sender, _⟩ := datagram
    obtain rfl := bytes
    refine ⟨question.pdu, question.carries sender, iff_of_false ?_ ?_⟩
    · rintro ⟨pdu', same⟩
      cases question <;> cases same
    · intro same
      cases question <;> cases same

theorem exists_brings {arrived : List (ℕ × Datagram)}
    (known : ∀ p ∈ arrived, p.2.ForTracker) :
    ∃ messages, Brings (arrived.map Prod.snd) messages ∧
      ∀ node, Reports messages node ↔ ∃ p ∈ arrived, p.2 = netAliveOf node := by
  induction arrived with
  | nil =>
      refine ⟨[], .nil, fun node => iff_of_false ?_ ?_⟩
      · rintro ⟨pdu, mem⟩
        exact absurd mem List.not_mem_nil
      · rintro ⟨p, mem, -⟩
        exact absurd mem List.not_mem_nil
  | cons p rest ih =>
      obtain ⟨messages, brings, reports⟩ := ih fun p mem => known p (List.mem_cons_of_mem _ mem)
      obtain ⟨pdu, carries, alive⟩ := (known p List.mem_cons_self).carries
      refine ⟨_, .cons carries brings, fun node => ?_⟩
      change Reports ((pdu, p.2.sender) :: messages) node ↔ _
      have first : (∃ pdu', (pdu, p.2.sender) = (PDU.netAlive pdu', node)) ↔
          p.2 = netAliveOf node := by
        constructor
        · rintro ⟨pdu', same⟩
          obtain ⟨rfl, rfl⟩ := Prod.mk.inj same
          exact alive.mp ⟨pdu', rfl⟩
        · intro same
          have sender : p.2.sender = node := by rw [same]; rfl
          obtain ⟨pdu', rfl⟩ := alive.mpr (by rw [sender]; exact same)
          exact ⟨pdu', by rw [sender]⟩
      rw [reports_cons, first, reports]
      simp

/-! ## What holds at any time -/

namespace Discovery

/-- A `NET_ALIVE` of the node is on its way since `sent`. -/
def Reporting (s : Discovery) (node : Addr) (sent : ℕ) : Prop :=
  (sent, netAliveOf node) ∈ s.toTracker

/-- The tracker lists a node that has reported since it came to `q6`, and if this was not its
last report, another one is on its way that was sent soon after. -/
def Heard (s : Discovery) (node : Addr) (participant : Participant) : Prop :=
  ∃ lastAlive, s.tracker.nodes.Touched node lastAlive ∧ participant.entered ≤ lastAlive ∧
    (participant.heart.last (s.lastRound node) ≤ lastAlive ∨
      ∃ sent, s.Reporting node sent ∧ sent < lastAlive + seconds 11 + participant.longest)

/-- No round of the node, the present one included, takes too long for the timeout. -/
def Prompt (timing : Timing) (timeout : ℕ) (s : Discovery) (node : Addr)
    (participant : Participant) : Prop :=
  seconds 11 + participant.longest + timing.delay ≤ seconds timeout ∧
    seconds 11 + (s.clock - s.lastRound node) + timing.delay ≤ seconds timeout

structure Sound (timing : Timing) (timeout : ℕ) (s : Discovery) : Prop where
  limit : s.tracker.timeout = timeout
  udpWrapper : s.tracker.udpWrapper = .new
  checked : s.checked ≤ s.clock ∧ s.clock ≤ s.checked + timing.check
  known : ∀ p ∈ s.toTracker, p.2.ForTracker ∧ p.1 ≤ s.clock ∧ s.clock ≤ p.1 + timing.delay
  reporting : ∀ node sent, s.Reporting node sent → sent ≤ s.lastRound node
  past : ∀ node, s.lastRound node ≤ s.clock
  rounds : ∀ node participant, s.participant node = some participant →
    participant.entered ≤ s.clock ∧
      participant.heart.last (s.lastRound node) ≤ s.lastRound node ∧
      s.lastRound node < participant.heart.last (s.lastRound node) + seconds 11
  recent : ∀ node lastAlive, s.tracker.nodes.Touched node lastAlive →
    lastAlive ≤ s.clock ∧ lastAlive ≤ s.lastRound node + timing.delay ∧
      s.checked < lastAlive + seconds timeout
  heard : ∀ node participant, s.participant node = some participant →
    s.Prompt timing timeout node participant →
      s.Heard node participant ∨ s.Reporting node participant.entered

section

variable {s : Discovery} {timing : Timing} {timeout : ℕ} {node : Addr} {participant : Participant}

theorem initial_sound (timing : Timing) (timeout clock : ℕ) :
    (initial timeout clock).Sound timing timeout where
  limit := rfl
  udpWrapper := rfl
  checked := ⟨Nat.le_refl _, Nat.le_add_right _ _⟩
  known _ mem := absurd mem List.not_mem_nil
  reporting _ _ mem := absurd mem List.not_mem_nil
  past _ := Nat.zero_le _
  rounds _ _ found := by cases found
  recent _ _ mem := absurd mem List.not_mem_nil
  heard _ _ found := by cases found

theorem Sound.pass (sound : s.Sound timing timeout) {duration : ℕ}
    (allowed : s.Allowed timing (.pass duration)) :
    { s with clock := s.clock + duration }.Sound timing timeout where
  limit := sound.limit
  udpWrapper := sound.udpWrapper
  checked := ⟨sound.checked.1.trans (Nat.le_add_right _ _), allowed.2⟩
  known p mem := by
    obtain ⟨known, past, -⟩ := sound.known p mem
    exact ⟨known, past.trans (Nat.le_add_right _ _), allowed.1 p mem⟩
  reporting := sound.reporting
  past node := (sound.past node).trans (Nat.le_add_right _ _)
  rounds node participant found := by
    obtain ⟨entered, rest⟩ := sound.rounds node participant found
    exact ⟨entered.trans (Nat.le_add_right _ _), rest⟩
  recent node lastAlive touched := by
    obtain ⟨past, rest⟩ := sound.recent node lastAlive touched
    exact ⟨past.trans (Nat.le_add_right _ _), rest⟩
  heard node participant found prompt := by
    refine sound.heard node participant found ⟨prompt.1, ?_⟩
    have later : seconds 11 + (s.clock + duration - s.lastRound node) + timing.delay ≤
      seconds timeout := prompt.2
    omega

theorem mem_begin {p : ℕ × Datagram} : p ∈ (s.begin node participant).toTracker ↔
    p ∈ s.toTracker ∨
      (participant.heart.round s.clock).1 = true ∧ p = (s.clock, netAliveOf node) := by
  rw [begin, List.mem_append]
  cases (participant.heart.round s.clock).1 with
  | true => simp
  | false => simp

theorem begin_participant (other : Addr) : (s.begin node participant).participant other =
    if other = node then some { participant with heart := (participant.heart.round s.clock).2 }
    else s.participant other := Function.update_apply ..

theorem begin_lastRound (other : Addr) : (s.begin node participant).lastRound other =
    if other = node then s.clock else s.lastRound other := Function.update_apply ..

theorem Sound.begin (sound : s.Sound timing timeout) (entered : participant.entered ≤ s.clock)
    (young : (participant.heart.round s.clock).2.last s.clock ≤ s.clock ∧
      s.clock < (participant.heart.round s.clock).2.last s.clock + seconds 11)
    (heard : seconds 11 + participant.longest + timing.delay ≤ seconds timeout →
      (s.begin node participant).Heard node
          { participant with heart := (participant.heart.round s.clock).2 } ∨
        (s.begin node participant).Reporting node participant.entered) :
    (s.begin node participant).Sound timing timeout where
  limit := sound.limit
  udpWrapper := sound.udpWrapper
  checked := sound.checked
  known p mem := by
    rcases mem_begin.mp mem with mem | ⟨-, rfl⟩
    · exact sound.known p mem
    · exact ⟨Or.inl rfl, Nat.le_refl _, Nat.le_add_right _ _⟩
  reporting other sent mem := by
    rw [begin_lastRound]
    rcases mem_begin.mp mem with mem | ⟨-, mine⟩
    · split
      · exact (sound.known _ mem).2.1
      · exact sound.reporting other sent mem
    · obtain ⟨rfl, alive⟩ := Prod.mk.inj mine
      have same : other = node := congrArg Datagram.sender alive
      rw [if_pos same]
  past other := by
    rw [begin_lastRound]
    split
    · exact Nat.le_refl _
    · exact sound.past other
  rounds other found mine := by
    rw [begin_participant] at mine
    rw [begin_lastRound]
    split at mine
    · rename_i same
      obtain rfl := Option.some.inj mine
      rw [if_pos same]
      exact ⟨entered, young⟩
    · rename_i apart
      rw [if_neg apart]
      exact sound.rounds other found mine
  recent other lastAlive touched := by
    obtain ⟨past, lately, unchecked⟩ := sound.recent other lastAlive touched
    refine ⟨past, ?_, unchecked⟩
    rw [begin_lastRound]
    split
    · exact past.trans (Nat.le_add_right _ _)
    · exact lately
  heard other found mine prompt := by
    rw [begin_participant] at mine
    split at mine
    · rename_i same
      subst same
      obtain rfl := Option.some.inj mine
      exact heard prompt.1
    · rename_i apart
      rw [Prompt, begin_lastRound, if_neg apart] at prompt
      rcases sound.heard other found mine prompt with ⟨lastAlive, touched, since, lately⟩ | reporting
      · refine Or.inl ⟨lastAlive, touched, since, ?_⟩
        rw [begin_lastRound, if_neg apart]
        rcases lately with last | ⟨sent, reporting, soon⟩
        · exact Or.inl last
        · exact Or.inr ⟨sent, mem_begin.mpr (Or.inl reporting), soon⟩
      · exact Or.inr (mem_begin.mpr (Or.inl reporting))

theorem Sound.round (sound : s.Sound timing timeout)
    (mine : s.participant node = some participant) :
    (s.begin node { participant with
      longest := max participant.longest (s.clock - s.lastRound node) }).Sound timing timeout := by
  obtain ⟨entered, before, lately⟩ := sound.rounds node participant mine
  have later := sound.past node
  obtain ⟨past, young, sends⟩ := Heart.round_spec before later
  refine sound.begin entered ⟨past, young⟩ fun short => ?_
  dsimp only at short
  rcases sound.heard node participant mine ⟨by omega, by omega⟩ with
    ⟨lastAlive, touched, since, known⟩ | reporting
  · refine Or.inl ⟨lastAlive, touched, since, ?_⟩
    rw [begin_lastRound, if_pos rfl]
    dsimp only
    rcases known with last | ⟨sent, reporting, soon⟩
    · cases beats : (participant.heart.round s.clock).1 with
      | true =>
          refine Or.inr ⟨s.clock, mem_begin.mpr (Or.inr ⟨beats, rfl⟩), ?_⟩
          omega
      | false =>
          rw [beats] at sends
          exact Or.inl ((Nat.le_of_eq sends).trans last)
    · refine Or.inr ⟨sent, mem_begin.mpr (Or.inl reporting), ?_⟩
      omega
  · exact Or.inr (mem_begin.mpr (Or.inl reporting))

theorem Sound.enter (sound : s.Sound timing timeout) {heart : Heart}
    (allowed : s.Allowed timing (.enter node heart)) :
    (s.begin node ⟨heart, s.clock, 0⟩).Sound timing timeout := by
  have beats : (heart.round s.clock).1 = true := by
    cases heart with
    | c => rfl
    | rust lastAlive =>
        have long_ago : lastAlive + seconds 100 ≤ s.clock := allowed
        have old : ¬ asSecs (s.clock - lastAlive) < 11 := by
          rw [asSecs_lt_iff, seconds]
          rw [seconds] at long_ago
          omega
        have late : asSecs (s.clock - lastAlive) > 10 := Nat.not_lt.mp old
        rw [Heart.round, if_pos late]
  have before : heart.last s.clock ≤ s.clock := by
    cases heart with
    | c => exact Nat.le_refl _
    | rust lastAlive => exact (Nat.le_add_right _ _).trans allowed
  obtain ⟨past, young, -⟩ := Heart.round_spec before (Nat.le_refl _)
  exact sound.begin (Nat.le_refl _) ⟨past, young⟩
    fun _ => Or.inr (mem_begin.mpr (Or.inr ⟨beats, rfl⟩))

theorem Sound.leave (sound : s.Sound timing timeout) :
    { s with participant := Function.update s.participant node none }.Sound timing timeout where
  limit := sound.limit
  udpWrapper := sound.udpWrapper
  checked := sound.checked
  known := sound.known
  reporting := sound.reporting
  past := sound.past
  rounds other found mine := by
    change Function.update s.participant node none other = some found at mine
    rw [Function.update_apply] at mine
    split at mine
    · cases mine
    · exact sound.rounds other found mine
  recent := sound.recent
  heard other found mine prompt := by
    change Function.update s.participant node none other = some found at mine
    rw [Function.update_apply] at mine
    split at mine
    · cases mine
    · exact sound.heard other found mine prompt

theorem Sound.ask (sound : s.Sound timing timeout) (sender : Addr) (question : Question) :
    (s.ask sender question).Sound timing timeout where
  limit := sound.limit
  udpWrapper := sound.udpWrapper
  checked := sound.checked
  known p mem := by
    rcases List.mem_append.mp mem with mem | mem
    · exact sound.known p mem
    · obtain rfl := List.mem_singleton.mp mem
      exact ⟨Or.inr ⟨question, rfl⟩, Nat.le_refl _, Nat.le_add_right _ _⟩
  reporting other sent mem := by
    rcases List.mem_append.mp mem with mem | mem
    · exact sound.reporting other sent mem
    · have bytes := congrArg (fun p => p.2.bytes) (List.mem_singleton.mp mem)
      cases question <;> cases bytes
  past := sound.past
  rounds := sound.rounds
  recent := sound.recent
  heard other found mine prompt := by
    rcases sound.heard other found mine prompt with ⟨lastAlive, touched, since, lately⟩ | reporting
    · refine Or.inl ⟨lastAlive, touched, since, ?_⟩
      rcases lately with last | ⟨sent, reporting, soon⟩
      · exact Or.inl last
      · exact Or.inr ⟨sent, List.mem_append_left _ reporting, soon⟩
    · exact Or.inr (List.mem_append_left _ reporting)

theorem Sound.track_spec (sound : s.Sound timing timeout) {arrived rest : List (ℕ × Datagram)}
    (first : List Addr → Addr) (all : (arrived ++ rest).Perm s.toTracker) :
    ∃ next messages, s.tracker.round (s.trackRound arrived first) = .ok next ∧
      next = (Tracker.handleAll (s.trackRound arrived first) 0 messages s.tracker).retain
        (fun _ => s.clock) ∧
      (∀ node, Reports messages node ↔ ∃ sent, (sent, netAliveOf node) ∈ arrived) := by
  have known : ∀ p ∈ arrived, p.2.ForTracker := fun p mem =>
    (sound.known p (all.subset (List.mem_append_left _ mem))).1
  obtain ⟨messages, brings, reports⟩ := exists_brings known
  have read : s.tracker.udpWrapper.tryRead (arrived.map Prod.snd) = .ok ⟨messages, []⟩ := by
    rw [sound.udpWrapper]
    exact brings.tryRead []
  have waits : { s.tracker with udpWrapper := .new } = s.tracker := by
    rw [← sound.udpWrapper]
  refine ⟨_, messages, ?_, rfl, fun node => ?_⟩
  · rw [Tracker.round, trackRound, read]
    change Except.ok ((Tracker.handleAll _ 0 messages { s.tracker with udpWrapper := .new }).retain _) = _
    rw [waits]
  · rw [reports]
    constructor
    · rintro ⟨⟨sent, datagram⟩, mem, rfl⟩
      exact ⟨sent, mem⟩
    · rintro ⟨sent, mem⟩
      exact ⟨_, mem, rfl⟩

/-- The tracker hears of a node again before it would drop it. -/
theorem Sound.track (sound : s.Sound timing timeout)
    {arrived rest : List (ℕ × Datagram)} {messages : List Message} (first : List Addr → Addr)
    (all : (arrived ++ rest).Perm s.toTracker)
    (reports : ∀ node, Reports messages node ↔ ∃ sent, (sent, netAliveOf node) ∈ arrived) :
    { s with
      tracker := (Tracker.handleAll (s.trackRound arrived first) 0 messages s.tracker).retain
        (fun _ => s.clock)
      checked := s.clock
      toTracker := rest }.Sound timing timeout := by
  have positive : 0 < seconds 11 := by decide
  have handled : ∀ k, (s.trackRound arrived first).handled k = s.clock := fun _ => rfl
  obtain ⟨limit, udpWrapper⟩ :=
    @handleAll_frame (s.trackRound arrived first) messages 0 s.tracker
  have touched_iff : ∀ node lastAlive,
      ((Tracker.handleAll (s.trackRound arrived first) 0 messages s.tracker).retain
        (fun _ => s.clock)).nodes.Touched node lastAlive ↔
      (Reports messages node ∧ lastAlive = s.clock ∨
        ¬ Reports messages node ∧ s.tracker.nodes.Touched node lastAlive) ∧
      s.clock - lastAlive < seconds timeout := by
    intro node lastAlive
    rw [retain_touched, limit, sound.limit, handleAll_touched handled]
  have still : ∀ p ∈ rest, p ∈ s.toTracker := fun p mem => all.subset (List.mem_append_right _ mem)
  refine ⟨limit.trans sound.limit, udpWrapper.trans sound.udpWrapper,
    ⟨Nat.le_refl _, Nat.le_add_right _ _⟩, fun p mem => sound.known p (still p mem),
    fun node sent mem => sound.reporting node sent (still _ mem), sound.past, sound.rounds, ?_, ?_⟩
  · intro node lastAlive touched
    obtain ⟨here, young⟩ := (touched_iff node lastAlive).mp touched
    dsimp only
    rcases here with ⟨reporting, rfl⟩ | ⟨-, touched⟩
    · obtain ⟨sent, mem⟩ := (reports node).mp reporting
      have mem' := all.subset (List.mem_append_left _ mem)
      have lately := (sound.known _ mem').2.2
      have round := sound.reporting node sent mem'
      dsimp only at lately
      omega
    · obtain ⟨past, lately, -⟩ := sound.recent node lastAlive touched
      omega
  · intro node participant mine prompt
    obtain ⟨entered, before, last⟩ := sound.rounds node participant mine
    have past := sound.past node
    obtain ⟨short, young⟩ : seconds 11 + participant.longest + timing.delay ≤ seconds timeout ∧
      seconds 11 + (s.clock - s.lastRound node) + timing.delay ≤ seconds timeout := prompt
    by_cases reporting : Reports messages node
    · refine Or.inl ⟨s.clock, (touched_iff _ _).mpr ⟨Or.inl ⟨reporting, rfl⟩, by omega⟩,
        entered, Or.inl (before.trans past)⟩
    · -- what is on its way from the node has not arrived
      have on_way : ∀ sent, s.Reporting node sent → (sent, netAliveOf node) ∈ rest := by
        intro sent mem
        rcases List.mem_append.mp (all.symm.subset mem) with arrives | stays
        · exact absurd ((reports node).mpr ⟨sent, arrives⟩) reporting
        · exact stays
      rcases sound.heard node participant mine ⟨short, young⟩ with
        ⟨lastAlive, touched, since, lately⟩ | mem
      · have recent : s.clock - lastAlive < seconds timeout := by
          rcases lately with lately | ⟨sent, mem, lately⟩
          · omega
          · have arrives := (sound.known _ mem).2.2
            dsimp only at arrives
            omega
        refine Or.inl ⟨lastAlive, (touched_iff _ _).mpr ⟨Or.inr ⟨reporting, touched⟩, recent⟩,
          since, ?_⟩
        rcases lately with lately | ⟨sent, mem, lately⟩
        · exact Or.inl lately
        · exact Or.inr ⟨sent, on_way sent mem, lately⟩
      · exact Or.inr (on_way _ mem)

theorem Sound.step (sound : s.Sound timing timeout) {act : DiscoveryAct} {s' : Discovery}
    (allowed : s.Allowed timing act) (stepped : s.step act = some s') :
    s'.Sound timing timeout := by
  cases act with
  | pass duration =>
      cases stepped
      exact sound.pass allowed
  | enter node heart =>
      rw [Discovery.step] at stepped
      split at stepped
      · cases stepped
        exact sound.enter allowed
      · cases stepped
  | round node =>
      obtain ⟨participant, mine, rfl⟩ := Option.map_eq_some_iff.mp stepped
      exact sound.round mine
  | leave node =>
      cases stepped
      exact sound.leave
  | ask sender question =>
      cases stepped
      exact sound.ask sender question
  | track arrived rest first =>
      rw [Discovery.step] at stepped
      split at stepped
      · rename_i all
        obtain ⟨next, messages, read, rfl, reports⟩ := sound.track_spec first all
        rw [read] at stepped
        cases stepped
        exact sound.track first all reports
      · cases stepped

theorem Sound.listed (sound : s.Sound timing timeout)
    (mine : s.participant node = some participant)
    (prompt : s.Prompt timing timeout node participant)
    (long : participant.entered + timing.delay < s.clock) : node ∈ s.tracker.nodes.keys := by
  rcases sound.heard node participant mine prompt with ⟨lastAlive, touched, -⟩ | reporting
  · exact Table.mem_keys_iff.mpr ⟨lastAlive, touched⟩
  · have arrives := (sound.known _ reporting).2.2
    exact absurd long (Nat.not_lt.mpr arrives)

theorem Sound.lately (sound : s.Sound timing timeout) (listed : node ∈ s.tracker.nodes.keys) :
    s.clock < s.lastRound node + timing.delay + seconds timeout + timing.check := by
  obtain ⟨lastAlive, touched⟩ := Table.mem_keys_iff.mp listed
  obtain ⟨-, lately, young⟩ := sound.recent node lastAlive touched
  have checked := sound.checked.2
  omega

end

/-- A response names a node that has begun a round of `q6` not long ago, or says that there is
none when no node that is prompt has been in `q6` for longer than a datagram takes. -/
def RightResponse (timing : Timing) (timeout : ℕ) (s : Discovery) (pdu : NetGetNodeResponsePdu) :
    Prop :=
  (∃ node : Addr, pdu = NetGetNodeResponsePdu.new node.address node.port ∧
      s.clock ≤ s.lastRound node + timing.delay + seconds timeout + timing.check) ∨
    pdu = NetGetNodeResponsePdu.new 0 0 ∧ ∀ node participant,
      s.participant node = some participant → s.Prompt timing timeout node participant →
        s.clock ≤ participant.entered + timing.delay

section

variable {s : Discovery} {timing : Timing} {timeout clock : ℕ} {acts : List DiscoveryAct}

theorem Sound.rightResponse (sound : s.Sound timing timeout)
    {arrived rest : List (ℕ × Datagram)} {messages : List Message} {first : List Addr → Addr}
    (yields : ∀ keys ≠ [], first keys ∈ keys) (all : (arrived ++ rest).Perm s.toTracker)
    (reports : ∀ node, Reports messages node ↔ ∃ sent, (sent, netAliveOf node) ∈ arrived)
    {pdu : NetGetNodeResponsePdu} (responds : s.tracker.RespondsFrom first messages pdu) :
    s.RightResponse timing timeout pdu := by
  obtain ⟨between, rfl, kept, known⟩ := responds
  rw [Tracker.getNode]
  split
  · rename_i none
    refine Or.inr ⟨rfl, fun node participant mine prompt => ?_⟩
    by_contra long
    have listed := kept node (sound.listed mine prompt (Nat.not_le.mp long))
    rw [none] at listed
    exact absurd listed List.not_mem_nil
  · rename_i some_listed
    refine Or.inl ⟨first between.nodes.keys, rfl, ?_⟩
    rcases known _ (yields _ some_listed) with listed | reported
    · exact (sound.lately listed).le
    · obtain ⟨sent, mem⟩ := (reports _).mp reported
      have mem' := all.subset (List.mem_append_left _ mem)
      have arrives := (sound.known _ mem').2.2
      have round := sound.reporting _ sent mem'
      dsimp only at arrives
      omega

/-- At any time the tracker lists every prompt node that has been in `q6` for longer than a
datagram takes, and no node whose last round has begun too long ago; its next round ends, and
all responses in it are right. -/
theorem tracker_names_live_nodes
    (run : Run step (Allowed timing) (initial timeout clock) acts s) :
    (∀ node participant, s.participant node = some participant →
      s.Prompt timing timeout node participant →
      participant.entered + timing.delay < s.clock → node ∈ s.tracker.nodes.keys) ∧
    (∀ node ∈ s.tracker.nodes.keys,
      s.clock < s.lastRound node + timing.delay + seconds timeout + timing.check) ∧
    ∀ arrived rest first, (arrived ++ rest).Perm s.toTracker → (∀ keys ≠ [], first keys ∈ keys) →
      ∃ s' replies, s.step (.track arrived rest first) = some s' ∧
        s'.tracker.sent = s.tracker.sent ++ replies ∧
        ∀ pdu asker, (.netGetNodeResponse pdu, asker) ∈ replies →
          s.RightResponse timing timeout pdu := by
  have sound : s.Sound timing timeout := run.invariant (initial_sound timing timeout clock)
    fun _ _ _ sound allowed stepped => sound.step allowed stepped
  refine ⟨fun node participant mine prompt long => sound.listed mine prompt long,
    fun node listed => sound.lately listed, ?_⟩
  intro arrived rest first all yields
  obtain ⟨next, messages, read, rfl, reports⟩ := sound.track_spec first all
  obtain ⟨replies, sent, responds⟩ :=
    @handleAll_sent (s.trackRound arrived first) messages 0 s.tracker
  have tracks : s.step (.track arrived rest first) = some { s with
      tracker := (Tracker.handleAll (s.trackRound arrived first) 0 messages s.tracker).retain
        (fun _ => s.clock)
      checked := s.clock
      toTracker := rest } := by
    rw [step, if_pos all, read]
  refine ⟨_, replies, tracks, sent, fun pdu asker mem => ?_⟩
  exact sound.rightResponse yields all reports (responds pdu asker mem)

end

/-! ## A node that is heard of -/

def fiveSeconds : Timing := ⟨seconds 5, seconds 6⟩

def reporter : Addr := ⟨1, 5000⟩

def reported : Discovery :=
  let entered := (initial 30 (seconds 200)).begin reporter ⟨.rust (seconds 100), seconds 200, 0⟩
  { entered with clock := entered.clock + seconds 2 }

def registered : Discovery :=
  { reported with
    tracker := (Tracker.handleAll (reported.trackRound reported.toTracker fun keys =>
      keys.headD reporter) 0 [(.netAlive NetAlivePdu.new, reporter)] reported.tracker).retain
        fun _ => reported.clock
    checked := reported.clock
    toTracker := [] }

def listing : Discovery := { registered with clock := registered.clock + seconds 4 }

theorem headD_mem (default : Addr) (keys : List Addr) (some_key : keys ≠ []) :
    keys.headD default ∈ keys := by
  obtain ⟨key, rest, rfl⟩ := List.exists_cons_of_ne_nil some_key
  exact List.mem_cons_self

theorem listing_run : Run step (Allowed fiveSeconds) (initial 30 (seconds 200))
    [.enter reporter (.rust (seconds 100)), .pass (seconds 2),
      .track reported.toTracker [] fun keys => keys.headD reporter, .pass (seconds 4)]
    listing := by
  have enters : Run step (Allowed fiveSeconds) (initial 30 (seconds 200))
      [.enter reporter (.rust (seconds 100))]
      ((initial 30 (seconds 200)).begin reporter ⟨.rust (seconds 100), seconds 200, 0⟩) :=
    Run.snoc .nil (Nat.le_of_ble_eq_true rfl) rfl
  have reports : Run step (Allowed fiveSeconds) (initial 30 (seconds 200))
      [.enter reporter (.rust (seconds 100)), .pass (seconds 2)] reported := by
    refine enters.snoc ⟨fun datagram mem => ?_, by decide⟩ rfl
    obtain rfl := List.mem_singleton.mp mem
    decide
  have registers : Run step (Allowed fiveSeconds) (initial 30 (seconds 200))
      [.enter reporter (.rust (seconds 100)), .pass (seconds 2),
        .track reported.toTracker [] fun keys => keys.headD reporter] registered := by
    refine reports.snoc (headD_mem reporter) ?_
    rw [step, if_pos (by rw [List.append_nil])]
    rfl
  exact registers.snoc ⟨fun datagram mem => absurd mem List.not_mem_nil, by decide⟩ rfl

theorem tracker_names_live_nodes_listing :
    (∀ node participant, listing.participant node = some participant →
      listing.Prompt fiveSeconds 30 node participant →
      participant.entered + fiveSeconds.delay < listing.clock →
        node ∈ listing.tracker.nodes.keys) ∧
    (∀ node ∈ listing.tracker.nodes.keys,
      listing.clock < listing.lastRound node + fiveSeconds.delay + seconds 30 + fiveSeconds.check) ∧
    ∀ arrived rest first, (arrived ++ rest).Perm listing.toTracker →
      (∀ keys ≠ [], first keys ∈ keys) →
      ∃ s' replies, listing.step (.track arrived rest first) = some s' ∧
        s'.tracker.sent = listing.tracker.sent ++ replies ∧
        ∀ pdu asker, (.netGetNodeResponse pdu, asker) ∈ replies →
          listing.RightResponse fiveSeconds 30 pdu :=
  tracker_names_live_nodes listing_run

example : listing.tracker.nodes.keys = [reporter] := rfl

end Discovery

end DhtRing.TestNode

import DhtRing.Rest

/-!
# Histories of operations

Nodes join and leave and clients send requests, one operation after the other.  The
ring stays well formed, and it behaves like one map.
-/

set_option autoImplicit false

namespace DhtRing

open OnePlace Transition

variable {net net' : Net} {plan plan' : Plan} {stage stage' : Change}
  {map : Ssn → Option ValuePair}

/-! ## Invariants of the steps -/

structure Upholds (ok : Net → Act → Prop) (inv : Net → Plan → Change → Prop) : Prop where
  orderly : ∀ net plan stage, inv net plan stage → Orderly net plan stage
  step : ∀ net plan stage act net', inv net plan stage → ok net act → net.step act = some net' →
    ∃ plan' stage', inv net' plan' stage' ∧ net.Goes plan stage act net' plan' stage'

section

variable {ok : Net → Act → Prop} {inv : Net → Plan → Change → Prop}

theorem Upholds.run (upholds : Upholds ok inv) {acts : List Act} (start : inv net plan stage)
    (run : Run Net.step ok net acts net') : ∃ plan' stage', inv net' plan' stage' :=
  run.invariant (P := fun net => ∃ plan stage, inv net plan stage) ⟨plan, stage, start⟩
    fun _ _ _ ⟨_, _, here⟩ allowed stepped =>
      let ⟨plan', stage', there, _⟩ := upholds.step _ _ _ _ _ here allowed stepped
      ⟨plan', stage', there⟩

theorem Upholds.terminates (upholds : Upholds ok inv) (start : inv net plan stage) {bound : ℕ × ℕ}
    (bounded : net.Bounded plan stage bound) : Terminates Net.step ok net := by
  refine terminates_of_measure (r := Prod.Lex (· < ·) (· < ·))
    (WellFounded.prod_lex wellFounded_lt wellFounded_lt)
    (P := fun bound net => ∃ plan stage, inv net plan stage ∧ net.Bounded plan stage bound)
    ?_ ⟨plan, stage, start, bounded⟩
  rintro bound net act net' ⟨plan, stage, here, bounded⟩ allowed stepped
  obtain ⟨plan', stage', there, goes⟩ := upholds.step _ _ _ _ _ here allowed stepped
  obtain ⟨bound', less, bounded'⟩ :=
    goes.bounded (upholds.orderly _ _ _ here).inStage bounded
  exact ⟨bound', less, plan', stage', there, bounded'⟩

end

/-! ## A change without clients -/

/-- The ring holds the entries of the map, has answered `replies`, and no client's
request is on its way. -/
structure Changing (map : Ssn → Option ValuePair) (replies : List (Addr × Msg)) (net : Net)
    (plan : Plan) (stage : Change) : Prop where
  orderly : Orderly net plan stage
  clientless : net.Clientless
  ledger : Ledger net map
  replied : net.replies = replies
  accounted : net.Accounted

section

variable {replies : List (Addr × Msg)}

theorem Net.Flow.applied (flow : net.Flow net') :
    net'.applied = net.applied ∨ ∃ n loc msg rest, net.requests loc = msg :: rest ∧
      net'.applied = net.applied ++ [(n, msg)] := by
  cases flow with
  | still requests applied => exact Or.inl applied
  | serve n loc msg rest ssn outcome q6 head reader key in_range dispatched requests applied =>
      exact Or.inr ⟨n, loc, msg, rest, head, applied⟩
  | pass n loc msg rest c head reader fds apart requests applied => exact Or.inl applied
  | spread n fd entries requests applied => exact Or.inl applied

theorem Changing.flow (changing : Changing map replies net plan stage)
    (orderly' : Orderly net' plan' stage') (flow : net.Flow net')
    (issued : net'.issued = net.issued) : Changing map replies net' plan' stage' := by
  have untagged : ∀ n msg, net'.applied = net.applied ++ [(n, msg)] → msg.req = none := by
    intro n msg grown
    rcases flow.applied with same | ⟨m, loc, head, rest, queue, applied⟩
    · rw [same] at grown
      simp at grown
    · rw [applied, List.append_cancel_left_eq, List.singleton_inj, Prod.mk.injEq] at grown
      rw [← grown.2]
      exact changing.clientless loc head (by rw [queue]; exact List.mem_cons_self)
  obtain ⟨later, applied, ledger⟩ := changing.ledger.flow changing.orderly orderly' flow
    fun n msg ssn grown client => absurd (untagged n msg grown) client
  refine ⟨orderly', changing.clientless.flow flow, ?_, ?_, changing.accounted.flow flow issued⟩
  · have same : onMaps map later = map := by
      rcases flow.applied with same | ⟨m, loc, head, rest, queue, grown⟩
      · rw [same, List.self_eq_append_right] at applied
        rw [applied]
        rfl
      · rw [grown, List.append_cancel_left_eq] at applied
        obtain ⟨entry, rfl⟩ := changing.ledger.transfers loc head
          (by rw [queue]; exact List.mem_cons_self) (untagged m head grown)
        rw [← applied]
        rfl
    rwa [same] at ledger
  · rw [← changing.replied]
    cases flow with
    | still requests applied replied => exact replied
    | serve n loc msg rest ssn outcome q6 head reader key in_range dispatched requests applied
        replied node =>
        have mem : msg ∈ net.requests loc := by
          rw [head]
          exact List.mem_cons_self
        obtain ⟨entry, rfl⟩ := changing.ledger.transfers loc msg mem (untagged n msg applied)
        obtain ⟨-, -, silent⟩ := changing.orderly.served_stored orderly' q6 key in_range
          (changing.ledger.keyed loc _ mem ssn key) dispatched node rfl
        rw [replied, silent]
        exact List.append_nil _
    | pass n loc msg rest c head reader fds apart requests applied replied => exact replied
    | spread n fd entries requests applied replied => exact replied

theorem changing_upholds {ok : Net → Act → Prop}
    (internal : ∀ net act, ok net act → act.internal = true)
    (slot : ∀ net plan stage act, Changing map replies net plan stage → ok net act →
      net.HasSlot act) : Upholds ok (Changing map replies) where
  orderly _ _ _ changing := changing.orderly
  step net plan stage act net' changing allowed stepped := by
    have careful := changing.orderly.careful changing.ledger.formed (Or.inr changing.clientless)
      (slot _ _ _ _ changing allowed) stepped
    obtain ⟨plan', stage', orderly', goes⟩ :=
      changing.orderly.step (internal _ _ allowed) careful stepped
    exact ⟨plan', stage',
      changing.flow orderly' goes.flow (step_issued (internal _ _ allowed) stepped), goes⟩

end

/-- The ring is quiet, nothing is on its way, and it holds the entries of the map. -/
structure Settled (map : Ssn → Option ValuePair) (replies : List (Addr × Msg)) (net : Net)
    (plan : Plan) : Prop where
  orderly : Orderly net plan .idle
  empty : ∀ loc, net.requests loc = []
  ledger : Ledger net map
  replied : net.replies = replies
  accounted : net.Accounted

section

variable {replies : List (Addr × Msg)}

theorem Changing.settled (changing : Changing map replies net plan stage) (rest : net.AtRest) :
    Settled map replies net plan := by
  have orderly := changing.orderly.idle_of_rest rest
  refine ⟨orderly, ?_, changing.ledger, changing.replied, changing.accounted⟩
  intro loc
  rw [List.eq_nil_iff_forall_not_mem]
  intro msg mem
  obtain ⟨n, rfl, gone⟩ := orderly.requests_of_rest rest mem
  obtain ⟨entry, rfl⟩ := changing.ledger.transfers _ msg mem (changing.clientless _ msg mem)
  have owner := orderly.owned _ _ entry.1 mem rfl rfl
  rcases orderly.inStage.idle_pc n with ⟨-, q6⟩ | ⟨outside, -⟩
  · rw [gone] at q6
    cases q6
  · exact outside ⟨_, (hashSsn entry.1).toNat_lt, owner⟩

end

/-! ## A client's request -/

def Msg.answer (map : Ssn → Option ValuePair) (msg : Msg) : List (Addr × Msg) :=
  match msg.req, msg.pdu.call with
  | some k, some call => (call.answer map).filterMap (Effect.reply (some k))
  | _, _ => []

theorem answer_congr {pdu : Pdu} {call : TableCall} (asks : pdu.call = some call) {ssn : Ssn}
    (key : pdu.requestKey = some ssn) {map map' : Ssn → Option ValuePair}
    (same : map ssn = map' ssn) : call.answer map = call.answer map' := by
  cases pdu with
  | valLookup ssn sender =>
      cases asks
      cases key
      rw [TableCall.answer, TableCall.answer, same]
  | valInsert ssn pair =>
      cases asks
      rfl
  | valRemove ssn =>
      cases asks
      rfl
  | _ => cases asks

theorem Ledger.stored_eq (ledger : Ledger net map) {n : Addr} {key : Ssn}
    (elsewhere : ∀ site, site ≠ .node n → net.entries key site = []) :
    net.stored n key = map key := by
  have here : (net.stored n key).toList = (map key).toList :=
    (ledger.entries key).of_elsewhere elsewhere
  cases stored : net.stored n key with
  | none =>
      rw [stored] at here
      exact (Option.toList_eq_nil_iff.mp here.symm).symm
  | some pair =>
      rw [stored] at here
      have mem : pair ∈ (map key).toList := by
        rw [← here]
        exact List.mem_singleton_self pair
      exact (Option.mem_toList.mp mem).symm

structure Asking (map : Ssn → Option ValuePair) (replies : List (Addr × Msg)) (msg : Msg)
    (net : Net) (plan : Plan) (stage : Change) : Prop where
  orderly : Orderly net plan stage
  idle : stage = .idle
  accounted : net.Accounted
  progress : (Placed net.requests (some msg) ∧
      (∀ loc, net.requests loc ≠ [] → plan.Member loc.reader) ∧
      Ledger net map ∧ net.replies = replies) ∨
    ((∀ loc, net.requests loc = []) ∧ Ledger net (msg.onMap map) ∧
      net.replies = replies ++ msg.answer map)

section

variable {replies : List (Addr × Msg)} {msg : Msg}

theorem requestKey_of_updated {pdu : Pdu} {ssn : Ssn} (updated : pdu.updated = some ssn) :
    pdu.requestKey = some ssn := by
  cases pdu <;> first | exact updated | cases updated

/-- The owner of the key serves the only request, and nothing of its entry is elsewhere. -/
theorem Orderly.in_turn_of_only (orderly : Orderly net plan .idle)
    (placed : Placed net.requests (some msg)) (client : msg.req ≠ none) {n : Addr}
    (q6 : (net.node n).pc = .q6) {ssn : Ssn}
    (in_range : checkRange (net.node n).selfData ssn = true) (site : Site)
    (other : site ≠ .node n) : net.entries ssn site = [] := by
  cases site with
  | node m =>
      have apart : m ≠ n := fun eq => other (by rw [eq])
      rw [Net.entries, Option.toList_eq_nil_iff]
      by_contra stored
      have owner := orderly.stored_owner (fun _ _ _ _ _ => by simp) stored
      rcases orderly.inStage.idle_pc n with ⟨mem, -⟩ | ⟨-, pc | pc⟩
      · rw [orderly.inStage.ring.checkRange_iff mem (by rw [q6]; rfl), owner] at in_range
        exact apart in_range
      · rw [q6] at pc
        cases pc
      · rw [q6] at pc
        cases pc
  | link loc =>
      rw [Net.entries, List.filterMap_eq_nil_iff]
      intro found mem
      obtain ⟨eq, -⟩ := placed.of_mem mem
      cases eq
      exact transferred_of_client client

theorem Asking.handled (asking : Asking map replies msg net plan .idle) (client : msg.req ≠ none)
    (orderly' : Orderly net' plan .idle) (handled : net.Handled net')
    (issued : net'.issued = net.issued) : Asking map replies msg net' plan .idle := by
  have orderly := asking.orderly
  refine ⟨orderly', rfl, asking.accounted.flow handled.flow issued, ?_⟩
  rcases asking.progress with ⟨placed, members, ledger, replied⟩ | ⟨empty, -⟩
  · cases id handled with
    | serve n loc head rest ssn outcome q6 queue reader key in_range dispatched requests applied
        replies' node =>
        obtain ⟨only, elsewhere⟩ := placed.of_ne_nil (p := loc) (by rw [queue]; simp)
        rw [queue] at only
        obtain ⟨rfl, rfl⟩ := List.cons.inj only
        have mem : head ∈ net.requests loc := by
          rw [queue]
          exact List.mem_cons_self
        have in_turn := orderly.in_turn_of_only placed client q6 in_range
        have nonzero := ledger.keyed loc head mem ssn key
        obtain ⟨call, asks⟩ := Pdu.call_isSome key
        obtain ⟨k, tagged⟩ := Option.ne_none_iff_exists'.mp client
        refine Or.inr ⟨?_, ?_, ?_⟩
        · intro other
          rw [requests]
          by_cases here : other = loc
          · rw [here, Function.update_self]
          · rw [Function.update_of_ne here, elsewhere other here]
        · obtain ⟨later, grown, ledger'⟩ := ledger.flow orderly orderly' handled.flow <| by
            intro m msg' ssn' grown _ updated
            rw [applied, List.append_cancel_left_eq, List.singleton_inj, Prod.mk.injEq] at grown
            obtain ⟨rfl, rfl⟩ := grown
            cases key.symm.trans (requestKey_of_updated updated)
            exact in_turn
          rw [applied, List.append_cancel_left_eq] at grown
          rw [← grown] at ledger'
          exact ledger'
        · obtain ⟨-, -, answered⟩ := orderly.served_stored orderly' q6 key in_range nonzero
            dispatched node asks
          rw [replies', replied, answered, Msg.answer, tagged, asks,
            answer_congr asks key (ledger.stored_eq in_turn)]
    | pass n i back loc head rest ssn c polls queue reader key out tagged fds served apart requests
        applied replies' stored =>
        obtain ⟨only, elsewhere⟩ := placed.of_ne_nil (p := loc) (by rw [queue]; simp)
        rw [queue] at only
        obtain ⟨rfl, rfl⟩ := List.cons.inj only
        have there : net'.requests (.up c) = [head] := by
          rw [requests, Function.update_self, elsewhere _ apart, List.nil_append]
        have nowhere : ∀ other, other ≠ .up c → net'.requests other = [] := by
          intro other next
          rw [requests, Function.update_of_ne next]
          by_cases here : other = loc
          · rw [here, Function.update_self]
          · rw [Function.update_of_ne here, elsewhere other here]
        refine Or.inl ⟨⟨.up c, there, nowhere⟩, ?_, ?_, ?_⟩
        · intro other waits
          by_cases next : other = .up c
          · rw [next]
            obtain ⟨listens, -⟩ := served
            rcases orderly.inStage.idle_pc c.target with ⟨mem, -⟩ | ⟨-, pc | pc⟩
            · exact mem
            · rw [show net.topology.pc c.target = .absent from pc] at listens
              cases listens
            · rw [show net.topology.pc c.target = .exited true from pc] at listens
              cases listens
          · exact absurd (nowhere other next) waits
        · exact ledger.pass queue apart requests stored
        · rw [replies', replied]
  · have nothing : ∀ loc head rest, net.requests loc ≠ head :: rest := by
      intro loc head rest queue
      rw [empty loc] at queue
      cases queue
    cases handled with
    | serve n loc head rest ssn outcome q6 queue => exact absurd queue (nothing loc head rest)
    | pass n i back loc head rest ssn c polls queue => exact absurd queue (nothing loc head rest)

theorem Asking.single (asking : Asking map replies msg net plan stage) (client : msg.req ≠ none) :
    net.Single stage := by
  refine Or.inl ⟨asking.idle, ?_⟩
  intro loc found mem
  rcases asking.progress with ⟨placed, -⟩ | ⟨empty, -⟩
  · obtain ⟨eq, -⟩ := placed.of_mem mem
    cases eq
    exact client
  · rw [empty loc] at mem
    cases mem

theorem Asking.formed (asking : Asking map replies msg net plan stage) : net.Formed := by
  rcases asking.progress with ⟨-, -, ledger, -⟩ | ⟨-, ledger, -⟩
  · exact ledger.formed
  · exact ledger.formed

theorem asking_upholds {ok : Net → Act → Prop} (client : msg.req ≠ none)
    (internal : ∀ net act, ok net act → act.internal = true)
    (slot : ∀ net plan stage act, Orderly net plan stage → ok net act → net.HasSlot act) :
    Upholds ok (Asking map replies msg) where
  orderly _ _ _ asking := asking.orderly
  step net plan stage act net' asking allowed stepped := by
    have careful := asking.orderly.careful asking.formed (asking.single client)
      (slot _ _ _ _ asking.orderly allowed) stepped
    obtain ⟨plan', stage', orderly', goes⟩ :=
      asking.orderly.step (internal _ _ allowed) careful stepped
    obtain rfl := asking.idle
    obtain ⟨rfl, rfl, handled⟩ := goes.of_idle
    exact ⟨plan', .idle, asking.handled client orderly' handled
      (step_issued (internal _ _ allowed) stepped), goes⟩

theorem Asking.settled (asking : Asking map replies msg net plan stage) (rest : net.AtRest) :
    Settled (msg.onMap map) (replies ++ msg.answer map) net plan := by
  obtain rfl := asking.idle
  rcases asking.progress with ⟨placed, members, -⟩ | ⟨empty, ledger, replied⟩
  · obtain ⟨loc, mem⟩ := placed.exists_mem
    obtain ⟨n, rfl, gone⟩ := asking.orderly.requests_of_rest rest mem
    have member := members _ (List.ne_nil_of_mem mem)
    rcases asking.orderly.inStage.idle_pc n with ⟨-, q6⟩ | ⟨outside, -⟩
    · rw [gone] at q6
      cases q6
    · exact absurd member outside
  · exact ⟨asking.orderly, empty, ledger, replied, asking.accounted⟩

end

/-! ## The operations -/

inductive Op where
  | join (j entry : Addr)
  | leave (n : Addr)
  | request (n : Addr) (pdu : Pdu)

def Op.act : Op → Act
  | .join j entry => .join j entry
  | .leave n => .leave n
  | .request n pdu => .client n pdu

def Op.changes : Op → Bool
  | .request _ _ => false
  | _ => true

def Net.Few (net : Net) : Prop :=
  ∀ members : Finset Addr, (∀ n ∈ members, (net.node n).pc.serving = true) → members.card ≤ 255

/-- A join finds at most 255 nodes, the last node does not leave, and clients send
requests for keys without zero bytes. -/
def Net.Admits (net : Net) : Op → Prop
  | .join _ _ => net.Few
  | .leave n => ∃ m, m ≠ n ∧ (net.node m).pc.serving = true
  | .request _ pdu => ∀ ssn, pdu.requestKey = some ssn → Nonzero ssn

section

variable {replies : List (Addr × Msg)}

theorem Settled.untransferred (settled : Settled map replies net plan) : net.Untransferred := by
  intro loc msg mem
  rw [settled.empty loc] at mem
  cases mem

theorem Settled.clientless (settled : Settled map replies net plan) : net.Clientless := by
  intro loc msg mem
  rw [settled.empty loc] at mem
  cases mem

theorem Net.InStage.serving_iff (inStage : net.InStage plan .idle) (n : Addr) :
    (net.node n).pc.serving = true ↔ plan.Member n := by
  rcases inStage.idle_pc n with ⟨mem, q6⟩ | ⟨outside, pc | pc⟩
  · simp [mem, q6, Pc.serving]
  · simp [outside, pc, Pc.serving]
  · simp [outside, pc, Pc.serving]

theorem Plan.several (tiled : plan.Tiled) {n m : Addr} (mem : plan.Member n)
    (mem' : plan.Member m) (other : m ≠ n) : plan.next n ≠ n := by
  intro self
  obtain ⟨lo, hi⟩ := (Plan.next_eq_self tiled mem).mp self
  obtain ⟨x, small, rfl⟩ := mem'
  exact other (((tiled n mem).exact x small).mpr (by omega))

theorem Settled.join (settled : Settled map replies net plan) {j e : Addr} (few : net.Few)
    (stepped : net.step (.join j e) = some net') :
    ∃ stage, Changing map replies net' plan stage ∧ ∃ bound, net'.Bounded plan stage bound := by
  obtain ⟨orderly, flow, issued, requests⟩ := settled.orderly.join settled.untransferred stepped
  have changing : Changing map replies net plan .idle :=
    ⟨settled.orderly, settled.clientless, settled.ledger, settled.replied, settled.accounted⟩
  have inStage := settled.orderly.inStage
  obtain ⟨w, mem, wide⟩ := Tiling.Tiled.exists_wide inStage.ring.tiled fun members all => by
    have small := few members fun n mem => (inStage.serving_iff n).mpr (all n mem)
    omega
  refine ⟨_, changing.flow orderly flow issued, (_, 0),
    ⟨w, mem, wide, fun some_span => absurd rfl some_span, rfl⟩, weighs_nothing fun loc => ?_⟩
  rw [requests]
  exact settled.empty loc

theorem Settled.leave (settled : Settled map replies net plan) {n m : Addr} (other : m ≠ n)
    (serving : (net.node m).pc.serving = true) (stepped : net.step (.leave n) = some net') :
    ∃ stage, Changing map replies net' plan stage ∧ ∃ bound, net'.Bounded plan stage bound := by
  have inStage := settled.orderly.inStage
  have mem : plan.Member n := by
    obtain ⟨q6, -⟩ := leave_eq_some stepped
    rw [← inStage.serving_iff, q6]
    rfl
  have several := Plan.several inStage.ring.tiled mem ((inStage.serving_iff m).mp serving) other
  obtain ⟨⟨p, s, c, c', orderly⟩, flow, issued, requests⟩ :=
    settled.orderly.leave settled.untransferred mem several stepped
  have changing : Changing map replies net plan .idle :=
    ⟨settled.orderly, settled.clientless, settled.ledger, settled.replied, settled.accounted⟩
  refine ⟨_, changing.flow orderly flow issued, (9, 0), rfl, weighs_nothing fun loc => ?_⟩
  rw [requests]
  exact settled.empty loc

theorem Settled.request (settled : Settled map replies net plan) {n : Addr} {pdu : Pdu}
    (nonzero : ∀ ssn, pdu.requestKey = some ssn → Nonzero ssn)
    (stepped : net.step (.client n pdu) = some net') :
    Asking map replies ⟨pdu, some net.issued⟩ net' plan .idle ∧
      ∃ bound, net'.Bounded plan .idle bound := by
  obtain ⟨serving, -, -, -, -, -, replied, -, -, requests⟩ := client_spec stepped
  have here : net'.requests (.udp n) = [⟨pdu, some net.issued⟩] := by
    rw [requests, Function.update_self, settled.empty, List.nil_append]
  have elsewhere : ∀ loc, loc ≠ .udp n → net'.requests loc = [] := by
    intro loc other
    rw [requests, Function.update_of_ne other, settled.empty]
  refine ⟨⟨settled.orderly.client stepped, rfl, settled.accounted.client stepped,
    Or.inl ⟨⟨.udp n, here, elsewhere⟩, ?_, settled.ledger.client stepped nonzero,
      replied.trans settled.replied⟩⟩, (0, _), rfl, {.udp n}, ?_, rfl⟩
  · intro loc waits
    by_cases same : loc = .udp n
    · rw [same]
      exact (settled.orderly.inStage.serving_iff n).mp serving
    · exact absurd (elsewhere loc same) waits
  · intro loc outside
    exact elsewhere loc fun eq => outside (Finset.mem_singleton.mpr eq)

theorem Settled.change (settled : Settled map replies net plan) {op : Op}
    (changes : op.changes = true) (admitted : net.Admits op)
    (stepped : net.step op.act = some net') :
    ∃ stage, Changing map replies net' plan stage ∧ ∃ bound, net'.Bounded plan stage bound := by
  cases op with
  | join j e => exact settled.join admitted stepped
  | leave n =>
      obtain ⟨m, other, serving⟩ := admitted
      exact settled.leave other serving stepped
  | request n pdu => cases changes

end

/-- Operations one after the other, each until the nodes are at rest.  The steps in
between are allowed by `ok`, the operations by `admits`. -/
inductive History (ok : Net → Act → Prop) (admits : Net → Op → Prop) (first : Addr) :
    List Op → Net → Prop where
  | founded : History ok admits first [] (Net.founded first)
  | operation {ops : List Op} {net begun done : Net} {op : Op} {acts : List Act} :
      History ok admits first ops net → admits net op → net.step op.act = some begun →
      Run Net.step ok begun acts done → done.AtRest → History ok admits first (ops ++ [op]) done

/-- The nodes go on by themselves, and no node comes to hold too many entries. -/
def Undisturbed (net : Net) (act : Act) : Prop :=
  act.internal = true ∧ ∀ net', net.step act = some net' → net'.WithinSize

def Internal (_ : Net) (act : Act) : Prop := act.internal = true

/-! ## One map -/

/-- What the ring is for: a map, and the answers that lookups in it got. -/
structure Dictionary where
  entries : Ssn → Option ValuePair
  answers : List (Addr × Pdu)

def Dictionary.empty : Dictionary := ⟨fun _ => none, []⟩

def Dictionary.apply (dict : Dictionary) : Op → Dictionary
  | .request _ (.valInsert ssn pair) =>
      { dict with entries := Function.update dict.entries ssn (some pair) }
  | .request _ (.valRemove ssn) =>
      { dict with entries := Function.update dict.entries ssn none }
  | .request _ (.valLookup ssn sender) =>
      match dict.entries ssn with
      | some pair => { dict with answers := dict.answers ++ [(sender, .valLookupResponse ssn pair)] }
      | none => dict
  | _ => dict

def Dictionary.run (ops : List Op) : Dictionary := ops.foldl .apply .empty

theorem Dictionary.run_append (ops : List Op) (op : Op) :
    Dictionary.run (ops ++ [op]) = (Dictionary.run ops).apply op := by
  rw [Dictionary.run, List.foldl_append]
  rfl

theorem Dictionary.apply_change (dict : Dictionary) {op : Op} (changes : op.changes = true) :
    dict.apply op = dict := by
  cases op with
  | request n pdu => cases changes
  | _ => rfl

theorem Dictionary.apply_request (dict : Dictionary) (n : Addr) {pdu : Pdu}
    (request : pdu.requestKey.isSome) (k : ℕ) :
    (dict.apply (.request n pdu)).entries = Msg.onMap dict.entries ⟨pdu, some k⟩ ∧
      (dict.apply (.request n pdu)).answers = dict.answers ++
        (Msg.answer dict.entries ⟨pdu, some k⟩).map fun reply => (reply.1, reply.2.pdu) := by
  cases pdu with
  | valInsert ssn pair => exact ⟨rfl, (List.append_nil _).symm⟩
  | valRemove ssn => exact ⟨rfl, (List.append_nil _).symm⟩
  | valLookup ssn sender =>
      rw [Dictionary.apply]
      cases found : dict.entries ssn with
      | none =>
          refine ⟨rfl, ?_⟩
          simp [Msg.answer, Pdu.call, TableCall.answer, found]
      | some pair =>
          refine ⟨rfl, ?_⟩
          simp [Msg.answer, Pdu.call, TableCall.answer, found, Effect.reply]
  | _ => cases request

/-- Each key has one owner, which stores its entry, and every lookup was answered as the
dictionary does. -/
structure Net.ActsAs (net : Net) (dict : Dictionary) : Prop where
  owner : ∀ key, ∃! n, (net.node n).pc.serving = true ∧
    checkRange (net.node n).selfData key = true
  stored : ∀ n, (net.node n).pc.serving = true → ∀ key, (net.node n).selfData.get key =
    if checkRange (net.node n).selfData key then dict.entries key else none
  answered : (net.replies.map fun reply => (reply.1, reply.2.pdu)) = dict.answers

section

variable {replies : List (Addr × Msg)} {first : Addr}

theorem settled_founded (port : first.port ≠ 0) :
    Settled (fun _ => none) [] (Net.founded first) (Plan.first first) :=
  ⟨orderly_founded port, founded_requests first, ledger_founded first, rfl,
    accounted_founded first⟩

/-- A ring whose members all serve acts as one map when nothing is on its way. -/
theorem Orderly.actsAs (orderly : Orderly net plan stage)
    (kept : ∀ l p s c c', stage ≠ .taken l p s c c')
    (members : ∀ n, (net.node n).pc.serving = true ↔ plan.Member n)
    (inRing : ∀ n, plan.Member n → (net.node n).pc.inRing = true)
    (empty : ∀ loc, net.requests loc = []) (ledger : Ledger net map) :
    net.ActsAs ⟨map, net.replies.map fun reply => (reply.1, reply.2.pdu)⟩ := by
  have range_iff : ∀ n, (net.node n).pc.serving = true → ∀ key,
      checkRange (net.node n).selfData key = true ↔ plan.own (hashSsn key).toNat = n := by
    intro n serving
    have mem := (members n).mp serving
    exact orderly.inStage.ring.checkRange_iff mem (Pc.born_of_inRing (inRing n mem))
  refine ⟨fun key => ?_, fun n serving key => ?_, rfl⟩
  · have serving := (members _).mpr ⟨_, (hashSsn key).toNat_lt, rfl⟩
    refine ⟨plan.own (hashSsn key).toNat, ⟨serving, (range_iff _ serving key).mpr rfl⟩, ?_⟩
    rintro m ⟨serving', in_range⟩
    exact ((range_iff m serving' key).mp in_range).symm
  · have inside := inRing n ((members n).mp serving)
    have here : net.stored n key = (net.node n).selfData.get key := by
      rw [Net.stored, if_pos inside]
    split
    · rename_i in_range
      rw [← here]
      refine ledger.stored_eq ?_
      rintro (m | loc) other
      · rw [Net.entries, Option.toList_eq_nil_iff]
        by_contra stored
        have owner := orderly.stored_owner kept stored
        exact other (by rw [← owner, (range_iff n serving key).mp in_range])
      · rw [Net.entries, empty]
        rfl
    · rename_i out
      by_contra stored
      exact out ((orderly.tidy n inside).range stored)

theorem Settled.actsAs (settled : Settled map replies net plan) :
    net.ActsAs ⟨map, replies.map fun reply => (reply.1, reply.2.pdu)⟩ := by
  have orderly := settled.orderly
  have acts := orderly.actsAs (fun _ _ _ _ _ => by simp) orderly.inStage.serving_iff
    (fun n mem => by
      rw [show (net.node n).pc = .q6 from Idle.idle orderly.inStage n mem]
      rfl) settled.empty settled.ledger
  rw [settled.replied] at acts
  exact acts

theorem Settled.operation {dict : Dictionary} (settled : Settled dict.entries replies net plan)
    (answered : (replies.map fun reply => (reply.1, reply.2.pdu)) = dict.answers)
    {op : Op} (admitted : net.Admits op) {begun done : Net} (stepped : net.step op.act = some begun)
    {acts : List Act} (run : Run Net.step Undisturbed begun acts done) :
    ∃ plan' stage', Orderly done plan' stage' ∧ (done.AtRest → ∃ replies',
      Settled (dict.apply op).entries replies' done plan' ∧
        (replies'.map fun reply => (reply.1, reply.2.pdu)) = (dict.apply op).answers) := by
  have internal : ∀ net act, Undisturbed net act → act.internal = true :=
    fun _ _ allowed => allowed.1
  by_cases changes : op.changes = true
  · obtain ⟨stage, changing, -⟩ := settled.change changes admitted stepped
    obtain ⟨plan', stage', there⟩ := (changing_upholds internal fun _ _ _ _ here allowed =>
      here.orderly.hasSlot allowed.2).run changing run
    rw [dict.apply_change changes]
    exact ⟨plan', stage', there.orderly, fun rest => ⟨replies, there.settled rest, answered⟩⟩
  · cases op with
    | request n pdu =>
        obtain ⟨-, request, -⟩ := client_spec stepped
        obtain ⟨asking, -⟩ := settled.request admitted stepped
        obtain ⟨plan', stage', there⟩ := (asking_upholds (by simp) internal
          fun _ _ _ _ orderly allowed => orderly.hasSlot allowed.2).run asking run
        obtain ⟨entries, answers⟩ := dict.apply_request n request net.issued
        refine ⟨plan', stage', there.orderly, fun rest =>
          ⟨replies ++ Msg.answer dict.entries ⟨pdu, some net.issued⟩, ?_, ?_⟩⟩
        · rw [entries]
          exact there.settled rest
        · rw [answers, List.map_append, answered]
    | _ => exact absurd rfl changes

theorem History.settled {ops : List Op} (history : History Undisturbed Net.Admits first ops net)
    (port : first.port ≠ 0) :
    ∃ plan replies, Settled (Dictionary.run ops).entries replies net plan ∧
      (replies.map fun reply => (reply.1, reply.2.pdu)) = (Dictionary.run ops).answers := by
  induction history with
  | founded => exact ⟨_, [], settled_founded port, rfl⟩
  | operation _ admitted stepped run rest ih =>
      obtain ⟨plan, replies, settled, answered⟩ := ih
      obtain ⟨plan', stage', -, after⟩ := settled.operation answered admitted stepped run
      obtain ⟨replies', settled', answered'⟩ := after rest
      rw [Dictionary.run_append]
      exact ⟨plan', replies', settled', answered'⟩

theorem Settled.ends (settled : Settled map replies net plan) {op : Op} (admitted : net.Admits op)
    (stepped : net.step op.act = some net') : Terminates Net.step Undisturbed net' := by
  have internal : ∀ net act, Undisturbed net act → act.internal = true :=
    fun _ _ allowed => allowed.1
  by_cases changes : op.changes = true
  · obtain ⟨stage, changing, bound, bounded⟩ := settled.change changes admitted stepped
    exact (changing_upholds internal fun _ _ _ _ here allowed =>
      here.orderly.hasSlot allowed.2).terminates changing bounded
  · cases op with
    | request n pdu =>
        obtain ⟨asking, bound, bounded⟩ := settled.request admitted stepped
        exact (asking_upholds (by simp) internal fun _ _ _ _ orderly allowed =>
          orderly.hasSlot allowed.2).terminates asking bounded
    | _ => exact absurd rfl changes

/-- After every history the ring acts as one map, and every further operation comes to an
end. -/
theorem history_actsAs (port : first.port ≠ 0) {ops : List Op}
    (history : History Undisturbed Net.Admits first ops net) :
    net.ActsAs (Dictionary.run ops) ∧ ∀ op begun, net.Admits op → net.step op.act = some begun →
      Terminates Net.step Undisturbed begun := by
  obtain ⟨plan, replies, settled, answered⟩ := history.settled port
  refine ⟨?_, fun op begun admitted stepped => settled.ends admitted stepped⟩
  have acts := settled.actsAs
  rw [answered] at acts
  exact acts

end

/-! ## Two nodes -/

def Act.node : Act → Addr
  | .client n _ | .leave n | .timeout n | .deliver n _ | .discard n _ _ | .eof n _ | .accept n
  | .response n | .reply n | .finish n => n
  | .join j _ => j

theorem step_node_other {act : Act} (stepped : net.step act = some net') {n : Addr}
    (other : n ≠ act.node) : net'.node n = net.node n := by
  cases act with
  | client m pdu =>
      obtain ⟨-, -, rfl⟩ := client_eq_some stepped
      rfl
  | join j e =>
      obtain ⟨-, -, -, rfl⟩ := join_eq_some stepped
      exact Function.update_of_ne other ..
  | leave m =>
      obtain ⟨-, ⟨-, -, rfl⟩ | ⟨-, rfl⟩⟩ := leave_eq_some stepped
      · exact Function.update_of_ne other ..
      · rw [performAll_setNode_node]
        exact Function.update_of_ne other ..
  | timeout m =>
      obtain ⟨-, rfl⟩ := timeout_eq_some stepped
      exact Function.update_of_ne other ..
  | deliver m i =>
      obtain ⟨back, loc, msg, rest, outcome, -, -, -, -, rfl⟩ := deliver_eq_some stepped
      rw [commit_node, setQueue_node, note_node]
      exact Function.update_of_ne other ..
  | discard m i k =>
      obtain ⟨back, loc, msg, rest, -, -, -, -, rfl⟩ := discard_eq_some stepped
      exact Function.update_of_ne other ..
  | eof m i =>
      obtain ⟨back, conn, loc, fd, data, -, -, -, -, -, rfl⟩ := eof_eq_some stepped
      exact Function.update_of_ne other ..
  | accept m =>
      obtain ⟨back, conn, rest, -, -, rfl⟩ := accept_eq_some stepped
      exact Function.update_of_ne other ..
  | response m =>
      obtain ⟨-, loc, -, ⟨next, rangeStart, rangeEnd, req, rest, -, rfl⟩ | ⟨-, rfl⟩⟩ :=
        response_eq_some stepped
      · rw [commit_node]
        exact Function.update_of_ne other ..
      · exact Function.update_of_ne other ..
  | reply m =>
      obtain ⟨-, loc, granted, -, -, rfl⟩ := reply_eq_some stepped
      rw [commit_node]
      exact Function.update_of_ne other ..
  | finish m =>
      obtain ⟨i, new, -, rfl⟩ := finish_eq_some stepped
      rw [performAll_setNode_node]
      exact Function.update_of_ne other ..

def SelfData.fits (selfData : SelfData) : Bool :=
  selfData.hashTable.all fun ht => decide (getNumEntries ht ≤ maxSize)

theorem Net.WithinSize.step {act : Act} (within : net.WithinSize)
    (stepped : net.step act = some net') (fits : (net'.node act.node).selfData.fits = true) :
    net'.WithinSize := by
  intro n ht table
  by_cases here : n = act.node
  · subst here
    rw [SelfData.fits, table, Option.all_some, decide_eq_true_eq] at fits
    exact fits
  · rw [step_node_other stepped here] at table
    exact within n ht table

structure Net.Pair (net : Net) : Prop where
  absent : ∀ n, n ≠ nodeA → n ≠ nodeB → (net.node n).pc = .absent
  within : net.WithinSize

theorem pair_founded : (Net.founded nodeA).Pair where
  absent n other _ := congrArg Proc.pc (founded_other other)
  within n ht table := by
    by_cases here : n = nodeA
    · rw [here, founded_node] at table
      cases table
      decide
    · rw [founded_other here] at table
      cases table

def pairStep (net : Net) (act : Act) : Bool :=
  (act.node = nodeA || act.node = nodeB) &&
    (net.step act).all fun after => (after.node act.node).selfData.fits

theorem Net.Pair.step {act : Act} (pair : net.Pair) (checked : pairStep net act = true)
    (stepped : net.step act = some net') : net'.Pair := by
  rw [pairStep, stepped, Bool.and_eq_true, Option.all_some] at checked
  refine ⟨fun n not_a not_b => ?_, pair.within.step stepped checked.2⟩
  have other : n ≠ act.node := by
    rintro rfl
    simpa [not_a, not_b] using checked.1
  rw [step_node_other stepped other]
  exact pair.absent n not_a not_b

abbrev Script := List (Op × List Act)

def pairAdmits (net : Net) : Op → Bool
  | .join _ _ => true
  | .leave n => [nodeA, nodeB].any fun m => decide (m ≠ n) && (net.node m).pc.serving
  | .request _ pdu => pdu.requestKey.all fun ssn => decide (Nonzero ssn)

def perform (net : Net) : Script → Option Net
  | [] => some net
  | (op, acts) :: later =>
      if pairAdmits net op && pairStep net op.act then
        (net.step op.act).bind fun begun =>
          (execChecked Net.step (fun net act => act.internal && pairStep net act) begun acts).bind
            fun done => if done.quiet nodeA && done.quiet nodeB then perform done later else none
      else none

theorem Net.Pair.few (pair : net.Pair) : net.Few := by
  intro members serving
  have sub : members ⊆ {nodeA, nodeB} := by
    intro n mem
    by_contra outside
    simp only [Finset.mem_insert, Finset.mem_singleton, not_or] at outside
    have serves := serving n mem
    rw [pair.absent n outside.1 outside.2] at serves
    cases serves
  have := Finset.card_le_card sub
  have : ({nodeA, nodeB} : Finset Addr).card ≤ 2 := Finset.card_le_two
  omega

theorem Net.Pair.admits (pair : net.Pair) {op : Op} (checked : pairAdmits net op = true) :
    net.Admits op := by
  cases op with
  | join j e => exact pair.few
  | leave n =>
      obtain ⟨m, -, serves⟩ := List.any_eq_true.mp checked
      rw [Bool.and_eq_true, decide_eq_true_eq] at serves
      exact ⟨m, serves⟩
  | request n pdu =>
      intro ssn key
      rw [pairAdmits, key, Option.all_some, decide_eq_true_eq] at checked
      exact checked

theorem History.extend {first : Addr} (port : first.port ≠ 0) {ops : List Op} {begun done : Net}
    (history : History Undisturbed Net.Admits first ops net) {op : Op} (admitted : net.Admits op)
    (stepped : net.step op.act = some begun) {acts : List Act}
    (run : Run Net.step Undisturbed begun acts done) (quiet : ∀ n, done.quiet n = true) :
    History Undisturbed Net.Admits first (ops ++ [op]) done := by
  obtain ⟨plan, replies, settled, answered⟩ := history.settled port
  obtain ⟨plan', stage', orderly, -⟩ := settled.operation answered admitted stepped run
  exact .operation history admitted stepped run (orderly.rest_of_quiet quiet)

theorem Net.Pair.run {may : Net → Act → Bool} (pair : net.Pair) {acts : List Act}
    (executed : execChecked Net.step (fun net act => may net act && pairStep net act) net acts =
      some net') :
    Run Net.step (fun net act => may net act = true ∧
      ∀ net', net.step act = some net' → net'.WithinSize) net acts net' ∧ net'.Pair := by
  have run : Run Net.step (fun net act => may net act = true ∧ pairStep net act = true) net acts
      net' := run_of_execChecked (fun _ _ passed => by simpa using passed) executed
  refine run.induct (P := fun acts after => Run Net.step (fun net act => may net act = true ∧
    ∀ net', net.step act = some net' → net'.WithinSize) net acts after ∧ after.Pair) ⟨.nil, pair⟩ ?_
  rintro as t act u - ⟨sofar, here⟩ ⟨allowed, checked⟩ stepped
  refine ⟨sofar.snoc ⟨allowed, fun after stepped' => ?_⟩ stepped, here.step checked stepped⟩
  exact (here.step checked stepped').within

theorem Net.Pair.quiet (pair : net.Pair) (a : net.quiet nodeA = true)
    (b : net.quiet nodeB = true) (n : Addr) : net.quiet n = true := by
  by_cases at_a : n = nodeA
  · rw [at_a]
    exact a
  · by_cases at_b : n = nodeB
    · rw [at_b]
      exact b
    · rw [Net.quiet, pair.absent n at_a at_b]

theorem history_of_perform {ops : List Op} (script : Script)
    (history : History Undisturbed Net.Admits nodeA ops net) (pair : net.Pair)
    (performed : perform net script = some net') :
    History Undisturbed Net.Admits nodeA (ops ++ script.map Prod.fst) net' ∧ net'.Pair := by
  induction script generalizing net ops with
  | nil =>
      cases performed
      rw [List.map_nil, List.append_nil]
      exact ⟨history, pair⟩
  | cons entry later ih =>
      obtain ⟨op, acts⟩ := entry
      rw [perform] at performed
      split at performed
      · rename_i checked
        rw [Bool.and_eq_true] at checked
        obtain ⟨begun, stepped, performed⟩ := Option.bind_eq_some_iff.mp performed
        obtain ⟨done, executed, performed⟩ := Option.bind_eq_some_iff.mp performed
        obtain ⟨run, pair'⟩ := (pair.step checked.2 stepped).run executed
        split at performed
        · rename_i both
          rw [Bool.and_eq_true] at both
          have more := ih (history.extend (by decide) (pair.admits checked.1) stepped run
            (pair'.quiet both.1 both.2)) pair' performed
          rw [List.append_assoc] at more
          exact more
        · cases performed
      · cases performed

/-- The second node joins, a client stores an entry there, the node leaves, and the entry
is looked up at the first one. -/
def pairScript : Script :=
  [(.join nodeB nodeA, [.deliver nodeA .udp, .accept nodeB, .response nodeB, .accept nodeA]),
    (.request nodeA (.valInsert lastKey newerPair),
      [.deliver nodeA .udp, .deliver nodeB .predecessor]),
    (.leave nodeB, [.deliver nodeA .successor, .reply nodeB, .deliver nodeA .successor,
      .finish nodeB, .deliver nodeA .predecessor, .deliver nodeA .successor]),
    (.request nodeA (.valLookup lastKey nodeC), [.deliver nodeA .udp])]

theorem history_actsAs_pairScript : ∃ net,
    History Undisturbed Net.Admits nodeA (pairScript.map Prod.fst) net ∧
      (net.replies.map fun reply => (reply.1, reply.2.pdu)) =
        [(nodeC, .valLookupResponse lastKey newerPair)] := by
  have performed : (perform (Net.founded nodeA) pairScript).isSome := by decide +kernel
  obtain ⟨net, performed⟩ := Option.isSome_iff_exists.mp performed
  obtain ⟨history, -⟩ := history_of_perform pairScript .founded pair_founded performed
  obtain ⟨acts, -⟩ := history_actsAs (by decide) history
  exact ⟨net, history, acts.answered⟩

end DhtRing

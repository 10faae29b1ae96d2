import DhtRing.OrderlySteps
import DhtRing.Overtaking
import DhtRing.Lib.OnePlace

/-!
# The entries of the ring

Each entry is stored at one node, or one transfer carries it.  What the entries are
follows from the client requests that were applied, one after the other; and each client
request is at one place until it is applied.
-/

set_option autoImplicit false

namespace DhtRing

open OnePlace

variable {net net' : Net} {plan plan' : Plan} {stage stage' : Change}

/-! ## Where the entries are -/

def Msg.transferred (key : Ssn) (msg : Msg) : Option ValuePair :=
  match msg.req, msg.pdu with
  | none, .valInsert ssn pair => if ssn = key then some pair else none
  | _, _ => none

inductive Site where
  | node (n : Addr)
  | link (loc : Loc)

/-- What there is of the entry of a key. -/
def Net.entries (net : Net) (key : Ssn) : Site → List ValuePair
  | .node n => (net.stored n key).toList
  | .link loc => (net.requests loc).filterMap (Msg.transferred key)

def Msg.onMap (map : Ssn → Option ValuePair) (msg : Msg) : Ssn → Option ValuePair :=
  match msg.req, msg.pdu.call with
  | some _, some call => call.onMap map
  | _, _ => map

/-- The ring holds the entries of the map, each once, and transfers carry entries. -/
structure Ledger (net : Net) (map : Ssn → Option ValuePair) : Prop where
  entries : ∀ key, Placed (net.entries key) (map key)
  transfers : ∀ loc, ∀ msg ∈ net.requests loc, msg.req = none → ∃ entry, msg = transfer entry
  keyed : ∀ loc, ∀ msg ∈ net.requests loc, ∀ ssn, msg.pdu.requestKey = some ssn → Nonzero ssn
  nonzero : ∀ key, map key ≠ none → Nonzero key

section

variable {msg : Msg} {key : Ssn} {map : Ssn → Option ValuePair}

theorem transferred_of_client (client : msg.req ≠ none) : msg.transferred key = none := by
  obtain ⟨pdu, req⟩ := msg
  cases req with
  | none => exact absurd rfl client
  | some k => rfl

theorem transferred_transfer (entry : Ssn × ValuePair) :
    (transfer entry).transferred key = if entry.1 = key then some entry.2 else none := rfl

theorem filterMap_transfer_of_mem {entries : List (Ssn × ValuePair)}
    (nodup : (entries.map Prod.fst).Nodup) {pair : ValuePair} (mem : (key, pair) ∈ entries) :
    (entries.map transfer).filterMap (Msg.transferred key) = [pair] := by
  induction entries with
  | nil => cases mem
  | cons entry entries ih =>
      rw [List.map_cons, List.nodup_cons] at nodup
      rw [List.map_cons]
      rcases List.mem_cons.mp mem with rfl | later
      · have others : (entries.map transfer).filterMap (Msg.transferred key) = [] := by
          rw [List.filterMap_eq_nil_iff]
          intro found listed
          obtain ⟨other, mem_other, rfl⟩ := List.mem_map.mp listed
          rw [transferred_transfer, if_neg]
          intro same
          exact nodup.1 (List.mem_map.mpr ⟨other, mem_other, same⟩)
        rw [List.filterMap_cons_some (b := pair) (by rw [transferred_transfer, if_pos rfl]), others]
      · have apart : entry.1 ≠ key := fun same =>
          nodup.1 (List.mem_map.mpr ⟨_, later, same.symm⟩)
        rw [List.filterMap_cons_none (by rw [transferred_transfer, if_neg apart])]
        exact ih nodup.2 later

theorem filterMap_head {α : Type*} (view : Msg → Option α) (msg : Msg) (rest : List Msg) :
    (msg :: rest).filterMap view = (view msg).toList ++ rest.filterMap view := by
  cases seen : view msg with
  | none => rw [List.filterMap_cons_none seen]; rfl
  | some thing => rw [List.filterMap_cons_some seen]; rfl

theorem filterMap_transfer_of_not_mem {entries : List (Ssn × ValuePair)}
    (absent : key ∉ entries.map Prod.fst) :
    (entries.map transfer).filterMap (Msg.transferred key) = [] := by
  rw [List.filterMap_eq_nil_iff]
  intro found listed
  obtain ⟨other, mem, rfl⟩ := List.mem_map.mp listed
  rw [transferred_transfer, if_neg]
  intro same
  exact absent (List.mem_map.mpr ⟨other, mem, same⟩)

theorem Ledger.nonzero_of_stored (ledger : Ledger net map) {n : Addr}
    (stored : net.stored n key ≠ none) : Nonzero key := by
  obtain ⟨pair, found⟩ := Option.ne_none_iff_exists'.mp stored
  have here : pair ∈ net.entries key (.node n) := by
    rw [Net.entries, found]
    exact List.mem_singleton_self pair
  apply ledger.nonzero
  rw [((ledger.entries key).of_mem here).1]
  simp

end

/-! ## Requests that are served -/

theorem Pdu.call_cases {pdu : Pdu} {call : TableCall} (asks : pdu.call = some call) :
    (∃ ssn value, pdu.updated = some ssn ∧ pdu.requestKey = some ssn ∧
      ∀ map, call.onMap map = Function.update map ssn value) ∨
    (pdu.updated = none ∧ ∀ map, call.onMap map = map) := by
  cases pdu with
  | valInsert ssn pair =>
      cases asks
      exact Or.inl ⟨ssn, some pair, rfl, rfl, fun _ => rfl⟩
  | valRemove ssn =>
      cases asks
      exact Or.inl ⟨ssn, none, rfl, rfl, fun _ => rfl⟩
  | valLookup ssn sender =>
      cases asks
      exact Or.inr ⟨rfl, fun _ => rfl⟩
  | _ => cases asks

section

variable {selfData : SelfData} {keys : List Ssn} {env : Env} {ssn : Ssn}

/-- A table that is still tidy had room for the key. -/
theorem Mirrored.distinguishes_insert (mirrored : Mirrored selfData keys) {pair : ValuePair}
    (in_range : checkRange selfData ssn = true) (nonzero : Nonzero ssn)
    (after : Tidy (handleHtInsert selfData ssn pair).selfData) :
    Distinguishes selfData (.insert ssn pair) := by
  have apart : ∀ other, SameKey other ssn → other = ssn :=
    fun other same => (sameKey_of_nonzero nonzero).mp same
  refine ⟨fun other _ same => apart other same, ?_⟩
  obtain ⟨ht, table, mirrors⟩ := id mirrored
  have get : selfData.get ssn = ht.get ssn := by
    simp [SelfData.get, table]
  cases resident : ht.resident ssn with
  | some other =>
      left
      obtain ⟨same, stored⟩ := Ht.resident_some resident mirrors.sound
      rw [get, ← apart other same]
      exact stored
  | none =>
      right
      rw [mirrored.keyList]
      by_contra full
      have run := handleHtInsert_absent mirrored table in_range resident pair
      rw [if_neg full] at run
      obtain ⟨keys', ⟨ht', table', mirrors'⟩, small, -⟩ := after
      rw [run] at table' mirrors'
      cases table'
      have grown := (mirrors.insert_absent resident pair).length
      rw [mirrors'.length, List.length_append, List.length_singleton] at grown
      omega

/-- A request in range does to the stored entries what it does to a map. -/
theorem Tidy.performs (tidy : Tidy selfData) {pdu : Pdu} {call : TableCall}
    (asks : pdu.call = some call) (key : pdu.requestKey = some ssn)
    (in_range : checkRange selfData ssn = true) (nonzero : Nonzero ssn) {outcome : Outcome}
    (dispatched : dispatch env selfData pdu = some outcome) (after : Tidy outcome.selfData) :
    outcome.selfData.get = call.onMap selfData.get ∧
      outcome.effects = call.answer selfData.get := by
  obtain ⟨keys, mirrored, -⟩ := tidy
  cases pdu with
  | valInsert ssn pair =>
      cases asks
      cases key
      cases dispatched
      obtain ⟨data, keys', run, -, get⟩ := insert_onMap mirrored pair in_range
        (mirrored.distinguishes_insert in_range nonzero after)
      rw [run]
      exact ⟨get, rfl⟩
  | valRemove ssn =>
      cases asks
      cases key
      cases dispatched
      have distinguishes : Distinguishes selfData (.remove ssn) := by
        intro key first
        have agrees := List.find?_some first
        rw [decide_eq_true_eq] at agrees
        exact (ckey_inj_of_nonzero nonzero).mp agrees
      obtain ⟨data, keys', run, -, get⟩ := remove_onMap mirrored in_range distinguishes
      rw [run]
      exact ⟨get, rfl⟩
  | valLookup ssn sender =>
      cases asks
      cases key
      cases dispatched
      rw [lookup_onMap mirrored sender in_range
        fun other _ same => (sameKey_of_nonzero nonzero).mp same]
      exact ⟨rfl, rfl⟩
  | _ => cases asks

end

section

variable {map : Ssn → Option ValuePair} {n : Addr} {loc : Loc} {msg : Msg} {rest : List Msg}
  {ssn : Ssn} {outcome : Outcome}

theorem Orderly.served_stored (orderly : Orderly net plan stage)
    (orderly' : Orderly net' plan' stage') (q6 : (net.node n).pc = .q6)
    (key : msg.pdu.requestKey = some ssn) (in_range : checkRange (net.node n).selfData ssn = true)
    (nonzero : Nonzero ssn)
    (dispatched : dispatch net.env (net.node n).selfData msg.pdu = some outcome)
    (node : net'.node = Function.update net.node n ⟨.q6, outcome.selfData⟩) {call : TableCall}
    (asks : msg.pdu.call = some call) :
    net'.stored n = call.onMap (net.stored n) ∧ (∀ m, m ≠ n → net'.stored m = net.stored m) ∧
      outcome.effects = call.answer (net.stored n) := by
  have here : net.stored n = (net.node n).selfData.get := by
    funext key
    rw [Net.stored, q6]
    rfl
  have here' : net'.stored n = outcome.selfData.get := by
    funext key
    rw [Net.stored, node, Function.update_self]
    rfl
  have after := orderly'.tidy n (by rw [node, Function.update_self]; rfl)
  rw [node, Function.update_self] at after
  obtain ⟨get, effects⟩ := (orderly.tidy n (by rw [q6]; rfl)).performs asks key in_range nonzero
    dispatched after
  rw [here, here']
  refine ⟨get, fun m other => ?_, effects⟩
  funext key
  rw [Net.stored, node, Function.update_of_ne other]
  rfl

structure Net.Takes (net net' : Net) (n : Addr) (loc : Loc) (msg : Msg) (rest : List Msg) :
    Prop where
  head : net.requests loc = msg :: rest
  requests : net'.requests = Function.update net.requests loc rest
  there : ∀ m, m ≠ n → net'.stored m = net.stored m

theorem Net.Takes.mem (takes : net.Takes net' n loc msg rest) : msg ∈ net.requests loc := by
  rw [takes.head]
  exact List.mem_cons_self

theorem Net.Takes.sub (takes : net.Takes net' n loc msg rest) {other : Loc} {found : Msg}
    (mem : found ∈ net'.requests other) : found ∈ net.requests other := by
  rw [takes.requests] at mem
  by_cases same : other = loc
  · subst same
    rw [Function.update_self] at mem
    rw [takes.head]
    exact List.mem_cons_of_mem _ mem
  · rwa [Function.update_of_ne same] at mem

theorem Net.Takes.node (takes : net.Takes net' n loc msg rest) {m : Addr} (other : m ≠ n)
    (key : Ssn) : net'.entries key (.node m) = net.entries key (.node m) := by
  rw [Net.entries, Net.entries, takes.there m other]

theorem Net.Takes.link (takes : net.Takes net' n loc msg rest) (key : Ssn) (other : Loc) :
    net'.entries key (.link other) =
      if other = loc then rest.filterMap (Msg.transferred key) else net.entries key (.link other) := by
  rw [Net.entries, takes.requests]
  by_cases same : other = loc
  · rw [same, Function.update_self, if_pos rfl]
  · rw [Function.update_of_ne same, if_neg same]
    rfl

theorem Net.Takes.still (takes : net.Takes net' n loc msg rest) {key : Ssn}
    (carried : msg.transferred key = none) (same : net'.stored n key = net.stored n key)
    (site : Site) : net'.entries key site = net.entries key site := by
  cases site with
  | node m =>
      by_cases here : m = n
      · rw [here, Net.entries, Net.entries, same]
      · exact takes.node here key
  | link other =>
      rw [takes.link]
      split
      · rename_i here
        rw [here, Net.entries, takes.head, List.filterMap_cons_none carried]
      · rfl

theorem Ledger.arrive (ledger : Ledger net map) {entry : Ssn × ValuePair}
    (takes : net.Takes net' n loc (transfer entry) rest)
    (here : net'.stored n = Function.update (net.stored n) entry.1 (some entry.2)) (key : Ssn) :
    Placed (net'.entries key) (map key) := by
  by_cases this : key = entry.1
  · subst this
    have carried : (transfer entry).transferred entry.1 = some entry.2 := if_pos rfl
    have first : net.entries entry.1 (.link loc) =
        entry.2 :: rest.filterMap (Msg.transferred entry.1) := by
      rw [Net.entries, takes.head, List.filterMap_cons_some carried]
    have in_flight : entry.2 ∈ net.entries entry.1 (.link loc) := by
      rw [first]
      exact List.mem_cons_self
    obtain ⟨-, alone, -⟩ := (ledger.entries entry.1).of_mem in_flight
    refine (ledger.entries entry.1).move (List.ne_nil_of_mem in_flight) (q := .node n) ?_ ?_ ?_
    · rw [takes.link, if_pos rfl]
      exact (List.cons.inj (first.symm.trans alone)).2
    · rw [Net.entries, here, Function.update_self, alone]
      rfl
    · rintro (m | place) not_here not_there
      · exact takes.node (fun eq => not_there (by rw [eq])) _
      · rw [takes.link, if_neg fun eq => not_here (by rw [eq])]
  · refine (ledger.entries key).congr (takes.still (if_neg (Ne.symm this)) ?_)
    rw [here, Function.update_of_ne this]

/-- A client's update in its turn writes the entry, which is nowhere else. -/
theorem Ledger.write (ledger : Ledger net map) (takes : net.Takes net' n loc msg rest)
    (client : msg.req ≠ none) {value : Option ValuePair}
    (here : net'.stored n = Function.update (net.stored n) ssn value)
    (in_turn : ∀ site, site ≠ .node n → net.entries ssn site = []) (key : Ssn) :
    Placed (net'.entries key) (Function.update map ssn value key) := by
  have carried : msg.transferred key = none := transferred_of_client client
  by_cases this : key = ssn
  · subst this
    rw [Function.update_self]
    refine ⟨.node n, ?_, ?_⟩
    · rw [Net.entries, here, Function.update_self]
    · rintro (m | place) elsewhere
      · rw [takes.node fun eq => elsewhere (by rw [eq])]
        exact in_turn _ elsewhere
      · have before := in_turn _ elsewhere
        rw [takes.link]
        split
        · rename_i same
          rwa [same, Net.entries, takes.head, List.filterMap_cons_none carried] at before
        · exact before
  · rw [Function.update_of_ne this]
    refine (ledger.entries key).congr (takes.still carried ?_)
    rw [here, Function.update_of_ne this]

theorem Ledger.serve (ledger : Ledger net map) (takes : net.Takes net' n loc msg rest)
    (key : msg.pdu.requestKey = some ssn) {call : TableCall} (asks : msg.pdu.call = some call)
    (here : net'.stored n = call.onMap (net.stored n))
    (in_turn : msg.req ≠ none → msg.pdu.updated = some ssn →
      ∀ site, site ≠ .node n → net.entries ssn site = []) : Ledger net' (msg.onMap map) := by
  have nonzero := ledger.keyed loc msg takes.mem ssn key
  refine ⟨fun other => ?_, fun other found mem => ledger.transfers other found (takes.sub mem),
    fun other found mem => ledger.keyed other found (takes.sub mem), fun other stored => ?_⟩
  · cases client : msg.req with
    | none =>
        obtain ⟨entry, rfl⟩ := ledger.transfers loc msg takes.mem client
        cases asks
        exact ledger.arrive takes here other
    | some k =>
        have is_client : msg.req ≠ none := by simp [client]
        simp only [Msg.onMap, client, asks]
        rcases Pdu.call_cases asks with ⟨ssn', value, updates, key', effect⟩ | ⟨-, effect⟩
        · obtain rfl : ssn = ssn' := Option.some.inj (key.symm.trans key')
          rw [effect] at here ⊢
          exact ledger.write takes is_client here (in_turn is_client updates) other
        · rw [effect] at here ⊢
          refine (ledger.entries other).congr (takes.still (transferred_of_client is_client) ?_)
          rw [here]
  · cases client : msg.req with
    | none =>
        rw [Msg.onMap, client] at stored
        exact ledger.nonzero other stored
    | some k =>
        simp only [Msg.onMap, client, asks] at stored
        rcases Pdu.call_cases asks with ⟨ssn', value, -, key', effect⟩ | ⟨-, effect⟩
        · obtain rfl : ssn = ssn' := Option.some.inj (key.symm.trans key')
          by_cases this : other = ssn
          · rw [this]
            exact nonzero
          · rw [effect, Function.update_of_ne this] at stored
            exact ledger.nonzero other stored
        · rw [effect] at stored
          exact ledger.nonzero other stored

end

/-! ## Steps of the ring -/

def onMaps (map : Ssn → Option ValuePair) (applied : List (Addr × Msg)) : Ssn → Option ValuePair :=
  applied.foldl (fun map entry => entry.2.onMap map) map

section

variable {map : Ssn → Option ValuePair}

theorem Ledger.still (ledger : Ledger net map) (requests : net'.requests = net.requests)
    (stored : net'.stored = net.stored) : Ledger net' map where
  entries key := by
    refine (ledger.entries key).congr ?_
    rintro (m | place)
    · rw [Net.entries, Net.entries, stored]
    · rw [Net.entries, Net.entries, requests]
  transfers loc := by
    rw [requests]
    exact ledger.transfers loc
  keyed loc := by
    rw [requests]
    exact ledger.keyed loc
  nonzero := ledger.nonzero

theorem Ledger.pass (ledger : Ledger net map) {loc : Loc} {msg : Msg} {rest : List Msg} {c : Conn}
    (head : net.requests loc = msg :: rest) (apart : Loc.up c ≠ loc)
    (requests : net'.requests = Function.update (Function.update net.requests loc rest) (.up c)
      (net.requests (.up c) ++ [msg]))
    (stored : net'.stored = net.stored) : Ledger net' map := by
  have origin : ∀ other, ∀ found ∈ net'.requests other, ∃ place, found ∈ net.requests place := by
    intro other found mem
    rw [requests] at mem
    by_cases at_c : other = .up c
    · subst at_c
      rw [Function.update_self, List.mem_append, List.mem_singleton] at mem
      rcases mem with old | rfl
      · exact ⟨_, old⟩
      · exact ⟨loc, by rw [head]; exact List.mem_cons_self⟩
    · rw [Function.update_of_ne at_c] at mem
      by_cases here : other = loc
      · subst here
        rw [Function.update_self] at mem
        exact ⟨other, by rw [head]; exact List.mem_cons_of_mem _ mem⟩
      · rw [Function.update_of_ne here] at mem
        exact ⟨other, mem⟩
  refine ⟨fun key => ?_, fun other found mem => ?_, fun other found mem => ?_, ledger.nonzero⟩
  · refine (ledger.entries key).carry (p := .link loc) (q := .link (.up c))
      (msg.transferred key) (rest.filterMap (Msg.transferred key))
      (fun eq => apart (Site.link.inj eq).symm) ?_ ?_ ?_ ?_
    · rw [Net.entries, head, filterMap_head]
    · rw [Net.entries, requests, Function.update_of_ne (Ne.symm apart), Function.update_self]
    · rw [Net.entries, requests, Function.update_self, List.filterMap_append, filterMap_head,
        List.filterMap_nil, List.append_nil]
      rfl
    · rintro (m | place) not_loc not_c
      · rw [Net.entries, Net.entries, stored]
      · rw [Net.entries, requests, Function.update_of_ne fun eq => not_c (by rw [eq]),
          Function.update_of_ne fun eq => not_loc (by rw [eq])]
        rfl
  · obtain ⟨place, before⟩ := origin other found mem
    exact ledger.transfers place found before
  · obtain ⟨place, before⟩ := origin other found mem
    exact ledger.keyed place found before

theorem Ledger.spread (ledger : Ledger net map) {n : Addr} {fd : Loc}
    {entries : List (Ssn × ValuePair)}
    (requests : net'.requests = Function.update net.requests fd
      (net.requests fd ++ entries.map transfer))
    (nodup : (entries.map Prod.fst).Nodup)
    (stored : ∀ entry ∈ entries, net.stored n entry.1 = some entry.2)
    (left : ∀ key, net'.stored n key = if key ∈ entries.map Prod.fst then none else net.stored n key)
    (there : ∀ m, m ≠ n → net'.stored m = net.stored m) : Ledger net' map := by
  have origin : ∀ other, ∀ found ∈ net'.requests other, found ∈ net.requests other ∨
      ∃ entry ∈ entries, found = transfer entry := by
    intro other found mem
    rw [requests] at mem
    by_cases here : other = fd
    · subst here
      rw [Function.update_self, List.mem_append] at mem
      rcases mem with old | new
      · exact Or.inl old
      · obtain ⟨entry, listed, eq⟩ := List.mem_map.mp new
        exact Or.inr ⟨entry, listed, eq.symm⟩
    · rw [Function.update_of_ne here] at mem
      exact Or.inl mem
  have nodes : ∀ key m, m ≠ n → net'.entries key (.node m) = net.entries key (.node m) := by
    intro key m other
    rw [Net.entries, Net.entries, there m other]
  have at_fd : ∀ key, net'.entries key (.link fd) =
      net.entries key (.link fd) ++ (entries.map transfer).filterMap (Msg.transferred key) := by
    intro key
    rw [Net.entries, requests, Function.update_self, List.filterMap_append]
    rfl
  have elsewhere : ∀ key place, place ≠ fd →
      net'.entries key (.link place) = net.entries key (.link place) := by
    intro key place other
    rw [Net.entries, requests, Function.update_of_ne other]
    rfl
  refine ⟨fun key => ?_, fun other found mem client => ?_, fun other found mem ssn key => ?_,
    ledger.nonzero⟩
  · by_cases sent : key ∈ entries.map Prod.fst
    · obtain ⟨entry, mem, rfl⟩ := List.mem_map.mp sent
      have here : net.entries entry.1 (.node n) = [entry.2] := by
        rw [Net.entries, stored entry mem]
        rfl
      have in_store : net.entries entry.1 (.node n) ≠ [] := by
        rw [here]
        exact List.cons_ne_nil _ _
      obtain ⟨-, others⟩ := (ledger.entries entry.1).of_ne_nil in_store
      refine (ledger.entries entry.1).move in_store (q := .link fd) ?_ ?_ ?_
      · rw [Net.entries, left, if_pos sent]
        rfl
      · rw [at_fd, others _ (by simp), filterMap_transfer_of_mem nodup mem, here]
        rfl
      · rintro (m | place) not_here not_fd
        · exact nodes _ m fun eq => not_here (by rw [eq])
        · exact elsewhere _ place fun eq => not_fd (by rw [eq])
    · refine (ledger.entries key).congr ?_
      rintro (m | place)
      · by_cases here : m = n
        · rw [here, Net.entries, Net.entries, left, if_neg sent]
        · exact nodes key m here
      · by_cases at_place : place = fd
        · rw [at_place, at_fd, filterMap_transfer_of_not_mem sent, List.append_nil]
        · exact elsewhere key place at_place
  · rcases origin other found mem with old | ⟨entry, -, eq⟩
    · exact ledger.transfers other found old client
    · exact ⟨entry, eq⟩
  · rcases origin other found mem with old | ⟨entry, listed, rfl⟩
    · exact ledger.keyed other found old ssn key
    · cases key
      apply ledger.nonzero_of_stored (n := n)
      rw [stored entry listed]
      exact Option.some_ne_none _

/-- Whatever a step of the ring does, its entries are those of the requests applied so
far, as long as clients' updates are applied in their turn. -/
theorem Ledger.flow (ledger : Ledger net map) (orderly : Orderly net plan stage)
    (orderly' : Orderly net' plan' stage') (flow : net.Flow net')
    (in_turn : ∀ n msg ssn, net'.applied = net.applied ++ [(n, msg)] → msg.req ≠ none →
      msg.pdu.updated = some ssn → ∀ site, site ≠ .node n → net.entries ssn site = []) :
    ∃ later, net'.applied = net.applied ++ later ∧ Ledger net' (onMaps map later) := by
  cases flow with
  | still requests applied replies stored =>
      exact ⟨[], by rw [applied, List.append_nil], ledger.still requests stored⟩
  | serve n loc msg rest ssn outcome q6 head reader key in_range dispatched requests applied replies
      node =>
      obtain ⟨call, asks⟩ := Pdu.call_isSome key
      have nonzero := ledger.keyed loc msg (by rw [head]; exact List.mem_cons_self) ssn key
      obtain ⟨here, there, -⟩ :=
        orderly.served_stored orderly' q6 key in_range nonzero dispatched node asks
      exact ⟨[(n, msg)], applied, ledger.serve ⟨head, requests, there⟩ key asks here
        (in_turn n msg ssn applied)⟩
  | pass n loc msg rest c head reader fds apart requests applied replies stored =>
      exact ⟨[], by rw [applied, List.append_nil], ledger.pass head apart requests stored⟩
  | spread n fd entries requests applied replies nodup stored left there =>
      exact ⟨[], by rw [applied, List.append_nil],
        ledger.spread requests nodup stored left there⟩

end

/-! ## Where a client's request is -/

def Msg.client (k : ℕ) (msg : Msg) : Option Msg := if msg.req = some k then some msg else none

/-- Where the client request `k` is: at a place, or among the applied ones. -/
def Net.whereabouts (net : Net) (k : ℕ) : Option Loc → List Msg
  | some loc => (net.requests loc).filterMap (Msg.client k)
  | none => (net.applied.map Prod.snd).filterMap (Msg.client k)

/-- Every client request so far waits at one place, or was applied once. -/
def Net.Accounted (net : Net) : Prop :=
  ∀ k, ∃ found, Placed (net.whereabouts k) found ∧ (found ≠ none ↔ k < net.issued)

theorem step_issued {act : Act} (internal : act.internal = true)
    (stepped : net.step act = some net') : net'.issued = net.issued := by
  cases act with
  | deliver n i =>
      obtain ⟨back, loc, msg, rest, outcome, -, -, -, -, rfl⟩ := deliver_eq_some stepped
      rw [Net.commit, setNode_issued, performAll_issued, setQueue_issued, Net.note]
      split
      · split <;> rfl
      · rfl
  | discard n i k =>
      obtain ⟨back, loc, msg, rest, -, -, -, -, rfl⟩ := discard_eq_some stepped
      rfl
  | eof n i =>
      obtain ⟨back, conn, loc, fd, data, -, -, -, -, -, rfl⟩ := eof_eq_some stepped
      rfl
  | accept n =>
      obtain ⟨back, conn, rest, -, -, rfl⟩ := accept_eq_some stepped
      rfl
  | response n =>
      obtain ⟨-, loc, -, ⟨next, rangeStart, rangeEnd, req, rest, -, rfl⟩ | ⟨-, rfl⟩⟩ :=
        response_eq_some stepped
      · rw [Net.commit, setNode_issued, performAll_issued, setQueue_issued]
      · rfl
  | reply n =>
      obtain ⟨-, loc, granted, -, -, rfl⟩ := reply_eq_some stepped
      rw [Net.commit, setNode_issued, performAll_issued, setQueue_issued]
  | finish n =>
      obtain ⟨i, new, -, rfl⟩ := finish_eq_some stepped
      rw [setNode_issued, performAll_issued]
  | _ => cases internal

/-- No step of the ring loses a client's request or applies one twice. -/
theorem Net.Accounted.flow (accounted : net.Accounted) (flow : net.Flow net')
    (issued : net'.issued = net.issued) : net'.Accounted := by
  intro k
  obtain ⟨found, placed, known⟩ := accounted k
  rw [← issued] at known
  refine ⟨found, ?_, known⟩
  cases flow with
  | still requests applied =>
      refine placed.congr ?_
      rintro (_ | loc)
      · rw [Net.whereabouts, Net.whereabouts, applied]
      · rw [Net.whereabouts, Net.whereabouts, requests]
  | serve n loc msg rest ssn outcome q6 head reader key in_range dispatched requests applied =>
      refine placed.carry (p := some loc) (q := none) (msg.client k)
        (rest.filterMap (Msg.client k)) (by simp) ?_ ?_ ?_ ?_
      · rw [Net.whereabouts, head, filterMap_head]
      · rw [Net.whereabouts, requests, Function.update_self]
      · rw [Net.whereabouts, applied, List.map_append, List.filterMap_append, List.map_singleton,
          filterMap_head, List.filterMap_nil, List.append_nil]
        rfl
      · rintro (_ | other) not_loc not_done
        · exact absurd rfl not_done
        · rw [Net.whereabouts, requests, Function.update_of_ne fun eq => not_loc (by rw [eq])]
          rfl
  | pass n loc msg rest c head reader fds apart requests applied =>
      refine placed.carry (p := some loc) (q := some (.up c)) (msg.client k)
        (rest.filterMap (Msg.client k)) (by simpa using Ne.symm apart) ?_ ?_ ?_ ?_
      · rw [Net.whereabouts, head, filterMap_head]
      · rw [Net.whereabouts, requests, Function.update_of_ne (Ne.symm apart), Function.update_self]
      · rw [Net.whereabouts, requests, Function.update_self, List.filterMap_append, filterMap_head,
          List.filterMap_nil, List.append_nil]
        rfl
      · rintro (_ | other) not_loc not_c
        · rw [Net.whereabouts, Net.whereabouts, applied]
        · rw [Net.whereabouts, requests, Function.update_of_ne fun eq => not_c (by rw [eq]),
            Function.update_of_ne fun eq => not_loc (by rw [eq])]
          rfl
  | spread n fd entries requests applied =>
      refine placed.congr ?_
      rintro (_ | other)
      · rw [Net.whereabouts, Net.whereabouts, applied]
      · rw [Net.whereabouts, Net.whereabouts, requests]
        by_cases here : other = fd
        · have none_here : (entries.map transfer).filterMap (Msg.client k) = [] := by
            rw [List.filterMap_eq_nil_iff]
            intro msg listed
            obtain ⟨entry, -, rfl⟩ := List.mem_map.mp listed
            rfl
          rw [here, Function.update_self, List.filterMap_append, none_here, List.append_nil]
        · rw [Function.update_of_ne here]

end DhtRing

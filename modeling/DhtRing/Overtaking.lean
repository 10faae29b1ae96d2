import DhtRing.Lookup

/-!
# Updates during a leave

The heir of a leaving node owns the range from `update_range` on and takes requests
for it, while the old entries are still with the leaving node or on their way.  They
arrive as ordinary `VAL_INSERT`s, which overwrite.  An update that a client sends is
safe from them once no older entry of its key is left to come.
-/

set_option autoImplicit false

namespace DhtRing

open Transition

def Pdu.updated : Pdu → Option Ssn
  | .valInsert ssn _ => some ssn
  | .valRemove ssn => some ssn
  | _ => none

/-- The next PDU that `n` reads from descriptor `i` is a client's insert or remove of
`key`, and `n` has the key in its range. -/
def Net.Updates (net : Net) (n : Addr) (i : FdsIndex) (msg : Msg) (key : Ssn) : Prop :=
  (∃ loc rest, (net.node n).reads n i = some loc ∧ net.queue loc = msg :: rest) ∧
    msg.req ≠ none ∧ msg.pdu.updated = some key ∧ checkRange (net.node n).selfData key = true

/-- No older entry of the key is to come from `l`: it stores none, and no transferred
one is on its way. -/
def Net.NoOlder (net : Net) (l : Addr) (key : Ssn) : Prop :=
  (net.node l).selfData.value key = none ∧
    ∀ msg, net.carries msg → msg.req = none → msg.pdu.updated ≠ some key

def OneLeaves (l : Addr) : Act → Prop
  | .join _ _ => False
  | .leave n => n = l
  | _ => True

/-- Only `l` leaves, and the others apply a client's update of a key without zero
bytes when no older entry of the key is to come. -/
def InTurn (l : Addr) (net : Net) (act : Act) : Prop :=
  OneLeaves l act ∧ ∀ n i, act = .deliver n i → n ≠ l →
    ∀ msg key, Nonzero key → net.Updates n i msg key → net.NoOlder l key

def Pdu.Produces (before : SelfData) (stored : Option ValuePair) : Pdu → Prop
  | .valInsert _ pair => stored = some pair
  | .valRemove _ => InStep before → stored = none
  | _ => False

/-! ## Tables -/

/-- A remove of another key leaves what is stored under a key without zero bytes, in
whatever state the table is. -/
theorem chainLookup_chainRemove_other {key other : Ssn} (differ : ckey other ≠ ckey key)
    {chain chain' : List HtNode} (removed : chainRemove other chain = some chain') :
    chainLookup key chain' = chainLookup key chain := by
  induction chain generalizing chain' with
  | nil => cases removed
  | cons entry next ih =>
      simp only [chainRemove, strncmp_ssn] at removed
      split at removed
      · rename_i same
        cases removed
        have skipped : ckey entry.key ≠ ckey key := fun eq => differ (same.symm.trans eq)
        simp only [chainLookup, strncmp_ssn, if_neg skipped]
      · obtain ⟨rest, found, rfl⟩ := Option.map_eq_some_iff.mp removed
        simp only [chainLookup, ih found]

theorem htLookup_htRemove_other (ht : Ht) {key other : Ssn} (differ : ckey other ≠ ckey key) :
    htLookup (htRemove ht other) key = htLookup ht key := by
  rcases htRemove_cases ht other with ⟨-, unchanged⟩ | ⟨chain, removed, -, entries, -⟩
  · rw [unchanged]
  · rw [htLookup_eq, htLookup_eq, entries]
    by_cases bucket : hashSsn key = hashSsn other
    · rw [bucket, Function.update_self, chainLookup_chainRemove_other differ removed]
    · rw [Function.update_of_ne bucket]

section

variable {env : Env} {selfData : SelfData} {key : Ssn}

/-- Only an update of the key in range changes what is stored under it. -/
theorem dispatch_value (nonzero : Nonzero key) {pdu : Pdu} {outcome : Outcome}
    (dispatched : dispatch env selfData pdu = some outcome)
    (no_join : ∀ src maxSpan max, pdu ≠ .netJoin src maxSpan max)
    (other : pdu.updated = some key →
      checkRange selfData key = false ∨ selfData.hashTable = none) :
    outcome.selfData.value key = selfData.value key := by
  have differs : ∀ ssn, ssn ≠ key → ckey ssn ≠ ckey key :=
    fun ssn ne eq => ne ((ckey_inj_of_nonzero nonzero).mp eq)
  cases pdu with
  | netJoin src maxSpan max => exact absurd rfl (no_join src maxSpan max)
  | valInsert ssn pair =>
      cases dispatched
      rw [handleHtInsert]
      split
      · rename_i in_range
        split
        · rfl
        · rename_i ht table
          have ne : ssn ≠ key := by
            rintro rfl
            rcases other rfl with out | empty
            · rw [in_range] at out
              cases out
            · rw [table] at empty
              cases empty
          have kept : htLookup (htInsert ht ssn pair) key = htLookup ht key := by
            rw [htLookup_htInsert, if_neg fun same => differs ssn ne same.2.symm]
          dsimp only
          split
          · simp only [SelfData.value, table, Option.bind_some, kept]
          · split <;> simp only [SelfData.value, table, Option.bind_some, kept]
      · rfl
  | valRemove ssn =>
      cases dispatched
      rw [handleHtRemove]
      split
      · rename_i in_range
        split
        · rfl
        · rename_i ht table
          have ne : ssn ≠ key := by
            rintro rfl
            rcases other rfl with out | empty
            · rw [in_range] at out
              cases out
            · rw [table] at empty
              cases empty
          split
          · rfl
          · rfl
          · simp only [SelfData.value, table, Option.bind_some,
              htLookup_htRemove_other ht (differs ssn ne)]
      · rw [SelfData.value, sendOrExit_selfData]
        rfl
  | valLookup ssn sender =>
      cases dispatched
      rw [handleHtLookup_selfData]
  | netNewRange rangeStart rangeEnd =>
      cases dispatched
      rw [SelfData.value, SelfData.value, handleNetNewRange, (updateRange_store ..).1]
  | netLeaving new =>
      cases dispatched
      rw [handleNetLeavingPdu_eq]
      split
      · rfl
      · split <;> rfl
  | netCloseConnection =>
      cases dispatched
      rw [handleNetCloseConnection]
      split <;> rfl
  | _ => cases dispatched

/-- Only `NET_JOIN` and `NET_NEW_RANGE` change the range. -/
theorem dispatch_checkRange {pdu : Pdu} {outcome : Outcome}
    (dispatched : dispatch env selfData pdu = some outcome)
    (no_join : ∀ src maxSpan max, pdu ≠ .netJoin src maxSpan max)
    (no_range : ∀ rangeStart rangeEnd, pdu ≠ .netNewRange rangeStart rangeEnd) (ssn : Ssn) :
    checkRange outcome.selfData ssn = checkRange selfData ssn := by
  have same : outcome.selfData.rangeStart = selfData.rangeStart ∧
      outcome.selfData.rangeEnd = selfData.rangeEnd := by
    cases request : pdu.requestKey with
    | some other =>
        have wiring := (dispatch_request request dispatched).1
        exact ⟨congrArg Wiring.rangeStart wiring, congrArg Wiring.rangeEnd wiring⟩
    | none =>
        cases pdu with
        | netJoin src maxSpan max => exact absurd rfl (no_join src maxSpan max)
        | netNewRange rangeStart rangeEnd => exact absurd rfl (no_range rangeStart rangeEnd)
        | netLeaving new =>
            cases dispatched
            rw [handleNetLeavingPdu_eq]
            split
            · exact ⟨rfl, rfl⟩
            · split <;> exact ⟨rfl, rfl⟩
        | netCloseConnection =>
            cases dispatched
            rw [handleNetCloseConnection]
            split <;> exact ⟨rfl, rfl⟩
        | valInsert ssn pair => cases request
        | valRemove ssn => cases request
        | valLookup ssn sender => cases request
        | _ => cases dispatched
  rw [checkRange, checkRange, same.1, same.2]

theorem dispatch_hashTable {pdu : Pdu} {outcome : Outcome}
    (dispatched : dispatch env selfData pdu = some outcome)
    (no_join : ∀ src maxSpan max, pdu ≠ .netJoin src maxSpan max)
    (freed : selfData.hashTable = none) : outcome.selfData.hashTable = none := by
  cases pdu with
  | netJoin src maxSpan max => exact absurd rfl (no_join src maxSpan max)
  | valInsert ssn pair =>
      cases dispatched
      rw [handleHtInsert, freed]
      split <;> exact freed
  | valRemove ssn =>
      cases dispatched
      rw [handleHtRemove, freed]
      split
      · exact freed
      · rw [sendOrExit_selfData]
        exact freed
  | valLookup ssn sender =>
      cases dispatched
      rw [handleHtLookup_selfData]
      exact freed
  | netNewRange rangeStart rangeEnd =>
      cases dispatched
      rw [handleNetNewRange, (updateRange_store ..).1]
      exact freed
  | netLeaving new =>
      cases dispatched
      rw [handleNetLeavingPdu_eq]
      split
      · exact freed
      · split <;> exact freed
  | netCloseConnection =>
      cases dispatched
      rw [handleNetCloseConnection]
      split <;> exact freed
  | _ => cases dispatched

theorem dispatch_produces {pdu : Pdu} {outcome : Outcome}
    (dispatched : dispatch env selfData pdu = some outcome) (updates : pdu.updated = some key)
    (in_range : checkRange selfData key = true) (runs : outcome.ctl ≠ .fault) :
    pdu.Produces selfData (outcome.selfData.value key) := by
  cases pdu with
  | valInsert ssn pair =>
      cases updates
      cases dispatched
      rw [handleHtInsert, if_pos in_range] at runs ⊢
      have stored : ∀ ht, htLookup (htInsert ht key pair) key = some pair := fun ht => by
        rw [htLookup_htInsert, if_pos ⟨rfl, rfl⟩]
      cases table : selfData.hashTable with
      | none =>
          rw [table] at runs
          exact absurd rfl runs
      | some ht =>
          dsimp only [Pdu.Produces]
          split
          · simp only [SelfData.value, Option.bind_some, stored]
          · split <;> simp only [SelfData.value, Option.bind_some, stored]
  | valRemove ssn =>
      cases updates
      cases dispatched
      rintro ⟨keys, ht, table, mirrors⟩
      have scan := Mirrored.findSsn ⟨ht, table, mirrors⟩ table key
      rw [handleHtRemove, if_pos in_range, table]
      cases search : keys.findIdx? fun other => decide (ckey other = ckey key) with
      | none =>
          have absent : htLookup ht key = none := by
            rw [htLookup_eq_get mirrors.sound]
            cases resident : ht.resident key with
            | none => rfl
            | some other =>
                obtain ⟨same, stored⟩ := Ht.resident_some resident mirrors.sound
                have mem := (mirrors.present other).mp stored
                simpa [same.2] using List.findIdx?_eq_none_iff.mp search other mem
          simp only [scan, search, SelfData.value, table, Option.bind_some, absent]
      | some i =>
          simp only [scan, search, SelfData.value, Option.bind_some]
          rw [htLookup_htRemove mirrors.sound, if_pos ⟨rfl, rfl⟩]
  | _ => cases updates

end

theorem sendEntries_stored {selfData : SelfData} {index : FdsIndex} {ht : Ht} (rest : ℕ) :
    ∀ {i : ℕ} {effects : List Effect}, sendEntries selfData index ht rest i = some effects →
      ∀ {fd : Loc} {sent : Pdu}, .tcp fd sent ∈ effects →
        ∃ key pair, sent = .valInsert key pair ∧ htLookup ht key = some pair := by
  induction rest with
  | zero =>
      intro i effects run fd sent mem
      cases run
      exact absurd mem List.not_mem_nil
  | succ rest ih =>
      intro i effects run fd sent mem
      simp only [sendEntries] at run
      split at run
      · cases run
      · rename_i key slot
        obtain ⟨later, ran, rfl⟩ := Option.map_eq_some_iff.mp run
        rcases List.mem_append.mp mem with first | last
        · split at first
          · exact absurd first List.not_mem_nil
          · rename_i pair found
            rw [sendInsertPduTcp] at first
            split at first
            · cases List.mem_singleton.mp first
              exact ⟨key, pair, rfl, found⟩
            · exact absurd first List.not_mem_nil
        · exact ih ran last

theorem handOver_stored {selfData : SelfData} {granted : Bool} {fd : Loc} {sent : Pdu}
    (mem : .tcp fd sent ∈ (handOver selfData granted).effects) :
    ∃ key pair, sent = .valInsert key pair ∧ selfData.value key = some pair := by
  have entry : .tcp fd sent ∈ (sendAllEntries selfData selfData.heir).effects := by
    unfold handOver Outcome.andThen at mem
    split at mem
    · split at mem <;> simpa using mem
    · exact mem
  rw [sendAllEntries] at entry
  split at entry
  · exact absurd entry List.not_mem_nil
  · rename_i ht table
    dsimp only at entry
    split at entry
    · exact absurd entry List.not_mem_nil
    · rename_i effects run
      obtain ⟨key, pair, rfl, found⟩ := sendEntries_stored _ run
        (show .tcp fd sent ∈ effects by split at entry <;> exact entry)
      exact ⟨key, pair, rfl, by rw [SelfData.value, table, Option.bind_some, found]⟩

/-- The hand-over frees the table, or ends the node with the table as it was. -/
theorem handOver_hashTable (selfData : SelfData) (granted : Bool) :
    (handOver selfData granted).selfData.hashTable = none ∨
      (handOver selfData granted).ctl = .fault ∧
        (handOver selfData granted).selfData = selfData := by
  rw [handOver, sendAllEntries]
  split
  · exact Or.inr ⟨rfl, rfl⟩
  · dsimp only
    split
    · exact Or.inr ⟨rfl, rfl⟩
    · split
      · refine Or.inl ?_
        rw [andThen_run]
        split <;> rfl
      · exact Or.inr ⟨rfl, rfl⟩

/-! ## Messages -/

section

variable {net net' : Net} {msg : Msg}

def Net.Emits (net : Net) (msg : Msg) : Act → Prop
  | .client _ pdu => msg = ⟨pdu, some net.issued⟩
  | .leave _ => ∃ rangeStart rangeEnd, msg.pdu = .netNewRange rangeStart rangeEnd
  | .deliver _ _ => msg.pdu = .netNewRangeResponse
  | .reply n => ∃ key pair, msg = ⟨.valInsert key pair, none⟩ ∧
      (net.node n).selfData.value key = some pair
  | .finish _ => msg.pdu = .netCloseConnection ∨ ∃ new, msg.pdu = .netLeaving new
  | _ => False

theorem step_carries {act : Act} (stepped : net.step act = some net')
    (no_join : ∀ src maxSpan max, ¬ net.flying (.netJoin src maxSpan max))
    (not_join : ∀ j entry, act ≠ .join j entry) (carried : net'.carries msg) :
    net.carries msg ∨ net.Emits msg act := by
  rcases step_puts stepped carried with old | puts
  · exact Or.inl old
  · cases act with
    | client n pdu => exact Or.inr puts
    | join j entry => exact absurd rfl (not_join j entry)
    | leave n =>
        obtain ⟨fd, sent⟩ := puts
        refine Or.inr ⟨(net.node n).selfData.rangeStart, (net.node n).selfData.rangeEnd, ?_⟩
        unfold offerRange sendSuccessor sendPredecessor at sent
        dsimp only at sent
        split at sent <;> split at sent <;> simp_all
    | deliver n i =>
        obtain ⟨back, loc, head, rest, outcome, fd, -, -, queue, dispatched, req, sent⟩ := puts
        have here : head ∈ net.queue loc := by rw [queue]; exact List.mem_cons_self
        have not_join : ∀ src maxSpan max, head.pdu ≠ .netJoin src maxSpan max :=
          fun src maxSpan max eq => no_join src maxSpan max ⟨loc, head, here, eq⟩
        rcases dispatch_sends dispatched not_join sent with ⟨request, eq⟩ | response
        · -- a forwarded request keeps its tag
          obtain ⟨ssn, request⟩ := Option.isSome_iff_exists.mp request
          have same : msg = head := by
            cases msg
            cases head
            simp only [Msg.tag] at req eq request ⊢
            rw [request] at req
            rw [eq, req]
          exact Or.inl ⟨loc, same ▸ here⟩
        · exact Or.inr response
    | reply n =>
        obtain ⟨req, granted, fd, sent⟩ := puts
        obtain ⟨key, pair, eq, stored⟩ := handOver_stored sent
        refine Or.inr ⟨key, pair, ?_, stored⟩
        cases msg
        cases req
        cases eq
        rfl
    | finish n =>
        obtain ⟨new, fd, sent⟩ := puts
        refine Or.inr ?_
        unfold sayGoodbye sendSuccessor sendPredecessor at sent
        rw [List.mem_append] at sent
        rcases sent with close | leaving
        · left
          split at close <;> simp_all
        · right
          split at leaving
          · exact ⟨new, by simp_all⟩
          · exact absurd leaving List.not_mem_nil
    | _ => exact puts.elim

/-- What a step does to the node `m` while nobody is let in. -/
inductive Moves (net : Net) (m : Addr) : Act → Proc → Prop where
  | stays (act : Act) : Moves net m act (net.node m)
  | handles {i : FdsIndex} {back : Pc} {loc : Loc} {msg : Msg} {rest : List Msg}
      {outcome : Outcome} :
      (net.node m).pc.polls i = some back → (net.node m).reads m i = some loc →
      net.queue loc = msg :: rest →
      dispatch net.env (net.node m).selfData msg.pdu = some outcome →
      Moves net m (.deliver m i) ⟨back.after outcome.ctl, outcome.selfData⟩
  | handsOver (new : Addr) (granted : Bool) : (net.node m).pc = .awaitResponse →
      Moves net m (.reply m)
        ⟨(Pc.lastPoll .udp new).after (handOver (net.node m).selfData granted).ctl,
          (handOver (net.node m).selfData granted).selfData⟩
  | leaves : (net.node m).pc = .q6 →
      Moves net m (.leave m) ⟨.awaitResponse, (net.node m).selfData⟩
  | ends (act : Act) {pc : Pc} : pc.ended = true → Moves net m act ⟨pc, (net.node m).selfData⟩
  | rewires (act : Act) {back : Pc} {data : SelfData} :
      (∃ i, (net.node m).pc.polls i = some back) ∨ (net.node m).pc.accepted = some back →
      data.hashTable = (net.node m).selfData.hashTable →
      data.rangeStart = (net.node m).selfData.rangeStart →
      data.rangeEnd = (net.node m).selfData.rangeEnd → Moves net m act ⟨back, data⟩

theorem Moves.update {act : Act} {n : Addr} {proc : Proc} (moves : Moves net n act proc)
    (node : net'.node = Function.update net.node n proc) (m : Addr) :
    Moves net m act (net'.node m) := by
  rw [node]
  by_cases here : m = n
  · subst here
    rw [Function.update_self]
    exact moves
  · rw [Function.update_of_ne here]
    exact .stays act

theorem step_moves {act : Act} (stepped : net.step act = some net')
    (no_response : ∀ next rangeStart rangeEnd,
      ¬ net.flying (.netJoinResponse next rangeStart rangeEnd))
    (not_join : ∀ j entry, act ≠ .join j entry) (m : Addr) : Moves net m act (net'.node m) := by
  cases act with
  | client n pdu =>
      obtain ⟨-, -, rfl⟩ := client_eq_some stepped
      exact .stays _
  | join j entry => exact absurd rfl (not_join j entry)
  | leave n =>
      obtain ⟨idle, ⟨-, -, rfl⟩ | ⟨-, rfl⟩⟩ := leave_eq_some stepped
      · exact Moves.update (.ends _ rfl) rfl m
      · exact Moves.update (.leaves idle) (performAll_setNode_node ..) m
  | timeout n =>
      obtain ⟨-, rfl⟩ := timeout_eq_some stepped
      exact Moves.update (.ends _ rfl) rfl m
  | deliver n i =>
      obtain ⟨back, loc, msg, rest, outcome, polls, reads, queue, dispatched, rfl⟩ :=
        deliver_eq_some stepped
      refine Moves.update (.handles polls reads queue dispatched) ?_ m
      rw [commit_node, setQueue_node, note_node]
  | discard n i k =>
      obtain ⟨back, loc, msg, rest, polls, -, -, -, rfl⟩ := discard_eq_some stepped
      exact Moves.update (.rewires _ (Or.inl ⟨i, polls⟩) rfl rfl rfl) rfl m
  | eof n i =>
      obtain ⟨back, conn, loc, own, data, polls, -, -, -, held, rfl⟩ := eof_eq_some stepped
      refine Moves.update (n := n) (.rewires _ (Or.inl ⟨i, polls⟩) ?_ ?_ ?_) rfl m
      all_goals rcases held with ⟨-, -, -, rfl⟩ | ⟨-, -, -, rfl⟩ <;> rfl
  | accept n =>
      obtain ⟨back, conn, rest, accepted, -, rfl⟩ := accept_eq_some stepped
      have moves : Moves net n (.accept n) ⟨back, (net.node n).selfData.acceptPredecessor conn⟩ :=
        .rewires _ (Or.inr accepted) rfl rfl rfl
      exact moves.update rfl m
  | response n =>
      obtain ⟨-, loc, -, ⟨next, rangeStart, rangeEnd, req, rest, queue, rfl⟩ | ⟨-, rfl⟩⟩ :=
        response_eq_some stepped
      · exact absurd ⟨loc, _, by rw [queue]; exact List.mem_cons_self, rfl⟩
          (no_response next rangeStart rangeEnd)
      · exact Moves.update (.ends _ rfl) rfl m
  | reply n =>
      obtain ⟨waits, loc, granted, -, -, rfl⟩ := reply_eq_some stepped
      refine Moves.update (.handsOver (net.node n).selfData.successor.destAddr granted waits) ?_ m
      rw [commit_node, setQueue_node]
  | finish n =>
      obtain ⟨i, new, -, rfl⟩ := finish_eq_some stepped
      exact Moves.update (.ends _ rfl) (performAll_setNode_node ..) m

end

/-! ## While one node leaves -/

def Pc.owns : Pc → Bool
  | .q6 | .q6Accept => true
  | _ => false

def Pc.empties : Pc → Bool
  | .lastPoll _ _ | .lastPollAccept _ _ => true
  | _ => false

/-- At most `l` leaves: nobody is let in, the other nodes stay in `q6`, and as long as
`l` owns its range nobody else does. -/
structure Leaving (l : Addr) (net : Net) : Prop where
  noJoin : ∀ src maxSpan max, ¬ net.flying (.netJoin src maxSpan max)
  noResponse : ∀ next rangeStart rangeEnd,
    ¬ net.flying (.netJoinResponse next rangeStart rangeEnd)
  others : ∀ n, n ≠ l → (net.node n).pc ≠ .awaitResponse ∧ (net.node n).pc.empties = false
  freed : (net.node l).pc.empties = true → (net.node l).selfData.hashTable = none
  kept : (net.node l).pc.owns = true →
    (∀ rangeStart rangeEnd, ¬ net.flying (.netNewRange rangeStart rangeEnd)) ∧
      ∀ n, n ≠ l → (net.node n).pc.owns = true → ∀ ssn,
        checkRange (net.node n).selfData ssn = true → checkRange (net.node l).selfData ssn = false

/-- No older entry of the key is to come from `l`, nor will `l` take a new one. -/
def Net.Settled (net : Net) (l : Addr) (key : Ssn) : Prop :=
  net.NoOlder l key ∧
    ((net.node l).pc.owns = true → checkRange (net.node l).selfData key = false)

section

variable {net net' : Net} {l : Addr} {act : Act}

theorem InTurn.not_join (turn : InTurn l net act) : ∀ j entry, act ≠ .join j entry := by
  rintro j entry rfl
  exact turn.1

theorem accepted_cases {pc back : Pc} (accepted : pc.accepted = some back) :
    (pc = .q7Accept ∧ back = .q7Receive) ∨ (pc = .q6Accept ∧ back = .q6) ∨
      ∃ i new, pc = .lastPollAccept i new ∧ back = .lastPoll i new := by
  cases pc with
  | q7Accept =>
      cases accepted
      exact Or.inl ⟨rfl, rfl⟩
  | q6Accept =>
      cases accepted
      exact Or.inr (Or.inl ⟨rfl, rfl⟩)
  | lastPollAccept i new =>
      cases accepted
      exact Or.inr (Or.inr ⟨i, new, rfl, rfl⟩)
  | _ => cases accepted

/-- A node that owns its range after a step did so before. -/
theorem Moves.owns {m : Addr} {proc : Proc} (moves : Moves net m act proc)
    (owns : proc.pc.owns = true) : (net.node m).pc.owns = true := by
  cases moves with
  | stays => exact owns
  | @handles i back loc msg rest outcome polls reads queue dispatched =>
      rcases polls_cases polls with ⟨pc, rfl⟩ | ⟨j, new, pc, rfl⟩
      · rw [pc]
        rfl
      · cases ctl : outcome.ctl <;> rw [ctl] at owns <;> cases owns
  | handsOver new granted waits =>
      cases ctl : (handOver (net.node m).selfData granted).ctl <;> rw [ctl] at owns <;> cases owns
  | leaves => cases owns
  | @ends _ pc ended => cases pc <;> simp_all [Pc.ended, Pc.owns]
  | rewires _ from_pc =>
      rcases from_pc with ⟨i, polls⟩ | accepted
      · rcases polls_cases polls with ⟨pc, rfl⟩ | ⟨j, new, pc, rfl⟩
        · rw [pc]
          rfl
        · cases owns
      · rcases accepted_cases accepted with ⟨-, rfl⟩ | ⟨pc, rfl⟩ | ⟨i, new, -, rfl⟩
        · cases owns
        · rw [pc]
          rfl
        · cases owns

theorem Moves.range {m : Addr} {proc : Proc} (moves : Moves net m act proc)
    (no_join : ∀ src maxSpan max, ¬ net.flying (.netJoin src maxSpan max))
    (no_range : ∀ rangeStart rangeEnd, ¬ net.flying (.netNewRange rangeStart rangeEnd))
    (owns : proc.pc.owns = true) (ssn : Ssn) :
    checkRange proc.selfData ssn = checkRange (net.node m).selfData ssn := by
  cases moves with
  | stays => rfl
  | @handles i back loc msg rest outcome polls reads queue dispatched =>
      have here : msg ∈ net.queue loc := by
        rw [queue]
        exact List.mem_cons_self
      exact dispatch_checkRange dispatched
        (fun src maxSpan max eq => no_join src maxSpan max ⟨loc, msg, here, eq⟩)
        (fun rangeStart rangeEnd eq => no_range rangeStart rangeEnd ⟨loc, msg, here, eq⟩) ssn
  | handsOver new granted waits =>
      cases ctl : (handOver (net.node m).selfData granted).ctl <;> rw [ctl] at owns <;> cases owns
  | leaves => rfl
  | ends => rfl
  | rewires _ _ _ start stop => rw [checkRange, checkRange, start, stop]

theorem Net.Emits.no_join {msg : Msg} (emits : net.Emits msg act)
    (stepped : net.step act = some net') :
    (∀ src maxSpan max, msg.pdu ≠ .netJoin src maxSpan max) ∧
      ∀ next rangeStart rangeEnd, msg.pdu ≠ .netJoinResponse next rangeStart rangeEnd := by
  cases act with
  | client n pdu =>
      obtain ⟨-, request, -⟩ := client_eq_some stepped
      rw [show msg = ⟨pdu, some net.issued⟩ from emits]
      constructor
      · rintro src maxSpan max rfl
        cases request
      · rintro next rangeStart rangeEnd rfl
        cases request
  | leave n =>
      obtain ⟨rangeStart, rangeEnd, eq⟩ := emits
      simp [eq]
  | deliver n i =>
      rw [show msg.pdu = .netNewRangeResponse from emits]
      simp
  | reply n =>
      obtain ⟨key, pair, rfl, -⟩ := emits
      simp
  | finish n =>
      rcases emits with eq | ⟨new, eq⟩
      · simp [eq]
      · simp [eq]
  | _ => cases emits

theorem Leaving.others_step (leaving : Leaving l net) (turn : InTurn l net act) {n : Addr}
    (other : n ≠ l) {proc : Proc} (moves : Moves net n act proc) :
    proc.pc ≠ .awaitResponse ∧ proc.pc.empties = false := by
  obtain ⟨active, full⟩ := leaving.others n other
  cases moves with
  | stays => exact ⟨active, full⟩
  | @handles i back loc msg rest outcome polls reads queue dispatched =>
      rcases polls_cases polls with ⟨-, rfl⟩ | ⟨j, new, pc, -⟩
      · cases outcome.ctl <;> exact ⟨by simp [Pc.after, Pc.blocked], rfl⟩
      · rw [pc] at full
        cases full
  | handsOver new granted waits => exact absurd waits active
  | leaves => exact absurd (show n = l from turn.1) other
  | @ends _ pc ended => cases pc <;> simp_all [Pc.ended, Pc.empties]
  | rewires _ from_pc =>
      rcases from_pc with ⟨i, polls⟩ | accepted
      · rcases polls_cases polls with ⟨-, rfl⟩ | ⟨j, new, pc, -⟩
        · exact ⟨by simp, rfl⟩
        · rw [pc] at full
          cases full
      · rcases accepted_cases accepted with ⟨-, rfl⟩ | ⟨-, rfl⟩ | ⟨i, new, pc, -⟩
        · exact ⟨by simp, rfl⟩
        · exact ⟨by simp, rfl⟩
        · rw [pc] at full
          cases full

theorem Leaving.freed_step (leaving : Leaving l net) {proc : Proc} (moves : Moves net l act proc)
    (empties : proc.pc.empties = true) : proc.selfData.hashTable = none := by
  cases moves with
  | stays => exact leaving.freed empties
  | @handles i back loc msg rest outcome polls reads queue dispatched =>
      rcases polls_cases polls with ⟨-, rfl⟩ | ⟨j, new, pc, -⟩
      · cases ctl : outcome.ctl <;> rw [ctl] at empties <;> cases empties
      · refine dispatch_hashTable dispatched (fun src maxSpan max eq => ?_)
          (leaving.freed (by rw [pc]; rfl))
        exact leaving.noJoin src maxSpan max
          ⟨loc, msg, by rw [queue]; exact List.mem_cons_self, eq⟩
  | handsOver new granted waits =>
      rcases handOver_hashTable (net.node l).selfData granted with freed | ⟨ctl, -⟩
      · exact freed
      · rw [ctl] at empties
        cases empties
  | leaves => cases empties
  | @ends _ pc ended => cases pc <;> simp_all [Pc.ended, Pc.empties]
  | rewires _ from_pc table =>
      rw [table]
      rcases from_pc with ⟨i, polls⟩ | accepted
      · rcases polls_cases polls with ⟨-, rfl⟩ | ⟨j, new, pc, -⟩
        · cases empties
        · exact leaving.freed (by rw [pc]; rfl)
      · rcases accepted_cases accepted with ⟨-, rfl⟩ | ⟨-, rfl⟩ | ⟨i, new, pc, -⟩
        · cases empties
        · cases empties
        · exact leaving.freed (by rw [pc]; rfl)

/-- Only `shutdown_proceedure` offers a range, and its node is then no owner. -/
theorem Leaving.no_range_step (leaving : Leaving l net) (turn : InTurn l net act)
    (stepped : net.step act = some net') (owns : (net'.node l).pc.owns = true)
    (none : ∀ rangeStart rangeEnd, ¬ net.flying (.netNewRange rangeStart rangeEnd))
    (rangeStart rangeEnd : UInt8) : ¬ net'.flying (.netNewRange rangeStart rangeEnd) := by
  rintro ⟨loc, msg, mem, eq⟩
  rcases step_carries stepped leaving.noJoin turn.not_join ⟨loc, mem⟩ with ⟨loc, mem⟩ | emits
  · exact none rangeStart rangeEnd ⟨loc, msg, mem, eq⟩
  · cases act with
    | client n pdu =>
        obtain ⟨-, request, -⟩ := client_eq_some stepped
        rw [show msg = ⟨pdu, some net.issued⟩ from emits] at eq
        cases eq
        cases request
    | leave n =>
        obtain rfl : n = l := turn.1
        obtain ⟨-, ⟨-, -, rfl⟩ | ⟨-, rfl⟩⟩ := leave_eq_some stepped
        · rw [setNode_node, Function.update_self] at owns
          cases owns
        · rw [setNode_node, Function.update_self] at owns
          cases owns
    | deliver n i =>
        rw [show msg.pdu = .netNewRangeResponse from emits] at eq
        cases eq
    | reply n =>
        obtain ⟨key, pair, rfl, -⟩ := emits
        cases eq
    | finish n =>
        rcases emits with other | ⟨new, other⟩
        · rw [other] at eq
          cases eq
        · rw [other] at eq
          cases eq
    | _ => cases emits

theorem Leaving.step (leaving : Leaving l net) (turn : InTurn l net act)
    (stepped : net.step act = some net') : Leaving l net' := by
  have moves := step_moves stepped leaving.noResponse turn.not_join
  refine ⟨?_, ?_, fun n other => leaving.others_step turn other (moves n),
    leaving.freed_step (moves l), ?_⟩
  · rintro src maxSpan max ⟨loc, msg, mem, eq⟩
    rcases step_carries stepped leaving.noJoin turn.not_join ⟨loc, mem⟩ with ⟨loc, mem⟩ | emits
    · exact leaving.noJoin src maxSpan max ⟨loc, msg, mem, eq⟩
    · exact (emits.no_join stepped).1 src maxSpan max eq
  · rintro next rangeStart rangeEnd ⟨loc, msg, mem, eq⟩
    rcases step_carries stepped leaving.noJoin turn.not_join ⟨loc, mem⟩ with ⟨loc, mem⟩ | emits
    · exact leaving.noResponse next rangeStart rangeEnd ⟨loc, msg, mem, eq⟩
    · exact (emits.no_join stepped).2 next rangeStart rangeEnd eq
  · intro owns
    obtain ⟨none, apart⟩ := leaving.kept ((moves l).owns owns)
    refine ⟨leaving.no_range_step turn stepped owns none, fun n other owns_n ssn in_range => ?_⟩
    rw [(moves n).range leaving.noJoin none owns_n] at in_range
    rw [(moves l).range leaving.noJoin none owns]
    exact apart n other ((moves n).owns owns_n) ssn in_range

variable {key : Ssn}

theorem Leaving.value_step (leaving : Leaving l net) (nonzero : Nonzero key)
    (settled : net.Settled l key) {proc : Proc} (moves : Moves net l act proc) :
    proc.selfData.value key = none := by
  obtain ⟨⟨none, -⟩, out⟩ := settled
  cases moves with
  | stays => exact none
  | @handles i back loc msg rest outcome polls reads queue dispatched =>
      rw [← none]
      refine dispatch_value nonzero dispatched (fun src maxSpan max eq => ?_) fun _ => ?_
      · exact leaving.noJoin src maxSpan max
          ⟨loc, msg, by rw [queue]; exact List.mem_cons_self, eq⟩
      · rcases polls_cases polls with ⟨pc, -⟩ | ⟨j, new, pc, -⟩
        · exact Or.inl (out (by rw [pc]; rfl))
        · exact Or.inr (leaving.freed (by rw [pc]; rfl))
  | handsOver new granted waits =>
      rcases handOver_hashTable (net.node l).selfData granted with freed | ⟨-, same⟩
      · simp only [SelfData.value, freed, Option.bind_none]
      · simp only [same, none]
  | leaves => exact none
  | ends => exact none
  | rewires _ _ table =>
      rw [SelfData.value, table]
      exact none

theorem Leaving.settled_step (leaving : Leaving l net) (turn : InTurn l net act)
    (nonzero : Nonzero key) (settled : net.Settled l key)
    (stepped : net.step act = some net') : net'.Settled l key := by
  have moves := step_moves stepped leaving.noResponse turn.not_join l
  refine ⟨⟨leaving.value_step nonzero settled moves, ?_⟩, ?_⟩
  · intro msg carried transferred
    rcases step_carries stepped leaving.noJoin turn.not_join carried with old | emits
    · exact settled.1.2 msg old transferred
    · cases act with
      | client n pdu =>
          rw [show msg = ⟨pdu, some net.issued⟩ from emits] at transferred
          cases transferred
      | leave n =>
          obtain ⟨rangeStart, rangeEnd, eq⟩ := emits
          simp [eq, Pdu.updated]
      | deliver n i => simp [show msg.pdu = .netNewRangeResponse from emits, Pdu.updated]
      | reply n =>
          obtain ⟨other, pair, rfl, stored⟩ := emits
          obtain ⟨waits, -⟩ := reply_eq_some stepped
          have self : n = l := by
            by_contra ne
            exact (leaving.others n ne).1 waits
          rintro eq
          cases eq
          rw [self, settled.1.1] at stored
          cases stored
      | finish n =>
          rcases emits with eq | ⟨new, eq⟩
          · simp [eq, Pdu.updated]
          · simp [eq, Pdu.updated]
      | _ => cases emits
  · intro owns
    have before := moves.owns owns
    rw [moves.range leaving.noJoin (leaving.kept before).1 owns]
    exact settled.2 before

/-- What is stored under a settled key at another node changes by clients' updates
only. -/
theorem Leaving.value_stands (leaving : Leaving l net) (turn : InTurn l net act)
    (nonzero : Nonzero key) (settled : net.Settled l key) {n : Addr} (other : n ≠ l)
    (no_update : ∀ i msg, act = .deliver n i → ¬ net.Updates n i msg key) {proc : Proc}
    (moves : Moves net n act proc) :
    proc.selfData.value key = (net.node n).selfData.value key := by
  cases moves with
  | stays => rfl
  | @handles i back loc msg rest outcome polls reads queue dispatched =>
      have here : msg ∈ net.queue loc := by
        rw [queue]
        exact List.mem_cons_self
      refine dispatch_value nonzero dispatched
        (fun src maxSpan max eq => leaving.noJoin src maxSpan max ⟨loc, msg, here, eq⟩)
        fun updated => ?_
      cases range : checkRange (net.node n).selfData key with
      | false => exact Or.inl rfl
      | true =>
          -- a client's, or an older one on its way
          refine absurd ⟨⟨loc, rest, reads, queue⟩, ?_, updated, range⟩ (no_update i msg rfl)
          exact fun transferred => settled.1.2 msg ⟨loc, here⟩ transferred updated
  | handsOver new granted waits => exact absurd waits (leaving.others n other).1
  | leaves => rfl
  | ends => rfl
  | rewires _ _ table => rw [SelfData.value, SelfData.value, table]

end

theorem LookupRing.leaving {net : Net} {first : Addr} {rest : List Addr}
    (ring : LookupRing net first rest) (several : rest ≠ []) {l : Addr}
    (member : l ∈ first :: rest) : Leaving l net := by
  have quiet : QuietRing net first rest := ring.calm.resolve_right fun alone => several alone.1
  have silent : ∀ pdu, ¬ net.flying pdu := by
    rintro pdu ⟨loc, msg, mem, -⟩
    rw [quiet.quiet loc] at mem
    exact absurd mem List.not_mem_nil
  have outside : ∀ n, n ∉ first :: rest → (net.node n).pc ≠ .awaitResponse ∧
      (net.node n).pc.empties = false ∧ (net.node n).pc.owns = false := by
    intro n outside
    rcases quiet.others n outside with pc | pc | ended
    · rw [pc]
      exact ⟨by simp, rfl, rfl⟩
    · rw [pc]
      exact ⟨by simp, rfl, rfl⟩
    · cases pc : (net.node n).pc <;> simp_all [Pc.ended, Pc.empties, Pc.owns]
  refine ⟨fun _ _ _ => silent _, fun _ _ _ => silent _, ?_, ?_, fun _ => ⟨fun _ _ => silent _, ?_⟩⟩
  · intro n _
    by_cases inside : n ∈ first :: rest
    · rw [quiet.serving n inside]
      exact ⟨by simp, rfl⟩
    · exact ⟨(outside n inside).1, (outside n inside).2.1⟩
  · intro empties
    rw [quiet.serving l member] at empties
    cases empties
  · intro n other owns ssn in_range
    have inside : n ∈ first :: rest := by
      by_contra absent
      rw [(outside n absent).2.2] at owns
      cases owns
    by_contra also
    rw [Bool.not_eq_false] at also
    simp only [checkRange, Bool.and_eq_true, decide_eq_true_eq] at in_range also
    exact other ((ring.partition (hashSsn ssn)).unique ⟨inside, in_range⟩ ⟨member, also⟩)

/-- Node `n`, which is not the leaving one, applies a client's insert or remove of a
key without zero bytes.  Until it applies another update of the key from a client,
what is stored there is what this one produced, if every update is in turn. -/
theorem update_stands {net now done last : Net} {first : Addr} {rest : List Addr}
    (ring : LookupRing net first rest) (several : rest ≠ []) {l : Addr}
    (member : l ∈ first :: rest) {earlier later : List Act}
    (before : Run Net.step (InTurn l) net earlier now)
    {n : Addr} (other : n ≠ l) {i : FdsIndex} {msg : Msg} {key : Ssn} (nonzero : Nonzero key)
    (updates : now.Updates n i msg key) (turn : InTurn l now (.deliver n i))
    (applied : now.step (.deliver n i) = some done)
    (after : Run Net.step (fun net act => InTurn l net act ∧
      ∀ i msg, act = .deliver n i → ¬ net.Updates n i msg key) done later last) :
    (last.node n).selfData.value key = (done.node n).selfData.value key ∧
      ((done.node n).pc ≠ .faulted →
        msg.pdu.Produces (now.node n).selfData ((last.node n).selfData.value key)) := by
  have leaving : Leaving l now := before.invariant (ring.leaving several member)
    fun _ _ _ leaving turn stepped => leaving.step turn stepped
  obtain ⟨back, loc, head, tail, outcome, polls, reads, queue, dispatched, eq⟩ :=
    deliver_eq_some applied
  obtain ⟨⟨loc', tail', reads', queue'⟩, client, updated, in_range⟩ := id updates
  cases reads.symm.trans reads'
  cases queue.symm.trans queue'
  have owner : (now.node n).pc.owns = true := by
    rcases polls_cases polls with ⟨pc, -⟩ | ⟨j, new, pc, -⟩
    · rw [pc]
      rfl
    · have full := (leaving.others n other).2
      rw [pc] at full
      cases full
  have settled : now.Settled l key :=
    ⟨turn.2 n i rfl other msg key nonzero updates,
      fun owns => (leaving.kept owns).2 n other owner key in_range⟩
  have stands : Leaving l last ∧ last.Settled l key ∧
      (last.node n).selfData.value key = (done.node n).selfData.value key := by
    refine after.invariant (P := fun net => Leaving l net ∧ net.Settled l key ∧
      (net.node n).selfData.value key = (done.node n).selfData.value key)
      ⟨leaving.step turn applied, leaving.settled_step turn nonzero settled applied, rfl⟩ ?_
    rintro t act u ⟨leaving, settled, same⟩ ⟨turn, quiet⟩ stepped
    refine ⟨leaving.step turn stepped, leaving.settled_step turn nonzero settled stepped, ?_⟩
    rw [leaving.value_stands turn nonzero settled other quiet
      (step_moves stepped leaving.noResponse turn.not_join n), same]
  refine ⟨stands.2.2, fun runs => ?_⟩
  rw [stands.2.2]
  have node : done.node n = ⟨back.after outcome.ctl, outcome.selfData⟩ := by
    rw [eq, commit_node, Function.update_self]
  rw [node] at runs ⊢
  refine dispatch_produces dispatched updated in_range fun fault => runs ?_
  rw [fault]
  rfl

/-! ## A ring of two -/

def olderPair : ValuePair := ⟨noText, noText⟩

def newerPair : ValuePair := ⟨⟨[1], by decide⟩, noText⟩

def updatesNothing (net : Net) : Act → Bool
  | .join _ _ => false
  | .leave _ => false
  | .deliver n i =>
      match (net.node n).reads n i with
      | some loc =>
          (net.queue loc).head?.all fun msg => msg.req.isNone || msg.pdu.updated.isNone
      | none => true
  | _ => true

theorem updatesNothing_spec {net : Net} {act : Act} (passed : updatesNothing net act = true) :
    (∀ l, OneLeaves l act) ∧
      ∀ n i msg key, act = .deliver n i → ¬ net.Updates n i msg key := by
  cases act with
  | join j entry => cases passed
  | leave n => cases passed
  | deliver n i =>
      refine ⟨fun _ => trivial, ?_⟩
      rintro n i msg key ⟨rfl, rfl⟩ ⟨⟨loc, rest, reads, queue⟩, client, updated, -⟩
      simp [updatesNothing, reads, queue, updated, client] at passed
  | _ => exact ⟨fun _ => trivial, fun n i msg key eq => by cases eq⟩

theorem inTurn_of_updatesNothing (l : Addr) (net : Net) (act : Act)
    (passed : updatesNothing net act = true) : InTurn l net act := by
  obtain ⟨setting, none⟩ := updatesNothing_spec passed
  exact ⟨setting l, fun n i eq _ msg key _ updates => absurd updates (none n i msg key eq)⟩

/-- The leaving node offers its range, the heir takes it and then a client's insert;
afterwards the leaving node is done and says goodbye. -/
theorem update_stands_lateInsert : ∃ earlier later now done last,
    Run Net.step (InTurn nodeB) pairNet earlier now ∧
      now.step (.deliver nodeA .udp) = some done ∧
      Run Net.step (fun net act => InTurn nodeB net act ∧
        ∀ i msg, act = .deliver nodeA i → ¬ net.Updates nodeA i msg lastKey) done later last ∧
      (last.node nodeA).selfData.value lastKey = some newerPair := by
  have executed : ((pairNet.step (.leave nodeB)).bind fun left =>
      (execChecked Net.step updatesNothing left [.deliver nodeA .successor,
        .client nodeA (.valInsert lastKey newerPair)]).bind fun now =>
      (now.step (.deliver nodeA .udp)).bind fun done =>
      (execChecked Net.step updatesNothing done [.reply nodeB, .finish nodeB,
        .deliver nodeA .predecessor, .deliver nodeA .successor]).map fun _ =>
      ((left.node nodeB).selfData.value lastKey, (left.node nodeB).pc, now.queue (.udp nodeA),
        checkRange (now.node nodeA).selfData lastKey, (done.node nodeA).pc)) =
      some (none, .awaitResponse, [⟨.valInsert lastKey newerPair, some 0⟩], true, .q6) := by
    decide +kernel
  obtain ⟨left, leaves, executed⟩ := Option.bind_eq_some_iff.mp executed
  obtain ⟨now, between, executed⟩ := Option.bind_eq_some_iff.mp executed
  obtain ⟨done, applied, executed⟩ := Option.bind_eq_some_iff.mp executed
  obtain ⟨last, late, eq⟩ := Option.map_eq_some_iff.mp executed
  simp only [Prod.mk.injEq] at eq
  obtain ⟨empty, waits, queue, in_range, runs⟩ := eq
  have nonzero : Nonzero lastKey := by decide +kernel
  have other : nodeA ≠ nodeB := by decide
  have ready := lookupRing_pairNet.leaving (by simp) (show nodeB ∈ [nodeA, nodeB] by simp)
  have first : InTurn nodeB pairNet (.leave nodeB) := ⟨rfl, fun n i eq => by cases eq⟩
  have before := run_of_execChecked (inTurn_of_updatesNothing nodeB) between
  -- nothing is stored and only the offer is on its way
  have settled : left.Settled nodeB lastKey := by
    refine ⟨⟨empty, fun msg carried _ => ?_⟩, fun owns => ?_⟩
    · rcases step_carries leaves ready.noJoin first.not_join carried with ⟨loc, mem⟩ | emits
      · exact absurd mem List.not_mem_nil
      · obtain ⟨rangeStart, rangeEnd, eq⟩ := emits
        simp [eq, Pdu.updated]
    · rw [waits] at owns
      cases owns
  have still : Leaving nodeB now ∧ now.Settled nodeB lastKey := by
    refine before.invariant (P := fun net => Leaving nodeB net ∧ net.Settled nodeB lastKey)
      ⟨ready.step first leaves, settled⟩ ?_
    rintro net act net' ⟨leaving, settled⟩ turn stepped
    exact ⟨leaving.step turn stepped, leaving.settled_step turn nonzero settled stepped⟩
  have updates : now.Updates nodeA .udp ⟨.valInsert lastKey newerPair, some 0⟩ lastKey :=
    ⟨⟨.udp nodeA, [], rfl, queue⟩, by simp, rfl, in_range⟩
  have turn : InTurn nodeB now (.deliver nodeA .udp) := by
    refine ⟨trivial, ?_⟩
    rintro n i ⟨rfl, rfl⟩ - msg key - ⟨⟨loc, rest, reads, queue'⟩, -, updated, -⟩
    cases reads
    cases queue.symm.trans queue'
    cases updated
    exact still.2.1
  have after : Run Net.step (fun net act => InTurn nodeB net act ∧
      ∀ i msg, act = .deliver nodeA i → ¬ net.Updates nodeA i msg lastKey) done _ last :=
    run_of_execChecked (fun net act passed => And.intro
      (inTurn_of_updatesNothing nodeB net act passed)
      fun i msg => (updatesNothing_spec passed).2 nodeA i msg lastKey) late
  have whole : Run Net.step (InTurn nodeB) pairNet _ now :=
    (Run.nil.snoc first leaves).append before
  refine ⟨_, _, now, done, last, whole, applied, after, ?_⟩
  exact (update_stands lookupRing_pairNet (by simp) (by simp) whole other nonzero updates turn
    applied after).2 (by rw [runs]; simp)

def Net.consumed (net : Net) (a : Addr) : Bool :=
  !(net.node a).pc.serving || [FdsIndex.udp, .successor, .predecessor].all fun i =>
    ((net.node a).reads a i).all fun loc => net.queue loc = []

theorem consumed_spec {net : Net} {a : Addr} (consumed : net.consumed a = true)
    (serving : (net.node a).pc.serving = true) (i : FdsIndex) {loc : Loc}
    (reads : (net.node a).reads a i = some loc) : net.queue loc = [] := by
  simp only [Net.consumed, serving, Bool.not_true, Bool.false_or, List.all_eq_true] at consumed
  have here := consumed i (by cases i <;> simp)
  rwa [reads, Option.all_some, decide_eq_true_eq] at here

/-- The heir takes the range and a newer value, and then the older one that the leaving
node sends; nothing is left to read. -/
theorem older_entry_overwrites : ∃ earlier later now done last msg,
    Run Net.step (fun _ act => OneLeaves nodeB act) pairNet earlier now ∧
      now.Updates nodeA .udp msg lastKey ∧ now.step (.deliver nodeA .udp) = some done ∧
      Run Net.step (fun net act => OneLeaves nodeB act ∧
        ∀ i msg, act = .deliver nodeA i → ¬ net.Updates nodeA i msg lastKey) done later last ∧
      (∀ a ∈ [nodeA, nodeB], (last.node a).pc.serving → ∀ i loc,
        (last.node a).reads a i = some loc → last.queue loc = []) ∧
      (done.node nodeA).selfData.value lastKey = some newerPair ∧
      (last.node nodeA).selfData.value lastKey = some olderPair := by
  have executed : ((exec Net.step pairNet [.client nodeB (.valInsert lastKey olderPair),
      .deliver nodeB .udp, .leave nodeB, .deliver nodeA .successor,
      .client nodeA (.valInsert lastKey newerPair)]).bind fun now =>
      (now.step (.deliver nodeA .udp)).bind fun done =>
      (execChecked Net.step updatesNothing done [.reply nodeB, .deliver nodeA .successor,
        .finish nodeB, .deliver nodeA .predecessor, .deliver nodeA .successor]).map fun last =>
      (now.queue (.udp nodeA), checkRange (now.node nodeA).selfData lastKey,
        (done.node nodeA).selfData.value lastKey, [nodeA, nodeB].all last.consumed,
        (last.node nodeA).selfData.value lastKey)) = some
      ([⟨.valInsert lastKey newerPair, some 1⟩], true, some newerPair, true, some olderPair) := by
    decide +kernel
  obtain ⟨now, before, executed⟩ := Option.bind_eq_some_iff.mp executed
  obtain ⟨done, applied, executed⟩ := Option.bind_eq_some_iff.mp executed
  obtain ⟨last, late, eq⟩ := Option.map_eq_some_iff.mp executed
  simp only [Prod.mk.injEq] at eq
  obtain ⟨queue, in_range, newer, consumed, older⟩ := eq
  rw [List.all_eq_true] at consumed
  refine ⟨_, _, now, done, last, ⟨.valInsert lastKey newerPair, some 1⟩,
    run_of_exec before fun s act mem => ?_, ⟨⟨.udp nodeA, [], rfl, queue⟩, by simp, rfl, in_range⟩,
    applied, run_of_execChecked (fun net act passed => ?_) late, ?_, newer, older⟩
  · simp only [List.mem_cons, List.not_mem_nil, or_false] at mem
    rcases mem with rfl | rfl | rfl | rfl | rfl <;> simp [OneLeaves]
  · exact ⟨(updatesNothing_spec passed).1 nodeB,
      fun i msg => (updatesNothing_spec passed).2 nodeA i msg lastKey⟩
  · intro a mem serving i loc reads
    exact consumed_spec (consumed a mem) serving i reads

end DhtRing

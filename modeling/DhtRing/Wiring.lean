import DhtRing.Handlers

/-!
# What a handler leaves alone

The wiring of a node is its data without the table and the key array.  Requests
never change it; the membership handlers change it in the ways listed here, and
none of them depends on what is stored.
-/

set_option autoImplicit false

namespace DhtRing

structure Wiring where
  rangeStart : UInt8
  rangeEnd : UInt8
  fdsSuccessor : Option Conn
  fdsPredecessor : Option Conn
  listening : Addr
  successor : ConnectionPoint
  predecessor : Option Conn

def SelfData.wiring (selfData : SelfData) : Wiring where
  rangeStart := selfData.rangeStart
  rangeEnd := selfData.rangeEnd
  fdsSuccessor := selfData.fdsSuccessor
  fdsPredecessor := selfData.fdsPredecessor
  listening := selfData.listening
  successor := selfData.successor
  predecessor := selfData.predecessor

def sends (fd : Loc) (pdus : List Pdu) : List Effect := pdus.map (.tcp fd)

@[simp] theorem andThen_run (selfData : SelfData) (effects : List Effect)
    (rest : SelfData → Outcome) :
    (Outcome.mk selfData effects .run).andThen rest =
      ⟨(rest selfData).selfData, effects ++ (rest selfData).effects, (rest selfData).ctl⟩ := rfl

/-! ## The middle of a range -/

theorem ofInt_natCast (n : ℕ) : UInt8.ofInt (n : Int) = UInt8.ofNat n := by
  rw [UInt8.ofInt, ← UInt8.toNat_inj, UInt8.toNat_ofNat', UInt8.toNat_ofNat']
  omega

theorem toNat_middlePoint {rangeStart rangeEnd : UInt8} (le : rangeStart ≤ rangeEnd) :
    (middlePoint rangeStart rangeEnd).toNat =
      rangeStart.toNat + (rangeEnd.toNat - rangeStart.toNat) / 2 := by
  rw [UInt8.le_iff_toNat_le] at le
  have below := rangeEnd.toNat_lt
  have span : ((rangeEnd.toNat : Int) - rangeStart.toNat).tdiv 2 + rangeStart.toNat =
      ((rangeStart.toNat + (rangeEnd.toNat - rangeStart.toNat) / 2 : Nat) : Int) := by
    rw [Int.tdiv_eq_ediv_of_nonneg (by omega)]
    omega
  rw [middlePoint, span, ofInt_natCast, UInt8.toNat_ofNat']
  omega

theorem toNat_middlePoint_succ {rangeStart rangeEnd : UInt8} (lt : rangeStart < rangeEnd) :
    (middlePoint rangeStart rangeEnd + 1).toNat =
      (middlePoint rangeStart rangeEnd).toNat + 1 := by
  have middle := toNat_middlePoint (UInt8.le_of_lt lt)
  rw [UInt8.lt_iff_toNat_lt] at lt
  have below := rangeEnd.toNat_lt
  rw [UInt8.toNat_add, middle, UInt8.toNat_one]
  omega

/-! ## Requests -/

section

variable (env : Env) {selfData : SelfData} {pdu : Pdu} {ssn : Ssn}

theorem checkRange_eq_true (selfData : SelfData) (ssn : Ssn) :
    checkRange selfData ssn = true ↔
      selfData.rangeStart.toNat ≤ (hashSsn ssn).toNat ∧
        (hashSsn ssn).toNat ≤ selfData.rangeEnd.toNat := by
  simp [checkRange, UInt8.le_iff_toNat_le]

/-- A request out of range goes to the successor as it is. -/
theorem dispatch_forward (request : pdu.requestKey = some ssn)
    (out : checkRange selfData ssn = false) {conn : Conn}
    (successor : selfData.fdsSuccessor = some conn) :
    dispatch env selfData pdu = some ⟨selfData, [.tcp (.up conn) pdu], .run⟩ := by
  have fd : selfData.fd .successor = some (.up conn) := by simp [SelfData.fd, successor]
  cases pdu with
  | valInsert key pair =>
      cases request
      simp [dispatch, handleHtInsert, out, sendInsertPduTcp, fd]
  | valRemove key =>
      cases request
      simp [dispatch, handleHtRemove, out, sendOrExit, fd]
  | valLookup key sender =>
      cases request
      simp [dispatch, handleHtLookup, out, sendOrExit, fd]
  | _ => cases request

/-- Without a successor a request out of range is dropped or ends the node. -/
theorem dispatch_stranded (request : pdu.requestKey = some ssn)
    (out : checkRange selfData ssn = false) (no_successor : selfData.fdsSuccessor = none) :
    ∃ ctl, dispatch env selfData pdu = some ⟨selfData, [], ctl⟩ ∧
      (ctl = .run ∨ ∃ msg, ctl = .exit msg) := by
  have fd : selfData.fd .successor = none := by simp [SelfData.fd, no_successor]
  cases pdu with
  | valInsert key pair =>
      cases request
      exact ⟨_, by simp only [dispatch, handleHtInsert, out, sendInsertPduTcp, fd]; rfl, Or.inl rfl⟩
  | valRemove key =>
      cases request
      exact ⟨_, by simp only [dispatch, handleHtRemove, out, sendOrExit, fd]; rfl,
        Or.inr ⟨_, rfl⟩⟩
  | valLookup key sender =>
      cases request
      exact ⟨_, by simp only [dispatch, handleHtLookup, out, sendOrExit, fd]; rfl,
        Or.inr ⟨_, rfl⟩⟩
  | _ => cases request

theorem dispatch_apply (request : pdu.requestKey = some ssn)
    (in_range : checkRange selfData ssn = true) :
    ∃ outcome, dispatch env selfData pdu = some outcome ∧
      outcome.selfData.wiring = selfData.wiring ∧
      (∀ effect ∈ outcome.effects, ∃ dest reply, effect = .udp dest reply) ∧
      (outcome.ctl = .run ∨ outcome.ctl = .fault) ∧
      (selfData.hashTable = none → outcome.ctl = .fault) := by
  cases pdu with
  | valInsert key pair =>
      cases request
      refine ⟨_, rfl, ?_⟩
      simp only [handleHtInsert, in_range, if_true]
      split
      · exact ⟨rfl, by simp, Or.inr rfl, fun _ => rfl⟩
      · rename_i ht table
        split
        · exact ⟨rfl, by simp, Or.inl rfl, by simp [table]⟩
        · split
          · exact ⟨rfl, by simp, Or.inl rfl, by simp [table]⟩
          · exact ⟨rfl, by simp, Or.inr rfl, fun _ => rfl⟩
  | valRemove key =>
      cases request
      refine ⟨_, rfl, ?_⟩
      simp only [handleHtRemove, in_range, if_true]
      split
      · exact ⟨rfl, by simp, Or.inr rfl, fun _ => rfl⟩
      · rename_i ht table
        split
        · exact ⟨rfl, by simp, Or.inr rfl, fun _ => rfl⟩
        · exact ⟨rfl, by simp, Or.inl rfl, by simp [table]⟩
        · exact ⟨rfl, by simp, Or.inl rfl, by simp [table]⟩
  | valLookup key sender =>
      cases request
      refine ⟨_, rfl, ?_⟩
      simp only [handleHtLookup, in_range, if_true]
      split
      · exact ⟨rfl, by simp, Or.inr rfl, fun _ => rfl⟩
      · rename_i ht table
        split
        · exact ⟨rfl, by simp, Or.inl rfl, by simp [table]⟩
        · exact ⟨rfl, by simp, Or.inl rfl, by simp [table]⟩
  | _ => cases request

theorem dispatch_request {env : Env} (request : pdu.requestKey = some ssn) {outcome : Outcome}
    (dispatched : dispatch env selfData pdu = some outcome) :
    outcome.selfData.wiring = selfData.wiring ∧ outcome.ctl ≠ .accept ∧
      ∀ effect ∈ outcome.effects,
        (∃ dest reply, effect = .udp dest reply) ∨
          ∃ conn, selfData.fdsSuccessor = some conn ∧ effect = .tcp (.up conn) pdu := by
  cases range : checkRange selfData ssn with
  | true =>
      obtain ⟨applied, eq, wiring, replies, ctl, -⟩ := dispatch_apply env request range
      cases eq.symm.trans dispatched
      refine ⟨wiring, ?_, fun effect mem => Or.inl (replies effect mem)⟩
      rcases ctl with ctl | ctl <;> simp [ctl]
  | false =>
      cases successor : selfData.fdsSuccessor with
      | some conn =>
          cases (dispatch_forward env request range successor).symm.trans dispatched
          exact ⟨rfl, by simp, fun effect mem => Or.inr ⟨conn, rfl, by simpa using mem⟩⟩
      | none =>
          obtain ⟨ctl, eq, cases_ctl⟩ := dispatch_stranded env request range successor
          cases eq.symm.trans dispatched
          refine ⟨rfl, ?_, by simp⟩
          rcases cases_ctl with rfl | ⟨msg, rfl⟩ <;> simp

end

/-! ## Transfers -/

theorem sendEntriesOutside_wiring (rest : Nat) :
    ∀ (i : Nat) (selfData : SelfData),
      let outcome := sendEntriesOutside rest i selfData
      outcome.selfData.wiring = selfData.wiring ∧
        (outcome.ctl = .run ∨ outcome.ctl = .fault) ∧
        ∀ effect ∈ outcome.effects, ∃ conn ssn pair, selfData.fdsSuccessor = some conn ∧
          effect = .tcp (.up conn) (.valInsert ssn pair) := by
  induction rest with
  | zero =>
      intro i selfData
      exact ⟨rfl, Or.inl rfl, by simp [sendEntriesOutside]⟩
  | succ rest ih =>
      intro i selfData
      simp only [sendEntriesOutside]
      split
      · rename_i ssn ht slot table
        split
        · exact ih (i + 1) selfData
        · split
          · exact ⟨rfl, Or.inl rfl, by simp⟩
          · rename_i pair found
            obtain ⟨wiring, ctl, sent⟩ := ih i { selfData with
              hashTable := some (htRemove ht ssn)
              ssns := closeGap selfData.ssns i (i + rest + 1) }
            refine ⟨wiring, ctl, ?_⟩
            intro effect mem
            rcases List.mem_append.mp mem with first | later
            · cases successor : selfData.fdsSuccessor with
              | none => simp [sendInsertPduTcp, SelfData.fd, successor] at first
              | some conn =>
                  refine ⟨conn, ssn, pair, rfl, ?_⟩
                  simpa [sendInsertPduTcp, SelfData.fd, successor] using first
            · exact sent effect later
      · exact ⟨rfl, Or.inr rfl, by simp⟩

/-- `send_new_range_and_entries`, whatever is stored: the range is cut and its
upper part offered, and then entries may follow. -/
theorem sendNewRangeAndEntries_wiring (selfData : SelfData) (conn : Conn)
    (successor : selfData.fdsSuccessor = some conn) (oldSucc : Addr) :
    let middle := middlePoint selfData.rangeStart selfData.rangeEnd
    ∃ data moved ctl, sendNewRangeAndEntries selfData oldSucc =
        ⟨data, .tcp (.up conn) (.netJoinResponse oldSucc (middle + 1) selfData.rangeEnd) :: moved,
          ctl⟩ ∧
      data.wiring = { selfData.wiring with rangeEnd := middle } ∧
      (ctl = .run ∨ ctl = .fault) ∧
      ∀ effect ∈ moved, ∃ ssn pair, effect = .tcp (.up conn) (.valInsert ssn pair) := by
  intro middle
  let kept := { selfData with rangeEnd := middle }
  have fd : kept.fd .successor = some (.up conn) := by simp [SelfData.fd, kept, successor]
  have sent : sendOrExit kept .successor (.netJoinResponse oldSucc (middle + 1) selfData.rangeEnd)
      "Failed to send NET_JOIN_RESPONSE_PDU" = Outcome.mk kept [.tcp (.up conn)
        (.netJoinResponse oldSucc (middle + 1) selfData.rangeEnd)] .run := by
    simp [sendOrExit, fd]
  rw [sendNewRangeAndEntries]
  dsimp only
  rw [sent, andThen_run]
  cases table : kept.hashTable with
  | none => exact ⟨_, [], .fault, rfl, rfl, Or.inr rfl, by simp⟩
  | some ht =>
      obtain ⟨wiring, ctl, sent⟩ := sendEntriesOutside_wiring (getNumEntries ht) 0 kept
      refine ⟨_, _, _, rfl, wiring, ctl, ?_⟩
      intro effect mem
      obtain ⟨conn', ssn, pair, held, eq⟩ := sent effect mem
      cases successor.symm.trans held
      exact ⟨ssn, pair, eq⟩

theorem sendAllEntries_wiring (selfData : SelfData) (index : FdsIndex) :
    let outcome := sendAllEntries selfData index
    outcome.selfData.wiring = selfData.wiring ∧
      (outcome.ctl = .run → outcome.selfData.hashTable = none) ∧
      (outcome.ctl = .run ∨ outcome.ctl = .fault) ∧
      ∀ effect ∈ outcome.effects, ∃ fd ssn pair, selfData.fd index = some fd ∧
        effect = .tcp fd (.valInsert ssn pair) := by
  have entries : ∀ ht rest i sent, sendEntries selfData index ht rest i = some sent →
      ∀ effect ∈ sent, ∃ fd ssn pair, selfData.fd index = some fd ∧
        effect = .tcp fd (.valInsert ssn pair) := by
    intro ht rest
    induction rest with
    | zero =>
        intro i sent eq
        cases eq
        simp
    | succ rest ih =>
        intro i sent eq
        simp only [sendEntries] at eq
        split at eq
        · cases eq
        · rename_i ssn slot
          obtain ⟨later, eq_later, rfl⟩ := Option.map_eq_some_iff.mp eq
          intro effect mem
          rcases List.mem_append.mp mem with first | last
          · split at first
            · simp at first
            · rename_i pair found
              cases fd : selfData.fd index with
              | none => simp [sendInsertPduTcp, fd] at first
              | some loc =>
                  exact ⟨loc, ssn, pair, rfl, by simpa [sendInsertPduTcp, fd] using first⟩
          · exact ih (i + 1) later eq_later effect last
  simp only [sendAllEntries]
  split
  · rename_i table
    exact ⟨rfl, by simp, Or.inr rfl, by simp⟩
  · rename_i ht table
    split
    · exact ⟨rfl, by simp, Or.inr rfl, by simp⟩
    · rename_i sent eq
      split
      · exact ⟨rfl, by simp, Or.inl rfl, entries ht _ _ sent eq⟩
      · exact ⟨rfl, by simp, Or.inr rfl, entries ht _ _ sent eq⟩

theorem handOver_inserts {selfData : SelfData} {granted : Bool} {effect : Effect}
    (mem : effect ∈ (handOver selfData granted).effects) :
    ∃ fd ssn pair, selfData.fd selfData.heir = some fd ∧
      effect = .tcp fd (.valInsert ssn pair) := by
  obtain ⟨-, -, -, inserts⟩ := sendAllEntries_wiring selfData selfData.heir
  apply inserts
  unfold handOver Outcome.andThen at mem
  split at mem
  · split at mem <;> simpa using mem
  · exact mem

theorem handOver_granted {selfData : SelfData} (sound : (handOver selfData true).ctl ≠ .fault) :
    (handOver selfData true).ctl = .run ∧
      (handOver selfData true).selfData.wiring =
        { selfData.wiring with rangeStart := 255, rangeEnd := 255 } := by
  obtain ⟨wiring, -, ctl, -⟩ := sendAllEntries_wiring selfData selfData.heir
  unfold handOver Outcome.andThen at sound ⊢
  rcases ctl with run | fault
  · simp only [run, if_true, true_and]
    rw [← wiring]
    rfl
  · simp [fault] at sound

/-! ## Membership -/

section

variable {env : Env} {selfData : SelfData} {src max : Addr} {maxSpan : UInt8}

def Env.conn (env : Env) (selfData : SelfData) (dest : Addr) : Conn :=
  ⟨selfData.listening, dest, env.serial⟩

theorem connectToTcp_answered {socket : Option Conn} {dest : Addr}
    (answered : env.answers dest = true) :
    connectToTcp env { selfData with successor := ⟨socket, dest⟩ } =
      ⟨{ selfData with
          successor := ⟨some (env.conn selfData dest), dest⟩
          fdsSuccessor := some (env.conn selfData dest) },
        [.connect (env.conn selfData dest)], .run⟩ := by
  simp [connectToTcp, answered, Env.conn, SelfData.listening]

theorem connectToTcp_refused {socket : Option Conn} {dest : Addr}
    (refused : env.answers dest = false) :
    connectToTcp env { selfData with successor := ⟨socket, dest⟩ } =
      ⟨{ selfData with successor := ⟨none, dest⟩ }, [], .exit "Connection failed"⟩ := by
  simp [connectToTcp, refused]

theorem q8_answered {next : Addr} (rangeStart rangeEnd : UInt8)
    (answered : env.answers next = true) :
    q8 env selfData next rangeStart rangeEnd =
      ⟨{ selfData with
          hashTable := some htCreate
          rangeStart := rangeStart
          rangeEnd := rangeEnd
          successor := ⟨some (env.conn selfData next), next⟩
          fdsSuccessor := some (env.conn selfData next) },
        [.connect (env.conn selfData next)], .run⟩ := by
  simp [q8, connectToTcp, answered, Env.conn, SelfData.listening]

theorem q8_refused {next : Addr} (rangeStart rangeEnd : UInt8)
    (refused : env.answers next = false) :
    q8 env selfData next rangeStart rangeEnd =
      ⟨{ selfData with
          rangeStart := rangeStart
          rangeEnd := rangeEnd
          successor := ⟨none, next⟩ }, [], .exit "Connection failed"⟩ := by
  simp [q8, connectToTcp, refused, Outcome.andThen]

/-- A node with two neighbours that the `NET_JOIN` names: it says goodbye to its
successor, connects to the joining node and gives it the upper half. -/
theorem handleNetJoin_resolve (maxSpan : UInt8) (linked : selfData.predecessor ≠ none)
    (linked' : selfData.successor.socket ≠ none) (named : max = selfData.listening)
    (answered : env.answers src = true) :
    let middle := middlePoint selfData.rangeStart selfData.rangeEnd
    let conn := env.conn selfData src
    ∃ data moved ctl, handleNetJoin env selfData src maxSpan max =
        ⟨data, sendSuccessor selfData .netCloseConnection ++ (.connect conn ::
          .tcp (.up conn) (.netJoinResponse selfData.successor.destAddr (middle + 1)
            selfData.rangeEnd) :: moved), ctl⟩ ∧
      data.wiring = { selfData.wiring with
        rangeEnd := middle
        successor := ⟨some conn, src⟩
        fdsSuccessor := some conn } ∧
      (ctl = .run ∨ ctl = .fault) ∧
      ∀ effect ∈ moved, ∃ ssn pair, effect = .tcp (.up conn) (.valInsert ssn pair) := by
  intro middle conn
  let wired := { selfData with
    successor := ⟨some conn, src⟩
    fdsSuccessor := some conn }
  obtain ⟨data, moved, ctl, run, wiring, ctl_cases, sent⟩ :=
    sendNewRangeAndEntries_wiring wired conn rfl selfData.successor.destAddr
  refine ⟨data, moved, ctl, ?_, wiring, ctl_cases, sent⟩
  rw [handleNetJoin, if_neg (fun h => linked h.1), if_neg (by tauto), if_pos named]
  let joined := (Outcome.mk wired [.connect conn] .run).andThen fun data =>
    sendNewRangeAndEntries data selfData.successor.destAddr
  have given : joined = ⟨data, .connect conn :: .tcp (.up conn) (.netJoinResponse
      selfData.successor.destAddr (middle + 1) selfData.rangeEnd) :: moved, ctl⟩ := by
    simp only [joined, andThen_run, run]
    rfl
  rw [andThen_run, connectToTcp_answered answered]
  change Outcome.mk joined.selfData (sendSuccessor selfData .netCloseConnection ++ joined.effects)
    joined.ctl = _
  rw [given]

theorem handleNetJoin_unreachable (maxSpan : UInt8) (linked : selfData.predecessor ≠ none)
    (linked' : selfData.successor.socket ≠ none) (named : max = selfData.listening)
    (refused : env.answers src = false) :
    handleNetJoin env selfData src maxSpan max =
      ⟨{ selfData with successor := ⟨none, src⟩ }, sendSuccessor selfData .netCloseConnection,
        .exit "Connection failed"⟩ := by
  rw [handleNetJoin, if_neg (fun h => linked h.1), if_neg (by tauto), if_pos named]
  simp only [Outcome.andThen, connectToTcp_refused refused, List.append_nil]

/-- The first join: the only node gives half of its range away and waits for the
joining node to connect back. -/
theorem handleNetJoin_alone (max : Addr) (maxSpan : UInt8) (alone : selfData.predecessor = none)
    (alone' : selfData.successor.socket = none) (answered : env.answers src = true) :
    let middle := middlePoint selfData.rangeStart selfData.rangeEnd
    let conn := env.conn selfData src
    ∃ data moved ctl, handleNetJoin env selfData src maxSpan max =
        ⟨data, .connect conn :: .tcp (.up conn) (.netJoinResponse selfData.listening (middle + 1)
          selfData.rangeEnd) :: moved, ctl⟩ ∧
      data.wiring = { selfData.wiring with
        rangeEnd := middle
        successor := ⟨some conn, src⟩
        fdsSuccessor := some conn } ∧
      (ctl = .accept ∨ ctl = .fault) ∧
      ∀ effect ∈ moved, ∃ ssn pair, effect = .tcp (.up conn) (.valInsert ssn pair) := by
  intro middle conn
  let wired := { selfData with
    successor := ⟨some conn, src⟩
    fdsSuccessor := some conn }
  obtain ⟨data, moved, ctl, run, wiring, ctl_cases, sent⟩ :=
    sendNewRangeAndEntries_wiring wired conn rfl selfData.listening
  refine ⟨data, moved, if ctl = .run then .accept else ctl, ?_, wiring, ?_, sent⟩
  · have waits : (sendNewRangeAndEntries wired wired.listening).andThen
        (fun selfData => ⟨selfData, [], .accept⟩) =
        ⟨data, .tcp (.up conn) (.netJoinResponse selfData.listening (middle + 1)
          selfData.rangeEnd) :: moved, if ctl = .run then .accept else ctl⟩ := by
      change (sendNewRangeAndEntries wired selfData.listening).andThen _ = _
      rw [run]
      rcases ctl_cases with rfl | rfl
      · simp [Outcome.andThen, middle, wired]
      · simp [Outcome.andThen, middle, wired]
    rw [handleNetJoin, if_pos ⟨alone, alone'⟩, connectToTcp_answered answered]
    change (Outcome.mk wired [.connect conn] .run).andThen (fun selfData =>
      (sendNewRangeAndEntries selfData selfData.listening).andThen
        fun selfData => ⟨selfData, [], .accept⟩) = _
    simp only [andThen_run, waits]
    rfl
  · rcases ctl_cases with rfl | rfl <;> simp

theorem handleNetJoin_forward (env : Env) (src : Addr) (maxSpan : UInt8)
    (linked : selfData.predecessor ≠ none)
    (linked' : selfData.successor.socket ≠ none) (other : max ≠ selfData.listening) :
    handleNetJoin env selfData src maxSpan max =
      ⟨selfData, sendSuccessor selfData
        (if (maxSpan.toNat : Int) < selfData.selfRange
          then .netJoin src (UInt8.ofInt selfData.selfRange) selfData.listening
          else .netJoin src maxSpan max), .run⟩ := by
  rw [handleNetJoin, if_neg (fun h => linked h.1), if_neg (by tauto), if_neg other]
  split <;> rfl

theorem handleNetJoin_sends {fd : Loc} {src' max' : Addr} {span' : UInt8}
    (sent : .tcp fd (.netJoin src' span' max') ∈
      (handleNetJoin env selfData src maxSpan max).effects) :
    src' = src ∧ selfData.successor.socket ≠ none ∧ max ≠ selfData.listening ∧
      handleNetJoin env selfData src maxSpan max =
        ⟨selfData, sendSuccessor selfData (.netJoin src' span' max'), .run⟩ ∧
      ((span' = maxSpan ∧ max' = max ∧ selfData.selfRange ≤ maxSpan.toNat) ∨
        (span' = UInt8.ofInt selfData.selfRange ∧ max' = selfData.listening ∧
          (maxSpan.toNat : Int) < selfData.selfRange)) := by
  by_cases linked : selfData.predecessor = none
  · by_cases linked' : selfData.successor.socket = none
    · -- the only node
      cases answered : env.answers src with
      | true =>
          obtain ⟨data, moved, ctl, run, -, -, inserts⟩ :=
            handleNetJoin_alone max maxSpan linked linked' answered
          rw [run] at sent
          simp only [List.mem_cons, reduceCtorEq, Effect.tcp.injEq, and_false, false_or] at sent
          obtain ⟨ssn, pair, eq⟩ := inserts _ sent
          cases eq
      | false =>
          rw [handleNetJoin, if_pos ⟨linked, linked'⟩, connectToTcp_refused answered] at sent
          simp [Outcome.andThen] at sent
    · rw [handleNetJoin, if_neg (by tauto), if_pos (Or.inl linked)] at sent
      simp at sent
  · by_cases linked' : selfData.successor.socket = none
    · rw [handleNetJoin, if_neg (by tauto), if_pos (Or.inr linked')] at sent
      simp at sent
    · by_cases named : max = selfData.listening
      · have no_join : .tcp fd (.netJoin src' span' max') ∉
            sendSuccessor selfData .netCloseConnection := by
          unfold sendSuccessor
          split <;> simp
        cases answered : env.answers src with
        | true =>
            obtain ⟨data, moved, ctl, run, -, -, inserts⟩ :=
              handleNetJoin_resolve maxSpan linked linked' named answered
            rw [run] at sent
            simp only [List.mem_append, no_join, List.mem_cons, reduceCtorEq, Effect.tcp.injEq,
              and_false, false_or] at sent
            obtain ⟨ssn, pair, eq⟩ := inserts _ sent
            cases eq
        | false =>
            rw [handleNetJoin_unreachable maxSpan linked linked' named answered] at sent
            exact absurd sent no_join
      · have run := handleNetJoin_forward env src maxSpan linked linked' named
        rw [run] at sent
        unfold sendSuccessor at sent
        split at sent
        · rename_i conn socket
          rw [List.mem_singleton, Effect.tcp.injEq] at sent
          split at sent
          · rename_i larger
            obtain ⟨-, eq⟩ := sent
            cases eq
            refine ⟨rfl, linked', named, ?_, Or.inr ⟨rfl, rfl, larger⟩⟩
            rw [run, if_pos larger]
          · rename_i smaller
            obtain ⟨-, eq⟩ := sent
            cases eq
            refine ⟨rfl, linked', named, ?_, Or.inl ⟨rfl, rfl, by omega⟩⟩
            rw [run, if_neg smaller]
        · simp at sent

theorem handleNetLeavingPdu_eq (new : Addr) :
    handleNetLeavingPdu env selfData new =
      if new = selfData.listening then
        ⟨{ selfData with
            successor := ⟨none, selfData.successor.destAddr⟩
            fdsSuccessor := none }, closeSuccessor selfData, .run⟩
      else if env.answers new then
        ⟨{ selfData with
            successor := ⟨some (env.conn selfData new), new⟩
            fdsSuccessor := some (env.conn selfData new) },
          closeSuccessor selfData ++ [.connect (env.conn selfData new)], .run⟩
      else
        ⟨{ selfData with successor := ⟨none, new⟩ }, closeSuccessor selfData,
          .exit "Connection failed"⟩ := by
  rw [handleNetLeavingPdu, andThen_run]
  by_cases last : new = selfData.listening
  · simp only [if_pos last, List.append_nil]
  · cases answered : env.answers new with
    | true => simp [if_neg last, connectToTcp_answered answered]
    | false => simp [if_neg last, connectToTcp_refused answered]

theorem connectToTcp_listening : (connectToTcp env selfData).selfData.listening =
    selfData.listening := by
  unfold connectToTcp
  dsimp only
  split <;> rfl

theorem sendOrExit_selfData (index : FdsIndex) (pdu : Pdu) (msg : String) :
    (sendOrExit selfData index pdu msg).selfData = selfData := by
  unfold sendOrExit
  split <;> rfl

theorem sendNewRangeAndEntries_listening (oldSucc : Addr) :
    (sendNewRangeAndEntries selfData oldSucc).selfData.listening = selfData.listening := by
  unfold sendNewRangeAndEntries sendOrExit
  dsimp only
  split
  · simp only [andThen_run]
    split
    · rfl
    · exact congrArg Wiring.listening (sendEntriesOutside_wiring _ 0 _).1
  · rfl

theorem andThen_listening {first : Outcome} {rest : SelfData → Outcome} {addr : Addr}
    (before : first.selfData.listening = addr)
    (after : (rest first.selfData).selfData.listening = addr) :
    (first.andThen rest).selfData.listening = addr := by
  unfold Outcome.andThen
  split
  · exact after
  · exact before

theorem handleNetJoin_listening :
    (handleNetJoin env selfData src maxSpan max).selfData.listening = selfData.listening := by
  unfold handleNetJoin
  split
  · refine andThen_listening connectToTcp_listening ?_
    refine andThen_listening ?_ ?_ <;>
      exact (sendNewRangeAndEntries_listening _).trans connectToTcp_listening
  · split
    · rfl
    · split
      · refine andThen_listening rfl (andThen_listening connectToTcp_listening ?_)
        exact (sendNewRangeAndEntries_listening _).trans connectToTcp_listening
      · split <;> rfl

theorem dispatch_listening {pdu : Pdu} {outcome : Outcome}
    (dispatched : dispatch env selfData pdu = some outcome) :
    outcome.selfData.listening = selfData.listening := by
  cases pdu with
  | valInsert ssn pair =>
      exact congrArg Wiring.listening (dispatch_request (rfl : Pdu.requestKey _ = some ssn) dispatched).1
  | valRemove ssn =>
      exact congrArg Wiring.listening (dispatch_request (rfl : Pdu.requestKey _ = some ssn) dispatched).1
  | valLookup ssn sender =>
      exact congrArg Wiring.listening (dispatch_request (rfl : Pdu.requestKey _ = some ssn) dispatched).1
  | netJoin src maxSpan max =>
      cases dispatched
      exact handleNetJoin_listening
  | netNewRange rangeStart rangeEnd =>
      cases dispatched
      simp only [handleNetNewRange, updateRange]
      split
      · rw [sendOrExit_selfData]
        rfl
      · split
        · rw [sendOrExit_selfData]
          rfl
        · rw [sendOrExit_selfData]
  | netLeaving new =>
      cases dispatched
      rw [handleNetLeavingPdu_eq]
      split
      · rfl
      · split <;> rfl
  | netCloseConnection =>
      cases dispatched
      simp only [handleNetCloseConnection]
      split <;> rfl
  | _ => cases dispatched

end

end DhtRing

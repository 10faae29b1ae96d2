import DhtRing.TestNode.MixedNode
import DhtRing.TestNode.RoundTrip

/-!
# The client

What the client makes of a CSV file and of the lines that a user types: inserts, removes
and lookups for one node, and after each lookup it waits for an answer.
-/

set_option autoImplicit false

namespace DhtRing.TestNode

/-! ## Input -/

structure Person where
  ssn : RString
  name : RString
  email : RString
deriving DecidableEq

inductive Command where
  | insert (person : Person)
  | remove (ssn : RString)
  | lookup (ssn : RString)
  | exit
  | unknown
deriving DecidableEq

def isWhitespace (c : Char) : Bool :=
  decide (9 ≤ c.toNat ∧ c.toNat ≤ 13) || decide (c.toNat ∈ [0x20, 0x85, 0xA0, 0x1680]) ||
    decide (0x2000 ≤ c.toNat ∧ c.toNat ≤ 0x200A) ||
    decide (c.toNat ∈ [0x2028, 0x2029, 0x202F, 0x205F, 0x3000])

def trim (s : RString) : RString :=
  ((s.dropWhile isWhitespace).reverse.dropWhile isWhitespace).reverse

/-- `read_line` into an empty buffer, and `trim`.  At the end of the input nothing is read. -/
def readLine : List RString → RString × List RString
  | [] => ([], [])
  | line :: lines => (trim line, lines)

def readCommand (lines : List RString) : Command × List RString :=
  let (word, lines) := readLine lines
  if word = "insert".toList then
    let (ssn, lines) := readLine lines
    let (name, lines) := readLine lines
    let (email, lines) := readLine lines
    (.insert ⟨ssn, name, email⟩, lines)
  else if word = "remove".toList then
    let (ssn, lines) := readLine lines
    (.remove ssn, lines)
  else if word = "lookup".toList then
    let (ssn, lines) := readLine lines
    (.lookup ssn, lines)
  else if word = "exit".toList then (.exit, lines)
  else (.unknown, lines)

/-! ## The client -/

structure Client where
  /-- `my_address` and `my_port`. -/
  myAddress : Addr
  /-- The rows of the CSV file that are still to be sent, `none` if one cannot be read. -/
  rows : List (Option Person)
  /-- The lines that are still to be read from `stdin`. -/
  lines : List RString
  udpWrapper : UdpWrapper
  udpSocket : UdpSocket
  /-- The client is in `poll_response`. -/
  waits : Bool
  printed : List Person
  running : Bool

namespace Client

variable (client : Client)

/-- The next row of `send_csv`, and behind the last one the next command.  A row that cannot
be read ends the program. -/
def next : Command × Client :=
  match client.rows with
  | some person :: rows => (.insert person, { client with rows := rows })
  | none :: rows => (.exit, { client with rows := rows })
  | [] =>
      let (command, lines) := readCommand client.lines
      (command, { client with lines := lines })

def pdu : Command → Option PDU
  | .insert person => some (.valInsert (ValInsertPdu.new person.ssn person.name person.email))
  | .remove ssn => some (.valRemove (ValRemovePdu.new ssn))
  | .lookup ssn =>
      some (.valLookup (ValLookupPdu.new ssn client.myAddress.address client.myAddress.port))
  | .exit => none
  | .unknown => none

/-- What the client does when it does not wait, and the PDU that it sends. -/
def turn : Option (Client × Option PDU) :=
  if client.running ∧ ¬ client.waits then
    let (command, next) := client.next
    match command with
    | .exit => some ({ next with running := false }, none)
    | .lookup ssn => some ({ next with waits := true }, client.pdu (.lookup ssn))
    | command => some (next, client.pdu command)
  else none

/-- One round of the loop of `poll_response`. -/
def poll : Except String Client := do
  let wrapper ← client.udpWrapper.tryRead client.udpSocket.datagrams
  let read := { client with udpSocket := { client.udpSocket with datagrams := [] } }
  match wrapper.incomingQueue with
  | [] => return { read with udpWrapper := wrapper }
  | (.valLookupResponse pdu, _) :: queue =>
      return { read with
        udpWrapper := { wrapper with incomingQueue := queue }
        waits := false
        printed := client.printed ++ [⟨pdu.ssn, pdu.name, pdu.email⟩] }
  | _ :: _ => throw "Expected ValLookUpResponse, got something else "

def unread : ℕ := client.rows.length + client.lines.length

def script : ℕ → Client → List Command
  | 0, _ => []
  | fuel + 1, client =>
      if client.rows = [] ∧ client.lines = [] then []
      else
        match client.next.1 with
        | .exit => []
        | command => command :: script fuel client.next.2

def left : List Command :=
  if client.running then script client.unread client else []

end Client

/-! ## One store -/

def noPerson : Person := ⟨List.replicate 12 '0', [], []⟩

/-- What the client prints if all its commands go to one store.  `rust` says for which keys
the store answers like a Rust node, with the oldest entry or with none, and for which like
a node in C, with the latest entry or never. -/
def answersTo (rust : RString → Bool) : List Person → List Command → List Person
  | _, [] => []
  | stored, .insert person :: rest => answersTo rust (stored ++ [person]) rest
  | stored, .remove ssn :: rest =>
      answersTo rust (stored.filter fun person => person.ssn ≠ ssn) rest
  | stored, .lookup ssn :: rest =>
      let entries := stored.filter fun person => person.ssn = ssn
      match if rust ssn then entries.head? else entries.getLast? with
      | some person => person :: answersTo rust stored rest
      | none => if rust ssn then noPerson :: answersTo rust stored rest else []
  | stored, .exit :: rest => answersTo rust stored rest
  | stored, .unknown :: rest => answersTo rust stored rest

/-! ## Commands as requests -/

def ssnOf (ssn : RString) : Ssn := Vector.ofFn fun i => (toLatin1 ssn).getD i 0

def textOf (text : RString) : Text :=
  ⟨(toLatin1 text).take 255, (List.length_take_le ..).trans (Nat.le_refl _)⟩

def pairOf (person : Person) : ValuePair := ⟨textOf person.name, textOf person.email⟩

def personOf (ssn : Ssn) (pair : ValuePair) : Person :=
  ⟨ofLatin1 ssn.toList, ofLatin1 pair.name.val, ofLatin1 pair.email.val⟩

def Command.request (sender : Addr) : Command → Option ClientRequest
  | .insert person => some (.insert (ssnOf person.ssn) (pairOf person))
  | .remove ssn => some (.remove (ssnOf ssn))
  | .lookup ssn => some (.lookup (ssnOf ssn) sender)
  | .exit => none
  | .unknown => none

def PlainSsn (ssn : RString) : Prop := ssn.length = 12 ∧ ∀ c ∈ ssn, 0 < c.toNat ∧ c.toNat < 128

def Person.Plain (person : Person) : Prop :=
  PlainSsn person.ssn ∧ (AsciiChars person.name ∧ person.name.length ≤ 255) ∧
    (AsciiChars person.email ∧ person.email.length ≤ 255)

def Command.asks : Command → Bool
  | .lookup _ => true
  | _ => false

/-- What the nodes of both kinds can read. -/
def Command.Plain : Command → Prop
  | .insert person => person.Plain
  | .remove ssn => PlainSsn ssn
  | .lookup ssn => PlainSsn ssn
  | _ => True

-- a search through all chars would decide these, too
instance (text : RString) : Decidable (AsciiChars text) :=
  List.decidableBAll (fun c : Char => c.toNat < 128) text

instance (ssn : RString) : Decidable (PlainSsn ssn) :=
  @instDecidableAnd _ _ (inferInstanceAs (Decidable (ssn.length = 12)))
    (List.decidableBAll (fun c : Char => 0 < c.toNat ∧ c.toNat < 128) ssn)

instance (person : Person) : Decidable person.Plain :=
  inferInstanceAs (Decidable (_ ∧ (_ ∧ _) ∧ _ ∧ _))

instance : (command : Command) → Decidable command.Plain
  | .insert person => inferInstanceAs (Decidable person.Plain)
  | .remove ssn => inferInstanceAs (Decidable (PlainSsn ssn))
  | .lookup ssn => inferInstanceAs (Decidable (PlainSsn ssn))
  | .exit => inferInstanceAs (Decidable True)
  | .unknown => inferInstanceAs (Decidable True)

/-! ## What is still to come -/

theorem length_readLine_le (lines : List RString) : (readLine lines).2.length ≤ lines.length := by
  cases lines with
  | nil => exact Nat.le_refl _
  | cons line lines => exact Nat.le_succ _

theorem length_readCommand_lt {lines : List RString} (more : lines ≠ []) :
    (readCommand lines).2.length < lines.length := by
  have one : (readLine lines).2.length < lines.length := by
    cases lines with
    | nil => exact absurd rfl more
    | cons line lines => exact Nat.lt_succ_self _
  have two := length_readLine_le (readLine lines).2
  have three := length_readLine_le (readLine (readLine lines).2).2
  have four := length_readLine_le (readLine (readLine (readLine lines).2).2).2
  rw [readCommand]
  dsimp only
  split
  · dsimp only
    omega
  · split
    · dsimp only
      omega
    · split
      · dsimp only
        omega
      · split <;> exact one

namespace Client

variable {client : Client}

theorem next_unread (more : ¬ (client.rows = [] ∧ client.lines = [])) :
    client.next.2.unread < client.unread := by
  rw [next]
  cases rows : client.rows with
  | nil =>
      have lines : client.lines ≠ [] := fun none => more ⟨rows, none⟩
      have fewer := length_readCommand_lt lines
      rw [unread, unread, rows]
      dsimp only
      omega
  | cons row rows' =>
      rw [unread, unread, rows]
      cases row with
      | none =>
          dsimp only [List.length_cons]
          omega
      | some person =>
          dsimp only [List.length_cons]
          omega

theorem next_running : client.next.2.running = client.running := by
  rw [next]
  split <;> rfl

theorem script_of_end (fuel : ℕ) (ended : client.rows = [] ∧ client.lines = []) :
    script fuel client = [] := by
  cases fuel with
  | zero => rfl
  | succ fuel => rw [script, if_pos ended]

theorem script_congr (fuel : ℕ) : ∀ {client other : Client},
    other.rows = client.rows → other.lines = client.lines →
      script fuel other = script fuel client := by
  induction fuel with
  | zero => exact fun _ _ => rfl
  | succ fuel ih =>
      intro client other rows lines
      have next : other.next.1 = client.next.1 ∧ other.next.2.rows = client.next.2.rows ∧
          other.next.2.lines = client.next.2.lines := by
        rw [Client.next, Client.next, rows, lines]
        cases client.rows with
        | nil => exact ⟨rfl, rfl, rfl⟩
        | cons row rows =>
            cases row with
            | none => exact ⟨rfl, rfl, rfl⟩
            | some person => exact ⟨rfl, rfl, rfl⟩
      rw [script, script, rows, lines, next.1, ih next.2.1 next.2.2]

theorem left_congr {other : Client} (rows : other.rows = client.rows)
    (lines : other.lines = client.lines) (running : other.running = client.running) :
    other.left = client.left := by
  rw [left, left, running, unread, unread, rows, lines, script_congr _ rows lines]

theorem left_of_stopped (stopped : client.running = false) : client.left = [] := by
  rw [left, stopped]
  rfl

theorem left_of_end (ended : client.rows = [] ∧ client.lines = []) : client.left = [] := by
  rw [left, script_of_end _ ended]
  exact ite_self _

theorem script_succ (fuel : ℕ) : ∀ {client : Client}, client.unread ≤ fuel →
    script (fuel + 1) client = script fuel client := by
  induction fuel with
  | zero =>
      intro client enough
      rw [unread] at enough
      have ended : client.rows = [] ∧ client.lines = [] :=
        ⟨List.length_eq_zero_iff.mp (by omega), List.length_eq_zero_iff.mp (by omega)⟩
      rw [script_of_end _ ended, script_of_end _ ended]
  | succ fuel ih =>
      intro client enough
      by_cases more : client.rows = [] ∧ client.lines = []
      · rw [script_of_end _ more, script_of_end _ more]
      · have fewer := next_unread more
        rw [script, if_neg more, ih (by omega), script, if_neg more]

theorem script_of_unread {fuel : ℕ} (enough : client.unread ≤ fuel) :
    script fuel client = script client.unread client := by
  induction fuel, enough using Nat.le_induction with
  | base => rfl
  | succ fuel enough ih => rw [script_succ fuel enough, ih]

theorem left_next (running : client.running = true)
    (more : ¬ (client.rows = [] ∧ client.lines = [])) :
    client.left = match client.next.1 with
      | .exit => []
      | command => command :: client.next.2.left := by
  have fewer := next_unread more
  obtain ⟨size, eq⟩ : ∃ size, client.unread = size + 1 := Nat.exists_eq_succ_of_ne_zero (by omega)
  have enough : client.next.2.unread ≤ size := by omega
  rw [left, if_pos running, eq, script, if_neg more, script_of_unread enough, left,
    if_pos (next_running.trans running)]

def SameButInput (after before : Client) : Prop :=
  after.myAddress = before.myAddress ∧ after.udpWrapper = before.udpWrapper ∧
    after.udpSocket = before.udpSocket ∧ after.printed = before.printed

theorem next_sameButInput : client.next.2.SameButInput client := by
  rw [next]
  split <;> exact ⟨rfl, rfl, rfl, rfl⟩

theorem next_waits : client.next.2.waits = client.waits := by
  rw [next]
  split <;> rfl

theorem next_of_end (ended : client.rows = [] ∧ client.lines = []) :
    client.next = (.unknown, client) := by
  have read : readCommand [] = (.unknown, []) := rfl
  obtain ⟨myAddress, rows, lines, udpWrapper, udpSocket, waits, printed, running⟩ := client
  obtain ⟨no_rows, no_lines⟩ := ended
  dsimp only at no_rows no_lines
  subst no_rows no_lines
  rw [next]
  dsimp only
  rw [read]

/-- One turn takes one command, or there is none left. -/
theorem turn_spec {after : Client} {sent : Option PDU} (turned : client.turn = some (after, sent)) :
    client.waits = false ∧ after.SameButInput client ∧
      ∃ command, sent = client.pdu command ∧ after.waits = command.asks ∧
        (client.left = command :: after.left ∨
          client.left = [] ∧ after.left = [] ∧ client.pdu command = none) := by
  rw [turn] at turned
  split at turned
  · rename_i free
    obtain ⟨running, free⟩ := free
    have idle : client.waits = false := Bool.eq_false_iff.mpr free
    refine ⟨idle, ?_⟩
    have same : client.next.2.SameButInput client := next_sameButInput
    have waits := next_waits.trans idle
    -- whether there is a command left
    have left : client.left = (match client.next.1 with
        | .exit => []
        | command => command :: client.next.2.left) ∨
        client.next.1 = .unknown ∧ client.left = [] ∧ client.next.2.left = [] := by
      by_cases ended : client.rows = [] ∧ client.lines = []
      · right
        rw [next_of_end ended]
        exact ⟨rfl, left_of_end ended, left_of_end ended⟩
      · exact Or.inl (left_next running ended)
    generalize client.next = found at turned same waits left
    obtain ⟨command, next⟩ := found
    dsimp only at turned same waits left
    cases command with
    | exit =>
        cases turned
        refine ⟨same, .exit, rfl, waits, Or.inr ⟨?_, left_of_stopped rfl, rfl⟩⟩
        rcases left with none | ⟨other, -⟩
        · exact none
        · cases other
    | unknown =>
        cases turned
        refine ⟨same, .unknown, rfl, waits, ?_⟩
        rcases left with one | ⟨-, none, none'⟩
        · exact Or.inl one
        · exact Or.inr ⟨none, none', rfl⟩
    | lookup ssn =>
        cases turned
        refine ⟨same, .lookup ssn, rfl, rfl, Or.inl ?_⟩
        have later : Client.left { next with waits := true } = next.left := left_congr rfl rfl rfl
        rw [later]
        rcases left with one | ⟨other, -⟩
        · exact one
        · cases other
    | insert person =>
        cases turned
        refine ⟨same, .insert person, rfl, waits, Or.inl ?_⟩
        rcases left with one | ⟨other, -⟩
        · exact one
        · cases other
    | remove ssn =>
        cases turned
        refine ⟨same, .remove ssn, rfl, waits, Or.inl ?_⟩
        rcases left with one | ⟨other, -⟩
        · exact one
        · cases other
  · cases turned

end Client

/-! ## Plain commands -/

section

variable {ssn text : RString} {person : Person} {sender : Addr}

theorem latin1_of_ascii (ascii : AsciiChars text) : Latin1 text :=
  fun c mem => (ascii c mem).trans (by decide)

theorem PlainSsn.latin1 (plain : PlainSsn ssn) : Latin1 ssn :=
  fun c mem => (plain.2 c mem).2.trans (by decide)

theorem toNat_toUInt8 {c : Char} (small : c.toNat < 128) : c.toUInt8.toNat = c.toNat :=
  (UInt32.toNat_toUInt8 c.val).trans (Nat.mod_eq_of_lt (small.trans (by decide)))

theorem PlainSsn.toList (plain : PlainSsn ssn) : (ssnOf ssn).toList = toLatin1 ssn := by
  apply List.ext_getElem
  · rw [Vector.length_toList, length_toLatin1, plain.1]
  · intro i inside inside'
    simp [ssnOf, List.getElem?_eq_getElem inside']

theorem PlainSsn.ofLatin1 (plain : PlainSsn ssn) : ofLatin1 (ssnOf ssn).toList = ssn := by
  rw [plain.toList, ofLatin1_toLatin1 plain.latin1]

theorem PlainSsn.nonzero (plain : PlainSsn ssn) : Nonzero (ssnOf ssn) := by
  rw [Nonzero, plain.toList]
  intro byte mem
  obtain ⟨c, of_ssn, rfl⟩ := List.mem_map.mp mem
  obtain ⟨pos, small⟩ := plain.2 c of_ssn
  intro zero
  rw [← toNat_toUInt8 small, zero] at pos
  exact absurd pos (Nat.lt_irrefl 0)

theorem ofLatin1_textOf (ascii : AsciiChars text) (short : text.length ≤ 255) :
    ofLatin1 (textOf text).val = text := by
  change ofLatin1 ((toLatin1 text).take 255) = text
  rw [List.take_of_length_le (by rw [length_toLatin1]; exact short),
    ofLatin1_toLatin1 (latin1_of_ascii ascii)]

theorem ascii_textOf (ascii : AsciiChars text) : Ascii (textOf text) := by
  intro byte mem
  obtain ⟨c, of_text, rfl⟩ := List.mem_map.mp (List.mem_of_mem_take mem)
  rw [UInt8.lt_iff_toNat_lt, toNat_toUInt8 (ascii c of_text)]
  exact ascii c of_text

theorem Person.Plain.personOf (plain : person.Plain) :
    TestNode.personOf (ssnOf person.ssn) (pairOf person) = person := by
  obtain ⟨ssn, name, email⟩ := plain
  rw [TestNode.personOf, pairOf, ssn.ofLatin1, ofLatin1_textOf name.1 name.2,
    ofLatin1_textOf email.1 email.2]

theorem Command.Plain.pdu {client : Client} {command : Command} (plain : command.Plain) :
    client.pdu command = (command.request client.myAddress).map ClientRequest.parsed := by
  cases command with
  | insert person =>
      obtain ⟨ssn, name, email⟩ := plain
      have name_len : len person.name = (textOf person.name).val.length := by
        rw [← len_ofLatin1 (ascii_textOf name.1), ofLatin1_textOf name.1 name.2]
      have email_len : len person.email = (textOf person.email).val.length := by
        rw [← len_ofLatin1 (ascii_textOf email.1), ofLatin1_textOf email.1 email.2]
      simp only [Client.pdu, Command.request, Option.map_some, ClientRequest.parsed, pairOf,
        valInsertPduOf, ValInsertPdu.new, ssn.ofLatin1, ofLatin1_textOf name.1 name.2,
        ofLatin1_textOf email.1 email.2, name_len, email_len]
  | remove ssn =>
      rw [Client.pdu, Command.request, Option.map_some, ClientRequest.parsed, PlainSsn.ofLatin1 plain]
  | lookup ssn =>
      rw [Client.pdu, Command.request, Option.map_some, ClientRequest.parsed, PlainSsn.ofLatin1 plain]
  | exit => rfl
  | unknown => rfl

theorem Command.Plain.admissible {command : Command} {request : ClientRequest}
    (plain : command.Plain) (is_request : command.request sender = some request) :
    request.Admissible := by
  cases command with
  | insert person =>
      cases is_request
      exact ⟨plain.1.nonzero, ascii_textOf plain.2.1.1, ascii_textOf plain.2.2.1⟩
  | remove ssn =>
      cases is_request
      exact PlainSsn.nonzero plain
  | lookup ssn =>
      cases is_request
      trivial
  | exit => cases is_request
  | unknown => cases is_request

/-! ## Answers -/

def answerEntry (rust : Bool) (before : List Update) (ssn : Ssn) : Option (Ssn × ValuePair) :=
  let inserts := insertsSince ssn before
  match if rust then inserts.head? else inserts.getLast? with
  | some pair => some (ssn, pair)
  | none => if rust then some (Vector.replicate 12 48, ⟨noText, noText⟩) else none

theorem answer_eq (rust : Bool) (before : List Update) (ssn : Ssn) (sender : Addr) :
    answer rust before (.lookup ssn sender) = (answerEntry rust before ssn).toList.map fun entry =>
      (sockaddr sender, (Pdu.valLookupResponse entry.1 entry.2).bytes) := by
  have empty : emptyResponse =
      (Pdu.valLookupResponse (Vector.replicate 12 48) ⟨noText, noText⟩).bytes := by decide +kernel
  rw [answer, answerEntry]
  cases if rust then (insertsSince ssn before).head? else (insertsSince ssn before).getLast? with
  | some pair => rfl
  | none =>
      dsimp only
      rw [empty]
      cases rust <;> rfl

theorem personOf_noPerson : personOf (Vector.replicate 12 48) ⟨noText, noText⟩ = noPerson := by
  decide +kernel

theorem Client.poll_of_nothing {client : Client} (wrapper : client.udpWrapper = .new)
    (nothing : client.udpSocket.datagrams = []) : client.poll = .ok client := by
  rw [Client.poll, wrapper, nothing]
  obtain ⟨myAddress, rows, lines, udpWrapper, ⟨localAddr, datagrams⟩, waits, printed, running⟩ := client
  dsimp only at wrapper nothing
  subst wrapper nothing
  rfl

theorem Client.poll_of_answer {client : Client} {datagram : Datagram} {key : Ssn} {pair : ValuePair}
    (wrapper : client.udpWrapper = .new) (come : client.udpSocket.datagrams = [datagram])
    (bytes : datagram.bytes = (Pdu.valLookupResponse key pair).bytes) :
    client.poll = .ok { client with
      udpSocket := { client.udpSocket with datagrams := [] }
      waits := false
      printed := client.printed ++ [personOf key pair] } := by
  have parsed : ∀ pdu ∈ [PDU.valLookupResponse (valLookupResponsePduOf key pair)], pdu.Parsed := by
    intro pdu mem
    rw [List.mem_singleton.mp mem]
    exact ⟨rfl, valInsertPduOf_fits key pair⟩
  have carries : datagram.Carries [.valLookupResponse (valLookupResponsePduOf key pair)] := by
    refine ⟨parsed, ?_, ?_⟩
    · rw [bytes, List.flatMap_singleton, valLookupResponsePduOf_wire]
    · have name := pair.name.property
      have email := pair.email.property
      rw [bytes, Pdu.length_bytes, Pdu.size, TestNode.bufferSize]
      omega
  rw [Client.poll, wrapper, come, UdpWrapper.tryRead, List.foldlM_cons,
    UdpWrapper.receive_of_carries rfl carries]
  rfl

/-! ## The store behind the updates -/

def Models (stored : List Person) (updates : List Update) : Prop :=
  ∀ ssn, PlainSsn ssn → (stored.filter fun person => person.ssn = ssn) =
    (insertsSince (ssnOf ssn) updates).map (personOf (ssnOf ssn))

theorem PlainSsn.inj {first second : RString} (plain : PlainSsn first) (plain' : PlainSsn second) :
    ssnOf first = ssnOf second ↔ first = second := by
  constructor
  · intro same
    rw [← plain.ofLatin1, ← plain'.ofLatin1, same]
  · rintro rfl
    rfl

variable {stored : List Person} {updates : List Update} {rust : RString → Bool}
  {rest : List Command}

theorem models_nil : Models [] [] := fun _ _ => rfl

theorem Models.insert (models : Models stored updates) (plain : person.Plain) :
    Models (stored ++ [person]) (updates ++ [.insert (ssnOf person.ssn) (pairOf person)]) := by
  intro key plain_key
  rw [insertsSince_snoc, List.filter_append, models key plain_key]
  dsimp only
  by_cases same : person.ssn = key
  · subst same
    rw [if_pos rfl, List.map_append, List.map_singleton, plain.personOf]
    simp
  · rw [if_neg fun eq => same ((plain.1.inj plain_key).mp eq)]
    simp [same]

theorem Models.remove (models : Models stored updates) (plain : PlainSsn ssn) :
    Models (stored.filter fun person => person.ssn ≠ ssn) (updates ++ [.remove (ssnOf ssn)]) := by
  intro key plain_key
  rw [insertsSince_snoc, List.filter_filter]
  dsimp only
  by_cases same : ssn = key
  · subst same
    rw [if_pos rfl]
    simp
  · rw [if_neg fun eq => same ((plain.inj plain_key).mp eq), ← models key plain_key]
    refine List.filter_congr fun person _ => ?_
    by_cases here : person.ssn = key
    · simp [here, Ne.symm same]
    · simp [here]

theorem Models.answersTo_lookup (models : Models stored updates) (plain : PlainSsn ssn) :
    answersTo rust stored (.lookup ssn :: rest) =
      match answerEntry (rust ssn) updates (ssnOf ssn) with
      | some entry => personOf entry.1 entry.2 :: answersTo rust stored rest
      | none => [] := by
  rw [answersTo, answerEntry, models ssn plain, List.head?_map, List.getLast?_map]
  cases rust ssn with
  | true =>
      rw [if_pos rfl, if_pos rfl]
      cases (insertsSince (ssnOf ssn) updates).head? with
      | none =>
          rw [Option.map_none]
          dsimp only
          rw [if_pos rfl, if_pos rfl, ← personOf_noPerson]
      | some pair => rfl
  | false =>
      rw [if_neg Bool.false_ne_true, if_neg Bool.false_ne_true]
      cases (insertsSince (ssnOf ssn) updates).getLast? with
      | none => rfl
      | some pair => rfl

end

end DhtRing.TestNode

import DhtRing.Hashtable

/-!
# One node's data and the table handlers

`struct self_data` of `util.h` and the functions of `hash_handling.c`.  A
handler answers the new data, the calls it made on its sockets in order, and how
it ended.  The descriptors are named by the connection they belong to, so a
descriptor number is never reused.
-/

set_option autoImplicit false

namespace DhtRing

/-! ## Sockets -/

/-- A TCP connection: who connected to whose listening socket.  The connecting
node holds it as its successor, the accepting node as its predecessor. -/
structure Conn where
  source : Addr
  target : Addr
  serial : Nat
deriving DecidableEq

/-- Where bytes wait to be read: the UDP socket of a node, or one direction of a
connection, `up` from the connecting to the accepting end. -/
inductive Loc where
  | udp (node : Addr)
  | up (conn : Conn)
  | down (conn : Conn)
deriving DecidableEq

/-- The calls a handler makes.  A TCP descriptor is named by the place that it
writes to. -/
inductive Effect where
  | tcp (fd : Loc) (pdu : Pdu)
  | udp (dest : Addr) (pdu : Pdu)
  | connect (conn : Conn)
  | close (fd : Loc)
deriving DecidableEq

/-! ## `struct self_data` -/

def maxSize : Nat := 256

/-- `struct connection_point`; `none` is the socket number 0. -/
structure ConnectionPoint where
  socket : Option Conn
  destAddr : Addr

/-- `struct self_data`.  A missing table is one that was not created yet or was
freed; a missing `ssns` slot is a null or freed pointer; a missing descriptor in
`fds` is the number -1 or the initial 0. -/
structure SelfData where
  hashTable : Option Ht
  rangeStart : UInt8
  rangeEnd : UInt8
  fdsSuccessor : Option Conn
  fdsPredecessor : Option Conn
  myIpAddr : UInt32
  listeningPort : UInt16
  successor : ConnectionPoint
  predecessor : Option Conn
  ssns : Nat → Option Ssn

def SelfData.listening (selfData : SelfData) : Addr :=
  ⟨selfData.myIpAddr, selfData.listeningPort⟩

inductive FdsIndex where
  | udp
  | successor
  | predecessor
deriving DecidableEq

/-- The descriptor in `fds[index].fd` as `send_tcp_pdu` can use it.  `send` on
the unconnected UDP socket fails, as on a missing descriptor. -/
def SelfData.fd (selfData : SelfData) : FdsIndex → Option Loc
  | .udp => none
  | .successor => selfData.fdsSuccessor.map .up
  | .predecessor => selfData.fdsPredecessor.map .down

/-! ## How a handler ends -/

/-- A handler returns, blocks in `accept_predecessor_connection` as its last
action, leaves through `exit_with_error`, or does something undefined: it
follows a null or freed pointer or writes past `ssns`. -/
inductive Ctl where
  | run
  | accept
  | exit (msg : String)
  | fault
deriving DecidableEq

structure Outcome where
  selfData : SelfData
  effects : List Effect
  ctl : Ctl

def Outcome.andThen (first : Outcome) (rest : SelfData → Outcome) : Outcome :=
  match first.ctl with
  | .run =>
      let second := rest first.selfData
      ⟨second.selfData, first.effects ++ second.effects, second.ctl⟩
  | _ => first

def sendOrExit (selfData : SelfData) (index : FdsIndex) (pdu : Pdu) (msg : String) : Outcome :=
  match selfData.fd index with
  | some fd => ⟨selfData, [.tcp fd pdu], .run⟩
  | none => ⟨selfData, [], .exit msg⟩

/-- `send_insert_pdu_tcp`: a failed send is only reported on stderr. -/
def sendInsertPduTcp (selfData : SelfData) (index : FdsIndex) (ssn : Ssn) (pair : ValuePair) :
    List Effect :=
  match selfData.fd index with
  | some fd => [.tcp fd (.valInsert ssn pair)]
  | none => []

/-! ## Requests on the table -/

/-- `check_range`; `true` is its result 0. -/
def checkRange (selfData : SelfData) (ssn : Ssn) : Bool :=
  decide (selfData.rangeStart ≤ hashSsn ssn) && decide (hashSsn ssn ≤ selfData.rangeEnd)

/-- The scan of `handle_ht_remove` over `count` slots from `i` on: the index of
the first equal key, if any; no answer when it meets a null slot. -/
def findSsn (ssns : Nat → Option Ssn) (ssn : Ssn) : Nat → Nat → Option (Option Nat)
  | 0, _ => some none
  | count + 1, i =>
      match ssns i with
      | none => none
      | some key =>
          if strncmp key.toList ssn.toList = 0 then some (some i)
          else findSsn ssns ssn count (i + 1)

def closeGap (ssns : Nat → Option Ssn) (i numEntries : Nat) : Nat → Option Ssn := fun j =>
  if j + 1 = numEntries then none
  else if i ≤ j ∧ j + 1 < numEntries then ssns (j + 1)
  else ssns j

def handleHtRemove (selfData : SelfData) (ssn : Ssn) : Outcome :=
  if checkRange selfData ssn then
    match selfData.hashTable with
    | none => ⟨selfData, [], .fault⟩
    | some ht =>
        match findSsn selfData.ssns ssn (getNumEntries ht) 0 with
        | none => ⟨selfData, [], .fault⟩
        | some none => ⟨selfData, [], .run⟩
        | some (some i) =>
            ⟨{ selfData with
                hashTable := some (htRemove ht ssn)
                ssns := closeGap selfData.ssns i (getNumEntries ht) }, [], .run⟩
  else sendOrExit selfData .successor (.valRemove ssn) "Failed to send VAL_REMOVE_PDU to successor"

def handleHtInsert (selfData : SelfData) (ssn : Ssn) (pair : ValuePair) : Outcome :=
  if checkRange selfData ssn then
    match selfData.hashTable with
    | none => ⟨selfData, [], .fault⟩
    | some ht =>
        let numEntries := getNumEntries ht
        let table := htInsert ht ssn pair
        if numEntries = getNumEntries table then
          ⟨{ selfData with hashTable := some table }, [], .run⟩
        else if numEntries < maxSize then
          ⟨{ selfData with
              hashTable := some table
              ssns := Function.update selfData.ssns numEntries (some ssn) }, [], .run⟩
        else ⟨{ selfData with hashTable := some table }, [], .fault⟩
  else ⟨selfData, sendInsertPduTcp selfData .successor ssn pair, .run⟩

/-- An absent key gets no answer: the prepared empty response is not sent. -/
def handleHtLookup (selfData : SelfData) (ssn : Ssn) (sender : Addr) : Outcome :=
  if checkRange selfData ssn then
    match selfData.hashTable with
    | none => ⟨selfData, [], .fault⟩
    | some ht =>
        match htLookup ht ssn with
        | some pair => ⟨selfData, [.udp sender (.valLookupResponse ssn pair)], .run⟩
        | none => ⟨selfData, [], .run⟩
  else
    sendOrExit selfData .successor (.valLookup ssn sender)
      "Failed to send VAL_LOOKUP_PDU to successor"

/-! ## Range changes -/

/-- `update_range`.  When neither end moves, `reciever` keeps its initial value
0, which is `UDP_FDS`. -/
def updateRange (selfData : SelfData) (rangeStart rangeEnd : UInt8) : Outcome :=
  let msg := "Failed to send NET_NEW_RANGE_RESPONSE_PDU"
  if rangeStart < selfData.rangeStart then
    sendOrExit { selfData with rangeStart := rangeStart } .predecessor .netNewRangeResponse msg
  else if selfData.rangeEnd < rangeEnd then
    sendOrExit { selfData with rangeEnd := rangeEnd } .successor .netNewRangeResponse msg
  else sendOrExit selfData .udp .netNewRangeResponse msg

/-- The middle of a range, computed in `int` and stored in a `uint8_t`. -/
def middlePoint (rangeStart rangeEnd : UInt8) : UInt8 :=
  UInt8.ofInt (((rangeEnd.toNat : Int) - rangeStart.toNat).tdiv 2 + rangeStart.toNat)

/-- The loop of `send_new_range_and_entries` at index `i` with `rest` slots still
to look at, so that `num_entries = i + rest`. -/
def sendEntriesOutside : Nat → Nat → SelfData → Outcome
  | 0, _, selfData => ⟨selfData, [], .run⟩
  | rest + 1, i, selfData =>
      match selfData.ssns i, selfData.hashTable with
      | some ssn, some ht =>
          if checkRange selfData ssn then sendEntriesOutside rest (i + 1) selfData
          else
            match htLookup ht ssn with
            -- "Failed to find value for key ... when it should exist"
            | none => ⟨selfData, [], .run⟩
            | some pair =>
                let sent := sendInsertPduTcp selfData .successor ssn pair
                let after := sendEntriesOutside rest i { selfData with
                  hashTable := some (htRemove ht ssn)
                  ssns := closeGap selfData.ssns i (i + rest + 1) }
                ⟨after.selfData, sent ++ after.effects, after.ctl⟩
      | _, _ => ⟨selfData, [], .fault⟩

def sendNewRangeAndEntries (selfData : SelfData) (oldSucc : Addr) : Outcome :=
  let middle := middlePoint selfData.rangeStart selfData.rangeEnd
  let response := Pdu.netJoinResponse oldSucc (middle + 1) selfData.rangeEnd
  (sendOrExit { selfData with rangeEnd := middle } .successor response
    "Failed to send NET_JOIN_RESPONSE_PDU").andThen fun selfData =>
      match selfData.hashTable with
      | none => ⟨selfData, [], .fault⟩
      | some ht => sendEntriesOutside (getNumEntries ht) 0 selfData

/-- The first loop of `send_all_entries`: it skips a key without a value. -/
def sendEntries (selfData : SelfData) (index : FdsIndex) (ht : Ht) :
    Nat → Nat → Option (List Effect)
  | 0, _ => some []
  | rest + 1, i =>
      match selfData.ssns i with
      | none => none
      | some ssn =>
          let sent :=
            match htLookup ht ssn with
            | none => []
            | some pair => sendInsertPduTcp selfData index ssn pair
          (sendEntries selfData index ht rest (i + 1)).map (sent ++ ·)

def removeEntries (ssns : Nat → Option Ssn) : Nat → Nat → Ht → Ht
  | 0, _, ht => ht
  | rest + 1, i, ht =>
      match ssns i with
      | none => ht
      | some ssn => removeEntries ssns rest (i + 1) (htRemove ht ssn)

/-- `send_all_entries`: it leaves a freed table and freed keys behind. -/
def sendAllEntries (selfData : SelfData) (index : FdsIndex) : Outcome :=
  match selfData.hashTable with
  | none => ⟨selfData, [], .fault⟩
  | some ht =>
      let numEntries := getNumEntries ht
      match sendEntries selfData index ht numEntries 0 with
      | none => ⟨selfData, [], .fault⟩
      | some sent =>
          if htDestroy (removeEntries selfData.ssns numEntries 0 ht) then
            ⟨{ selfData with
                hashTable := none
                ssns := fun j => if j < numEntries then none else selfData.ssns j }, sent, .run⟩
          else ⟨selfData, sent, .fault⟩

end DhtRing

import Mathlib.Data.Vector.Basic

/-!
# Protocol data units

Addresses, keys and the PDUs of `resources/pdu.h` that travel between the nodes
of a ring.  Every length-prefixed text is a byte list of at most 255 bytes, so
its one-byte length field never has to be stated apart.
-/

set_option autoImplicit false

namespace DhtRing

/-- `SSN_LENGTH` and `KEY_LEN`. -/
abbrev ssnLength : Nat := 12

/-- A key: 12 raw bytes, not null-terminated. -/
abbrev Ssn := Vector UInt8 ssnLength

abbrev Text := { bytes : List UInt8 // bytes.length ≤ 255 }

theorem nil_fits : ([] : List UInt8).length ≤ 255 := Nat.zero_le 255

structure Addr where
  address : UInt32
  port : UInt16
deriving DecidableEq

structure ValuePair where
  name : Text
  email : Text
deriving DecidableEq

/-- The PDUs that reach a running node or leave it for another node or a client. -/
inductive Pdu where
  | netJoin (src : Addr) (maxSpan : UInt8) (max : Addr)
  | netJoinResponse (next : Addr) (rangeStart rangeEnd : UInt8)
  | netCloseConnection
  | netNewRange (rangeStart rangeEnd : UInt8)
  | netLeaving (new : Addr)
  | netNewRangeResponse
  | valInsert (ssn : Ssn) (pair : ValuePair)
  | valRemove (ssn : Ssn)
  | valLookup (ssn : Ssn) (sender : Addr)
  | valLookupResponse (ssn : Ssn) (pair : ValuePair)
deriving DecidableEq

def Pdu.type : Pdu → UInt8
  | .netJoin _ _ _ => 3
  | .netJoinResponse _ _ _ => 4
  | .netCloseConnection => 5
  | .netNewRange _ _ => 6
  | .netLeaving _ => 7
  | .netNewRangeResponse => 8
  | .valInsert _ _ => 100
  | .valRemove _ => 101
  | .valLookup _ _ => 102
  | .valLookupResponse _ _ => 103

def Pdu.requestKey : Pdu → Option Ssn
  | .valInsert ssn _ => some ssn
  | .valRemove ssn => some ssn
  | .valLookup ssn _ => some ssn
  | _ => none

def Nonzero (ssn : Ssn) : Prop := ∀ byte ∈ ssn.toList, byte ≠ 0

instance (ssn : Ssn) : Decidable (Nonzero ssn) :=
  inferInstanceAs (Decidable (∀ byte ∈ ssn.toList, byte ≠ 0))

end DhtRing

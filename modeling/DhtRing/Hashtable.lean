import Mathlib.Data.List.TakeWhile
import Mathlib.Data.Vector.Basic
import Mathlib.Logic.Function.Basic
import Mathlib.Tactic.Common
import DhtRing.Pdu

/-!
# The chained hash table

`resources/Hashtable/hashtable.c`: 256 buckets of chained nodes, keys compared
with `strncmp` over `KEY_LEN` bytes.  Two keys are the same to the table exactly
when they agree up to their first zero byte (`ckey`) and hash to one bucket; on
keys without zero bytes this is equality.
-/

set_option autoImplicit false

namespace DhtRing

/-! ## Hash and comparison -/

/-- `(uint32_t)ssn[i]`: `char` is signed, so the byte is sign-extended. -/
def widen (char : UInt8) : UInt32 := char.toInt8.toInt32.toUInt32

def digest (ssn : List UInt8) : UInt32 :=
  ssn.foldl (fun hash char => ((hash <<< 5) + hash) + widen char) 5381

def hashSsn (ssn : Ssn) : UInt8 := (digest ssn.toList % 256).toUInt8

/-- `strncmp` on two buffers of the same length: it stops at the first
difference and at a null byte that both share. -/
def strncmp : List UInt8 → List UInt8 → Int
  | a :: as, b :: bs =>
      if a = b then (if a = 0 then 0 else strncmp as bs) else (a.toNat : Int) - b.toNat
  | _, _ => 0

def ckey (ssn : Ssn) : List UInt8 := ssn.toList.takeWhile (· ≠ 0)

theorem strncmp_eq_zero (as bs : List UInt8) (same : as.length = bs.length) :
    strncmp as bs = 0 ↔ as.takeWhile (· ≠ 0) = bs.takeWhile (· ≠ 0) := by
  induction as generalizing bs with
  | nil =>
      cases bs with
      | nil => simp [strncmp]
      | cons b bs => simp at same
  | cons a as ih =>
      cases bs with
      | nil => simp at same
      | cons b bs =>
          have tails : as.length = bs.length := by simpa using same
          by_cases hab : a = b
          · subst hab
            by_cases ha : a = 0
            · simp [strncmp, ha]
            · simp only [strncmp, if_true, if_neg ha, ih bs tails]
              simp [ha]
          · have hne : (a.toNat : Int) - b.toNat ≠ 0 := by
              intro h
              exact hab (UInt8.toNat_inj.mp (by omega))
            simp only [strncmp, if_neg hab, hne, false_iff]
            intro h
            by_cases ha : a = 0
            · have hb : b ≠ 0 := fun hb => hab (ha.trans hb.symm)
              simp [ha, hb] at h
            · by_cases hb : b = 0
              · simp [ha, hb] at h
              · simp [ha, hb] at h
                exact hab h.1

theorem strncmp_ssn (a b : Ssn) : strncmp a.toList b.toList = 0 ↔ ckey a = ckey b :=
  strncmp_eq_zero a.toList b.toList (by simp)

theorem ckey_of_nonzero {ssn : Ssn} (nonzero : Nonzero ssn) : ckey ssn = ssn.toList :=
  List.takeWhile_eq_self_iff.mpr (by simpa [Nonzero] using nonzero)

/-- On keys without zero bytes the table's notion of sameness is equality. -/
theorem ckey_inj_of_nonzero {a b : Ssn} (nonzero : Nonzero b) : ckey a = ckey b ↔ a = b := by
  constructor
  · intro h
    rw [ckey_of_nonzero nonzero] at h
    have whole : (ckey a).length = a.toList.length := by rw [h]; simp
    have self : ckey a = a.toList :=
      (List.takeWhile_prefix _).eq_of_length whole
    exact Vector.toList_inj.mp (self ▸ h)
  · rintro rfl
    rfl

/-! ## The table -/

/-- `node_t`, the `next` pointer being the position in the chain. -/
structure HtNode where
  key : Ssn
  value : ValuePair
deriving DecidableEq

/-- `struct ht`.  `numEntries` counts the buckets in use, `length` the items. -/
structure Ht where
  entries : UInt8 → List HtNode
  numEntries : Nat
  length : Nat

def htCreate : Ht := ⟨fun _ => [], 0, 0⟩

/-- The walk of `ht_insert` along a non-empty chain.  The flag says that no
equal key was found, so that the new node was linked at the end. -/
def chainInsert (key : Ssn) (value : ValuePair) : List HtNode → List HtNode × Bool
  | [] => ([⟨key, value⟩], true)
  | entry :: next =>
      if strncmp entry.key.toList key.toList = 0 then ({ entry with value := value } :: next, false)
      else
        let walked := chainInsert key value next
        (entry :: walked.1, walked.2)

def htInsert (ht : Ht) (key : Ssn) (value : ValuePair) : Ht :=
  let index := hashSsn key
  match ht.entries index with
  | [] =>
      { entries := Function.update ht.entries index [⟨key, value⟩]
        numEntries := ht.numEntries + 1
        length := ht.length + 1 }
  | entry :: next =>
      let walked := chainInsert key value (entry :: next)
      { ht with
        entries := Function.update ht.entries index walked.1
        length := if walked.2 then ht.length + 1 else ht.length }

def chainLookup (key : Ssn) : List HtNode → Option ValuePair
  | [] => none
  | entry :: next =>
      if strncmp entry.key.toList key.toList = 0 then some entry.value else chainLookup key next

def htLookup (ht : Ht) (key : Ssn) : Option ValuePair :=
  match ht.entries (hashSsn key) with
  | [] => none
  | entry :: next =>
      if strncmp entry.key.toList key.toList = 0 then some entry.value
      else chainLookup key (entry :: next)

/-- The search loop of `ht_remove`: the chain without its first match, if there
is one. -/
def chainRemove (key : Ssn) : List HtNode → Option (List HtNode)
  | [] => none
  | entry :: next =>
      if strncmp entry.key.toList key.toList = 0 then some next
      else (chainRemove key next).map (entry :: ·)

def htRemove (ht : Ht) (key : Ssn) : Ht :=
  let index := hashSsn key
  match ht.entries index with
  | [] => ht
  | entry :: next =>
      if strncmp entry.key.toList key.toList = 0 then
        { entries := Function.update ht.entries index next
          numEntries := if next = [] then ht.numEntries - 1 else ht.numEntries
          length := ht.length - 1 }
      else
        match chainRemove key (entry :: next) with
        | none => ht
        | some chain =>
            { ht with
              entries := Function.update ht.entries index chain
              length := ht.length - 1 }

def isEmpty (ht : Ht) : Bool := ht.length == 0

def getNumEntries (ht : Ht) : Nat := ht.length

/-- The loop of `ht_destroy` from bucket `256 - fuel` on.  It answers whether the
table became empty before the index left the 256 buckets. -/
def htDestroyFrom : Nat → Ht → Bool
  | 0, ht => isEmpty ht
  | fuel + 1, ht =>
      if isEmpty ht then true
      else
        let bucket := ht.entries (UInt8.ofNat (255 - fuel))
        htDestroyFrom fuel (bucket.foldl (fun ht entry => htRemove ht entry.key) ht)

def htDestroy (ht : Ht) : Bool := htDestroyFrom 256 ht

/-! ## Chains -/

theorem chainLookup_chainInsert (key key' : Ssn) (value : ValuePair) (chain : List HtNode) :
    chainLookup key' (chainInsert key value chain).1 =
      if ckey key' = ckey key then some value else chainLookup key' chain := by
  induction chain with
  | nil => simp only [chainInsert, chainLookup, strncmp_ssn, eq_comm (a := ckey key)]
  | cons entry next ih =>
      simp only [chainInsert, strncmp_ssn]
      by_cases same : ckey entry.key = ckey key
      · rw [if_pos same]
        simp only [chainLookup, strncmp_ssn, same, eq_comm (a := ckey key)]
        split <;> rfl
      · rw [if_neg same]
        simp only [chainLookup, strncmp_ssn, ih]
        by_cases here : ckey entry.key = ckey key'
        · have other : ckey key' ≠ ckey key := fun h => same (here.trans h)
          simp [here, other]
        · simp [here]

theorem chainInsert_fresh (key : Ssn) (value : ValuePair) (chain : List HtNode) :
    (chainInsert key value chain).2 = (chainLookup key chain).isNone := by
  induction chain with
  | nil => rfl
  | cons entry next ih =>
      simp only [chainInsert, chainLookup]
      split <;> simp_all

theorem chainInsert_keys (key : Ssn) (value : ValuePair) (chain : List HtNode) :
    (chainInsert key value chain).1.map HtNode.key =
      chain.map HtNode.key ++ if (chainLookup key chain).isNone then [key] else [] := by
  induction chain with
  | nil => simp [chainInsert, chainLookup]
  | cons entry next ih =>
      simp only [chainInsert, chainLookup]
      split
      · simp
      · simp [ih]

theorem chainRemove_eq_none (key : Ssn) (chain : List HtNode) :
    chainRemove key chain = none ↔ chainLookup key chain = none := by
  induction chain with
  | nil => simp [chainRemove, chainLookup]
  | cons entry next ih =>
      simp only [chainRemove, chainLookup]
      split <;> simp [ih]

theorem chainLookup_eq_none (key : Ssn) (chain : List HtNode) :
    chainLookup key chain = none ↔ ∀ entry ∈ chain, ckey entry.key ≠ ckey key := by
  induction chain with
  | nil => simp [chainLookup]
  | cons entry next ih =>
      simp only [chainLookup, strncmp_ssn, List.forall_mem_cons]
      split
      · simp_all
      · simp_all

theorem chainRemove_keys {key : Ssn} {chain chain' : List HtNode}
    (removed : chainRemove key chain = some chain') : chain'.Sublist chain := by
  induction chain generalizing chain' with
  | nil => simp [chainRemove] at removed
  | cons entry next ih =>
      simp only [chainRemove] at removed
      split at removed
      · cases removed
        exact List.sublist_cons_self entry next
      · obtain ⟨rest, hrest, rfl⟩ := Option.map_eq_some_iff.mp removed
        exact (ih hrest).cons_cons entry

theorem chainLookup_chainRemove {key : Ssn} {chain chain' : List HtNode}
    (distinct : (chain.map fun entry => ckey entry.key).Nodup)
    (removed : chainRemove key chain = some chain') (key' : Ssn) :
    chainLookup key' chain' = if ckey key' = ckey key then none else chainLookup key' chain := by
  induction chain generalizing chain' with
  | nil => simp [chainRemove] at removed
  | cons entry next ih =>
      simp only [List.map_cons, List.nodup_cons, List.mem_map, not_exists, not_and] at distinct
      obtain ⟨head, tail⟩ := distinct
      simp only [chainRemove, strncmp_ssn] at removed
      by_cases same : ckey entry.key = ckey key
      · rw [if_pos same] at removed
        cases removed
        simp only [chainLookup, strncmp_ssn, same, eq_comm (a := ckey key)]
        split
        · rename_i h
          exact (chainLookup_eq_none key' next).mpr fun other mem eq =>
            head other mem (by rw [eq, same, h])
        · rfl
      · rw [if_neg same] at removed
        obtain ⟨rest, hrest, rfl⟩ := Option.map_eq_some_iff.mp removed
        simp only [chainLookup, strncmp_ssn, ih tail hrest]
        by_cases here : ckey entry.key = ckey key'
        · have other : ckey key' ≠ ckey key := fun h => same (here.trans h)
          simp [here, other]
        · simp [here]

/-! ## The table as a map -/

def SameKey (a b : Ssn) : Prop := hashSsn a = hashSsn b ∧ ckey a = ckey b

instance (a b : Ssn) : Decidable (SameKey a b) :=
  inferInstanceAs (Decidable (_ ∧ _))

theorem sameKey_of_nonzero {a b : Ssn} (nonzero : Nonzero b) : SameKey a b ↔ a = b := by
  constructor
  · exact fun h => (ckey_inj_of_nonzero nonzero).mp h.2
  · rintro rfl
    exact ⟨rfl, rfl⟩

/-- Every node sits in the bucket of its key, and no bucket holds a key twice. -/
structure Ht.Sound (ht : Ht) : Prop where
  bucket : ∀ index, ∀ entry ∈ ht.entries index, hashSsn entry.key = index
  distinct : ∀ index, ((ht.entries index).map fun entry => ckey entry.key).Nodup

theorem sound_htCreate : htCreate.Sound :=
  ⟨fun _ _ mem => by simp [htCreate] at mem, fun _ => by simp [htCreate]⟩

theorem htLookup_eq (ht : Ht) (key : Ssn) :
    htLookup ht key = chainLookup key (ht.entries (hashSsn key)) := by
  unfold htLookup
  split
  · rename_i empty
    rw [empty, chainLookup]
  · rename_i entry next chain
    rw [chain, chainLookup]
    split <;> rfl

/-- Both branches of `ht_insert` are one walk of the key's chain. -/
theorem htInsert_entries (ht : Ht) (key : Ssn) (value : ValuePair) :
    (htInsert ht key value).entries =
      Function.update ht.entries (hashSsn key)
        (chainInsert key value (ht.entries (hashSsn key))).1 := by
  unfold htInsert
  dsimp only
  split
  · rename_i empty
    rw [empty, chainInsert]
  · rename_i entry next chain
    rw [chain]

theorem htLookup_htInsert (ht : Ht) (key key' : Ssn) (value : ValuePair) :
    htLookup (htInsert ht key value) key' =
      if SameKey key' key then some value else htLookup ht key' := by
  rw [htLookup_eq, htLookup_eq, htInsert_entries]
  by_cases bucket : hashSsn key' = hashSsn key
  · rw [bucket, Function.update_self, chainLookup_chainInsert]
    simp [SameKey, bucket]
  · rw [Function.update_of_ne bucket]
    simp [SameKey, bucket]

theorem length_htInsert (ht : Ht) (key : Ssn) (value : ValuePair) :
    (htInsert ht key value).length =
      if (htLookup ht key).isNone then ht.length + 1 else ht.length := by
  rw [htLookup_eq]
  unfold htInsert
  dsimp only
  split
  · rename_i empty
    simp [empty, chainLookup]
  · rename_i entry next chain
    rw [chain, chainInsert_fresh]

theorem Ht.Sound.htInsert {ht : Ht} (sound : ht.Sound) (key : Ssn) (value : ValuePair) :
    (htInsert ht key value).Sound := by
  have keys := chainInsert_keys key value (ht.entries (hashSsn key))
  constructor
  · intro index entry mem
    rw [htInsert_entries] at mem
    by_cases here : index = hashSsn key
    · subst here
      rw [Function.update_self] at mem
      have key_mem : entry.key ∈
          (chainInsert key value (ht.entries (hashSsn key))).1.map HtNode.key :=
        List.mem_map_of_mem mem
      rw [keys, List.mem_append, List.mem_map] at key_mem
      rcases key_mem with ⟨old, old_mem, eq⟩ | new
      · rw [← eq]
        exact sound.bucket _ old old_mem
      · split at new
        · rw [List.mem_singleton.mp new]
        · simp at new
    · rw [Function.update_of_ne here] at mem
      exact sound.bucket index entry mem
  · intro index
    rw [htInsert_entries]
    by_cases here : index = hashSsn key
    · subst here
      rw [Function.update_self]
      have split_keys := congrArg (List.map ckey) keys
      rw [List.map_map, List.map_append, List.map_map] at split_keys
      rw [show (fun entry : HtNode => ckey entry.key) = ckey ∘ HtNode.key from rfl, split_keys]
      by_cases absent : chainLookup key (ht.entries (hashSsn key)) = none
      · have apart := (chainLookup_eq_none key _).mp absent
        simp only [absent, Option.isNone_none, if_true, List.map_cons, List.map_nil]
        refine List.Nodup.append (sound.distinct _) (List.nodup_singleton _) ?_
        intro a a_mem a_eq
        obtain ⟨entry, mem, rfl⟩ := List.mem_map.mp a_mem
        exact apart entry mem (List.mem_singleton.mp a_eq)
      · have found : (chainLookup key (ht.entries (hashSsn key))).isNone = false := by
          simpa [Option.isSome_iff_ne_none] using absent
        simpa [found, Function.comp_def] using sound.distinct (hashSsn key)
    · rw [Function.update_of_ne here]
      exact sound.distinct index

theorem htRemove_cases (ht : Ht) (key : Ssn) :
    (htLookup ht key = none ∧ htRemove ht key = ht) ∨
      ∃ chain, chainRemove key (ht.entries (hashSsn key)) = some chain ∧
        htLookup ht key ≠ none ∧
        (htRemove ht key).entries = Function.update ht.entries (hashSsn key) chain ∧
        (htRemove ht key).length = ht.length - 1 := by
  rw [htLookup_eq]
  unfold htRemove
  dsimp only
  split
  · rename_i empty
    simp [empty, chainLookup]
  · rename_i entry next chain
    rw [chain]
    by_cases head : strncmp entry.key.toList key.toList = 0
    · refine Or.inr ⟨next, ?_, ?_, ?_, ?_⟩ <;> simp [chainRemove, chainLookup, head]
    · rw [if_neg head]
      cases removed : chainRemove key (entry :: next) with
      | none => exact Or.inl ⟨(chainRemove_eq_none key _).mp removed, rfl⟩
      | some rest =>
          refine Or.inr ⟨rest, rfl, ?_, rfl, rfl⟩
          intro absent
          rw [(chainRemove_eq_none key _).mpr absent] at removed
          cases removed

theorem htLookup_htRemove {ht : Ht} (sound : ht.Sound) (key key' : Ssn) :
    htLookup (htRemove ht key) key' = if SameKey key' key then none else htLookup ht key' := by
  rcases htRemove_cases ht key with ⟨absent, unchanged⟩ | ⟨chain, removed, -, entries, -⟩
  · rw [unchanged]
    split
    · rename_i same
      have apart := (chainLookup_eq_none key _).mp (htLookup_eq ht key ▸ absent)
      rw [htLookup_eq, same.1, chainLookup_eq_none]
      intro entry mem eq
      exact apart entry mem (eq.trans same.2)
    · rfl
  · rw [htLookup_eq, htLookup_eq, entries]
    by_cases bucket : hashSsn key' = hashSsn key
    · rw [bucket, Function.update_self,
        chainLookup_chainRemove (sound.distinct _) removed]
      simp [SameKey, bucket]
    · rw [Function.update_of_ne bucket]
      simp [SameKey, bucket]

theorem length_htRemove (ht : Ht) (key : Ssn) :
    (htRemove ht key).length =
      if (htLookup ht key).isNone then ht.length else ht.length - 1 := by
  rcases htRemove_cases ht key with ⟨absent, unchanged⟩ | ⟨chain, -, present, -, length⟩
  · rw [unchanged]
    simp [absent]
  · rw [length]
    simp [present]

theorem Ht.Sound.htRemove {ht : Ht} (sound : ht.Sound) (key : Ssn) :
    (htRemove ht key).Sound := by
  rcases htRemove_cases ht key with ⟨-, unchanged⟩ | ⟨chain, removed, -, entries, -⟩
  · rw [unchanged]
    exact sound
  · have sublist := chainRemove_keys removed
    constructor
    · intro index entry mem
      rw [entries] at mem
      by_cases here : index = hashSsn key
      · subst here
        rw [Function.update_self] at mem
        exact sound.bucket _ entry (sublist.subset mem)
      · rw [Function.update_of_ne here] at mem
        exact sound.bucket index entry mem
    · intro index
      rw [entries]
      by_cases here : index = hashSsn key
      · subst here
        rw [Function.update_self]
        exact (sublist.map _).nodup (sound.distinct _)
      · rw [Function.update_of_ne here]
        exact sound.distinct index

end DhtRing

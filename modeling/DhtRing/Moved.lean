import DhtRing.TableCalls
import DhtRing.Wiring

/-!
# What a split moves

`send_new_range_and_entries` on a table that `ht_insert` and `ht_remove` have built and an
array that lists its keys, whatever bytes these have.  The statements are about the nodes
in the buckets.
-/

set_option autoImplicit false

namespace DhtRing

/-! ## Tables and their keys -/

/-- A table from `ht_create`, `ht_insert` and `ht_remove`. -/
inductive Built : Ht → Prop
  | create : Built htCreate
  | insert {ht : Ht} (key : Ssn) (pair : ValuePair) (before : Built ht) : Built (htInsert ht key pair)
  | remove {ht : Ht} (key : Ssn) (before : Built ht) : Built (htRemove ht key)

def Ht.Has (ht : Ht) (key : Ssn) (pair : ValuePair) : Prop :=
  ∃ index, ⟨key, pair⟩ ∈ ht.entries index

def Lists (ssns : Nat → Option Ssn) (ht : Ht) : Prop :=
  ∃ keys : List Ssn, keys.Nodup ∧ keys.length = getNumEntries ht ∧
    (∀ i < getNumEntries ht, ssns i = keys[i]?) ∧ ∀ key, key ∈ keys ↔ ∃ pair, ht.Has key pair

section

variable {ht : Ht} {ssns : Nat → Option Ssn} {keys : List Ssn} {key : Ssn} {pair : ValuePair}

theorem Built.sound (built : Built ht) : ht.Sound := by
  induction built with
  | create => exact sound_htCreate
  | insert key pair _ ih => exact ih.htInsert key pair
  | remove key _ ih => exact ih.htRemove key

theorem Ht.has_iff (sound : ht.Sound) : ht.Has key pair ↔ ht.get key = some pair := by
  constructor
  · rintro ⟨index, mem⟩
    have bucket : hashSsn key = index := sound.bucket index ⟨key, pair⟩ mem
    subst bucket
    have stored : (ht.get key).isSome := by
      rw [Ht.get, Option.isSome_map, List.find?_isSome]
      exact ⟨_, mem, decide_eq_true rfl⟩
    obtain ⟨other, get⟩ := Option.isSome_iff_exists.mp stored
    obtain ⟨entry, mem', same, value⟩ := Ht.mem_of_get get
    -- a chain has each key once
    have alike : entry = ⟨key, pair⟩ :=
      List.inj_on_of_nodup_map (sound.distinct _) mem' mem (by rw [same])
    rw [get, ← value, alike]
  · intro get
    obtain ⟨entry, mem, rfl, rfl⟩ := Ht.mem_of_get get
    exact ⟨_, mem⟩

theorem Mirrors.lists (mirrors : Mirrors ht ssns keys) : Lists ssns ht := by
  refine ⟨keys, mirrors.nodup, mirrors.length.symm, ?_, ?_⟩
  · intro i inside
    rw [getNumEntries, mirrors.length] at inside
    exact mirrors.slots i inside
  · intro key
    rw [← mirrors.present, Option.isSome_iff_exists]
    simp only [Ht.has_iff mirrors.sound]

theorem Lists.mirrors (built : Built ht) (lists : Lists ssns ht) :
    ∃ keys, Mirrors ht ssns keys := by
  obtain ⟨keys, nodup, length, slots, all⟩ := lists
  refine ⟨keys, built.sound, nodup, ?_, length.symm, ?_⟩
  · intro i inside
    rw [length] at inside
    exact slots i inside
  · intro key
    rw [all, Option.isSome_iff_exists]
    simp only [Ht.has_iff built.sound]

theorem sendEntriesOutside_built (rest : Nat) : ∀ (i : Nat) (selfData : SelfData) (ht : Ht),
    selfData.hashTable = some ht → Built ht →
      ∃ after, (sendEntriesOutside rest i selfData).selfData.hashTable = some after ∧
        Built after := by
  induction rest with
  | zero => exact fun i selfData ht table built => ⟨ht, table, built⟩
  | succ rest ih =>
      intro i selfData ht table built
      simp only [sendEntriesOutside, table]
      cases selfData.ssns i with
      | none => exact ⟨ht, table, built⟩
      | some ssn =>
          dsimp only
          split
          · exact ih _ selfData ht table built
          · cases htLookup ht ssn with
            | none => exact ⟨ht, table, built⟩
            | some pair => exact ih _ _ _ rfl (built.remove ssn)

theorem sendNewRangeAndEntries_built {selfData : SelfData} {conn : Conn}
    (table : selfData.hashTable = some ht) (built : Built ht)
    (successor : selfData.fdsSuccessor = some conn) (oldSucc : Addr) :
    ∃ after, (sendNewRangeAndEntries selfData oldSucc).selfData.hashTable = some after ∧
      Built after := by
  simp only [sendNewRangeAndEntries, sendOrExit, SelfData.fd, successor, Option.map_some,
    andThen_run, table]
  exact sendEntriesOutside_built _ _ _ ht rfl built

theorem nodup_listed (selfData : SelfData) (nodup : keys.Nodup) :
    ((selfData.listed keys).map Prod.fst).Nodup := by
  have sublist : ((selfData.listed keys).map Prod.fst).Sublist keys := by
    rw [SelfData.listed, List.map_filterMap]
    induction keys with
    | nil => exact List.Sublist.slnil
    | cons head tail ih =>
        have tails := ih (List.nodup_cons.mp nodup).2
        rw [List.filterMap_cons]
        cases selfData.get head with
        | none => exact tails.cons head
        | some pair => exact tails.cons_cons head
  exact sublist.nodup nodup

theorem mem_listed_iff (selfData : SelfData) :
    (key, pair) ∈ selfData.listed keys ↔ key ∈ keys ∧ selfData.get key = some pair := by
  rw [SelfData.listed, List.mem_filterMap]
  constructor
  · rintro ⟨other, mem, found⟩
    obtain ⟨value, get, same⟩ := Option.map_eq_some_iff.mp found
    cases same
    exact ⟨mem, get⟩
  · rintro ⟨mem, get⟩
    exact ⟨key, mem, by rw [get, Option.map_some]⟩

end

/-! ## The split -/

/-- `send_new_range_and_entries` sends the upper half of the range and then each entry of it
once, and the table and the array keep just the others. -/
theorem split_moves_exactly {selfData : SelfData} {ht : Ht} {conn : Conn}
    (table : selfData.hashTable = some ht) (built : Built ht) (lists : Lists selfData.ssns ht)
    (lt : selfData.rangeStart < selfData.rangeEnd) (successor : selfData.fdsSuccessor = some conn)
    (oldSucc : Addr) :
    ∃ (middle low : UInt8) (sent : List (Ssn × ValuePair)) (ht' : Ht) (ssns' : Nat → Option Ssn),
      sendNewRangeAndEntries selfData oldSucc =
        ⟨{ selfData with rangeEnd := middle, hashTable := some ht', ssns := ssns' },
          .tcp (.up conn) (.netJoinResponse oldSucc low selfData.rangeEnd) ::
            insertAll (.up conn) sent, .run⟩ ∧
      middle.toNat = (selfData.rangeEnd.toNat - selfData.rangeStart.toNat) / 2 +
        selfData.rangeStart.toNat ∧
      low.toNat = middle.toNat + 1 ∧
      (sent.map Prod.fst).Nodup ∧
      (∀ key pair, (key, pair) ∈ sent ↔ ht.Has key pair ∧
        ¬ (selfData.rangeStart ≤ hashSsn key ∧ hashSsn key ≤ middle)) ∧
      Built ht' ∧ Lists ssns' ht' ∧
      ∀ key pair, ht'.Has key pair ↔ ht.Has key pair ∧
        (selfData.rangeStart ≤ hashSsn key ∧ hashSsn key ≤ middle) := by
  obtain ⟨keys, mirrors⟩ := lists.mirrors built
  obtain ⟨ht', ssns', run, ⟨ht'', table'', mirrors''⟩, values⟩ :=
    sendNewRangeAndEntries_mirrored successor ⟨ht, table, mirrors⟩ oldSucc
  obtain rfl : ht' = ht'' := Option.some.inj table''
  have mirrors' : Mirrors ht' ssns' _ := mirrors''
  have get : ∀ key, selfData.get key = ht.get key := by
    intro key
    rw [SelfData.get, table, Option.bind_some]
  have in_range : ∀ key, checkRange { selfData with
      rangeEnd := middlePoint selfData.rangeStart selfData.rangeEnd } key = true ↔
        selfData.rangeStart ≤ hashSsn key ∧
          hashSsn key ≤ middlePoint selfData.rangeStart selfData.rangeEnd := by
    intro key
    rw [checkRange, Bool.and_eq_true, decide_eq_true_eq, decide_eq_true_eq]
  have sound' : ht'.Sound := mirrors'.sound
  refine ⟨_, _, _, ht', ssns', run, ?_, toNat_middlePoint_succ lt, nodup_listed _ ?_, ?_, ?_,
    mirrors'.lists, ?_⟩
  · rw [toNat_middlePoint (UInt8.le_of_lt lt), Nat.add_comm]
  · exact mirrors.nodup.filter _
  · intro key pair
    rw [mem_listed_iff, List.mem_filter, get, ← mirrors.present, ← Ht.has_iff built.sound,
      Bool.not_eq_true', ← Bool.not_eq_true, in_range]
    constructor
    · rintro ⟨⟨-, out⟩, has⟩
      exact ⟨has, out⟩
    · rintro ⟨has, out⟩
      refine ⟨⟨?_, out⟩, has⟩
      rw [(Ht.has_iff built.sound).mp has]
      rfl
  · obtain ⟨after, table_after, built_after⟩ :=
      sendNewRangeAndEntries_built table built successor oldSucc
    rw [run] at table_after
    obtain rfl : ht' = after := Option.some.inj table_after
    exact built_after
  · intro key pair
    have value : ht'.get key = _ := values key
    rw [Ht.has_iff sound', Ht.has_iff built.sound, value, get, ← in_range]
    split
    · rename_i out
      simp [out]
    · rename_i inside
      simp [inside]

def oneEntryNode : SelfData :=
  { loneNode with
    hashTable := some (htInsert htCreate (zeroKey 1 2) ⟨noText, noText⟩)
    ssns := Function.update loneNode.ssns 0 (some (zeroKey 1 2))
    fdsSuccessor := some ⟨loneNode.listening, ⟨2, 5000⟩, 0⟩ }

def twoEntryNode : SelfData :=
  { oneEntryNode with
    hashTable := oneEntryNode.hashTable.map fun ht =>
      htInsert ht (zeroKey 1 200) ⟨noText, noText⟩
    ssns := Function.update oneEntryNode.ssns 1 (some (zeroKey 1 200)) }

theorem split_moves_exactly_twoEntryNode :
    ∃ selfData : SelfData, sendNewRangeAndEntries twoEntryNode ⟨2, 5000⟩ =
        ⟨selfData, [.tcp (.up ⟨loneNode.listening, ⟨2, 5000⟩, 0⟩)
            (.netJoinResponse ⟨2, 5000⟩ 128 255),
          .tcp (.up ⟨loneNode.listening, ⟨2, 5000⟩, 0⟩)
            (.valInsert (zeroKey 1 200) ⟨noText, noText⟩)], .run⟩ ∧
      selfData.rangeEnd = 127 ∧ selfData.get (zeroKey 1 2) = some ⟨noText, noText⟩ ∧
      selfData.get (zeroKey 1 200) = none := by
  have absent : htCreate.resident (zeroKey 1 2) = none := rfl
  have mirrors := (mirrors_htCreate loneNode.ssns).insert_absent absent ⟨noText, noText⟩
  have absent' : (htInsert htCreate (zeroKey 1 2) ⟨noText, noText⟩).resident (zeroKey 1 200) =
    none := by decide
  have mirrors' := mirrors.insert_absent absent' ⟨noText, noText⟩
  have table : twoEntryNode.hashTable = some (htInsert (htInsert htCreate (zeroKey 1 2)
    ⟨noText, noText⟩) (zeroKey 1 200) ⟨noText, noText⟩) := rfl
  obtain ⟨middle, low, sent, ht', ssns', run, half, above, nodup, mem, built, lists, has⟩ :=
    split_moves_exactly table ((Built.create.insert _ _).insert _ _) mirrors'.lists (by decide)
      rfl ⟨2, 5000⟩
  have effects : (sendNewRangeAndEntries twoEntryNode ⟨2, 5000⟩).effects =
      [.tcp (.up ⟨loneNode.listening, ⟨2, 5000⟩, 0⟩) (.netJoinResponse ⟨2, 5000⟩ 128 255),
        .tcp (.up ⟨loneNode.listening, ⟨2, 5000⟩, 0⟩)
          (.valInsert (zeroKey 1 200) ⟨noText, noText⟩)] := by decide
  have middle_eq : middle = 127 := UInt8.toNat_inj.mp half
  subst middle_eq
  rw [run] at effects
  refine ⟨_, run.trans (congrArg (Outcome.mk _ · .run) effects), rfl, ?_, ?_⟩
  · have inside : 0 ≤ hashSsn (zeroKey 1 2) ∧ hashSsn (zeroKey 1 2) ≤ 127 := by decide
    have held : Ht.Has (htInsert (htInsert htCreate (zeroKey 1 2) ⟨noText, noText⟩)
        (zeroKey 1 200) ⟨noText, noText⟩) (zeroKey 1 2) ⟨noText, noText⟩ :=
      ⟨hashSsn (zeroKey 1 2), by decide⟩
    exact (Ht.has_iff built.sound).mp ((has _ _).mpr ⟨held, inside⟩)
  · refine Option.eq_none_iff_forall_ne_some.mpr fun pair kept => ?_
    have outside : ¬ hashSsn (zeroKey 1 200) ≤ 127 := by decide
    exact outside ((has _ _).mp ((Ht.has_iff built.sound).mpr kept)).2.2

end DhtRing

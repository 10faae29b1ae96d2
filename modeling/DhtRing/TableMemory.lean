import DhtRing.Lib.Linked
import DhtRing.TableCounters

/-!
# The hash table in memory

`hashtable.c` once more, now with its pointers: a node has an address, `ht_insert` and
`ht_remove` change `next` pointers of nodes, and `free` takes an address.  Where the code
would follow a null pointer or use a node that has been freed, the functions here have no
result.  They never get there, and what they do to the chains is what the functions on
lists of nodes do.  The function that frees values, which is NULL in a node, is left out.
-/

set_option autoImplicit false

namespace DhtRing

open Linked

/-! ## The functions with pointers -/

/-- `struct ht` and the memory of its nodes.  `freed` are the addresses given to `free` so
far. -/
structure HtMemory where
  heap : Heap HtNode
  entries : UInt8 → Pointer
  numEntries : ℕ
  length : ℕ
  freed : List ℕ

def sameAs (key : Ssn) (node : HtNode) : Bool := strncmp node.key.toList key.toList = 0

namespace HtMemory

def htCreate : HtMemory := ⟨fun _ => none, fun _ => none, 0, 0, []⟩

def free (mem : HtMemory) (node : Pointer) : Option HtMemory := do
  let heap ← mem.heap.free node
  return { mem with heap := heap, freed := mem.freed ++ node.toList }

/-- `ht_insert`, with the address `n` from `calloc`.  A chain has no more nodes than the
table, so its loop gets `length` turns. -/
def htInsert (mem : HtMemory) (key : Ssn) (value : ValuePair) (n : ℕ) : Option HtMemory :=
  let index := hashSsn key
  let mem := { mem with heap := mem.heap.alloc n ⟨⟨key, value⟩, none⟩ }
  match mem.entries index with
  | none =>
      some { mem with
        entries := Function.update mem.entries index (some n)
        numEntries := mem.numEntries + 1
        length := mem.length + 1 }
  | some first => do
      let (prev, entry) ← mem.heap.seek (sameAs key) mem.length none (some first)
      match entry with
      | none =>
          let heap ← mem.heap.setNext prev (some n)
          return { mem with heap := heap, length := mem.length + 1 }
      | some entry =>
          let heap ← mem.heap.setItem (some entry) fun node => { node with value := value }
          { mem with heap := heap }.free (some n)

def lookupLoop (heap : Heap HtNode) (key : Ssn) : ℕ → Pointer → Option (Option ValuePair)
  | _, none => some none
  | 0, some _ => none
  | fuel + 1, some entry => do
      let cell ← heap entry
      if strncmp cell.item.key.toList key.toList = 0 then return some cell.item.value
      else lookupLoop heap key fuel cell.next

def htLookup (mem : HtMemory) (key : Ssn) : Option (Option ValuePair) :=
  match mem.entries (hashSsn key) with
  | none => some none
  | some entry => do
      let cell ← mem.heap entry
      if strncmp cell.item.key.toList key.toList = 0 then return some cell.item.value
      else lookupLoop mem.heap key mem.length (some entry)

def htRemove (mem : HtMemory) (key : Ssn) : Option HtMemory :=
  let index := hashSsn key
  match mem.entries index with
  | none => some mem
  | some entry => do
      let cell ← mem.heap entry
      if strncmp cell.item.key.toList key.toList = 0 then
        let mem := { mem with entries := Function.update mem.entries index cell.next }
        let mem ← mem.free (some entry)
        let mem := { mem with length := mem.length - 1 }
        return if mem.entries index = none then { mem with numEntries := mem.numEntries - 1 } else mem
      else
        let (prev, entry) ← mem.heap.seek (sameAs key) mem.length none (some entry)
        match entry with
        | none => return mem
        | some entry =>
            let cell ← mem.heap entry
            let heap ← mem.heap.setNext prev cell.next
            let mem ← { mem with heap := heap }.free (some entry)
            return { mem with length := mem.length - 1 }

def isEmpty (mem : HtMemory) : Bool := mem.length == 0

/-- The inner loop of `ht_destroy`: `entry` moves on before the node it leaves is removed. -/
def destroyChain : ℕ → Pointer → HtMemory → Option HtMemory
  | _, none, mem => some mem
  | 0, some _, _ => none
  | fuel + 1, some temp, mem => do
      let cell ← mem.heap temp
      let mem ← mem.htRemove cell.item.key
      destroyChain fuel cell.next mem

def maxSize : ℕ := 256

/-- The outer loop of `ht_destroy` from the bucket `i` on, with the `i` at its end.  Behind the
last bucket there is nothing to read. -/
def destroyFrom : ℕ → ℕ → HtMemory → Option (ℕ × HtMemory)
  | turns, i, mem =>
      if mem.isEmpty then some (i, mem)
      else
        match turns with
        | 0 => none
        | turns + 1 =>
            if i < maxSize then do
              let mem ← destroyChain mem.length (mem.entries (UInt8.ofNat i)) mem
              destroyFrom turns (i + 1) mem
            else none

/-- `ht_destroy`, up to the last two lines, which free the array and the table. -/
def htDestroy (mem : HtMemory) : Option (ℕ × HtMemory) := destroyFrom (maxSize + 1) 0 mem

end HtMemory

section

variable {key : Ssn} {node : HtNode}

theorem sameAs_iff_strncmp : sameAs key node = true ↔ strncmp node.key.toList key.toList = 0 :=
  decide_eq_true_iff

theorem sameAs_iff : sameAs key node = true ↔ ckey node.key = ckey key := by
  rw [sameAs_iff_strncmp, strncmp_ssn]

theorem strncmp_ne_zero (other : sameAs key node = false) :
    ¬ strncmp node.key.toList key.toList = 0 := by
  rw [← sameAs_iff_strncmp, other]
  exact Bool.false_ne_true

theorem sameAs_eq_false_iff : sameAs key node = false ↔ ckey node.key ≠ ckey key := by
  rw [Ne, ← sameAs_iff, Bool.not_eq_true]

end

/-! ## Chains in memory -/

namespace HtMemory

variable {mem : HtMemory} {cells : UInt8 → List (ℕ × HtNode)} {key : Ssn} {value : ValuePair} {n : ℕ}

/-- The table that the code means: the nodes of each chain without their addresses. -/
def table (mem : HtMemory) (cells : UInt8 → List (ℕ × HtNode)) : Ht :=
  ⟨fun index => (cells index).map Prod.snd, mem.numEntries, mem.length⟩

/-- The chains are lists that hold these nodes, no other node is allocated, and the table
they make is sound and has its counters right. -/
structure Holds (mem : HtMemory) (cells : UInt8 → List (ℕ × HtNode)) : Prop where
  lists : Lists mem.heap mem.entries cells
  sound : (mem.table cells).Sound
  counted : (mem.table cells).Counted

theorem table_entries (mem : HtMemory) (cells : UInt8 → List (ℕ × HtNode)) (index : UInt8) :
    (mem.table cells).entries index = (cells index).map Prod.snd := rfl

theorem table_update (mem mem' : HtMemory) (cells : UInt8 → List (ℕ × HtNode)) (index : UInt8)
    (xs : List (ℕ × HtNode)) :
    mem'.table (Function.update cells index xs) =
      { entries := Function.update (mem.table cells).entries index (xs.map Prod.snd)
        numEntries := mem'.numEntries
        length := mem'.length } :=
  Ht.ext (Function.comp_update (List.map Prod.snd) cells index xs) rfl rfl

theorem holds_htCreate : htCreate.Holds fun _ => [] where
  lists := ⟨fun _ => rfl, fun _ _ _ mem => absurd mem (by simp), fun _ some => absurd rfl some⟩
  sound := sound_htCreate
  counted := counted_htCreate

theorem Holds.length_le (holds : mem.Holds cells) (index : UInt8) :
    (cells index).length ≤ mem.length := by
  have bound := holds.counted.length_le index
  rwa [table, List.length_map] at bound

theorem Holds.fresh (holds : mem.Holds cells) (free : mem.heap n = none) (index : UInt8) :
    n ∉ (cells index).map Prod.fst :=
  fun listed => (holds.lists.allocated_iff n).mpr ⟨index, listed⟩ free

theorem Holds.of_htInsert (holds : mem.Holds cells) {mem' : HtMemory}
    {cells' : UInt8 → List (ℕ × HtNode)}
    (lists : Lists mem'.heap mem'.entries cells')
    (same : mem'.table cells' = DhtRing.htInsert (mem.table cells) key value) :
    mem'.Holds cells' where
  lists := lists
  sound := same ▸ holds.sound.htInsert key value
  counted := same ▸ holds.counted.htInsert key value

theorem Holds.of_htRemove (holds : mem.Holds cells) {mem' : HtMemory}
    {cells' : UInt8 → List (ℕ × HtNode)}
    (lists : Lists mem'.heap mem'.entries cells')
    (same : mem'.table cells' = DhtRing.htRemove (mem.table cells) key) : mem'.Holds cells' where
  lists := lists
  sound := same ▸ holds.sound.htRemove key
  counted := same ▸ holds.counted.htRemove key

theorem free_of_cell {address : ℕ} {cell : Cell HtNode} (here : mem.heap address = some cell) :
    mem.free (some address) = some { mem with
      heap := Function.update mem.heap address none
      freed := mem.freed ++ [address] } := by
  rw [free, Heap.free_of_cell here]
  rfl

theorem exists_found (key : Ssn) (chain : List (ℕ × HtNode)) :
    (∀ cell ∈ chain, sameAs key cell.2 = false) ∨
      ∃ before address node after, chain = before ++ (address, node) :: after ∧
        (∀ cell ∈ before, sameAs key cell.2 = false) ∧ sameAs key node = true := by
  cases found : chain.find? fun cell => sameAs key cell.2 with
  | none => exact Or.inl (by simpa using List.find?_eq_none.mp found)
  | some cell =>
      obtain ⟨same, before, after, split, absent⟩ := List.find?_eq_some_iff_append.mp found
      exact Or.inr ⟨before, cell.1, cell.2, after, split, by simpa using absent, same⟩

theorem absent_table {chain : List (ℕ × HtNode)}
    (absent : ∀ cell ∈ chain, sameAs key cell.2 = false) :
    ∀ entry ∈ chain.map Prod.snd, ckey entry.key ≠ ckey key := by
  intro entry listed
  obtain ⟨cell, mem, rfl⟩ := List.mem_map.mp listed
  exact sameAs_eq_false_iff.mp (absent cell mem)

theorem table_of_found {before after : List (ℕ × HtNode)} {address : ℕ} {node : HtNode}
    (chain : cells (hashSsn key) = before ++ (address, node) :: after) :
    (mem.table cells).entries
    (hashSsn key) = before.map Prod.snd ++ node :: after.map Prod.snd := by
  rw [table_entries, chain, List.map_append, List.map_cons]

theorem Holds.htInsert_empty (holds : mem.Holds cells) (free : mem.heap n = none)
    (empty : cells (hashSsn key) = []) (value : ValuePair) :
    ∃ mem', mem.htInsert key value n = some mem' ∧
      Lists mem'.heap mem'.entries (Function.update cells (hashSsn key) [(n, ⟨key, value⟩)]) ∧
      mem'.numEntries = mem.numEntries + 1 ∧ mem'.length = mem.length + 1 := by
  have segment := holds.lists.linked (hashSsn key)
  rw [empty] at segment
  have first : mem.entries (hashSsn key) = none := segment
  refine ⟨_, by rw [HtMemory.htInsert]; dsimp only; rw [first], ?_, rfl, rfl⟩
  refine holds.lists.replace (hashSsn key) ⟨rfl, none, Heap.alloc_self .., rfl⟩ ?_ ?_ ?_
  · intro address _ other
    exact Heap.alloc_of_ne (by simpa using other)
  · intro address new _
    obtain rfl : address = n := by simpa using new
    exact free
  · intro address old _
    simp [empty] at old

theorem Holds.htInsert_absent (holds : mem.Holds cells) (free : mem.heap n = none)
    (used : cells (hashSsn key) ≠ [])
    (absent : ∀ cell ∈ cells (hashSsn key), sameAs key cell.2 = false) (value : ValuePair) :
    ∃ mem', mem.htInsert key value n = some mem' ∧
      Lists mem'.heap mem'.entries
        (Function.update cells (hashSsn key) (cells (hashSsn key) ++ [(n, ⟨key, value⟩)])) ∧
      mem'.numEntries = mem.numEntries ∧ mem'.length = mem.length + 1 := by
  have outside := holds.fresh free (hashSsn key)
  have segment := (holds.lists.linked (hashSsn key)).alloc outside ⟨⟨key, value⟩, none⟩
  have sought := segment.seek_absent (holds.length_le (hashSsn key)) absent none
  obtain ⟨first, first_eq⟩ := Option.ne_none_iff_exists'.mp (segment.first_eq_none_iff.not.mpr used)
  obtain ⟨before, ⟨prev, node⟩, whole⟩ := (List.eq_nil_or_concat' (cells (hashSsn key))).resolve_left used
  rw [whole] at segment outside
  rw [whole, lastOf_append_singleton] at sought
  obtain ⟨here, longer⟩ := segment.snoc (Heap.alloc_self mem.heap n ⟨⟨key, value⟩, none⟩) outside
  have ran : mem.htInsert key value n = some { mem with
      heap := Function.update (mem.heap.alloc n ⟨⟨key, value⟩, none⟩) prev (some ⟨node, some n⟩)
      length := mem.length + 1 } := by
    rw [first_eq] at sought
    rw [HtMemory.htInsert]
    dsimp only
    rw [first_eq]
    dsimp only
    rw [sought]
    simp only [Option.bind_eq_bind, Option.bind_some, Heap.setNext_of_cell here]
    rfl
  refine ⟨_, ran, ?_, rfl, rfl⟩
  rw [whole]
  have lists := holds.lists.replace (hashSsn key) longer ?_ ?_ ?_
  · rwa [Function.update_eq_self] at lists
  · intro address old new
    simp only [whole, List.map_append, List.mem_append, not_or, List.map_cons, List.map_nil,
      List.mem_singleton] at old new
    rw [Function.update_of_ne old.2, Heap.alloc_of_ne new.2]
  · intro address new old
    rw [whole] at old
    rw [List.map_append] at new
    obtain rfl : address = n := List.mem_singleton.mp ((List.mem_append.mp new).resolve_left old)
    exact free
  · intro address old gone
    rw [whole] at old
    exact absurd (by rw [List.map_append]; exact List.mem_append_left _ old) gone

/-- `ht_insert` of a key that is there: the node gets the value, and the new one is freed. -/
theorem Holds.htInsert_found (holds : mem.Holds cells) (free : mem.heap n = none)
    {before after : List (ℕ × HtNode)} {address : ℕ} {node : HtNode}
    (chain : cells (hashSsn key) = before ++ (address, node) :: after)
    (absent : ∀ cell ∈ before, sameAs key cell.2 = false) (found : sameAs key node = true)
    (value : ValuePair) :
    ∃ mem', mem.htInsert key value n = some mem' ∧
      Lists mem'.heap mem'.entries (Function.update cells (hashSsn key)
        (before ++ (address, { node with value := value }) :: after)) ∧
      mem'.numEntries = mem.numEntries ∧ mem'.length = mem.length := by
  have outside := holds.fresh free (hashSsn key)
  have room := holds.length_le (hashSsn key)
  have old := holds.lists.linked (hashSsn key)
  rw [chain] at outside room old
  rw [List.length_append, List.length_cons] at room
  have segment := old.alloc outside ⟨⟨key, value⟩, none⟩
  have sought : (mem.heap.alloc n ⟨⟨key, value⟩, none⟩).seek (sameAs key) mem.length none
      (mem.entries (hashSsn key)) = _ := segment.seek_found (by omega) absent found none
  obtain ⟨first, first_eq⟩ := Option.ne_none_iff_exists'.mp
    (segment.first_eq_none_iff.not.mpr (by simp))
  obtain ⟨next, here, changed⟩ := segment.setItem { node with value := value }
  have other : n ≠ address := by
    rintro rfl
    simp at outside
  have same_addresses : (before ++ (address, { node with value := value }) :: after).map Prod.fst =
      (before ++ (address, node) :: after).map Prod.fst := by
    simp
  have spare : Function.update (mem.heap.alloc n ⟨⟨key, value⟩, none⟩) address
      (some ⟨{ node with value := value }, next⟩) n = some ⟨⟨key, value⟩, none⟩ := by
    rw [Function.update_of_ne other, Heap.alloc_self]
  have ran : mem.htInsert key value n = some { mem with
      heap := Function.update (Function.update (mem.heap.alloc n ⟨⟨key, value⟩, none⟩) address
        (some ⟨{ node with value := value }, next⟩)) n none
      freed := mem.freed ++ [n] } := by
    rw [first_eq] at sought
    rw [HtMemory.htInsert]
    dsimp only
    rw [first_eq]
    dsimp only
    rw [sought]
    simp only [Option.bind_eq_bind, Option.bind_some, Heap.setItem_of_cell here]
    exact free_of_cell spare
  refine ⟨_, ran, ?_, rfl, rfl⟩
  have kept := changed.update (same_addresses ▸ outside) none
  have lists := holds.lists.replace (hashSsn key) kept ?_ ?_ ?_
  · rwa [Function.update_eq_self] at lists
  · intro other_address old_out new_out
    by_cases freed : other_address = n
    · rw [freed, Function.update_self, free]
    · have apart : other_address ≠ address := by
        rintro rfl
        simp at new_out
      rw [Function.update_of_ne freed, Function.update_of_ne apart, Heap.alloc_of_ne freed]
  · intro other_address new old_out
    rw [same_addresses] at new
    exact absurd new (chain ▸ old_out)
  · intro other_address listed gone
    rw [same_addresses] at gone
    exact absurd (chain ▸ listed) gone

/-- `ht_insert` runs and does to the table what it should. -/
theorem Holds.htInsert (holds : mem.Holds cells) (free : mem.heap n = none) (key : Ssn)
    (value : ValuePair) :
    ∃ mem' cells', mem.htInsert key value n = some mem' ∧ mem'.Holds cells' ∧
      mem'.table cells' = DhtRing.htInsert (mem.table cells) key value := by
  rcases exists_found key (cells (hashSsn key)) with
    absent | ⟨before, address, node, after, chain, absent, found⟩
  · have inserted : DhtRing.htInsert (mem.table cells) key value = _ :=
      htInsert_of_absent (absent_table absent)
    by_cases used : cells (hashSsn key) = []
    · obtain ⟨mem', ran, lists, numEntries, length⟩ := holds.htInsert_empty free used value
      have same : mem'.table (Function.update cells (hashSsn key) [(n, ⟨key, value⟩)]) =
          DhtRing.htInsert (mem.table cells) key value := by
        rw [inserted, table_update mem, numEntries, length, table_entries, used]
        rfl
      exact ⟨mem', _, ran, holds.of_htInsert lists same, same⟩
    · obtain ⟨mem', ran, lists, numEntries, length⟩ := holds.htInsert_absent free used absent value
      have same : mem'.table (Function.update cells (hashSsn key)
          (cells (hashSsn key) ++ [(n, ⟨key, value⟩)])) =
            DhtRing.htInsert (mem.table cells) key value := by
        rw [inserted, table_update mem, numEntries, length, table_entries, List.map_append,
          if_neg (by simpa using used)]
        rfl
      exact ⟨mem', _, ran, holds.of_htInsert lists same, same⟩
  · obtain ⟨mem', ran, lists, numEntries, length⟩ := holds.htInsert_found free chain absent found value
    have same : mem'.table (Function.update cells (hashSsn key)
        (before ++ (address, { node with value := value }) :: after)) =
          DhtRing.htInsert (mem.table cells) key value := by
      rw [htInsert_of_found (table_of_found chain) (absent_table absent) (sameAs_iff.mp found),
        table_update mem, numEntries, length, List.map_append]
      rfl
    exact ⟨mem', _, ran, holds.of_htInsert lists same, same⟩

theorem Holds.htRemove_absent (holds : mem.Holds cells)
    (absent : ∀ cell ∈ cells (hashSsn key), sameAs key cell.2 = false) :
    mem.htRemove key = some mem := by
  have segment := holds.lists.linked (hashSsn key)
  have sought := segment.seek_absent (holds.length_le (hashSsn key)) absent none
  rw [HtMemory.htRemove]
  dsimp only
  cases first : mem.entries (hashSsn key) with
  | none => rfl
  | some entry =>
      rw [first] at segment sought
      cases chain : cells (hashSsn key) with
      | nil =>
          rw [chain] at segment
          cases segment
      | cons cell rest =>
          rw [chain] at segment
          obtain ⟨same, next, here, -⟩ := segment
          cases same
          have other := strncmp_ne_zero (absent cell (by rw [chain]; exact List.mem_cons_self))
          simp only [here, Option.bind_eq_bind, Option.bind_some, if_neg other, sought]
          rfl

theorem Holds.htRemove_head (holds : mem.Holds cells) {address : ℕ} {node : HtNode}
    {rest : List (ℕ × HtNode)} (chain : cells (hashSsn key) = (address, node) :: rest)
    (found : sameAs key node = true) :
    ∃ mem' next, mem.heap address = some ⟨node, next⟩ ∧ mem.htRemove key = some mem' ∧
      mem'.Holds (Function.update cells (hashSsn key) rest) ∧
      mem'.table (Function.update cells (hashSsn key) rest) = DhtRing.htRemove (mem.table cells) key ∧
      mem'.entries (hashSsn key) = next ∧ mem'.freed = mem.freed ++ [address] := by
  have segment := holds.lists.linked (hashSsn key)
  rw [chain] at segment
  obtain ⟨first, next, here, later⟩ := segment.head
  have ran : mem.htRemove key = some { mem with
      heap := Function.update mem.heap address none
      entries := Function.update mem.entries (hashSsn key) next
      length := mem.length - 1
      numEntries := if next = none then mem.numEntries - 1 else mem.numEntries
      freed := mem.freed ++ [address] } := by
    have freed : HtMemory.free { mem with entries := Function.update mem.entries (hashSsn key) next }
        (some address) = _ := free_of_cell here
    rw [HtMemory.htRemove]
    dsimp only
    rw [first]
    simp only [here, Option.bind_eq_bind, Option.bind_some, if_pos (sameAs_iff_strncmp.mp found), freed,
      Function.update_self]
    split
    · rfl
    · rfl
  have lists := holds.lists.replace (hashSsn key) later ?_ ?_ ?_
  · have same : HtMemory.table ⟨Function.update mem.heap address none,
        Function.update mem.entries (hashSsn key) next,
        if next = none then mem.numEntries - 1 else mem.numEntries, mem.length - 1,
        mem.freed ++ [address]⟩ (Function.update cells (hashSsn key) rest) =
          DhtRing.htRemove (mem.table cells) key := by
      have split : (mem.table cells).entries (hashSsn key) = [] ++ node :: rest.map Prod.snd :=
        by rw [table_entries, chain]; rfl
      rw [htRemove_of_found split (List.forall_mem_nil _) (sameAs_iff.mp found), table_update mem]
      refine Ht.ext rfl ?_ rfl
      have last : next = none ↔ rest.map Prod.snd = [] := by
        rw [later.first_eq_none_iff, List.map_eq_nil_iff]
      simp only [List.nil_append, last]
      rfl
    exact ⟨_, next, here, ran, holds.of_htRemove lists same, same, Function.update_self .., rfl⟩
  · intro other old _
    rw [chain] at old
    exact Function.update_of_ne (List.ne_of_not_mem_cons old) _ _
  · intro other new old
    rw [chain] at old
    exact absurd (List.mem_cons_of_mem _ new) old
  · intro other old gone
    rw [chain] at old
    obtain rfl : other = address := (List.mem_cons.mp old).resolve_right gone
    exact Function.update_self ..

theorem Holds.htRemove_inner (holds : mem.Holds cells) {before after : List (ℕ × HtNode)}
    {address : ℕ} {node : HtNode} (chain : cells (hashSsn key) = before ++ (address, node) :: after)
    (behind : before ≠ []) (absent : ∀ cell ∈ before, sameAs key cell.2 = false)
    (found : sameAs key node = true) :
    ∃ mem', mem.htRemove key = some mem' ∧
      mem'.Holds (Function.update cells (hashSsn key) (before ++ after)) ∧
      mem'.table (Function.update cells (hashSsn key) (before ++ after)) =
        DhtRing.htRemove (mem.table cells) key ∧
      mem'.freed = mem.freed ++ [address] := by
  have segment := holds.lists.linked (hashSsn key)
  have room := holds.length_le (hashSsn key)
  rw [chain] at segment room
  rw [List.length_append, List.length_cons] at room
  have sought : mem.heap.seek (sameAs key) mem.length none (mem.entries (hashSsn key)) = _ :=
    segment.seek_found (by omega) absent found none
  -- the first node is not the one, and the code reads it before the loop
  obtain ⟨⟨head, headNode⟩, front, cons⟩ := List.exists_cons_of_ne_nil behind
  have head_segment := segment
  rw [cons, List.cons_append] at head_segment
  obtain ⟨first, headNext, head_here, -⟩ := head_segment
  have other := strncmp_ne_zero (absent (head, headNode) (by rw [cons]; exact List.mem_cons_self))
  obtain ⟨init, ⟨prev, prevNode⟩, rfl⟩ := (List.eq_nil_or_concat' before).resolve_left behind
  rw [lastOf_append_singleton] at sought
  rw [List.append_assoc, List.singleton_append] at segment
  obtain ⟨next, here, prev_here, apart, unlinked⟩ := segment.unlink
  have still_here : Function.update mem.heap prev (some ⟨prevNode, next⟩) address =
      some ⟨node, next⟩ := by
    rw [Function.update_of_ne apart, here]
  have freed : HtMemory.free { mem with heap := Function.update mem.heap prev (some ⟨prevNode, next⟩) }
      (some address) = _ := free_of_cell still_here
  have ran : mem.htRemove key = some { mem with
      heap := Function.update (Function.update mem.heap prev (some ⟨prevNode, next⟩)) address none
      length := mem.length - 1
      freed := mem.freed ++ [address] } := by
    rw [first] at sought
    rw [HtMemory.htRemove]
    dsimp only
    rw [first]
    simp only [head_here, Option.bind_eq_bind, Option.bind_some, if_neg other, sought, here,
      Heap.setNext_of_cell prev_here, freed]
    rfl
  have shorter : init ++ [(prev, prevNode)] ++ after = init ++ (prev, prevNode) :: after := by simp
  rw [← shorter] at unlinked
  have lists := holds.lists.replace (hashSsn key) unlinked ?_ ?_ ?_
  · rw [Function.update_eq_self] at lists
    have same : HtMemory.table ⟨Function.update (Function.update mem.heap prev (some ⟨prevNode, next⟩))
        address none, mem.entries, mem.numEntries, mem.length - 1, mem.freed ++ [address]⟩
          (Function.update cells (hashSsn key) (init ++ [(prev, prevNode)] ++ after)) =
            DhtRing.htRemove (mem.table cells) key := by
      rw [htRemove_of_found (table_of_found chain) (absent_table absent) (sameAs_iff.mp found),
        table_update mem, List.map_append, if_neg (by simp)]
      rfl
    exact ⟨_, ran, holds.of_htRemove lists same, same, rfl⟩
  · intro a old _
    have a_ne_prev : a ≠ prev := by
      rintro rfl
      simp [chain] at old
    have a_ne : a ≠ address := by
      rintro rfl
      simp [chain] at old
    rw [Function.update_of_ne a_ne, Function.update_of_ne a_ne_prev]
  · intro a new old
    refine absurd (List.Sublist.subset ?_ new) old
    rw [chain]
    exact ((List.sublist_cons_self _ after).append_left _).map Prod.fst
  · intro a old gone
    have same : a = address := by
      rw [chain] at old
      simp only [List.map_append, List.map_cons, List.map_nil, List.mem_append, List.mem_cons, not_or]
        at old gone
      tauto
    rw [same, Function.update_self]

/-- `ht_remove` runs and does to the table what it should. -/
theorem Holds.htRemove (holds : mem.Holds cells) (key : Ssn) :
    ∃ mem' cells', mem.htRemove key = some mem' ∧ mem'.Holds cells' ∧
      mem'.table cells' = DhtRing.htRemove (mem.table cells) key := by
  rcases exists_found key (cells (hashSsn key)) with
    absent | ⟨before, address, node, after, chain, absent, found⟩
  · refine ⟨mem, cells, holds.htRemove_absent absent, holds, ?_⟩
    exact (htRemove_of_absent (absent_table absent)).symm
  · by_cases behind : before = []
    · subst behind
      obtain ⟨mem', next, -, ran, holds', same, -⟩ := holds.htRemove_head chain found
      exact ⟨mem', _, ran, holds', same⟩
    · obtain ⟨mem', ran, holds', same, -⟩ := holds.htRemove_inner chain behind absent found
      exact ⟨mem', _, ran, holds', same⟩

theorem lookupLoop_of_segment {heap : Heap HtNode} {first : Pointer} {chain : List (ℕ × HtNode)}
    (segment : Segment heap first chain none) (key : Ssn) {fuel : ℕ}
    (enough : chain.length ≤ fuel) :
    lookupLoop heap key fuel first = some (chainLookup key (chain.map Prod.snd)) := by
  induction chain generalizing first fuel with
  | nil =>
      obtain rfl : first = none := segment
      cases fuel <;> rfl
  | cons cell rest ih =>
      obtain ⟨rfl, next, here, later⟩ := segment
      cases fuel with
      | zero => cases enough
      | succ fuel =>
          simp only [lookupLoop, here, Option.bind_eq_bind, Option.bind_some, List.map_cons,
            chainLookup]
          split
          · rfl
          · exact ih later (Nat.le_of_succ_le_succ enough)

theorem Holds.htLookup (holds : mem.Holds cells) (key : Ssn) :
    mem.htLookup key = some (DhtRing.htLookup (mem.table cells) key) := by
  have segment := holds.lists.linked (hashSsn key)
  have looked := lookupLoop_of_segment segment key (holds.length_le (hashSsn key))
  rw [htLookup_eq, table_entries, HtMemory.htLookup]
  cases first : mem.entries (hashSsn key) with
  | none =>
      rw [segment.first_eq_none_iff.mp first]
      rfl
  | some entry =>
      cases chain : cells (hashSsn key) with
      | nil =>
          rw [first, chain] at segment
          cases segment
      | cons cell rest =>
          rw [first, chain] at segment looked
          obtain ⟨same, next, here, -⟩ := segment
          cases same
          simp only [here, Option.bind_eq_bind, Option.bind_some, looked, List.map_cons, chainLookup]
          split
          · rfl
          · rfl

end HtMemory

end DhtRing

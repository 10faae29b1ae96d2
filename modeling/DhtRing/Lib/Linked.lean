import Mathlib.Data.List.Nodup
import Mathlib.Logic.Function.Basic
import Mathlib.Tactic.Common

/-!
# Linked lists in memory

Cells with a pointer to the next one, in a memory that maps addresses to the allocated
cells.  `Segment` says which cells lie between two pointers.  It depends on these cells
only, so whatever is written elsewhere leaves it as it is.  `Lists` says that the memory
holds a family of such lists and nothing besides.
-/

set_option autoImplicit false

namespace Linked

abbrev Pointer := Option ℕ

structure Cell (α : Type) where
  item : α
  next : Pointer
deriving DecidableEq

abbrev Heap (α : Type) := ℕ → Option (Cell α)

section

variable {α ι : Type}

/-! ## What a program does with cells

There is no result where this would go through a null pointer or through a pointer to memory
that is not allocated. -/

def Heap.alloc (heap : Heap α) (address : ℕ) (cell : Cell α) : Heap α :=
  Function.update heap address (some cell)

def Heap.load (heap : Heap α) (pointer : Pointer) : Option (Cell α) := pointer.bind heap

def Heap.store (heap : Heap α) (pointer : Pointer) (cell : Cell α) : Option (Heap α) := do
  let address ← pointer
  let _ ← heap address
  return Function.update heap address (some cell)

def Heap.setNext (heap : Heap α) (pointer next : Pointer) : Option (Heap α) := do
  let cell ← heap.load pointer
  heap.store pointer { cell with next := next }

def Heap.setItem (heap : Heap α) (pointer : Pointer) (change : α → α) : Option (Heap α) := do
  let cell ← heap.load pointer
  heap.store pointer { cell with item := change cell.item }

def Heap.free (heap : Heap α) (pointer : Pointer) : Option (Heap α) := do
  let address ← pointer
  let _ ← heap address
  return Function.update heap address none

/-- `while (entry != NULL && !stop(entry)) { prev = entry; entry = entry->next; }`, in at most
`fuel` turns.  It gives `prev` and `entry`. -/
def Heap.seek (heap : Heap α) (stop : α → Bool) :
    ℕ → Pointer → Pointer → Option (Pointer × Pointer)
  | _, prev, none => some (prev, none)
  | 0, _, some _ => none
  | fuel + 1, prev, some entry => do
      let cell ← heap entry
      if stop cell.item then return (prev, some entry)
      else heap.seek stop fuel (some entry) cell.next

section

variable {heap : Heap α} {address : ℕ} {cell : Cell α}

@[simp] theorem Heap.alloc_self (heap : Heap α) (address : ℕ) (cell : Cell α) :
    heap.alloc address cell address = some cell := Function.update_self ..

theorem Heap.alloc_of_ne {other : ℕ} (apart : other ≠ address) :
    heap.alloc address cell other = heap other := Function.update_of_ne apart ..

theorem Heap.load_of_cell (here : heap address = some cell) :
    heap.load (some address) = some cell := here

theorem Heap.setNext_of_cell (here : heap address = some cell) (next : Pointer) :
    heap.setNext (some address) next =
      some (Function.update heap address (some { cell with next := next })) := by
  simp [Heap.setNext, Heap.store, Heap.load_of_cell here, here]

theorem Heap.setItem_of_cell (here : heap address = some cell) (change : α → α) :
    heap.setItem (some address) change =
      some (Function.update heap address (some { cell with item := change cell.item })) := by
  simp [Heap.setItem, Heap.store, Heap.load_of_cell here, here]

theorem Heap.free_of_cell (here : heap address = some cell) :
    heap.free (some address) = some (Function.update heap address none) := by
  simp [Heap.free, here]

end

/-! ## Segments -/

/-- From `first` on lie these cells, with their addresses, and then comes `last`. -/
def Segment (heap : Heap α) : Pointer → List (ℕ × α) → Pointer → Prop
  | first, [], last => first = last
  | first, (address, item) :: rest, last =>
      first = some address ∧ ∃ next, heap address = some ⟨item, next⟩ ∧ Segment heap next rest last

variable {heap heap' : Heap α} {first last : Pointer} {xs ys : List (ℕ × α)} {address : ℕ} {item : α}

theorem segment_append :
    Segment heap first (xs ++ ys) last ↔ ∃ mid, Segment heap first xs mid ∧ Segment heap mid ys last := by
  induction xs generalizing first with
  | nil => simp [Segment]
  | cons cell rest ih =>
      obtain ⟨address, item⟩ := cell
      constructor
      · rintro ⟨rfl, next, here, later⟩
        obtain ⟨mid, before, after⟩ := ih.mp later
        exact ⟨mid, ⟨rfl, next, here, before⟩, after⟩
      · rintro ⟨mid, ⟨rfl, next, here, before⟩, after⟩
        exact ⟨rfl, next, here, ih.mpr ⟨mid, before, after⟩⟩

theorem Segment.congr (segment : Segment heap first xs last)
    (same : ∀ address ∈ xs.map Prod.fst, heap' address = heap address) :
    Segment heap' first xs last := by
  induction xs generalizing first with
  | nil => exact segment
  | cons cell rest ih =>
      obtain ⟨address, item⟩ := cell
      obtain ⟨rfl, next, here, later⟩ := segment
      refine ⟨rfl, next, ?_, ih later fun other mem => same other (List.mem_cons_of_mem _ mem)⟩
      rw [same address List.mem_cons_self, here]

theorem Segment.update (segment : Segment heap first xs last) (outside : address ∉ xs.map Prod.fst)
    (cell : Option (Cell α)) : Segment (Function.update heap address cell) first xs last := by
  apply segment.congr
  intro other mem
  have apart : other ≠ address := by
    rintro rfl
    exact outside mem
  exact Function.update_of_ne apart cell heap

theorem Segment.alloc (segment : Segment heap first xs last) (outside : address ∉ xs.map Prod.fst)
    (cell : Cell α) : Segment (heap.alloc address cell) first xs last :=
  segment.update outside (some cell)

theorem Segment.first_eq_none_iff (segment : Segment heap first xs none) :
    first = none ↔ xs = [] := by
  cases xs with
  | nil => exact iff_of_true segment rfl
  | cons cell rest =>
      obtain ⟨rfl, -⟩ := segment
      exact iff_of_false (Option.some_ne_none _) (List.cons_ne_nil cell rest)

theorem Segment.cell (segment : Segment heap first xs last) (mem : (address, item) ∈ xs) :
    ∃ next, heap address = some ⟨item, next⟩ := by
  induction xs generalizing first with
  | nil => cases mem
  | cons cell rest ih =>
      obtain ⟨rfl, next, here, later⟩ := segment
      rcases List.mem_cons.mp mem with rfl | mem
      · exact ⟨next, here⟩
      · exact ih later mem

/-- The pointers determine a list that ends. -/
theorem Segment.unique (segment : Segment heap first xs none)
    (segment' : Segment heap first ys none) :
    xs = ys := by
  induction xs generalizing first ys with
  | nil =>
      cases ys with
      | nil => rfl
      | cons cell rest =>
          obtain ⟨other, -⟩ := segment'
          cases segment.symm.trans other
  | cons cell rest ih =>
      obtain ⟨address, item⟩ := cell
      obtain ⟨rfl, next, here, later⟩ := segment
      cases ys with
      | nil => cases segment'
      | cons cell' rest' =>
          obtain ⟨address', item'⟩ := cell'
          obtain ⟨same, next', here', later'⟩ := segment'
          cases same
          cases here.symm.trans here'
          rw [ih later later']

theorem Segment.nodup (segment : Segment heap first xs none) : (xs.map Prod.fst).Nodup := by
  induction xs generalizing first with
  | nil => exact List.nodup_nil
  | cons cell rest ih =>
      obtain ⟨address, item⟩ := cell
      have whole := segment
      obtain ⟨rfl, next, here, later⟩ := segment
      refine List.nodup_cons.mpr ⟨?_, ih later⟩
      intro again
      obtain ⟨item', mem⟩ : ∃ item', (address, item') ∈ rest := by simpa using again
      obtain ⟨before, after, rfl⟩ := List.append_of_mem mem
      obtain ⟨mid, -, from_again⟩ := segment_append.mp later
      obtain rfl : mid = some address := from_again.1
      have lengths := congrArg List.length (whole.unique from_again)
      simp only [List.length_cons, List.length_append] at lengths
      omega

/-! ## Changing a list -/

variable {prev : ℕ} {prevItem : α} {next : Pointer}

theorem Segment.head (segment : Segment heap first ((address, item) :: xs) none) :
    first = some address ∧ ∃ next, heap address = some ⟨item, next⟩ ∧
      Segment (Function.update heap address none) next xs none := by
  have distinct := segment.nodup
  obtain ⟨rfl, next, here, later⟩ := segment
  exact ⟨rfl, next, here, later.update (List.nodup_cons.mp distinct).1 none⟩

theorem Segment.link (segment : Segment heap first (xs ++ [(prev, prevItem)]) last)
    (distinct : prev ∉ xs.map Prod.fst) (next : Pointer) :
    heap prev = some ⟨prevItem, last⟩ ∧
      Segment (Function.update heap prev (some ⟨prevItem, next⟩)) first
        (xs ++ [(prev, prevItem)]) next := by
  obtain ⟨mid, before, rfl, old, here, rfl⟩ := segment_append.mp segment
  refine ⟨here, segment_append.mpr ⟨some prev, before.update distinct _, rfl, next, ?_, rfl⟩⟩
  exact Function.update_self prev _ heap

theorem Segment.snoc (segment : Segment heap first (xs ++ [(prev, prevItem)]) none)
    (here : heap address = some ⟨item, none⟩)
    (fresh : address ∉ (xs ++ [(prev, prevItem)]).map Prod.fst) :
    heap prev = some ⟨prevItem, none⟩ ∧
      Segment (Function.update heap prev (some ⟨prevItem, some address⟩)) first
        (xs ++ [(prev, prevItem)] ++ [(address, item)]) none := by
  have distinct := segment.nodup
  rw [List.map_append, List.nodup_append] at distinct
  have apart : prev ∉ xs.map Prod.fst := fun mem => distinct.2.2 prev mem prev (by simp) rfl
  have other : address ≠ prev := fun same => fresh (by simp [same])
  obtain ⟨prev_here, linked⟩ := segment.link apart (some address)
  refine ⟨prev_here, segment_append.mpr ⟨some address, linked, rfl, none, ?_, rfl⟩⟩
  rw [Function.update_of_ne other, here]

theorem Segment.unlink
    (segment : Segment heap first (xs ++ (prev, prevItem) :: (address, item) :: ys) none) :
    ∃ next, heap address = some ⟨item, next⟩ ∧ heap prev = some ⟨prevItem, some address⟩ ∧
      address ≠ prev ∧
      Segment (Function.update (Function.update heap prev (some ⟨prevItem, next⟩)) address none)
        first (xs ++ (prev, prevItem) :: ys) none := by
  have distinct := segment.nodup
  simp only [List.map_append, List.map_cons, List.nodup_append, List.nodup_cons, List.mem_cons,
    not_or] at distinct
  obtain ⟨-, ⟨⟨prev_ne, prev_out⟩, address_out, -⟩, apart⟩ := distinct
  have prev_before : prev ∉ xs.map Prod.fst := fun mem => apart prev mem prev (Or.inl rfl) rfl
  have address_before : address ∉ xs.map Prod.fst :=
    fun mem => apart address mem address (Or.inr (Or.inl rfl)) rfl
  obtain ⟨mid, before, rfl, mid', prev_here, rfl, next, here, later⟩ := segment_append.mp segment
  refine ⟨next, here, prev_here, Ne.symm prev_ne, segment_append.mpr ⟨some prev, ?_, rfl, next, ?_, ?_⟩⟩
  · exact (before.update prev_before _).update address_before none
  · rw [Function.update_of_ne prev_ne, Function.update_self]
  · exact (later.update prev_out _).update address_out none

theorem Segment.setItem (segment : Segment heap first (xs ++ (address, item) :: ys) none)
    (item' : α) :
    ∃ next, heap address = some ⟨item, next⟩ ∧
      Segment (Function.update heap address (some ⟨item', next⟩)) first
        (xs ++ (address, item') :: ys) none := by
  have distinct := segment.nodup
  simp only [List.map_append, List.map_cons, List.nodup_append, List.nodup_cons, List.mem_cons]
    at distinct
  obtain ⟨-, ⟨later_out, -⟩, apart⟩ := distinct
  have before_out : address ∉ xs.map Prod.fst :=
    fun mem => apart address mem address (Or.inl rfl) rfl
  obtain ⟨mid, before, rfl, next, here, later⟩ := segment_append.mp segment
  refine ⟨next, here, segment_append.mpr ⟨some address, before.update before_out _, rfl, next, ?_,
    later.update later_out _⟩⟩
  exact Function.update_self address _ heap

/-! ## Searching a list -/

def lastOf (prev : Pointer) (xs : List (ℕ × α)) : Pointer :=
  xs.foldl (fun _ cell => some cell.1) prev

@[simp] theorem lastOf_append_singleton (prev : Pointer) (xs : List (ℕ × α)) (cell : ℕ × α) :
    lastOf prev (xs ++ [cell]) = some cell.1 := by
  simp [lastOf]

section

variable {stop : α → Bool} {fuel : ℕ} {before after : List (ℕ × α)} {mid : Pointer}

theorem Segment.seek_append (segment : Segment heap first before mid)
    (absent : ∀ cell ∈ before, stop cell.2 = false) (prev : Pointer) :
    heap.seek stop (fuel + before.length) prev first =
      heap.seek stop fuel (lastOf prev before) mid := by
  induction before generalizing first prev with
  | nil =>
      obtain rfl : first = mid := segment
      rfl
  | cons cell rest ih =>
      obtain ⟨address, item⟩ := cell
      obtain ⟨rfl, next, here, later⟩ := segment
      obtain ⟨goes_on, absent⟩ := List.forall_mem_cons.mp absent
      have turn : heap.seek stop (fuel + rest.length + 1) prev (some address) =
          heap.seek stop (fuel + rest.length) (some address) next := by
        rw [Heap.seek, here]
        exact if_neg (by simp [goes_on])
      exact turn.trans (ih later absent (some address))

theorem Segment.seek_absent (segment : Segment heap first xs none) (enough : xs.length ≤ fuel)
    (absent : ∀ cell ∈ xs, stop cell.2 = false) (prev : Pointer) :
    heap.seek stop fuel prev first = some (lastOf prev xs, none) := by
  obtain ⟨left, rfl⟩ := Nat.exists_eq_add_of_le' enough
  rw [segment.seek_append absent]
  cases left <;> rfl

theorem Segment.seek_found (segment : Segment heap first (before ++ (address, item) :: after) last)
    (enough : before.length < fuel) (absent : ∀ cell ∈ before, stop cell.2 = false)
    (stops : stop item = true) (prev : Pointer) :
    heap.seek stop fuel prev first = some (lastOf prev before, some address) := by
  obtain ⟨mid, front, rfl, next, here, -⟩ := segment_append.mp segment
  obtain ⟨left, rfl⟩ := Nat.exists_eq_add_of_le' (Nat.succ_le_of_lt enough)
  rw [Nat.succ_eq_add_one, Nat.add_comm before.length 1, ← Nat.add_assoc,
    front.seek_append absent, Heap.seek, here]
  exact if_pos stops

end

end

/-! ## A family of lists -/

section

variable {α ι : Type} {heap heap' : Heap α} {entries : ι → Pointer} {cells : ι → List (ℕ × α)}

/-- The memory holds these lists, apart from each other, and nothing else. -/
structure Lists (heap : Heap α) (entries : ι → Pointer) (cells : ι → List (ℕ × α)) : Prop where
  linked : ∀ i, Segment heap (entries i) (cells i) none
  apart : ∀ i j address, address ∈ (cells i).map Prod.fst → address ∈ (cells j).map Prod.fst → i = j
  owned : ∀ address, heap address ≠ none → ∃ i, address ∈ (cells i).map Prod.fst

theorem Lists.allocated_iff (lists : Lists heap entries cells) (address : ℕ) :
    heap address ≠ none ↔ ∃ i, address ∈ (cells i).map Prod.fst := by
  refine ⟨lists.owned address, ?_⟩
  rintro ⟨i, listed⟩
  obtain ⟨item, mem⟩ : ∃ item, (address, item) ∈ cells i := by simpa using listed
  obtain ⟨next, here⟩ := (lists.linked i).cell mem
  rw [here]
  exact Option.some_ne_none _

/-- The rule for a change to one of the lists: it writes in this list and to fresh cells
only, and frees the cells that it takes out. -/
theorem Lists.replace [DecidableEq ι] (lists : Lists heap entries cells) (i : ι) {first : Pointer}
    {xs : List (ℕ × α)} (segment : Segment heap' first xs none)
    (elsewhere : ∀ address, address ∉ (cells i).map Prod.fst → address ∉ xs.map Prod.fst →
      heap' address = heap address)
    (fresh : ∀ address ∈ xs.map Prod.fst, address ∉ (cells i).map Prod.fst → heap address = none)
    (freed : ∀ address ∈ (cells i).map Prod.fst, address ∉ xs.map Prod.fst → heap' address = none) :
    Lists heap' (Function.update entries i first) (Function.update cells i xs) := by
  -- no cell of another list is in the new one
  have foreign : ∀ j, j ≠ i → ∀ address ∈ (cells j).map Prod.fst,
      address ∉ (cells i).map Prod.fst ∧ address ∉ xs.map Prod.fst := by
    intro j other address mem
    have out : address ∉ (cells i).map Prod.fst := fun here => other (lists.apart j i address mem here)
    refine ⟨out, fun new => ?_⟩
    exact (lists.allocated_iff address).mpr ⟨j, mem⟩ (fresh address new out)
  refine ⟨fun j => ?_, fun j k address mem_j mem_k => ?_, fun address allocated => ?_⟩
  · by_cases here : j = i
    · subst here
      rwa [Function.update_self, Function.update_self]
    · rw [Function.update_of_ne here, Function.update_of_ne here]
      refine (lists.linked j).congr fun address mem => ?_
      obtain ⟨out, out'⟩ := foreign j here address mem
      exact elsewhere address out out'
  · by_cases j_here : j = i
    · by_cases k_here : k = i
      · rw [j_here, k_here]
      · rw [Function.update_of_ne k_here] at mem_k
        subst j_here
        rw [Function.update_self] at mem_j
        exact absurd mem_j (foreign k k_here address mem_k).2
    · rw [Function.update_of_ne j_here] at mem_j
      by_cases k_here : k = i
      · subst k_here
        rw [Function.update_self] at mem_k
        exact absurd mem_k (foreign j j_here address mem_j).2
      · rw [Function.update_of_ne k_here] at mem_k
        exact lists.apart j k address mem_j mem_k
  · by_cases new : address ∈ xs.map Prod.fst
    · exact ⟨i, by rwa [Function.update_self]⟩
    · by_cases old : address ∈ (cells i).map Prod.fst
      · exact absurd (freed address old new) allocated
      · rw [elsewhere address old new] at allocated
        obtain ⟨j, mem⟩ := lists.owned address allocated
        have other : j ≠ i := by
          rintro rfl
          exact old mem
        exact ⟨j, by rwa [Function.update_of_ne other]⟩

end

end Linked

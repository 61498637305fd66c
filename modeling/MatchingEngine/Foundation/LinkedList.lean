import Mathlib.Data.List.Basic
import Mathlib.Data.List.Nodup
import Mathlib.Data.List.Perm.Subperm
import Mathlib.Logic.Function.Basic
import Mathlib.Logic.Relation

/-!
# Linked lists on a heap

Cells are allocated, changed and freed by address. An address is given out once, so that an
access after the cell was freed fails; programs that only compare addresses with null cannot
tell this heap from one that gives addresses out again.

A chain is a null-terminated list of nodes. Its first address determines it, so that no node
occurs twice, and following the links from there reaches its nodes and no others.
-/

namespace MatchingEngine

/-- The cells that were allocated and not freed. -/
structure Heap (α : Type*) where
  cells : ℕ → Option α
  allocated : ℕ
  fresh : ∀ address, allocated ≤ address → cells address = none

/-- A node of a singly linked list. -/
structure Node (α : Type*) where
  data : α
  next : Option ℕ
deriving DecidableEq

namespace Heap

variable {α : Type*} {heap heap' : Heap α} {address : ℕ} {cell : α} {f : α → Option α}

/-- No cell was allocated. -/
def empty (α : Type*) : Heap α := ⟨fun _ => none, 0, fun _ _ => rfl⟩

/-- Allocate a cell, at the address `heap.allocated`. -/
def allocate (heap : Heap α) (cell : α) : Heap α where
  cells := Function.update heap.cells heap.allocated (some cell)
  allocated := heap.allocated + 1
  fresh address h := by
    rw [Function.update_of_ne (by omega)]
    exact heap.fresh address (by omega)

/-- Change or free a cell; this fails if there is none. -/
def modify (heap : Heap α) (address : ℕ) (f : α → Option α) : Option (Heap α) :=
  match h : heap.cells address with
  | none => none
  | some cell => some {
      cells := Function.update heap.cells address (f cell)
      allocated := heap.allocated
      fresh := fun other hother => by
        rw [Function.update_of_ne ?_]
        · exact heap.fresh other hother
        · rintro rfl
          rw [heap.fresh other hother] at h
          cases h }

/-- Change a cell. -/
def store (heap : Heap α) (address : ℕ) (f : α → α) : Option (Heap α) := heap.modify address fun cell => some (f cell)

/-- Free a cell. -/
def free (heap : Heap α) (address : ℕ) : Option (Heap α) := heap.modify address fun _ => none

/-- A cell that exists was allocated. -/
theorem ne_allocated (h : heap.cells address = some cell) : address ≠ heap.allocated := by
  rintro rfl
  rw [heap.fresh _ (Nat.le_refl _)] at h
  cases h

/-- Cells that exist are not changed by an allocation. -/
theorem allocate_cells_of_some (h : heap.cells address = some cell) (other : α) :
    (heap.allocate other).cells address = some cell :=
  (Function.update_of_ne (ne_allocated h) ..).trans h

@[simp] theorem allocate_cells_self (heap : Heap α) (cell : α) :
    (heap.allocate cell).cells heap.allocated = some cell :=
  Function.update_self ..

/-- Changing a cell that exists succeeds. -/
theorem exists_modify (h : heap.cells address = some cell) (f : α → Option α) :
    ∃ heap', heap.modify address f = some heap' ∧ heap'.cells = Function.update heap.cells address (f cell) := by
  unfold modify
  split
  · rename_i hnone
    rw [hnone] at h
    cases h
  · rename_i other hsome
    obtain rfl : other = cell := Option.some.inj (hsome.symm.trans h)
    exact ⟨_, rfl, rfl⟩

/-- What a change of a cell does. -/
theorem modify_cells (h : heap.modify address f = some heap') :
    ∃ cell, heap.cells address = some cell ∧ heap'.cells = Function.update heap.cells address (f cell) := by
  cases hcell : heap.cells address with
  | none =>
    unfold modify at h
    split at h
    · cases h
    · rename_i hsome
      rw [hcell] at hsome
      cases hsome
  | some cell =>
    obtain ⟨after, hmodify, hcells⟩ := exists_modify hcell f
    obtain rfl := Option.some.inj (hmodify.symm.trans h)
    exact ⟨cell, rfl, hcells⟩

/-- A cell exists after an allocation if it is the new one or existed before. -/
theorem of_allocate {cell : α} {other : ℕ} (h : (heap.allocate cell).cells other ≠ none) :
    other = heap.allocated ∨ heap.cells other ≠ none := by
  by_cases heq : other = heap.allocated
  · exact Or.inl heq
  · refine Or.inr ?_
    rwa [show (heap.allocate cell).cells other = heap.cells other from Function.update_of_ne heq ..] at h

/-- Changing a cell creates none. -/
theorem of_store {g : α → α} {other : ℕ} (hstore : heap.store address g = some heap') (h : heap'.cells other ≠ none) :
    heap.cells other ≠ none := by
  obtain ⟨cell, hcell, hcells⟩ := modify_cells hstore
  by_cases heq : other = address
  · simp [heq, hcell]
  · rwa [hcells, Function.update_of_ne heq] at h

/-- A cell that exists after another one was freed existed before. -/
theorem of_free {other : ℕ} (hfree : heap.free address = some heap') (h : heap'.cells other ≠ none) :
    other ≠ address ∧ heap.cells other ≠ none := by
  obtain ⟨cell, _, hcells⟩ := modify_cells hfree
  by_cases heq : other = address
  · simp [hcells, heq] at h
  · exact ⟨heq, by rwa [hcells, Function.update_of_ne heq] at h⟩

end Heap

namespace Node

variable {α : Type*} {cells cells' : ℕ → Option (Node α)} {entry last : ℕ × α} {rest more : List (ℕ × α)}

/-- The address of the first entry; null if there is none. -/
def first (entries : List (ℕ × α)) : Option ℕ := entries.head?.map Prod.fst

@[simp] theorem first_nil : first ([] : List (ℕ × α)) = none := rfl

@[simp] theorem first_cons : first (entry :: rest) = some entry.1 := rfl

/-- The last entry is at the last address. -/
theorem exists_last (entries : List (ℕ × α)) {address : ℕ} (h : (entries.map Prod.fst).getLast? = some address) :
    ∃ before data, entries = before ++ [(address, data)] := by
  rw [List.getLast?_map, Option.map_eq_some_iff] at h
  obtain ⟨last, hlast, rfl⟩ := h
  obtain ⟨before, hentries⟩ := List.getLast?_eq_some_iff.mp hlast
  exact ⟨before, last.2, hentries⟩

/-- The nodes at these addresses hold these data, and each links to the next one. -/
def Chain (cells : ℕ → Option (Node α)) : List (ℕ × α) → Prop
  | [] => True
  | entry :: rest => cells entry.1 = some ⟨entry.2, first rest⟩ ∧ Chain cells rest

/-- Follow the links from an address, through a limited number of nodes; fails if this does not lead to null. -/
def walk (cells : ℕ → Option (Node α)) : ℕ → Option ℕ → Option (List (ℕ × α))
  | _, none => some []
  | 0, some _ => none
  | limit + 1, some address =>
    match cells address with
    | none => none
    | some node => (walk cells limit node.next).map ((address, node.data) :: ·)

/-- A chain only depends on the cells of its nodes. -/
theorem Chain.congr (h : Chain cells rest) (hsame : ∀ entry ∈ rest, cells' entry.1 = cells entry.1) :
    Chain cells' rest := by
  induction rest with
  | nil => trivial
  | cons entry rest ih =>
    refine ⟨?_, ih h.2 fun other hother => hsame other (List.mem_cons_of_mem _ hother)⟩
    rw [hsame entry (List.mem_cons_self ..)]
    exact h.1

/-- The nodes of a chain exist. -/
theorem Chain.cell (h : Chain cells rest) (hentry : entry ∈ rest) :
    ∃ next, cells entry.1 = some ⟨entry.2, next⟩ := by
  induction rest with
  | nil => cases hentry
  | cons other rest ih =>
    rcases List.mem_cons.mp hentry with rfl | hmem
    · exact ⟨_, h.1⟩
    · exact ih h.2 hmem

/-- The end of a chain is a chain. -/
theorem Chain.right (h : Chain cells (more ++ rest)) : Chain cells rest := by
  induction more with
  | nil => exact h
  | cons _ _ ih => exact ih h.2

/-- The first address determines a chain. -/
theorem Chain.unique (h : Chain cells rest) (hmore : Chain cells more) (hfirst : first rest = first more) :
    rest = more := by
  induction rest generalizing more with
  | nil =>
    cases more with
    | nil => rfl
    | cons other more => cases hfirst
  | cons entry rest ih =>
    cases more with
    | nil => cases hfirst
    | cons other more =>
      obtain ⟨address, data⟩ := entry
      obtain ⟨address', data'⟩ := other
      obtain rfl : address = address' := Option.some.inj hfirst
      have hcell := h.1.symm.trans hmore.1
      simp only [Option.some.injEq, Node.mk.injEq] at hcell
      rw [hcell.1, ih h.2 hmore.2 hcell.2]

/-- No node occurs twice in a chain. -/
theorem Chain.nodup (h : Chain cells rest) : (rest.map Prod.fst).Nodup := by
  induction rest with
  | nil => exact List.nodup_nil
  | cons entry rest ih =>
    refine List.nodup_cons.mpr ⟨fun hmem => ?_, ih h.2⟩
    obtain ⟨other, hother, haddress⟩ := List.mem_map.mp hmem
    obtain ⟨before, after, rfl⟩ := List.append_of_mem hother
    -- The same address starts a chain and a proper end of it.
    have heq := h.unique h.2.right (congrArg some haddress.symm)
    have hlength := congrArg List.length heq
    simp only [List.length_cons, List.length_append] at hlength
    omega

/-- Following the links of a chain finds its entries. -/
theorem Chain.walk (h : Chain cells rest) {limit : ℕ} (hlimit : rest.length ≤ limit) :
    walk cells limit (first rest) = some rest := by
  induction rest generalizing limit with
  | nil => cases limit <;> rfl
  | cons entry rest ih =>
    obtain ⟨limit, rfl⟩ : ∃ n, limit = n + 1 := ⟨limit - 1, by rw [List.length_cons] at hlimit; omega⟩
    rw [first_cons, Node.walk, h.1]
    simp only [ih h.2 (Nat.le_of_succ_le_succ hlimit), Option.map_some]

/-- Link a new node behind the last one. -/
theorem Chain.link (h : Chain cells (rest ++ [last])) {address : ℕ} {data : α} (hnew : cells address = some ⟨data, none⟩)
    (hapart : ∀ entry ∈ rest ++ [last], entry.1 ≠ address) :
    Chain (Function.update cells last.1 (some ⟨last.2, some address⟩)) (rest ++ [last, (address, data)]) := by
  induction rest with
  | nil =>
    refine ⟨Function.update_self .., ?_, trivial⟩
    rw [Function.update_of_ne (hapart last (List.mem_cons_self ..)).symm]
    exact hnew
  | cons entry rest ih =>
    have hne : entry.1 ≠ last.1 := by
      intro heq
      have hnodup := h.nodup
      rw [List.cons_append, List.map_cons, List.nodup_cons] at hnodup
      exact hnodup.1 (heq ▸ List.mem_map_of_mem (List.mem_append_right _ (List.mem_singleton_self _)))
    refine ⟨?_, ih h.2 fun other hother => hapart other (List.mem_cons_of_mem _ hother)⟩
    rw [Function.update_of_ne hne, h.1]
    cases rest with
    | nil => rfl
    | cons _ _ => rfl

/-- The nodes after the first do not depend on its cell. -/
theorem Chain.tail (h : Chain cells (entry :: rest)) (cell : Option (Node α)) :
    Chain (Function.update cells entry.1 cell) rest := by
  refine h.2.congr fun other hother => Function.update_of_ne ?_ ..
  intro heq
  have hnodup := h.nodup
  rw [List.map_cons, List.nodup_cons] at hnodup
  exact hnodup.1 (heq ▸ List.mem_map_of_mem hother)

/-- Following links leads from one address to another. -/
def Reaches (cells : ℕ → Option (Node α)) : ℕ → ℕ → Prop :=
  Relation.ReflTransGen fun address other => ∃ data, cells address = some ⟨data, some other⟩

/-- Changing a cell without a link removes no node from those reached. -/
theorem Reaches.update {address other changed : ℕ} (h : Reaches cells address other)
    (hunlinked : ∀ node, cells changed = some node → node.next = none) (cell : Option (Node α)) :
    Reaches (Function.update cells changed cell) address other := by
  induction h with
  | refl => exact .refl
  | @tail current next _ hlink ih =>
    obtain ⟨data, hcell⟩ := hlink
    have hne : current ≠ changed := by
      rintro rfl
      have hnone := hunlinked _ hcell
      cases hnone
    exact ih.tail ⟨data, by rw [Function.update_of_ne hne, hcell]⟩

/-- The nodes of a chain are those reached from its first one. -/
theorem Chain.reaches_iff (h : Chain cells (entry :: rest)) {address : ℕ} :
    Reaches cells entry.1 address ↔ address ∈ (entry :: rest).map Prod.fst := by
  constructor
  · intro hreaches
    generalize hstart : entry.1 = start at hreaches
    induction hreaches using Relation.ReflTransGen.head_induction_on generalizing entry rest with
    | refl => exact hstart ▸ List.mem_cons_self ..
    | head hlink _ ih =>
      obtain ⟨data, hcell⟩ := hlink
      have hnext := h.1
      rw [hstart, hcell, Option.some.injEq, Node.mk.injEq] at hnext
      cases rest with
      | nil => cases hnext.2
      | cons next rest => exact List.mem_cons_of_mem _ (ih h.2 (Option.some.inj hnext.2).symm)
  · intro hmem
    induction rest generalizing entry with
    | nil =>
      rw [List.map_singleton, List.mem_singleton] at hmem
      exact hmem ▸ Relation.ReflTransGen.refl
    | cons next rest ih =>
      rcases List.mem_cons.mp hmem with rfl | hmem
      · exact Relation.ReflTransGen.refl
      · exact Relation.ReflTransGen.head ⟨entry.2, h.1⟩ (ih h.2 hmem)

/-- A chain has no more nodes than were allocated. -/
theorem Chain.length_le {heap : Heap (Node α)} (h : Chain heap.cells rest) : rest.length ≤ heap.allocated := by
  have hsubset : rest.map Prod.fst ⊆ List.range heap.allocated := by
    intro address hmem
    obtain ⟨entry, hentry, rfl⟩ := List.mem_map.mp hmem
    obtain ⟨next, hcell⟩ := h.cell hentry
    by_contra hge
    rw [List.mem_range, Nat.not_lt] at hge
    rw [heap.fresh _ hge] at hcell
    cases hcell
  simpa using (h.nodup.subperm hsubset).length_le

/-- Free one node after another along the links from an address, through a limited number of nodes. -/
def freeAll : ℕ → Heap (Node α) → Option ℕ → Option (Heap (Node α))
  | _, heap, none => some heap
  | 0, _, some _ => none
  | limit + 1, heap, some address =>
    match heap.cells address with
    | none => none
    | some node => (heap.free address).bind fun heap => freeAll limit heap node.next

/-- The nodes of a chain can be freed, and no others are. -/
theorem Chain.freeAll {heap : Heap (Node α)} (h : Chain heap.cells rest) {limit : ℕ} (hlimit : rest.length ≤ limit) :
    ∃ heap', freeAll limit heap (first rest) = some heap' ∧
      ∀ address, heap'.cells address = if address ∈ rest.map Prod.fst then none else heap.cells address := by
  induction rest generalizing heap limit with
  | nil =>
    refine ⟨heap, ?_, fun address => by simp⟩
    cases limit <;> rfl
  | cons entry rest ih =>
    obtain ⟨limit, rfl⟩ : ∃ n, limit = n + 1 := ⟨limit - 1, by rw [List.length_cons] at hlimit; omega⟩
    obtain ⟨freed, hfree, hcells⟩ := Heap.exists_modify h.1 fun _ => none
    obtain ⟨heap', hrest, hafter⟩ := ih (hcells ▸ h.tail none) (Nat.le_of_succ_le_succ hlimit)
    refine ⟨heap', ?_, fun address => ?_⟩
    · rw [first_cons, Node.freeAll, h.1]
      simp only [Heap.free, hfree, Option.bind_some, hrest]
    · rw [hafter, hcells]
      simp only [List.map_cons, List.mem_cons]
      by_cases heq : address = entry.1
      · simp [heq]
      · rw [Function.update_of_ne heq]
        simp only [heq, false_or]

end Node

end MatchingEngine

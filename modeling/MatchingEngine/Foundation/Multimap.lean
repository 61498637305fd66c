import Mathlib.Order.RelClasses
import Mathlib.Data.List.Basic

/-!
# Ordered multimaps with stable insertion

A list of key and value pairs kept in the order of a comparator. A new pair is placed
after every pair whose key is equivalent to its own, so that pairs of equivalent keys
stay in the order of their insertion. Values may be modified in place; keys may not.

The order of the keys is part of the type: no operation can produce a map that is out
of order. The lemmas describe each operation on the list of values in iteration order.
-/

namespace MatchingEngine

/-- Pairs in iteration order: no key comes strictly before the key of an earlier pair. -/
structure Multimap (κ α : Type*) (before : κ → κ → Prop) where
  entries : List (κ × α)
  ordered : (entries.map Prod.fst).Pairwise fun x y => ¬ before y x
deriving DecidableEq

namespace Multimap

variable {κ α : Type*} {before : κ → κ → Prop}

/-- Maps are equal when they hold the same pairs in the same order. -/
@[ext] theorem ext {m n : Multimap κ α before} (h : m.entries = n.entries) : m = n := by
  cases m; cases n; congr

/-- The values in iteration order. -/
def values (m : Multimap κ α before) : List α := m.entries.map Prod.snd

/-- The number of pairs. -/
def size (m : Multimap κ α before) : ℕ := m.entries.length

/-- The value that iteration reaches first. -/
def front? (m : Multimap κ α before) : Option α := m.values.head?

/-- The map without pairs. -/
def empty : Multimap κ α before := ⟨[], .nil⟩

/-- Remove the pair that iteration reaches first. -/
def popFront (m : Multimap κ α before) : Multimap κ α before where
  entries := m.entries.tail
  ordered := by
    rw [List.map_tail]
    exact m.ordered.tail

/-- Change the value at a position of the iteration, in place. -/
def modifyAt (m : Multimap κ α before) (position : ℕ) (f : α → α) : Multimap κ α before where
  entries := m.entries.modify position (Prod.map id f)
  ordered := by
    have hkeys : (m.entries.modify position (Prod.map id f)).map Prod.fst = m.entries.map Prod.fst := by
      apply List.ext_getElem
      · simp
      · intro i hi hi'
        simp only [List.getElem_map, List.getElem_modify]
        split <;> rfl
    rw [hkeys]
    exact m.ordered

/-- Remove the first pair in iteration order whose value passes the test, if there is one. -/
def eraseFirst (m : Multimap κ α before) (test : α → Bool) : Multimap κ α before where
  entries := m.entries.eraseP (test ∘ Prod.snd)
  ordered := m.ordered.sublist (List.eraseP_sublist.map _)

/-- Place a pair after all the pairs whose keys do not come strictly after its own. -/
def insertEntry (before : κ → κ → Prop) [DecidableRel before] (key : κ) (value : α) : List (κ × α) → List (κ × α)
  | [] => [(key, value)]
  | entry :: rest =>
    if before key entry.1 then (key, value) :: entry :: rest
    else entry :: insertEntry before key value rest

/-- A key strictly before another is strictly before every key not before the latter. -/
theorem before_of_before_of_not [IsStrictWeakOrder κ before] {a b c : κ}
    (hab : before a b) (hcb : ¬ before c b) : before a c := by
  by_contra hac
  by_cases hca : before c a
  · exact hcb (IsTrans.trans _ _ _ hca hab)
  · by_cases hbc : before b c
    · exact hac (IsTrans.trans _ _ _ hab hbc)
    · exact (IsStrictWeakOrder.incomp_trans a c b ⟨hac, hca⟩ ⟨hcb, hbc⟩).1 hab

/-- Insertion splits an ordered list at the last key that does not come after the new one. -/
theorem insertEntry_split [DecidableRel before] [IsStrictWeakOrder κ before] (key : κ) (value : α)
    (entries : List (κ × α)) (hordered : (entries.map Prod.fst).Pairwise fun x y => ¬ before y x) :
    ∃ ahead behind, entries = ahead ++ behind ∧
      insertEntry before key value entries = ahead ++ (key, value) :: behind ∧
      (∀ entry ∈ ahead, ¬ before key entry.1) ∧ ∀ entry ∈ behind, before key entry.1 := by
  induction entries with
  | nil => exact ⟨[], [], rfl, rfl, by simp, by simp⟩
  | cons entry rest ih =>
    obtain ⟨hhead, htail⟩ := List.pairwise_cons.mp hordered
    by_cases hkey : before key entry.1
    · refine ⟨[], entry :: rest, rfl, by simp [insertEntry, hkey], by simp, ?_⟩
      intro other hother
      rcases List.mem_cons.mp hother with rfl | hother
      · exact hkey
      · exact before_of_before_of_not hkey (hhead other.1 (List.mem_map_of_mem hother))
    · obtain ⟨ahead, behind, hrest, hinsert, hahead, hbehind⟩ := ih htail
      refine ⟨entry :: ahead, behind, by rw [hrest]; rfl, by simp [insertEntry, hkey, hinsert], ?_, hbehind⟩
      intro other hother
      rcases List.mem_cons.mp hother with rfl | hother
      · exact hkey
      · exact hahead other hother

/-- Insertion adds exactly its pair. -/
theorem mem_insertEntry [DecidableRel before] {key : κ} {value : α} {entries : List (κ × α)} {entry : κ × α} :
    entry ∈ insertEntry before key value entries ↔ entry = (key, value) ∨ entry ∈ entries := by
  induction entries with
  | nil => simp [insertEntry]
  | cons first rest ih =>
    unfold insertEntry
    split
    · exact List.mem_cons
    · rw [List.mem_cons, ih, List.mem_cons]
      tauto

/-- A pair that goes before a key of the first part is inserted into the first part. -/
theorem insertEntry_append_of_exists [DecidableRel before] {key : κ} {value : α} {ahead : List (κ × α)}
    (h : ∃ entry ∈ ahead, before key entry.1) (rest : List (κ × α)) :
    insertEntry before key value (ahead ++ rest) = insertEntry before key value ahead ++ rest := by
  induction ahead with
  | nil => simp at h
  | cons first ahead ih =>
    rw [List.cons_append]
    unfold insertEntry
    split
    · rfl
    · rename_i hfirst
      obtain ⟨entry, hentry, hbefore⟩ := h
      rcases List.mem_cons.mp hentry with rfl | hentry
      · contradiction
      · rw [ih ⟨entry, hentry, hbefore⟩]
        rfl

/-- A pair that goes before no key of the first part is inserted into the rest. -/
theorem insertEntry_append_of_forall [DecidableRel before] {key : κ} {value : α} {ahead : List (κ × α)}
    (h : ∀ entry ∈ ahead, ¬ before key entry.1) (rest : List (κ × α)) :
    insertEntry before key value (ahead ++ rest) = ahead ++ insertEntry before key value rest := by
  induction ahead with
  | nil => rfl
  | cons first ahead ih =>
    have hfirst := h first (List.mem_cons_self ..)
    have hrest := ih fun entry hentry => h entry (List.mem_cons_of_mem _ hentry)
    rw [List.cons_append, insertEntry, if_neg hfirst, hrest]
    rfl

/-- A pair that goes before every key is inserted in front. -/
theorem insertEntry_of_forall [DecidableRel before] {key : κ} {value : α} {entries : List (κ × α)}
    (h : ∀ entry ∈ entries, before key entry.1) : insertEntry before key value entries = (key, value) :: entries := by
  cases entries with
  | nil => rfl
  | cons first rest => exact if_pos (h first (List.mem_cons_self ..))

/-- Insert a pair behind every pair of an equivalent key. -/
def insert [DecidableRel before] [IsStrictWeakOrder κ before] (m : Multimap κ α before)
    (key : κ) (value : α) : Multimap κ α before where
  entries := insertEntry before key value m.entries
  ordered := by
    obtain ⟨ahead, behind, hentries, hinsert, hahead, hbehind⟩ := insertEntry_split key value m.entries m.ordered
    have hordered := m.ordered
    rw [hentries, List.map_append, List.pairwise_append] at hordered
    rw [hinsert, List.map_append, List.map_cons, List.pairwise_append, List.pairwise_cons]
    obtain ⟨hleft, hright, hcross⟩ := hordered
    refine ⟨hleft, ⟨?_, hright⟩, ?_⟩
    · intro k hk
      obtain ⟨entry, hentry, rfl⟩ := List.mem_map.mp hk
      exact fun hback => Std.Asymm.asymm _ _ (hbehind entry hentry) hback
    · intro k hk l hl
      rcases List.mem_cons.mp hl with rfl | hl
      · obtain ⟨entry, hentry, rfl⟩ := List.mem_map.mp hk
        exact hahead entry hentry
      · exact hcross k hk l hl

/-- Insertion keeps every pair and puts the new one behind the equivalent keys. -/
theorem insert_entries_split [DecidableRel before] [IsStrictWeakOrder κ before] (m : Multimap κ α before)
    (key : κ) (value : α) :
    ∃ ahead behind, m.entries = ahead ++ behind ∧
      (m.insert key value).entries = ahead ++ (key, value) :: behind ∧
      (∀ entry ∈ ahead, ¬ before key entry.1) ∧ ∀ entry ∈ behind, before key entry.1 :=
  insertEntry_split key value m.entries m.ordered

/-- Insertion adds exactly one pair, up to order. -/
theorem insert_entries_perm [DecidableRel before] [IsStrictWeakOrder κ before] (m : Multimap κ α before)
    (key : κ) (value : α) : (m.insert key value).entries.Perm ((key, value) :: m.entries) := by
  obtain ⟨ahead, behind, hentries, hinsert, _⟩ := m.insert_entries_split key value
  rw [hinsert, hentries]
  exact List.perm_middle

/-- The new value and the old ones are the values after an insertion. -/
@[simp] theorem mem_insert_values [DecidableRel before] [IsStrictWeakOrder κ before] (m : Multimap κ α before)
    (key : κ) (value other : α) : other ∈ (m.insert key value).values ↔ other = value ∨ other ∈ m.values := by
  rw [values, ((m.insert_entries_perm key value).map Prod.snd).mem_iff]
  simp [values]

/-- The front value is the first of the values. -/
theorem front?_eq_some_iff (m : Multimap κ α before) (value : α) :
    m.front? = some value ↔ ∃ rest, m.values = value :: rest := by
  rw [front?]
  cases m.values <;> simp

@[simp] theorem front?_eq_none_iff (m : Multimap κ α before) : m.front? = none ↔ m.values = [] := by
  rw [front?, List.head?_eq_none_iff]

@[simp] theorem popFront_values (m : Multimap κ α before) : m.popFront.values = m.values.tail := by
  simp [popFront, values, List.map_tail]

@[simp] theorem modifyAt_values (m : Multimap κ α before) (position : ℕ) (f : α → α) :
    (m.modifyAt position f).values = m.values.modify position f := by
  apply List.ext_getElem
  · simp [values, modifyAt]
  · intro i hi hi'
    simp only [values, modifyAt, List.getElem_map, List.getElem_modify]
    split <;> rfl

@[simp] theorem eraseFirst_values (m : Multimap κ α before) (test : α → Bool) :
    (m.eraseFirst test).values = m.values.eraseP test :=
  List.eraseP_map.symm

@[simp] theorem empty_values : (empty : Multimap κ α before).values = [] := rfl

theorem values_length (m : Multimap κ α before) : m.values.length = m.size := by
  simp [values, size]

/-- Positions of the iteration pair keys with values: the key of each value follows the order. -/
theorem values_pairwise (m : Multimap κ α before) (key : α → κ)
    (hkey : ∀ entry ∈ m.entries, entry.1 = key entry.2) :
    m.values.Pairwise fun x y => ¬ before (key y) (key x) := by
  have hkeys : m.entries.map Prod.fst = m.values.map key := by
    rw [values, List.map_map]
    exact List.map_congr_left hkey
  have hordered := m.ordered
  rw [hkeys, List.pairwise_map] at hordered
  exact hordered

/-- Iteration positions of the values are those of the pairs. -/
theorem findIdx?_values (m : Multimap κ α before) (test : α → Bool) :
    m.values.findIdx? test = m.entries.findIdx? (test ∘ Prod.snd) := by
  rw [values, List.findIdx?_map]

/-- The first value that passes a test, changed in place, is found at its position. -/
theorem modifyAt_values_getElem? (m : Multimap κ α before) (test : α → Bool) (f : α → α) {position : ℕ}
    (h : m.values.findIdx? test = some position) :
    (m.modifyAt position f).values[position]? = (m.values.find? test).map f := by
  rw [modifyAt_values, List.getElem?_modify_eq]
  generalize m.values = xs at h
  induction xs generalizing position with
  | nil => simp at h
  | cons x xs ih =>
    by_cases hx : test x = true
    · rw [List.findIdx?_cons, if_pos hx, Option.some.injEq] at h
      subst h
      simp [hx]
    · rw [List.findIdx?_cons, if_neg hx, Option.map_eq_some_iff] at h
      obtain ⟨earlier, hearlier, rfl⟩ := h
      simpa [hx] using ih hearlier

/-- Changing the first value that passes a test does not change what erasing it leaves. -/
theorem eraseFirst_modifyAt (m : Multimap κ α before) (test : α → Bool) (f : α → α) {position : ℕ}
    (hf : ∀ value, test (f value) = test value) (h : m.values.findIdx? test = some position) :
    (m.modifyAt position f).eraseFirst test = m.eraseFirst test := by
  apply Multimap.ext
  rw [findIdx?_values] at h
  simp only [eraseFirst, modifyAt]
  generalize m.entries = xs at h
  induction xs generalizing position with
  | nil => simp at h
  | cons x xs ih =>
    by_cases hx : test x.2 = true
    · rw [List.findIdx?_cons, Function.comp_apply, if_pos hx, Option.some.injEq] at h
      subst h
      simp [hx, hf]
    · rw [List.findIdx?_cons, Function.comp_apply, if_neg hx, Option.map_eq_some_iff] at h
      obtain ⟨earlier, hearlier, rfl⟩ := h
      simpa [hx] using ih hearlier

end Multimap

end MatchingEngine

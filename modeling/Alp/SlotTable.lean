import Mathlib.Data.List.ReduceOption
import Mathlib.Data.Multiset.AddSub

/-!
# Bounded slot tables

A fixed number of slots, each empty or holding one item, is how C programs keep
a small dynamic set without allocation: insert into the first empty slot, remove
by clearing the first slot that holds the item.  Items may repeat and removal
leaves holes, so the table is not a list; what it represents is the multiset of
its items.

`lowest` is the only search such tables need: the first slot with a given
content, where "empty" is a content like any other.  The two laws of the
representation are `toMultiset_fill` and `toMultiset_clear`.

Inserting a list of items one after the other fills the empty slots from the lowest
on (`fill_cons`), so the slot an item lands in is its place in the list counted in
empty slots (`slot_fill`), and a list that does not fit leaves a full table.
-/

set_option autoImplicit false

/-- A table of `n` slots. -/
structure SlotTable (α : Type*) (n : Nat) where
  slots : List (Option α)
  length_eq : slots.length = n

namespace SlotTable

variable {α : Type*} {n : Nat}

/-- The table with every slot empty. -/
def empty (n : Nat) : SlotTable α n :=
  ⟨List.replicate n none, List.length_replicate⟩

/-- Content of slot `i`; slots outside the table count as empty. -/
def slot (t : SlotTable α n) (i : Nat) : Option α :=
  t.slots.getD i none

/-- Overwrite slot `i`. -/
def set (t : SlotTable α n) (i : Nat) (o : Option α) : SlotTable α n :=
  ⟨t.slots.set i o, by rw [List.length_set]; exact t.length_eq⟩

/-- Number of slots in use. -/
def occupied (t : SlotTable α n) : Nat :=
  t.slots.countP Option.isSome

/-- The items of a table, with multiplicity. -/
def toMultiset (t : SlotTable α n) : Multiset α :=
  t.slots.reduceOption

@[ext] theorem ext {t u : SlotTable α n} (h : t.slots = u.slots) : t = u := by
  cases t; cases u; cases h; rfl

/-- A slot of the table is the entry of its list. -/
theorem slot_of_lt (t : SlotTable α n) {i : Nat} (h : i < t.slots.length) :
    t.slot i = t.slots[i] := by
  simp [slot, h]

/-- The slot that was set holds what it was set to. -/
theorem slot_set_same (t : SlotTable α n) {i : Nat} (o : Option α) (h : i < n) :
    (t.set i o).slot i = o := by
  have hi : i < t.slots.length := by rw [t.length_eq]; exact h
  simp [slot, set, hi]

/-- Setting a slot leaves the others alone. -/
theorem slot_set_other (t : SlotTable α n) {i j : Nat} (o : Option α) (h : j ≠ i) :
    (t.set i o).slot j = t.slot j := by
  simp [slot, set, List.getElem?_set_ne (Ne.symm h)]

/-- At most all slots are occupied. -/
theorem occupied_le (t : SlotTable α n) : t.occupied ≤ n := by
  have hle : t.occupied ≤ t.slots.length := List.countP_le_length
  rwa [t.length_eq] at hle

/-- The multiset counts the slots in use. -/
theorem card_toMultiset (t : SlotTable α n) : t.toMultiset.card = t.occupied := by
  simp only [toMultiset, occupied, Multiset.coe_card]
  generalize t.slots = l
  induction l with
  | nil => rfl
  | cons o l ih => cases o <;> simp [ih]

/-- Number of empty slots below slot `i`. -/
def emptyBelow (t : SlotTable α n) (i : Nat) : Nat :=
  (t.slots.take i).countP Option.isNone

/-- `fill` on the slots. -/
def fillSlots : List (Option α) → List α → List (Option α)
  | [], _ => []
  | some a :: slots, l => some a :: fillSlots slots l
  | none :: slots, [] => none :: slots
  | none :: slots, a :: l => some a :: fillSlots slots l

/-- Filling leaves the number of slots alone. -/
theorem length_fillSlots (slots : List (Option α)) (l : List α) :
    (fillSlots slots l).length = slots.length := by
  fun_induction fillSlots slots l with
  | case1 l => rfl
  | case2 a slots l ih => simp [ih]
  | case3 slots => rfl
  | case4 slots a l ih => simp [ih]

/-- The items of a list in the empty slots, the first in the lowest, as far as they
fit. -/
def fill (t : SlotTable α n) (l : List α) : SlotTable α n :=
  ⟨fillSlots t.slots l, by rw [length_fillSlots]; exact t.length_eq⟩

/-- Filling with nothing changes nothing. -/
theorem fillSlots_nil (slots : List (Option α)) : fillSlots slots [] = slots := by
  induction slots with
  | nil => rfl
  | cons o slots ih => cases o <;> simp [fillSlots, ih]

/-- Filling with two lists joined is filling with one after the other. -/
theorem fillSlots_append (slots : List (Option α)) (l l' : List α) :
    fillSlots slots (l ++ l') = fillSlots (fillSlots slots l) l' := by
  fun_induction fillSlots slots l with
  | case1 l => rfl
  | case2 a slots l ih => simp [fillSlots, ih]
  | case3 slots => rfl
  | case4 slots a l ih => simp [fillSlots, ih]

/-- What a slot holds after a filling. -/
theorem getElem?_fillSlots (slots : List (Option α)) (l : List α) {i : Nat}
    (h : i < slots.length) :
    (fillSlots slots l)[i]? =
      some ((slots[i]?.join).or l[(slots.take i).countP Option.isNone]?) := by
  induction slots generalizing l i with
  | nil => simp at h
  | cons o slots ih =>
      cases i with
      | zero =>
          cases o with
          | some a => simp [fillSlots]
          | none => cases l <;> simp [fillSlots]
      | succ i =>
          have hi : i < slots.length := by simpa using h
          cases o with
          | some a => simp [fillSlots, ih l hi]
          | none =>
              cases l with
              | nil => simp [fillSlots, hi]
              | cons a l => simp [fillSlots, ih l hi]

@[simp] theorem fill_nil (t : SlotTable α n) : t.fill [] = t :=
  ext (fillSlots_nil t.slots)

/-- Filling with two lists joined is filling with one after the other. -/
theorem fill_append (t : SlotTable α n) (l l' : List α) :
    t.fill (l ++ l') = (t.fill l).fill l' :=
  ext (fillSlots_append t.slots l l')

/-- A slot in use keeps its item, an empty one takes the item whose place in the list
is the number of empty slots below. -/
theorem slot_fill (t : SlotTable α n) (l : List α) {i : Nat} (h : i < n) :
    (t.fill l).slot i = (t.slot i).or l[t.emptyBelow i]? := by
  have hi : i < t.slots.length := by rw [t.length_eq]; exact h
  have hget := getElem?_fillSlots t.slots l hi
  rw [slot, slot, fill, emptyBelow, List.getD_eq_getElem?_getD, hget]
  simp [hi]

variable [DecidableEq α]

/-- Number of slots holding `a`. -/
def holding (t : SlotTable α n) (a : α) : Nat :=
  t.slots.count (some a)

/-- The lowest slot with content `o`. -/
def lowest (t : SlotTable α n) (o : Option α) : Option Nat :=
  t.slots.idxOf? o

/-- The lowest slot with a value is the one with it that has none below. -/
theorem lowest_eq_some_iff {t : SlotTable α n} {o : Option α} {i : Nat} :
    t.lowest o = some i ↔ i < n ∧ t.slot i = o ∧ ∀ j, j < i → t.slot j ≠ o := by
  rw [lowest, List.idxOf?_eq_some_iff]
  constructor
  · rintro ⟨hi, ho, hmin⟩
    refine ⟨t.length_eq ▸ hi, by rw [slot_of_lt t hi, ho], ?_⟩
    intro j hj
    rw [slot_of_lt t (Nat.lt_trans hj hi)]
    exact hmin j hj
  · rintro ⟨hi, ho, hmin⟩
    have hi' : i < t.slots.length := by rw [t.length_eq]; exact hi
    refine ⟨hi', by rw [← slot_of_lt t hi', ho], ?_⟩
    intro j hj
    rw [← slot_of_lt t (Nat.lt_trans hj hi')]
    exact hmin j hj

/-- There is no lowest slot with a value exactly when no slot holds it. -/
theorem lowest_eq_none_iff {t : SlotTable α n} {o : Option α} :
    t.lowest o = none ↔ ∀ i, i < n → t.slot i ≠ o := by
  rw [lowest, List.idxOf?_eq_none_iff]
  constructor
  · intro h i hi ho
    have hi' : i < t.slots.length := by rw [t.length_eq]; exact hi
    rw [slot_of_lt t hi'] at ho
    exact h (ho ▸ List.getElem_mem hi')
  · intro h hmem
    obtain ⟨i, hi, ho⟩ := List.mem_iff_getElem.mp hmem
    exact h i (t.length_eq ▸ hi) (by rw [slot_of_lt t hi, ho])

/-- There is an empty slot exactly when not every slot is in use. -/
theorem lowest_none_isSome_iff {t : SlotTable α n} :
    (t.lowest none).isSome ↔ t.occupied < n := by
  rw [lowest, List.isSome_idxOf?]
  have hle := t.occupied_le
  have hfull : t.occupied = t.slots.length ↔ ∀ o ∈ t.slots, o.isSome = true :=
    List.countP_eq_length
  rw [t.length_eq] at hfull
  constructor
  · intro hmem
    refine Nat.lt_of_le_of_ne hle (fun heq => ?_)
    simpa using hfull.mp heq none hmem
  · intro hlt
    by_contra hno
    refine absurd (hfull.mpr (fun o ho => ?_)) (Nat.ne_of_lt hlt)
    cases o with
    | none => exact absurd ho hno
    | some a => rfl

/-- No slot is empty exactly when all are in use. -/
theorem lowest_none_eq_none_iff {t : SlotTable α n} :
    t.lowest none = none ↔ t.occupied = n := by
  have hroom := lowest_none_isSome_iff (t := t)
  have hle := t.occupied_le
  constructor
  · intro h
    rw [h] at hroom
    have hnot : ¬ t.occupied < n := fun hlt => by simpa using hroom.mpr hlt
    omega
  · intro h
    by_contra hne
    have hlt := hroom.mp (Option.isSome_iff_ne_none.mpr hne)
    omega

/-- A value has a lowest slot exactly when it is held. -/
theorem lowest_some_isSome_iff {t : SlotTable α n} {a : α} :
    (t.lowest (some a)).isSome ↔ 0 < t.holding a := by
  rw [lowest, List.isSome_idxOf?, holding, List.count_pos_iff]

@[simp] theorem holding_empty (a : α) : (empty n : SlotTable α n).holding a = 0 := by
  simp [holding, empty, List.count_replicate]

/-- The multiset counts the slots that hold a value. -/
theorem count_toMultiset (t : SlotTable α n) (a : α) :
    t.toMultiset.count a = t.holding a := by
  simp only [toMultiset, holding, Multiset.coe_count]
  generalize t.slots = l
  induction l with
  | nil => rfl
  | cons o l ih =>
      cases o with
      | none => simp [ih]
      | some b => simp [List.count_cons, ih]

/-- Setting a slot takes the old value out of the count and the new one in. -/
theorem holding_set {t : SlotTable α n} {i : Nat} (h : i < n) (o : Option α) (a : α) :
    (t.set i o).holding a =
      t.holding a - (if t.slot i = some a then 1 else 0) + (if o = some a then 1 else 0) := by
  have hi : i < t.slots.length := by rw [t.length_eq]; exact h
  simp [holding, set, List.count_set hi, slot_of_lt t hi]

/-- Filling the lowest empty slot adds one item. -/
theorem toMultiset_fill {t : SlotTable α n} {i : Nat} (h : t.lowest none = some i) (a : α) :
    (t.set i (some a)).toMultiset = a ::ₘ t.toMultiset := by
  obtain ⟨hi, hslot, _⟩ := lowest_eq_some_iff.mp h
  ext b
  rw [count_toMultiset, holding_set hi, hslot, Multiset.count_cons, count_toMultiset]
  by_cases hb : b = a
  · simp [hb]
  · simp [hb, Ne.symm hb]

/-- Clearing the lowest slot that holds an item removes one copy. -/
theorem toMultiset_clear {t : SlotTable α n} {i : Nat} {a : α}
    (h : t.lowest (some a) = some i) :
    (t.set i none).toMultiset = t.toMultiset.erase a := by
  obtain ⟨hi, hslot, _⟩ := lowest_eq_some_iff.mp h
  ext b
  rw [count_toMultiset, holding_set hi, hslot]
  by_cases hb : b = a
  · subst hb
    rw [Multiset.count_erase_self, count_toMultiset]
    simp
  · rw [Multiset.count_erase_of_ne hb, count_toMultiset]
    simp [Ne.symm hb]

/-- Filling the lowest empty slot uses one more slot. -/
theorem occupied_set {t : SlotTable α n} {i : Nat} (h : t.lowest none = some i) (a : α) :
    (t.set i (some a)).occupied = t.occupied + 1 := by
  rw [← card_toMultiset, toMultiset_fill h, Multiset.card_cons, card_toMultiset]

/-- Inserting into the lowest empty slot is filling with one item. -/
theorem set_lowest {t : SlotTable α n} {i : Nat} (h : t.lowest none = some i) (a : α) :
    t.set i (some a) = t.fill [a] := by
  apply ext
  rw [lowest] at h
  show t.slots.set i (some a) = fillSlots t.slots [a]
  generalize t.slots = slots at h ⊢
  induction slots generalizing i with
  | nil => simp at h
  | cons o slots ih =>
      rw [List.idxOf?_cons] at h
      cases o with
      | none =>
          obtain rfl : i = 0 := by simpa using h.symm
          simp [fillSlots, fillSlots_nil]
      | some b =>
          obtain ⟨j, hj, rfl⟩ : ∃ j, slots.idxOf? none = some j ∧ j + 1 = i := by simpa using h
          simp [fillSlots, ih hj]

/-- Filling with a first item is inserting it and filling with the others. -/
theorem fill_cons {t : SlotTable α n} {i : Nat} (h : t.lowest none = some i) (a : α)
    (l : List α) : t.fill (a :: l) = (t.set i (some a)).fill l := by
  rw [set_lowest h, ← fill_append]
  rfl

/-- A full table stays as it is. -/
theorem fill_full {t : SlotTable α n} (h : t.lowest none = none) (l : List α) :
    t.fill l = t := by
  apply ext
  show fillSlots t.slots l = t.slots
  rw [lowest, List.idxOf?_eq_none_iff] at h
  generalize t.slots = slots at h ⊢
  induction slots with
  | nil => rfl
  | cons o slots ih =>
      rw [List.mem_cons, not_or] at h
      cases o with
      | none => exact absurd rfl h.1
      | some b => rw [fillSlots, ih h.2]

/-- A list fills as many slots as it has items, or the table. -/
theorem occupied_fill (t : SlotTable α n) (l : List α) :
    (t.fill l).occupied = min n (t.occupied + l.length) := by
  induction l generalizing t with
  | nil =>
      have hle := t.occupied_le
      rw [fill_nil, List.length_nil]
      omega
  | cons a l ih =>
      cases h : t.lowest none with
      | none =>
          have hocc := lowest_none_eq_none_iff.mp h
          rw [fill_full h, hocc]
          omega
      | some i =>
          rw [fill_cons h, ih, occupied_set h, List.length_cons]
          omega

/-- Filling changes a table that has an empty slot. -/
theorem fill_eq_self_iff {t : SlotTable α n} {l : List α} (hl : l ≠ []) :
    t.fill l = t ↔ t.lowest none = none := by
  refine ⟨fun heq => ?_, fun h => fill_full h l⟩
  by_contra hne
  obtain ⟨i, hi⟩ := Option.ne_none_iff_exists'.mp hne
  obtain ⟨hlt, hslot, -⟩ := lowest_eq_some_iff.mp hi
  obtain ⟨a, l, rfl⟩ := List.exists_cons_of_ne_nil hl
  have hfill : (t.fill (a :: l)).slot i = some a := by
    rw [fill_cons hi, slot_fill _ _ hlt, slot_set_same t _ hlt, Option.some_or]
  rw [heq, hslot] at hfill
  cases hfill

end SlotTable

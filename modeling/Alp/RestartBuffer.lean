import Mathlib.Data.List.Basic
import Mathlib.Data.List.Induction
import Mathlib.Logic.Function.Basic

/-!
# A buffer that starts over when it is full

A reader stores what it reads at increasing places `0, 1, …` of a buffer of `n`
places.  When all are taken the next item goes to place 0 again, over what was
there, and the count starts over with it.  Such a reader does not keep the last
`n` items: it keeps those after the last restart (`lastChunk`), which are at
least one and at most `n` of them.

`holding_fill` says so for every list, and `length_lastChunk_eq_iff` when the
buffer is left full.
-/

set_option autoImplicit false

namespace RestartBuffer

variable {α : Type*}

/-- The place of the next item when `cnt` are stored. -/
def place (n cnt : Nat) : Nat :=
  if n ≤ cnt then 0 else cnt

/-- Store one item. -/
def push (n : Nat) (s : (Nat → α) × Nat) (a : α) : (Nat → α) × Nat :=
  (Function.update s.1 (place n s.2) a, place n s.2 + 1)

/-- Store a list of items. -/
def fill (n : Nat) (s : (Nat → α) × Nat) (w : List α) : (Nat → α) × Nat :=
  w.foldl (push n) s

/-- The items since the last restart. -/
def lastChunk (n : Nat) (w : List α) : List α :=
  w.drop ((w.length - 1) / n * n)

/-- The buffer holds exactly the items `w`. -/
structure Holding (s : (Nat → α) × Nat) (w : List α) : Prop where
  count : s.2 = w.length
  item : ∀ (i : Nat) (h : i < w.length), s.1 i = w[i]

/-- A place is inside the buffer. -/
theorem place_lt {n : Nat} (hn : 0 < n) (cnt : Nat) : place n cnt < n := by
  unfold place
  split <;> omega

@[simp] theorem lastChunk_nil (n : Nat) : lastChunk n ([] : List α) = [] := by
  simp [lastChunk]

/-- The last chunk has what is over after full ones, and is never empty. -/
theorem length_lastChunk {n : Nat} {w : List α} (hw : w ≠ []) :
    (lastChunk n w).length = (w.length - 1) % n + 1 := by
  have hlen := List.length_pos_iff.mpr hw
  have hdiv := Nat.div_add_mod (w.length - 1) n
  rw [Nat.mul_comm] at hdiv
  rw [lastChunk, List.length_drop]
  omega

/-- The last chunk fits the buffer. -/
theorem length_lastChunk_le {n : Nat} (hn : 0 < n) (w : List α) : (lastChunk n w).length ≤ n := by
  by_cases hw : w = []
  · simp [hw]
  · have hmod := Nat.mod_lt (w.length - 1) hn
    rw [length_lastChunk hw]
    omega

/-- A list that fits is kept whole. -/
theorem lastChunk_of_le {n : Nat} {w : List α} (h : w.length ≤ n) : lastChunk n w = w := by
  by_cases hw : w = []
  · simp [hw]
  · have hlen := List.length_pos_iff.mpr hw
    rw [lastChunk, Nat.div_eq_of_lt (by omega), Nat.zero_mul, List.drop_zero]

/-- The last chunk is the end of the sequence. -/
theorem lastChunk_suffix (n : Nat) (w : List α) : lastChunk n w <:+ w :=
  List.drop_suffix _ _

/-- Something is kept of every list, its last item at least. -/
theorem getLast?_lastChunk (n : Nat) (w : List α) : (lastChunk n w).getLast? = w.getLast? := by
  by_cases hw : w = []
  · simp [hw]
  · have hlen := List.length_pos_iff.mpr hw
    have hle : (w.length - 1) / n * n ≤ w.length - 1 := Nat.div_mul_le_self _ _
    rw [lastChunk, List.getLast?_drop, if_neg (by omega)]

/-- The buffer is left full by the lists whose length is a multiple of its size. -/
theorem length_lastChunk_eq_iff {n : Nat} (hn : 0 < n) (w : List α) :
    (lastChunk n w).length = n ↔ w ≠ [] ∧ n ∣ w.length := by
  by_cases hw : w = []
  · simp [hw]
    omega
  · have hlen := List.length_pos_iff.mpr hw
    obtain ⟨k, hk⟩ : ∃ k, w.length = k + 1 := ⟨w.length - 1, by omega⟩
    rw [length_lastChunk hw, hk, Nat.add_sub_cancel, Nat.dvd_iff_mod_eq_zero, Nat.add_mod]
    have hmod := Nat.mod_lt k hn
    constructor
    · intro hfull
      refine ⟨hw, ?_⟩
      rw [Nat.add_mod_mod, hfull]
      exact Nat.mod_self n
    · rintro ⟨-, hzero⟩
      rw [Nat.add_mod_mod] at hzero
      by_contra hne
      rw [Nat.mod_eq_of_lt (by omega)] at hzero
      omega

/-- One more item goes behind the others, or alone into the buffer started over. -/
theorem lastChunk_snoc {n : Nat} (hn : 0 < n) (w : List α) (a : α) :
    lastChunk n (w ++ [a]) = if n ≤ (lastChunk n w).length then [a] else lastChunk n w ++ [a] := by
  have hle := length_lastChunk_le hn w
  by_cases hw : w = []
  · subst hw
    rw [if_neg (by rw [lastChunk_nil]; exact Nat.not_le.mpr hn)]
    simp [lastChunk]
  · have hlen := List.length_pos_iff.mpr hw
    obtain ⟨k, hk⟩ : ∃ k, w.length = k + 1 := ⟨w.length - 1, by omega⟩
    have hdrop : lastChunk n (w ++ [a]) = (w ++ [a]).drop ((k + 1) / n * n) := by
      simp [lastChunk, hk]
    have hold : lastChunk n w = w.drop (k / n * n) := by simp [lastChunk, hk]
    rw [hdrop]
    split
    · next hfull =>
        obtain ⟨-, q, hq⟩ := (length_lastChunk_eq_iff hn w).mp (Nat.le_antisymm hle hfull)
        rw [← hk, hq, Nat.mul_div_cancel_left q hn, Nat.mul_comm q n, ← hq, List.drop_left]
    · next hroom =>
        have hnot : ¬ n ∣ k + 1 := fun hdvd =>
          hroom (Nat.le_of_eq ((length_lastChunk_eq_iff hn w).mpr ⟨hw, hk ▸ hdvd⟩).symm)
        have hsame : (k + 1) / n = k / n := by rw [Nat.succ_div, if_neg hnot, Nat.add_zero]
        have hbound : k / n * n ≤ k := Nat.div_mul_le_self _ _
        rw [hsame, List.drop_append_of_le_length (by omega), ← hold]

/-- One more element is put behind the last chunk, or begins the next. -/
theorem holding_push {n : Nat} (hn : 0 < n) {s : (Nat → α) × Nat} {w : List α} (a : α)
    (h : Holding s (lastChunk n w)) : Holding (push n s a) (lastChunk n (w ++ [a])) := by
  rw [lastChunk_snoc hn]
  split
  · next hfull =>
      have hplace : place n s.2 = 0 := if_pos (h.count ▸ hfull)
      refine ⟨by simp [push, hplace], fun i hi => ?_⟩
      obtain rfl : i = 0 := by simpa using hi
      simp [push, hplace]
  · next hroom =>
      have hplace : place n s.2 = (lastChunk n w).length := by
        rw [place, h.count, if_neg hroom]
      refine ⟨by simp [push, hplace], fun i hi => ?_⟩
      by_cases hlast : i = (lastChunk n w).length
      · subst hlast
        simp [push, hplace]
      · have hi' : i < (lastChunk n w).length := by
          simp only [List.length_append, List.length_singleton] at hi
          omega
        rw [List.getElem_append_left hi', ← h.item i hi']
        simp [push, hplace, hlast]

/-- **What is left in the buffer.**  After any list of items, whatever was there
before: the items since the last restart, in order from place 0. -/
theorem holding_fill {n : Nat} (hn : 0 < n) (m : Nat → α) (w : List α) :
    Holding (fill n (m, 0) w) (lastChunk n w) := by
  induction w using List.reverseRecOn with
  | nil =>
      rw [lastChunk_nil]
      exact ⟨rfl, fun i hi => absurd hi (Nat.not_lt_zero i)⟩
  | append_singleton w a ih =>
      have hsnoc : fill n (m, 0) (w ++ [a]) = push n (fill n (m, 0) w) a := by
        simp [fill, List.foldl_append]
      rw [hsnoc]
      exact holding_push hn a ih

end RestartBuffer

import Mathlib.Data.Nat.Digits.Lemmas
import Mathlib.Data.List.TakeWhile

/-!
# Positional numerals

`value b ds` is the number that the digits `ds` denote in base `b`, the most significant
digit first.  Two numerals denote the same number exactly when they agree up to leading
zeros (`value_eq_iff`).
-/

set_option autoImplicit false

namespace Numeral

/-- The number that `ds` denotes in base `b`. -/
def value (b : Nat) (ds : List Nat) : Nat :=
  Nat.ofDigits b ds.reverse

/-- The digits without leading zeros. -/
def significant (ds : List Nat) : List Nat :=
  ds.dropWhile (· = 0)

@[simp] theorem value_nil (b : Nat) : value b [] = 0 := rfl

/-- A numeral joined to another is moved up by the other's length. -/
theorem value_append (b : Nat) (ds es : List Nat) :
    value b (ds ++ es) = value b ds * b ^ es.length + value b es := by
  rw [value, List.reverse_append, Nat.ofDigits_append, List.length_reverse, value, value]
  ring

/-- The first digit counts the highest power. -/
theorem value_cons (b d : Nat) (ds : List Nat) :
    value b (d :: ds) = d * b ^ ds.length + value b ds := by
  have h := value_append b [d] ds
  simpa [value] using h

/-- One more digit at the end multiplies what was before by the base. -/
theorem value_concat (b : Nat) (ds : List Nat) (d : Nat) :
    value b (ds ++ [d]) = value b ds * b + d := by
  rw [value_append]
  simp [value]

/-- A numeral of `n` digits is below the power `n` of the base. -/
theorem value_lt_pow {b : Nat} (hb : 1 < b) {ds : List Nat} (h : ∀ d ∈ ds, d < b) :
    value b ds < b ^ ds.length := by
  rw [value, ← List.length_reverse]
  apply Nat.ofDigits_lt_base_pow_length hb
  intro d hd
  exact h d (List.mem_reverse.mp hd)

/-- Leading zeros do not count. -/
theorem value_significant (b : Nat) (ds : List Nat) : value b (significant ds) = value b ds := by
  induction ds with
  | nil => rfl
  | cons d ds ih =>
      by_cases hd : d = 0
      · rw [significant, List.dropWhile_cons_of_pos (by simpa using hd), value_cons, hd,
          Nat.zero_mul, Nat.zero_add]
        exact ih
      · rw [significant, List.dropWhile_cons_of_neg (by simpa using hd)]

/-- The digits of a numeral's value are its significant ones, from the last to the first. -/
theorem digits_value {b : Nat} (hb : 1 < b) {ds : List Nat} (h : ∀ d ∈ ds, d < b) :
    Nat.digits b (value b ds) = (significant ds).reverse := by
  rw [← value_significant, value]
  apply Nat.digits_ofDigits b hb
  · intro d hd
    exact h d (List.dropWhile_subset _ (List.mem_reverse.mp hd))
  · intro hne
    rw [List.getLast_reverse]
    have hhead := List.head_dropWhile_not (fun d : Nat => decide (d = 0))
      (l := ds) (List.reverse_ne_nil_iff.mp hne)
    simpa [significant] using hhead

/-- **Numerals.**  They denote the same number exactly when they agree up to leading
zeros. -/
theorem value_eq_iff {b : Nat} (hb : 1 < b) {ds es : List Nat} (hds : ∀ d ∈ ds, d < b)
    (hes : ∀ d ∈ es, d < b) : value b ds = value b es ↔ significant ds = significant es := by
  constructor
  · intro h
    have hrev : (significant ds).reverse = (significant es).reverse := by
      rw [← digits_value hb hds, ← digits_value hb hes, h]
    exact List.reverse_injective hrev
  · intro h
    rw [← value_significant b ds, h, value_significant]

/-- Only zeros have the value 0. -/
theorem value_eq_zero_iff {b : Nat} (hb : 0 < b) (ds : List Nat) :
    value b ds = 0 ↔ ∀ d ∈ ds, d = 0 := by
  induction ds with
  | nil => simp
  | cons d ds ih =>
      have hpow : b ^ ds.length ≠ 0 := (Nat.pow_pos hb).ne'
      rw [value_cons, Nat.add_eq_zero_iff, Nat.mul_eq_zero, ih, List.forall_mem_cons]
      simp only [hpow, or_false]

/-- The first digits of a numeral have no greater value than all of them. -/
theorem value_take_le {b : Nat} (hb : 0 < b) (ds : List Nat) (n : Nat) :
    value b (ds.take n) ≤ value b ds := by
  have happ := value_append b (ds.take n) (ds.drop n)
  rw [List.take_append_drop] at happ
  have hmul := Nat.le_mul_of_pos_right (value b (ds.take n))
    (Nat.pow_pos (n := (ds.drop n).length) hb)
  omega

/-- Cutting digits off the end changes the number, unless it is zero. -/
theorem value_take_eq_iff {b : Nat} (hb : 1 < b) (ds : List Nat) (n : Nat) :
    value b (ds.take n) = value b ds ↔ ds.length ≤ n ∨ value b ds = 0 := by
  by_cases hlong : ds.length ≤ n
  · simp [hlong, List.take_of_length_le hlong]
  have happ := value_append b (ds.take n) (ds.drop n)
  rw [List.take_append_drop] at happ
  have hpow : 2 ≤ b ^ (ds.drop n).length := by
    have hpos : (ds.drop n).length ≠ 0 := by
      rw [List.length_drop]
      omega
    exact hb.trans_le (Nat.le_self_pow hpos b)
  constructor
  · intro h
    right
    have hdouble := Nat.mul_le_mul_left (value b (ds.take n)) hpow
    omega
  · rintro (h | h)
    · exact absurd h hlong
    · have hzero : value b (ds.take n) * b ^ (ds.drop n).length = 0 := by omega
      rcases Nat.mul_eq_zero.mp hzero with htake | hbase
      · omega
      · omega

end Numeral

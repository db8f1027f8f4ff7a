import Alp.Crc
import Mathlib.Algebra.CharP.Two
import Mathlib.Algebra.Field.ZMod
import Mathlib.RingTheory.AdjoinRoot

/-!
# The check as a remainder

A word is the polynomial over `ZMod 2` whose coefficients are its bits (`value`), and
the check divides by `X ^ w + value poly` (`gen`).  Modulo `gen` one shift multiplies
by `X` (`residue_shift`), so that after a sequence of bits the remainder is the one of
the message times `X ^ w` (`residue_foldl_bit`, `value_crcBits`).

Words are remainders, and different words are different ones (`residue_injective`): two
ways to compute a check are compared in the quotient.  Taking in a word bit by bit is
adding it at the top and shifting it through (`foldl_bit_bits`), which gives both the
check of bytes (`crc_eq_crcBits`) and the remainder 0 behind the check
(`crcBits_append_eq_zero_iff`).
-/

set_option autoImplicit false

namespace Crc

open Polynomial

variable {w : Nat} (poly : BitVec w)

/-- The remainder after one more bit. -/
def bit (r : BitVec w) (b : Bool) : BitVec w :=
  if r.msb ^^ b then (r <<< 1) ^^^ poly else r <<< 1

/-- The check of a sequence of bits. -/
def crcBits (bs : List Bool) : BitVec w :=
  bs.foldl (bit poly) 0

/-- The bits of a word, the highest first. -/
def bits {n : Nat} (x : BitVec n) : List Bool :=
  (List.range n).map x.getMsbD

/-- A bit as a coefficient. -/
def digit (b : Bool) : ZMod 2 :=
  if b then 1 else 0

/-- Exclusive or is addition of coefficients. -/
theorem digit_xor (a b : Bool) : digit (a ^^ b) = digit a + digit b := by
  cases a <;> cases b <;> decide

/-- Different bits are different coefficients. -/
theorem digit_injective : Function.Injective digit := by
  intro a b h
  cases a <;> cases b <;> first | rfl | exact absurd h (by decide)

/-- The polynomial of a word. -/
noncomputable def value (r : BitVec w) : (ZMod 2)[X] :=
  ∑ i ∈ Finset.range w, monomial i (digit (r.getLsbD i))

@[simp] theorem coeff_value (r : BitVec w) (i : Nat) :
    (value r).coeff i = digit (r.getLsbD i) := by
  rw [value, finsetSum_coeff]
  simp only [coeff_monomial, Finset.sum_ite_eq', Finset.mem_range]
  split
  · rfl
  · next hi => rw [BitVec.getLsbD_of_ge r i (Nat.not_lt.mp hi)]; rfl

/-- The word 0 is the polynomial 0. -/
theorem value_zero : value (0 : BitVec w) = 0 := by
  ext i
  rw [coeff_value, BitVec.ofNat_eq_ofNat, BitVec.getLsbD_zero]
  rfl

/-- Exclusive or is addition of polynomials. -/
theorem value_xor (a b : BitVec w) : value (a ^^^ b) = value a + value b := by
  ext i
  rw [coeff_add, coeff_value, coeff_value, coeff_value, BitVec.getLsbD_xor, digit_xor]

/-- Different words are different polynomials. -/
theorem value_injective : Function.Injective (value (w := w)) := by
  intro a b h
  refine BitVec.eq_of_getLsbD_eq fun i _ => digit_injective ?_
  rw [← coeff_value, ← coeff_value, h]

/-- The polynomial of a word of `w` bits has a degree below `w`. -/
theorem degree_value_lt (r : BitVec w) : (value r).degree < w := by
  refine (degree_lt_iff_coeff_zero _ _).mpr fun i hi => ?_
  rw [coeff_value, BitVec.getLsbD_of_ge r i hi]
  rfl

/-- Shifting multiplies by `X`; the top bit falls out. -/
theorem value_shiftLeft_one (r : BitVec w) :
    value (r <<< 1) = X * value r + C (digit r.msb) * X ^ w := by
  ext i
  rw [coeff_add, coeff_C_mul_X_pow, coeff_value, BitVec.getLsbD_shiftLeft,
    BitVec.msb_eq_getLsbD_last]
  cases i with
  | zero =>
      by_cases hw : w = 0
      · simp [hw, digit]
      · simp [Ne.symm hw, digit]
  | succ i =>
      rw [coeff_X_mul, coeff_value]
      by_cases hlt : i + 1 < w
      · have hne : i + 1 ≠ w := by omega
        simp [hlt, hne]
      · by_cases heq : i + 1 = w
        · have hlast : w - 1 = i := by omega
          have hzero : digit (r.getLsbD i) + digit (r.getLsbD i) = 0 := CharTwo.add_self_eq_zero _
          rw [hlast, if_pos heq, hzero, decide_eq_false hlt]
          rfl
        · have hge : w ≤ i := by omega
          rw [if_neg heq, add_zero, BitVec.getLsbD_of_ge r i hge, decide_eq_false hlt]
          rfl

/-- A word at the top of a wider one. -/
theorem value_top {n : Nat} (hn : n ≤ w) (x : BitVec n) :
    value (x.setWidth w <<< (w - n)) = value x * X ^ (w - n) := by
  ext i
  rw [coeff_mul_X_pow', coeff_value, BitVec.getLsbD_shiftLeft, BitVec.getLsbD_setWidth]
  by_cases hlow : i < w - n
  · rw [if_neg (Nat.not_le.mpr hlow), decide_eq_true hlow, Bool.not_true, Bool.and_false,
      Bool.false_and]
    rfl
  · rw [if_pos (Nat.not_lt.mp hlow), coeff_value]
    by_cases hi : i < w
    · have hsub : i - (w - n) < w := by omega
      simp [hlow, hi, hsub]
    · rw [BitVec.getLsbD_of_ge x _ (by omega), Bool.and_false, Bool.and_false]

/-- The polynomial of a sequence of bits, the highest coefficient first. -/
noncomputable def message : List Bool → (ZMod 2)[X]
  | [] => 0
  | b :: bs => C (digit b) * X ^ bs.length + message bs

/-- A coefficient of a message is its bit, counted from the end. -/
theorem coeff_message (bs : List Bool) (i : Nat) :
    (message bs).coeff i = digit (bs.reverse[i]?.getD false) := by
  induction bs with
  | nil => simp [message, digit]
  | cons b bs ih =>
      rw [message, coeff_add, coeff_C_mul_X_pow, ih, List.reverse_cons, List.getElem?_append,
        List.length_reverse]
      by_cases hlt : i < bs.length
      · have hne : i ≠ bs.length := by omega
        rw [if_pos hlt, if_neg hne, zero_add]
      · have hnone : bs.reverse[i]? = none := by
          rw [List.getElem?_eq_none_iff, List.length_reverse]
          omega
        rw [if_neg hlt, hnone]
        by_cases heq : i = bs.length
        · simp [heq, digit]
        · have hpos : i - bs.length ≠ 0 := by omega
          simp [heq, hpos, digit]

/-- A word of `n` bits has `n` bits. -/
theorem length_bits {n : Nat} (x : BitVec n) : (bits x).length = n := by
  rw [bits, List.length_map, List.length_range]

/-- The message of a word's bits is the polynomial of the word. -/
theorem message_bits {n : Nat} (x : BitVec n) : message (bits x) = value x := by
  ext i
  rw [coeff_message, coeff_value]
  refine congrArg digit ?_
  by_cases hi : i < n
  · have hlen : i < (bits x).length := by rwa [length_bits]
    rw [List.getElem?_reverse hlen, length_bits, bits, List.getElem?_map,
      List.getElem?_range (by omega), Option.map_some, Option.getD_some,
      BitVec.getMsbD_eq_getLsbD]
    have hback : n - 1 - (n - 1 - i) = i := by omega
    have hlt : n - 1 - i < n := by omega
    rw [hback, decide_eq_true hlt, Bool.true_and]
  · have hnone : (bits x).reverse[i]? = none := by
      rw [List.getElem?_eq_none_iff, List.length_reverse, length_bits]
      omega
    rw [hnone, BitVec.getLsbD_of_ge x i (by omega)]
    rfl

/-- Words one behind the other. -/
theorem bits_append {m n : Nat} (x : BitVec m) (y : BitVec n) :
    bits (x ++ y) = bits x ++ bits y := by
  rw [bits, bits, bits, List.range_add, List.map_append, List.map_map]
  congr 1
  · refine List.map_congr_left fun i hi => ?_
    rw [BitVec.getMsbD_append, if_neg (Nat.not_le.mpr (List.mem_range.mp hi))]
  · refine List.map_congr_left fun i _ => ?_
    rw [Function.comp_apply, BitVec.getMsbD_append, if_pos (Nat.le_add_right m i),
      Nat.add_sub_cancel_left]

/-- What the check divides by. -/
noncomputable def gen : (ZMod 2)[X] :=
  X ^ w + value poly

/-- The divisor is monic. -/
theorem gen_monic : (gen poly).Monic :=
  monic_X_pow_add (degree_value_lt poly)

/-- The divisor has degree `w`. -/
theorem degree_gen : (gen poly).degree = w := by
  rw [gen, degree_add_eq_left_of_degree_lt, degree_X_pow]
  rw [degree_X_pow]
  exact degree_value_lt poly

/-- A word modulo `gen`. -/
noncomputable def residue (r : BitVec w) : AdjoinRoot (gen poly) :=
  AdjoinRoot.mk (gen poly) (value r)

/-- Exclusive or is addition of residues. -/
theorem residue_xor (a b : BitVec w) :
    residue poly (a ^^^ b) = residue poly a + residue poly b := by
  rw [residue, value_xor, map_add]
  rfl

/-- A word is the remainder of its residue. -/
theorem value_eq_modByMonic {r : BitVec w} {p : (ZMod 2)[X]}
    (h : residue poly r = AdjoinRoot.mk (gen poly) p) : value r = p %ₘ gen poly := by
  have hself : value r %ₘ gen poly = value r := by
    rw [modByMonic_eq_self_iff (gen_monic poly), degree_gen]
    exact degree_value_lt r
  rw [← hself]
  exact modByMonic_eq_of_dvd_sub (gen_monic poly) (AdjoinRoot.mk_eq_mk.mp h)

/-- A residue belongs to one word only, since words are below the divisor in degree. -/
theorem residue_injective : Function.Injective (residue poly) := by
  intro a b h
  apply value_injective
  rw [value_eq_modByMonic poly h, ← value_eq_modByMonic poly rfl]

/-- Modulo `gen`, the bit that falls out is the polynomial. -/
theorem residue_poly : residue poly poly = AdjoinRoot.mk (gen poly) (X ^ w) := by
  rw [residue, AdjoinRoot.mk_eq_mk, CharTwo.sub_eq_add, add_comm]
  exact dvd_rfl

/-- A shift that takes in `b`. -/
theorem residue_bit (r : BitVec w) (b : Bool) :
    residue poly (bit poly r b) =
      AdjoinRoot.mk (gen poly) (X * value r + C (digit b) * X ^ w) := by
  have hshift : residue poly (r <<< 1) =
      AdjoinRoot.mk (gen poly) (X * value r + C (digit r.msb) * X ^ w) := by
    rw [residue, value_shiftLeft_one]
  have hbit : residue poly (bit poly r b) =
      residue poly (r <<< 1) + AdjoinRoot.mk (gen poly) (C (digit (r.msb ^^ b)) * X ^ w) := by
    unfold bit
    split
    · next h => rw [residue_xor, residue_poly, h, digit, if_pos rfl, C_1, one_mul]
    · next h =>
        rw [Bool.eq_false_of_not_eq_true h, digit, if_neg Bool.false_ne_true, C_0, zero_mul,
          map_zero, add_zero]
  have htwo : (C (digit r.msb) + C (digit r.msb) : (ZMod 2)[X]) = 0 := CharTwo.add_self_eq_zero _
  rw [hbit, hshift, ← map_add, digit_xor, C_add]
  refine congrArg (AdjoinRoot.mk (gen poly)) ?_
  calc X * value r + C (digit r.msb) * X ^ w + (C (digit r.msb) + C (digit b)) * X ^ w
      = X * value r + C (digit b) * X ^ w + (C (digit r.msb) + C (digit r.msb)) * X ^ w := by
        ring
    _ = X * value r + C (digit b) * X ^ w := by
        rw [htwo, zero_mul, add_zero]

/-- Shifting is taking a bit 0 in. -/
theorem shift_eq_bit (r : BitVec w) : shift poly r = bit poly r false := by
  rw [shift, bit, Bool.xor_false]

/-- Shifting `n` times multiplies the residue by `X ^ n`. -/
theorem residue_shifts (n : Nat) (r : BitVec w) :
    residue poly (shifts poly n r) = AdjoinRoot.mk (gen poly) (X ^ n * value r) := by
  induction n generalizing r with
  | zero => rw [shifts, pow_zero, one_mul, residue]
  | succ n ih =>
      have hstep := residue_bit poly r false
      rw [digit, if_neg Bool.false_ne_true, C_0, zero_mul, add_zero, ← shift_eq_bit, residue]
        at hstep
      rw [shifts, ih, map_mul, hstep, ← map_mul, pow_succ, mul_assoc]

/-- After a sequence of bits. -/
theorem residue_foldl_bit (bs : List Bool) (r : BitVec w) :
    residue poly (bs.foldl (bit poly) r) =
      AdjoinRoot.mk (gen poly) (X ^ bs.length * value r + message bs * X ^ w) := by
  induction bs generalizing r with
  | nil => rw [List.foldl_nil, message, zero_mul, add_zero, List.length_nil, pow_zero, one_mul,
      residue]
  | cons b bs ih =>
      have hstep := residue_bit poly r b
      rw [residue] at hstep
      rw [List.foldl_cons, ih, map_add, map_mul, hstep, ← map_mul, ← map_add, message,
        List.length_cons, pow_succ]
      refine congrArg (AdjoinRoot.mk (gen poly)) ?_
      ring

/-- **The remainder.**  The check of a sequence of bits is the remainder of the message
times `X ^ w`. -/
theorem value_crcBits (bs : List Bool) :
    value (crcBits poly bs) = (message bs * X ^ w) %ₘ gen poly := by
  apply value_eq_modByMonic
  rw [crcBits, residue_foldl_bit, value_zero, mul_zero, zero_add]

/-- Taking in a word bit by bit is adding it at the top and shifting it through. -/
theorem foldl_bit_bits {n : Nat} (hn : n ≤ w) (r : BitVec w) (x : BitVec n) :
    (bits x).foldl (bit poly) r = shifts poly n (r ^^^ (x.setWidth w <<< (w - n))) := by
  apply residue_injective poly
  have hpow : (X : (ZMod 2)[X]) ^ w = X ^ n * X ^ (w - n) := by
    rw [← pow_add, Nat.add_sub_cancel' hn]
  rw [residue_foldl_bit, residue_shifts, length_bits, message_bits, value_xor, value_top hn, hpow]
  refine congrArg (AdjoinRoot.mk (gen poly)) ?_
  ring

/-- The check of bytes is the one of their bits. -/
theorem crc_eq_crcBits (hw : 8 ≤ w) (bs : List (BitVec 8)) :
    crc poly bs = crcBits poly (bs.flatMap bits) := by
  have hbyte : byte poly = fun r b => (bits b).foldl (bit poly) r := by
    funext r b
    rw [foldl_bit_bits poly hw, byte]
  rw [crc, crcBits, List.foldl_flatMap, hbyte]

/-- Taking a word in is adding it to the check and shifting by its width. -/
theorem crcBits_append_bits (bs : List Bool) (r : BitVec w) :
    crcBits poly (bs ++ bits r) = shifts poly w (crcBits poly bs ^^^ r) := by
  rw [crcBits, List.foldl_append, foldl_bit_bits poly (Nat.le_refl w), BitVec.setWidth_eq,
    Nat.sub_self, BitVec.shiftLeft_zero, crcBits]

/-- Shifting 0 gives 0. -/
theorem shifts_zero (n : Nat) : shifts poly n 0 = 0 := by
  apply residue_injective poly
  rw [residue_shifts, value_zero, mul_zero, residue, value_zero]

/-- Where the polynomial is odd, nothing but 0 is shifted to 0. -/
theorem eq_zero_of_shift {r : BitVec w} (hodd : poly.getLsbD 0 = true) (h : shift poly r = 0) :
    r = 0 := by
  cases hmsb : r.msb with
  | true =>
      have hlow : (shift poly r).getLsbD 0 = true := by
        rw [shift, if_pos hmsb, BitVec.getLsbD_xor, hodd, BitVec.getLsbD_shiftLeft]
        simp
      rw [h] at hlow
      simp at hlow
  | false =>
      have hshift : r <<< 1 = 0 := by
        rwa [shift, if_neg (by rw [hmsb]; exact Bool.false_ne_true)] at h
      refine BitVec.eq_of_getLsbD_eq fun i hi => ?_
      rw [BitVec.ofNat_eq_ofNat, BitVec.getLsbD_zero]
      by_cases hlast : i = w - 1
      · rwa [hlast, ← BitVec.msb_eq_getLsbD_last]
      · have hlt : i + 1 < w := by omega
        have hbit : (r <<< 1).getLsbD (i + 1) = r.getLsbD i := by
          rw [BitVec.getLsbD_shiftLeft]
          simp [hlt]
        rw [← hbit, hshift]
        exact BitVec.getLsbD_zero

/-- Only 0 is shifted to 0, when the divisor has a constant term. -/
theorem eq_zero_of_shifts {n : Nat} {r : BitVec w} (hodd : poly.getLsbD 0 = true)
    (h : shifts poly n r = 0) : r = 0 := by
  induction n generalizing r with
  | zero => exact h
  | succ n ih => exact eq_zero_of_shift poly hodd (ih h)

/-- **The remainder 0.**  A message has it behind its check, and, where the polynomial
is odd, behind nothing else. -/
theorem crcBits_append_eq_zero_iff (hodd : poly.getLsbD 0 = true) (bs : List Bool) (r : BitVec w) :
    crcBits poly (bs ++ bits r) = 0 ↔ crcBits poly bs = r := by
  rw [crcBits_append_bits]
  constructor
  · intro h
    exact BitVec.xor_eq_zero_iff.mp (eq_zero_of_shifts poly hodd h)
  · rintro rfl
    rw [BitVec.xor_self]
    exact shifts_zero poly w

end Crc

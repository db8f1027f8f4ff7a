import Alp.CrcRemainder

/-!
# What a check detects

A frame is a message with its check behind it, and errors in it are the bits that are
different.  Since the check is linear (`crcBits_zipWith`), whether the disturbed frame
still has the remainder 0 depends on the errors only, not on the message.

Where the polynomial is odd, no burst of errors that fits into the check goes unnoticed
(`crcBits_burst_ne_zero`); where `X + 1` divides `gen`, no odd number of them
(`even_count_of_crcBits`); and where the powers of `X` modulo `gen` do not come back to 1
within the length of the frame, no two of them (`crcBits_pair_ne_zero`).
-/

set_option autoImplicit false

namespace Crc

open Polynomial

variable {w : Nat} (poly : BitVec w)

/-- Taking a bit in is linear. -/
theorem bit_xor (r s : BitVec w) (a b : Bool) :
    bit poly (r ^^^ s) (a ^^ b) = bit poly r a ^^^ bit poly s b := by
  apply residue_injective poly
  have hdigit : (C (digit (a ^^ b)) : (ZMod 2)[X]) = C (digit a) + C (digit b) := by
    rw [digit_xor, C_add]
  rw [residue_xor, residue_bit, residue_bit, residue_bit, value_xor, ← map_add, hdigit]
  refine congrArg (AdjoinRoot.mk (gen poly)) ?_
  ring

/-- Taking bits in is linear, by induction on the bits. -/
theorem foldl_bit_zipWith {bs es : List Bool} (h : bs.length = es.length) (r s : BitVec w) :
    (List.zipWith xor bs es).foldl (bit poly) (r ^^^ s) =
      bs.foldl (bit poly) r ^^^ es.foldl (bit poly) s := by
  induction bs generalizing es r s with
  | nil =>
      obtain rfl := List.eq_nil_of_length_eq_zero h.symm
      rfl
  | cons b bs ih =>
      cases es with
      | nil => cases h
      | cons e es =>
          rw [List.zipWith_cons_cons, List.foldl_cons, List.foldl_cons, List.foldl_cons, bit_xor]
          exact ih (Nat.succ.inj h) _ _

/-- The check of a disturbed message. -/
theorem crcBits_zipWith {bs es : List Bool} (h : bs.length = es.length) :
    crcBits poly (List.zipWith xor bs es) = crcBits poly bs ^^^ crcBits poly es := by
  have hfold := foldl_bit_zipWith poly h 0 0
  rwa [BitVec.xor_self] at hfold

/-- Taking zeros in is shifting. -/
theorem foldl_bit_zeros (n : Nat) (r : BitVec w) :
    (List.replicate n false).foldl (bit poly) r = shifts poly n r := by
  induction n generalizing r with
  | zero => rfl
  | succ n ih => rw [List.replicate_succ, List.foldl_cons, ih, shifts, shift_eq_bit]

/-- `b` alone between bits without an error. -/
def Burst (b es : List Bool) : Prop :=
  true ∈ b ∧ ∃ i j, es = List.replicate i false ++ (b ++ List.replicate j false)

/-- A word made of bits has those bits. -/
theorem bits_ofBoolListBE (b : List Bool) : bits (BitVec.ofBoolListBE b) = b := by
  refine List.ext_getElem (length_bits _) fun i hi hb => ?_
  simp [bits, BitVec.getMsbD_ofBoolListBE, hb]

/-- The check of a burst is the burst, laid at the top and shifted. -/
theorem crcBits_burst {n : Nat} (hn : n ≤ w) (i j : Nat) (x : BitVec n) :
    crcBits poly (List.replicate i false ++ (bits x ++ List.replicate j false)) =
      shifts poly j (shifts poly n (x.setWidth w <<< (w - n))) := by
  rw [crcBits, List.foldl_append, List.foldl_append, foldl_bit_zeros, foldl_bit_zeros,
    shifts_zero, foldl_bit_bits poly hn]
  exact congrArg (fun r => shifts poly j (shifts poly n r)) BitVec.zero_xor

/-- **Bursts.**  Errors that are all within the length of the check are detected. -/
theorem crcBits_burst_ne_zero (hodd : poly.getLsbD 0 = true) {b es : List Bool}
    (hlen : b.length ≤ w) (hb : Burst b es) : crcBits poly es ≠ 0 := by
  obtain ⟨htrue, i, j, rfl⟩ := hb
  intro h
  rw [← bits_ofBoolListBE b, crcBits_burst poly hlen] at h
  have htop := eq_zero_of_shifts poly hodd (eq_zero_of_shifts poly hodd h)
  have hvalue : value (BitVec.ofBoolListBE b) * X ^ (w - b.length) = 0 := by
    rw [← value_top hlen, htop, value_zero]
  have hzero : BitVec.ofBoolListBE b = 0 := by
    apply value_injective
    rw [value_zero]
    exact (mul_eq_zero.mp hvalue).resolve_right (pow_ne_zero _ X_ne_zero)
  rw [← bits_ofBoolListBE b, hzero] at htrue
  simp [bits] at htrue

/-- At 1 a message counts its bits modulo 2. -/
theorem eval_message (bs : List Bool) : (message bs).eval 1 = (bs.count true : ZMod 2) := by
  induction bs with
  | nil => simp [message]
  | cons b bs ih =>
      rw [message, eval_add, eval_mul, eval_C, eval_pow, eval_X, one_pow, mul_one, ih]
      cases b with
      | true =>
          rw [List.count_cons_self, Nat.cast_add, Nat.cast_one, add_comm]
          rfl
      | false =>
          rw [List.count_cons_of_ne (by decide), digit, if_neg Bool.false_ne_true, zero_add]

/-- **Parity.**  Errors that are not detected are an even number. -/
theorem even_count_of_crcBits (hgen : (gen poly).eval 1 = 0) {es : List Bool}
    (h : crcBits poly es = 0) : Even (es.count true) := by
  have hmod : (message es * X ^ w) %ₘ gen poly = 0 := by rw [← value_crcBits, h, value_zero]
  obtain ⟨q, hq⟩ := (modByMonic_eq_zero_iff_dvd (gen_monic poly)).mp hmod
  have heval : (message es * X ^ w).eval 1 = 0 := by rw [hq, eval_mul, hgen, zero_mul]
  rw [eval_mul, eval_pow, eval_X, one_pow, mul_one, eval_message] at heval
  exact (ZMod.natCast_eq_zero_iff_even).mp heval

/-- The word of the highest bit. -/
def top (w : Nat) : BitVec w :=
  BitVec.twoPow w (w - 1)

/-- After an error and `d` bits without one the remainder is not the highest bit, for the
next `n` values of `d`. -/
def apart : Nat → BitVec w → Bool
  | 0, _ => true
  | n + 1, r => r != top w && apart n (shift poly r)

/-- Within the distance tested no shift is the top bit. -/
theorem shifts_ne_of_apart {n : Nat} {r : BitVec w} (h : apart poly n r = true) {d : Nat}
    (hd : d < n) : shifts poly d r ≠ top w := by
  induction n generalizing r d with
  | zero => omega
  | succ n ih =>
      rw [apart, Bool.and_eq_true, bne_iff_ne] at h
      cases d with
      | zero => exact h.1
      | succ d => exact ih h.2 (Nat.lt_of_succ_lt_succ hd)

/-- An error in a bit is one in the highest bit before it. -/
theorem bit_true (hw : 0 < w) (r : BitVec w) : bit poly r true = shift poly (r ^^^ top w) := by
  have hmsb : (top w).msb = true := by
    rw [BitVec.msb_eq_getLsbD_last, top, BitVec.getLsbD_twoPow, decide_eq_true (by omega)]
    simp
  have hout : top w <<< 1 = 0 := by
    refine BitVec.eq_of_getLsbD_eq fun i hi => ?_
    rw [BitVec.getLsbD_shiftLeft, top, BitVec.getLsbD_twoPow]
    have hne : ¬ w - 1 = i - 1 ∨ i = 0 := by omega
    rcases hne with hne | rfl
    · simp [hne]
    · simp
  rw [bit, shift, BitVec.msb_xor, hmsb, BitVec.shiftLeft_xor_distrib, hout]
  simp

/-- Bits none of which is set are zeros. -/
theorem replicate_of_count {es : List Bool} (h : es.count true = 0) :
    es = List.replicate es.length false := by
  refine List.eq_replicate_of_mem fun b hb => ?_
  cases b with
  | true => exact absurd hb (List.count_eq_zero.mp h)
  | false => rfl

/-- Of bits one of which is set there is a first. -/
theorem exists_first {es : List Bool} {n : Nat} (h : es.count true = n + 1) :
    ∃ i rest, es = List.replicate i false ++ true :: rest ∧ rest.count true = n := by
  have hmem : true ∈ es := List.count_pos_iff.mp (by omega)
  obtain ⟨before, rest, rfl, hnot⟩ := List.eq_append_cons_of_mem hmem
  have hbefore := replicate_of_count (List.count_eq_zero_of_not_mem hnot)
  refine ⟨before.length, rest, by rw [← hbefore], ?_⟩
  rw [List.count_append, List.count_eq_zero_of_not_mem hnot, List.count_cons_self] at h
  omega

/-- **Two errors** are detected where they are not further apart than `poly` allows. -/
theorem crcBits_pair_ne_zero (hw : 0 < w) (hodd : poly.getLsbD 0 = true) {n : Nat}
    (hapart : apart poly n poly = true) {es : List Bool} (hlen : es.length ≤ n + 1)
    (htwo : es.count true = 2) : crcBits poly es ≠ 0 := by
  obtain ⟨i, rest, rfl, hone⟩ := exists_first htwo
  obtain ⟨d, rest', rfl, hnone⟩ := exists_first hone
  have hrest : rest' = List.replicate rest'.length false := replicate_of_count hnone
  have hfirst : bit poly (0 : BitVec w) true = poly := by simp [bit]
  have hd : d < n := by
    simp only [List.length_append, List.length_cons, List.length_replicate] at hlen
    omega
  intro h
  rw [crcBits, List.foldl_append, foldl_bit_zeros, shifts_zero, List.foldl_cons, hfirst,
    List.foldl_append, foldl_bit_zeros, List.foldl_cons, hrest, foldl_bit_zeros] at h
  have hlast := eq_zero_of_shifts poly hodd h
  rw [bit_true poly hw] at hlast
  have htop := BitVec.xor_eq_zero_iff.mp (eq_zero_of_shift poly hodd hlast)
  exact shifts_ne_of_apart poly hapart hd htop

end Crc

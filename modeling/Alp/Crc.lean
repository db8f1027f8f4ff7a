import Mathlib.Data.Nat.Basic

/-!
# Cyclic redundancy checks

A remainder of `w` bits is shifted to the left one bit at a time, and the polynomial
is subtracted where a bit falls out (`shift`).  A byte is added at the top and shifted
through (`byte`), and the check of a sequence of bytes starts from 0 (`crc`).

Shifting is linear (`shifts_xor`), so the shifts of a byte depend on the top eight bits
only: the rest just moves up (`byte_table`).  This is what a table or a closed formula
for the top byte is compared with.
-/

set_option autoImplicit false

namespace Crc

variable {w : Nat} (poly : BitVec w)

/-- One shift. -/
def shift (r : BitVec w) : BitVec w :=
  if r.msb then (r <<< 1) ^^^ poly else r <<< 1

/-- `n` shifts. -/
def shifts : Nat → BitVec w → BitVec w
  | 0, r => r
  | n + 1, r => shifts n (shift poly r)

/-- The remainder after one more byte. -/
def byte (r : BitVec w) (b : BitVec 8) : BitVec w :=
  shifts poly 8 (r ^^^ (b.setWidth w <<< (w - 8)))

/-- The check of a sequence of bytes. -/
def crc (bs : List (BitVec 8)) : BitVec w :=
  bs.foldl (byte poly) 0

/-- Shifting is linear. -/
theorem shift_xor (a b : BitVec w) : shift poly (a ^^^ b) = shift poly a ^^^ shift poly b := by
  have hcancel : ∀ x y : BitVec w, x ^^^ poly ^^^ (y ^^^ poly) = x ^^^ y := by
    intro x y
    rw [BitVec.xor_comm y poly, BitVec.xor_assoc, ← BitVec.xor_assoc poly, BitVec.xor_self,
      BitVec.zero_xor]
  unfold shift
  rw [BitVec.msb_xor, BitVec.shiftLeft_xor_distrib]
  cases a.msb <;> cases b.msb
  · rfl
  · simp [BitVec.xor_assoc]
  · simp [BitVec.xor_assoc, BitVec.xor_comm poly]
  · simp [hcancel]

/-- Shifting many times is linear. -/
theorem shifts_xor (n : Nat) (a b : BitVec w) :
    shifts poly n (a ^^^ b) = shifts poly n a ^^^ shifts poly n b := by
  induction n generalizing a b with
  | zero => rfl
  | succ n ih => rw [shifts, shift_xor, ih, shifts, shifts]

/-- Where no bit falls out, shifting is shifting. -/
theorem shifts_of_low {n : Nat} {r : BitVec w} (h : ∀ i, w ≤ i + n → r.getLsbD i = false) :
    shifts poly n r = r <<< n := by
  induction n generalizing r with
  | zero => simp [shifts]
  | succ n ih =>
      have hmsb : r.msb = false := by
        rw [BitVec.msb_eq_getLsbD_last]
        exact h _ (by omega)
      have hshift : shift poly r = r <<< 1 := by simp [shift, hmsb]
      rw [shifts, hshift, ih, ← BitVec.shiftLeft_add, Nat.add_comm]
      intro i hi
      rw [BitVec.getLsbD_shiftLeft]
      by_cases hlow : i < 1
      · simp [hlow]
      · rw [h (i - 1) (by omega), Bool.and_false]

/-- The bits below the top eight. -/
def low (r : BitVec w) : BitVec w :=
  (r <<< 8) >>> 8

/-- The low part has the bits but the top eight. -/
theorem low_getLsbD (r : BitVec w) (i : Nat) :
    (low r).getLsbD i = (decide (i + 8 < w) && r.getLsbD i) := by
  have hsub : 8 + i - 8 = i := by omega
  have hge : ¬ 8 + i < 8 := by omega
  rw [low, BitVec.getLsbD_ushiftRight, BitVec.getLsbD_shiftLeft, hsub, decide_eq_false hge,
    Nat.add_comm 8 i]
  simp

/-- A remainder is its low bits and its top byte. -/
theorem low_xor_top (hw : 8 ≤ w) (r : BitVec w) :
    low r ^^^ ((r >>> (w - 8)) <<< (w - 8)) = r := by
  refine BitVec.eq_of_getLsbD_eq fun i hi => ?_
  rw [BitVec.getLsbD_xor, low_getLsbD, BitVec.getLsbD_shiftLeft, BitVec.getLsbD_ushiftRight]
  by_cases hlow : i + 8 < w
  · have hlt : i < w - 8 := by omega
    simp [hlow, hlt]
  · have hge : ¬ i < w - 8 := by omega
    have hsum : w - 8 + (i - (w - 8)) = i := by omega
    simp [hlow, hge, hi, hsum]

/-- Moved up a byte, a word and its low part are the same. -/
theorem low_shiftLeft (r : BitVec w) : low r <<< 8 = r <<< 8 := by
  refine BitVec.eq_of_getLsbD_eq fun i hi => ?_
  rw [BitVec.getLsbD_shiftLeft, BitVec.getLsbD_shiftLeft, low_getLsbD]
  by_cases hlow : i < 8
  · simp [hlow]
  · have hlt : i - 8 + 8 < w := by omega
    simp [hlow, hlt]

/-- **One byte at a time.**  The low bits move up, and the top byte with the new one
is shifted through. -/
theorem byte_table (hw : 8 ≤ w) (r : BitVec w) (b : BitVec 8) :
    byte poly r b =
      (r <<< 8) ^^^ shifts poly 8 (((r >>> (w - 8)) ^^^ b.setWidth w) <<< (w - 8)) := by
  have hsplit : r ^^^ (b.setWidth w <<< (w - 8)) =
      low r ^^^ (((r >>> (w - 8)) ^^^ b.setWidth w) <<< (w - 8)) := by
    rw [BitVec.shiftLeft_xor_distrib, ← BitVec.xor_assoc, low_xor_top hw]
  have hlow : ∀ i, w ≤ i + 8 → (low r).getLsbD i = false := by
    intro i hi
    rw [low_getLsbD, decide_eq_false (Nat.not_lt.mpr hi), Bool.false_and]
  rw [byte, hsplit, shifts_xor, shifts_of_low poly hlow, low_shiftLeft]

end Crc

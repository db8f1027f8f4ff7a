import Alp.CrcRemainder
import Alp.XyzmodemFrame

/-!
# The check of a frame

`rda_crc16` has no loop over the bits: eight steps of the division are a few shifts and
exclusive ors, cut to 8, 16 and 32 bits on the way.  For every sequence of bytes it is
the check computed bit by bit, the highest bit first and from 0
(`rdaCrc16_eq_crcBits`), and so the remainder modulo `X ^ 16 + X ^ 12 + X ^ 5 + 1`
(`value_rdaCrc16`).

A receiver may compare the check with the two bytes behind the payload, as
`xyzModem_get_hdr` does, or run it over them as well and expect 0: it is the same
(`rdaCrc16_append_eq_zero_iff`).
-/

set_option autoImplicit false

namespace Xyzmodem

/-- Bytes as they are divided, the highest bit of each first. -/
def bitsOf (buf : List UInt8) : List Bool :=
  buf.flatMap fun b => Crc.bits b.toBitVec

/-- `rda_crc16` is the check bit by bit. -/
theorem rdaCrc16_eq_crcBits (buf : List UInt8) :
    rdaCrc16 buf = Crc.crcBits crcPoly (bitsOf buf) := by
  rw [rdaCrc16_eq, crc16, Crc.crc_eq_crcBits crcPoly (by decide), List.flatMap_map, bitsOf]

open Polynomial in
/-- The divisor, written out. -/
theorem gen_crcPoly : Crc.gen crcPoly = X ^ 16 + X ^ 12 + X ^ 5 + 1 := by
  have hvalue : Crc.value crcPoly = X ^ 12 + X ^ 5 + 1 := by
    ext i
    rw [Crc.coeff_value, coeff_add, coeff_add, coeff_X_pow, coeff_X_pow, coeff_one]
    by_cases hi : i < 16
    · revert i
      decide
    · rw [BitVec.getLsbD_of_ge crcPoly i (Nat.not_lt.mp hi), if_neg (by omega),
        if_neg (by omega), if_neg (by omega)]
      rfl
  rw [Crc.gen, hvalue]
  ring

open Polynomial in
/-- The remainder of the bytes, as a polynomial, times `X ^ 16`. -/
theorem value_rdaCrc16 (buf : List UInt8) :
    Crc.value (rdaCrc16 buf) =
      (Crc.message (bitsOf buf) * X ^ 16) %ₘ (X ^ 16 + X ^ 12 + X ^ 5 + 1) := by
  rw [rdaCrc16_eq_crcBits, Crc.value_crcBits, gen_crcPoly]

/-- The CRC word is its two bytes, the first one high. -/
theorem crcWord_eq_append (crc1 crc2 : UInt8) :
    crcWord crc1 crc2 = crc1.toBitVec ++ crc2.toBitVec := by
  have h2 := crc2.toNat_lt
  apply BitVec.eq_of_toNat_eq
  rw [crcWord_toNat, BitVec.toNat_append, UInt8.toNat_toBitVec, UInt8.toNat_toBitVec,
    Nat.shiftLeft_eq, Nat.mul_comm crc1.toNat, ← Nat.two_pow_add_eq_or_of_lt h2]

/-- The bits of a payload with its check are those of both. -/
theorem bitsOf_append_pair (buf : List UInt8) (crc1 crc2 : UInt8) :
    bitsOf (buf ++ [crc1, crc2]) = bitsOf buf ++ Crc.bits (crcWord crc1 crc2) := by
  rw [bitsOf, List.flatMap_append, crcWord_eq_append, Crc.bits_append, List.flatMap_cons,
    List.flatMap_singleton, bitsOf]

/-- Over the payload and two bytes behind it, the check is 0 exactly where the bytes
pass for the check of the payload. -/
theorem rdaCrc16_append_eq_zero_iff (buf : List UInt8) (crc1 crc2 : UInt8) :
    rdaCrc16 (buf ++ [crc1, crc2]) = 0 ↔ rdaCrc16 buf = crcWord crc1 crc2 := by
  rw [rdaCrc16_eq_crcBits, rdaCrc16_eq_crcBits, bitsOf_append_pair,
    Crc.crcBits_append_eq_zero_iff crcPoly (by decide)]

/-- **The check.**  For all bytes `rda_crc16` is the check bit by bit, and a frame
followed by its check, high byte first, leaves 0. -/
theorem rdaCrc16_bitwise (buf : List UInt8) :
    rdaCrc16 buf = Crc.crcBits crcPoly (bitsOf buf) ∧
      rdaCrc16 (buf ++ [crcHigh (rdaCrc16 buf), crcLow (rdaCrc16 buf)]) = 0 := by
  refine ⟨rdaCrc16_eq_crcBits buf, ?_⟩
  rw [rdaCrc16_append_eq_zero_iff, crcWord_iff]
  exact ⟨rfl, rfl⟩

end Xyzmodem

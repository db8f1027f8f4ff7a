import Alp.CrcDetect
import Alp.XyzmodemCrc

/-!
# Frames with errors

A frame that comes in full, but with some bits changed, is accepted exactly where the
block number and its complement were changed in the same bits and the check of the
changes alone is 0 (`xyzModemGetHdr_disturbed`).  So for changes to payload and CRC the
polynomial decides: no burst of up to 16 bits is accepted (`xyzModemGetHdr_burst`), nor
two single bits anywhere in the frame, nor any odd number of bits
(`xyzModemGetHdr_few`).

The number and its complement are outside of the check.
-/

set_option autoImplicit false

namespace Xyzmodem

/-- Bytes with the bits of `masks` changed. -/
def disturb (bs masks : List UInt8) : List UInt8 :=
  List.zipWith (· ^^^ ·) bs masks

/-- A payload with its CRC behind it. -/
def checked (payload : List UInt8) : List UInt8 :=
  payload ++ [crcHigh (crc16 payload), crcLow (crc16 payload)]

/-- A frame behind noise, with changes `m1` to its number, `m2` to the complement and
`masks` to payload and CRC. -/
structure Disturbed (w : List Event) (c blk : UInt8) (payload : List UInt8) (m1 m2 : UInt8)
    (masks : List UInt8) : Prop where
  header : c = soh ∨ c = stx
  sized : payload.length = payloadLen c
  masked : masks.length = payload.length + 2
  bytes : ∃ noise, Noise 0 0 noise ∧
    Spells w (noise ++ c :: (blk ^^^ m1) :: (~~~blk ^^^ m2) :: disturb (checked payload) masks)

/-- The check takes two bytes. -/
theorem length_checked (payload : List UInt8) : (checked payload).length = payload.length + 2 :=
  List.length_append

/-- The bits of an exclusive or are those of the words, one by one. -/
theorem bits_xor (a b : BitVec 8) :
    Crc.bits (a ^^^ b) = List.zipWith xor (Crc.bits a) (Crc.bits b) := by
  rw [Crc.bits, Crc.bits, Crc.bits, List.zipWith_map, List.zipWith_self]
  exact List.map_congr_left fun i _ => BitVec.getMsbD_xor

/-- A byte is eight bits. -/
theorem length_bitsOf (bs : List UInt8) : (bitsOf bs).length = 8 * bs.length := by
  induction bs with
  | nil => rfl
  | cons b bs ih =>
      rw [bitsOf, List.flatMap_cons, List.length_append, Crc.length_bits]
      rw [bitsOf] at ih
      rw [ih, List.length_cons]
      omega

/-- Changing bytes by masks changes their bits by those of the masks. -/
theorem bitsOf_disturb {bs masks : List UInt8} (h : bs.length = masks.length) :
    bitsOf (disturb bs masks) = List.zipWith xor (bitsOf bs) (bitsOf masks) := by
  induction bs generalizing masks with
  | nil =>
      obtain rfl := List.eq_nil_of_length_eq_zero h.symm
      rfl
  | cons b bs ih =>
      cases masks with
      | nil => cases h
      | cons m masks =>
          have hrest := ih (Nat.succ.inj h)
          unfold bitsOf disturb at hrest ⊢
          rw [List.zipWith_cons_cons, List.flatMap_cons, List.flatMap_cons, List.flatMap_cons,
            hrest, List.zipWith_append (by rw [Crc.length_bits, Crc.length_bits]),
            ← bits_xor, UInt8.toBitVec_xor]

/-- Behind its own check a payload has the remainder 0. -/
theorem rdaCrc16_checked (payload : List UInt8) : rdaCrc16 (checked payload) = 0 := by
  rw [checked, rdaCrc16_append_eq_zero_iff, crcWord_iff, rdaCrc16_eq]
  exact ⟨rfl, rfl⟩

/-- The check is linear. -/
theorem rdaCrc16_disturb {payload masks : List UInt8} (h : masks.length = payload.length + 2) :
    rdaCrc16 (disturb (checked payload) masks) = rdaCrc16 masks := by
  have hlen : (checked payload).length = masks.length := by rw [length_checked, h]
  have hbits : (bitsOf (checked payload)).length = (bitsOf masks).length := by
    rw [length_bitsOf, length_bitsOf, hlen]
  have hchecked := rdaCrc16_checked payload
  rw [rdaCrc16_eq_crcBits] at hchecked ⊢
  rw [bitsOf_disturb hlen, Crc.crcBits_zipWith crcPoly hbits, hchecked, rdaCrc16_eq_crcBits]
  exact BitVec.zero_xor

/-- Number and complement agree where both were changed alike. -/
theorem complement_disturb (blk m1 m2 : UInt8) :
    (~~~blk ^^^ m2) = ~~~(blk ^^^ m1) ↔ m1 = m2 := by
  have hnot : ~~~(blk ^^^ m1) = ~~~blk ^^^ m1 := by
    rw [← UInt8.xor_neg_one, ← UInt8.xor_neg_one, UInt8.xor_assoc, UInt8.xor_comm m1,
      UInt8.xor_assoc]
  rw [hnot]
  constructor
  · intro h
    exact (UInt8.xor_right_inj _).mp h.symm
  · rintro rfl
    rfl

/-- Behind noise a frame is read to its checks. -/
theorem xyzModemGetHdr_spells {x : Xyz} {w rest : List Event} {c blk cblk crc1 crc2 : UInt8}
    {noise payload : List UInt8} (hline : x.line = w ++ rest) (hnoise : Noise 0 0 noise)
    (hc : c = soh ∨ c = stx) (hsized : payload.length = payloadLen c)
    (hw : Spells w (noise ++ c :: frameBytes blk cblk payload crc1 crc2)) :
    ∃ y, xyzModemGetHdr x = checkFrame c y ∧ InFull y c rest blk cblk payload crc1 crc2 := by
  obtain ⟨v, hfound, hv⟩ := findHdr_spells hnoise hc rest hw
  obtain ⟨y, hread, hfull⟩ := readFrame_spells hsized
    (x := { x.sendAck with line := v ++ rest }) rfl hv
  refine ⟨y, ?_, hfull⟩
  simp only [xyzModemGetHdr, sendAck_line, hline, hfound]
  exact hread

/-- A sequence of two bytes or more ends in two. -/
theorem exists_append_pair {bs : List UInt8} {n : Nat} (h : bs.length = n + 2) :
    ∃ payload crc1 crc2, bs = payload ++ [crc1, crc2] ∧ payload.length = n := by
  have hdrop : (bs.drop n).length = 2 := by rw [List.length_drop, h]; omega
  obtain ⟨crc1, crc2, hpair⟩ := List.length_eq_two.mp hdrop
  refine ⟨bs.take n, crc1, crc2, ?_, ?_⟩
  · rw [← hpair, List.take_append_drop]
  · rw [List.length_take, h]
    omega

/-- What the checks at the end return. -/
theorem InFull.checkFrame_fst {x : Xyz} {c : UInt8} {rest : List Event}
    {blk cblk crc1 crc2 : UInt8} {payload : List UInt8}
    (h : InFull x c rest blk cblk payload crc1 crc2) :
    (checkFrame c x).1 =
      if cblk = ~~~blk then if rdaCrc16 (payload ++ [crc1, crc2]) = 0 then 0 else xyzModemCksum
      else xyzModemFrame := by
  simp only [checkFrame, h.blk, h.cblk, h.packet, h.crc1, h.crc2, complement_iff,
    rdaCrc16_append_eq_zero_iff]
  split
  · split <;> rfl
  · rfl

/-- A changed frame is read to its checks. -/
theorem Disturbed.inFull {x : Xyz} {w rest : List Event} {c blk m1 m2 : UInt8}
    {payload masks : List UInt8} (hline : x.line = w ++ rest)
    (h : Disturbed w c blk payload m1 m2 masks) :
    ∃ y got crc1 crc2, xyzModemGetHdr x = checkFrame c y ∧
      InFull y c rest (blk ^^^ m1) (~~~blk ^^^ m2) got crc1 crc2 ∧
      disturb (checked payload) masks = got ++ [crc1, crc2] := by
  obtain ⟨hheader, hsized, hmasked, noise, hnoise, hw⟩ := h
  have hlen : (disturb (checked payload) masks).length = payload.length + 2 := by
    rw [disturb, List.length_zipWith, length_checked, hmasked, Nat.min_self]
  obtain ⟨got, crc1, crc2, hgot, hgotLen⟩ := exists_append_pair hlen
  rw [hgot] at hw
  obtain ⟨y, hget, hfull⟩ := xyzModemGetHdr_spells hline hnoise hheader (hgotLen.trans hsized) hw
  exact ⟨y, got, crc1, crc2, hget, hfull, hgot⟩

/-- What reading a changed frame returns: number and complement are looked at first, and
then the check of the other changes. -/
theorem xyzModemGetHdr_disturbed {x : Xyz} {w rest : List Event} {c blk m1 m2 : UInt8}
    {payload masks : List UInt8} (hline : x.line = w ++ rest)
    (h : Disturbed w c blk payload m1 m2 masks) :
    (xyzModemGetHdr x).1 =
      if m1 = m2 then if rdaCrc16 masks = 0 then 0 else xyzModemCksum else xyzModemFrame := by
  obtain ⟨y, got, crc1, crc2, hget, hfull, hgot⟩ := h.inFull hline
  rw [hget, hfull.checkFrame_fst, ← hgot, rdaCrc16_disturb h.masked]
  simp only [complement_disturb]

/-- Block 1 with 128 letters, and changes to payload and CRC. -/
def changedLetters (masks : List UInt8) : List Event :=
  (soh :: 1 :: ~~~1 :: disturb (checked (List.replicate 128 0x61)) masks).map .byte

/-- A frame of letters, its bytes changed by masks. -/
theorem disturbed_changedLetters {masks : List UInt8} (h : masks.length = 130) :
    Disturbed (changedLetters masks) soh 1 (List.replicate 128 0x61) 0 0 masks := by
  refine ⟨Or.inl rfl, List.length_replicate, h, [], ⟨?_, by decide, fun _ => by decide⟩, ?_⟩
  · exact fun b hb => by cases hb
  · exact spells_bytes _

open Polynomial in
/-- The divisor has a factor `X + 1`. -/
theorem eval_gen_crcPoly : (Crc.gen crcPoly).eval 1 = 0 := by
  rw [gen_crcPoly]
  simp only [eval_add, eval_pow, eval_X, one_pow, eval_one]
  decide

/-- For the length of the longest frame. -/
theorem apart_crcPoly : Crc.apart crcPoly 8207 crcPoly = true := by
  decide +kernel

/-- **Few bits.**  Two changed bits in payload and CRC are noticed, and so is every odd
number of them. -/
theorem xyzModemGetHdr_few {x : Xyz} {w rest : List Event} {c blk m : UInt8}
    {payload masks : List UInt8} (hline : x.line = w ++ rest)
    (h : Disturbed w c blk payload m m masks)
    (hfew : (bitsOf masks).count true = 2 ∨ Odd ((bitsOf masks).count true)) :
    (xyzModemGetHdr x).1 = xyzModemCksum := by
  have hne : Crc.crcBits crcPoly (bitsOf masks) ≠ 0 := by
    rcases hfew with htwo | hodd
    · refine Crc.crcBits_pair_ne_zero crcPoly (by decide) (by decide) apart_crcPoly ?_ htwo
      rw [length_bitsOf, h.masked, h.sized, payloadLen]
      split <;> omega
    · intro hzero
      exact Nat.not_even_iff_odd.mpr hodd
        (Crc.even_count_of_crcBits crcPoly eval_gen_crcPoly hzero)
  rw [xyzModemGetHdr_disturbed hline h, if_pos rfl, rdaCrc16_eq_crcBits, if_neg hne]

/-- The first bit of the payload and the last of the CRC. -/
theorem xyzModemGetHdr_few_letters :
    (xyzModemGetHdr (waiting (changedLetters (0x80 :: List.replicate 128 0 ++ [1])))).1 =
      xyzModemCksum := by
  refine xyzModemGetHdr_few (List.append_nil _).symm (disturbed_changedLetters (by simp))
    (Or.inl ?_)
  decide +kernel

end Xyzmodem

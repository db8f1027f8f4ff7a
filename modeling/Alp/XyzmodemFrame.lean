import Alp.Crc
import Alp.XyzmodemDelivery

/-!
# Which bytes are a frame

`xyzModem_get_hdr` succeeds on a header byte, a block number with its complement, a
payload and its CRC, behind noise in which no frame begins, and on nothing else
(`xyzModemGetHdr_iff_sent`).  The CRC is that of the polynomial `0x1021`, which
`rda_crc16` computes without a loop over the bits.

`Spells line bs` says that waiting for bytes on the line gives `bs` without a timeout.
-/

set_option autoImplicit false

namespace Xyzmodem

open CString

/-- `x ^ 16 + x ^ 12 + x ^ 5 + 1` -/
def crcPoly : BitVec 16 := 0x1021

/-- The CRC of a payload. -/
def crc16 (payload : List UInt8) : BitVec 16 :=
  Crc.crc crcPoly (payload.map UInt8.toBitVec)

/-- What `rda_crc16` adds for the top byte `s`. -/
def rdaTop (s : BitVec 8) : BitVec 16 :=
  let t : BitVec 32 := (s ^^^ (s >>> 4)).setWidth 32
  (t ^^^ (t <<< 5) ^^^ (t <<< 12)).setWidth 16

/-- The inner loop is eight shifts. -/
theorem rdaTop_eq (s : BitVec 8) : rdaTop s = Crc.shifts crcPoly 8 (s.setWidth 16 <<< 8) := by
  have hall : ∀ n < 256, rdaTop (BitVec.ofNat 8 n) =
      Crc.shifts crcPoly 8 ((BitVec.ofNat 8 n).setWidth 16 <<< 8) := by decide +kernel
  have hs := hall s.toNat s.isLt
  rwa [BitVec.ofNat_toNat, BitVec.setWidth_eq] at hs

/-- A step of the CRC is the library's for one byte. -/
theorem rdaCrc16Step_eq (cksum : BitVec 16) (b : UInt8) :
    rdaCrc16Step cksum b = Crc.byte crcPoly cksum b.toBitVec := by
  let s : BitVec 8 := b.toBitVec ^^^ (cksum >>> 8).setWidth 8
  let t : BitVec 32 := (s ^^^ (s >>> 4)).setWidth 32
  have hwide : ((cksum >>> 8).setWidth 8).setWidth 16 = cksum >>> 8 := by
    apply BitVec.eq_of_toNat_eq
    have := cksum.isLt
    simp only [BitVec.toNat_setWidth, BitVec.toNat_ushiftRight, Nat.shiftRight_eq_div_pow]
    omega
  have htop : (cksum >>> 8) ^^^ b.toBitVec.setWidth 16 = s.setWidth 16 := by
    rw [BitVec.setWidth_xor, hwide, BitVec.xor_comm]
  have hlow : (cksum.setWidth 32 <<< 8).setWidth 16 = cksum <<< 8 := by
    apply BitVec.eq_of_toNat_eq
    have := cksum.isLt
    simp only [BitVec.toNat_setWidth, BitVec.toNat_shiftLeft, Nat.shiftLeft_eq]
    omega
  calc rdaCrc16Step cksum b
      = ((cksum.setWidth 32 <<< 8) ^^^ (t ^^^ (t <<< 5) ^^^ (t <<< 12))).setWidth 16 := by
        rw [← BitVec.xor_assoc, ← BitVec.xor_assoc]
        rfl
    _ = (cksum <<< 8) ^^^ rdaTop s := by
        rw [BitVec.setWidth_xor, hlow]
        rfl
    _ = (cksum <<< 8) ^^^
          Crc.shifts crcPoly 8 (((cksum >>> 8) ^^^ b.toBitVec.setWidth 16) <<< 8) := by
        rw [rdaTop_eq, htop]
    _ = Crc.byte crcPoly cksum b.toBitVec := (Crc.byte_table crcPoly (by decide) cksum _).symm

/-- `rda_crc16` is the CRC. -/
theorem rdaCrc16_eq (payload : List UInt8) : rdaCrc16 payload = crc16 payload := by
  have hstep : rdaCrc16Step = fun cksum b => Crc.byte crcPoly cksum b.toBitVec := by
    funext cksum b
    exact rdaCrc16Step_eq cksum b
  rw [rdaCrc16, hstep, crc16, Crc.crc, List.foldl_map]

/-- `123456789`, the usual test of a CRC. -/
example : crc16 [0x31, 0x32, 0x33, 0x34, 0x35, 0x36, 0x37, 0x38, 0x39] = 0x31C3 := by
  decide +kernel

/-- The CRC byte sent first. -/
def crcHigh (s : BitVec 16) : UInt8 :=
  UInt8.ofBitVec ((s >>> 8).setWidth 8)

/-- The CRC byte sent last. -/
def crcLow (s : BitVec 16) : UInt8 :=
  UInt8.ofBitVec (s.setWidth 8)

/-- The first CRC byte is the high one. -/
theorem crcWord_toNat (crc1 crc2 : UInt8) :
    (crcWord crc1 crc2).toNat = 256 * crc1.toNat + crc2.toNat := by
  have h1 := crc1.toNat_lt
  have h2 := crc2.toNat_lt
  have hhigh : (crc1.toBitVec.setWidth 16 <<< 8).toNat = 2 ^ 8 * crc1.toNat := by
    simp only [BitVec.toNat_shiftLeft, BitVec.toNat_setWidth, UInt8.toNat_toBitVec,
      Nat.shiftLeft_eq]
    omega
  have hlow : (crc2.toBitVec.setWidth 16).toNat = crc2.toNat := by
    simp only [BitVec.toNat_setWidth, UInt8.toNat_toBitVec]
    omega
  rw [crcWord, BitVec.toNat_or, hhigh, hlow, ← Nat.two_pow_add_eq_or_of_lt h2]

/-- The two bytes that pass for a CRC. -/
theorem crcWord_iff (crc1 crc2 : UInt8) (s : BitVec 16) :
    s = crcWord crc1 crc2 ↔ crc1 = crcHigh s ∧ crc2 = crcLow s := by
  have h1 := crc1.toNat_lt
  have h2 := crc2.toNat_lt
  have hs := s.isLt
  have hhigh : (crcHigh s).toNat = s.toNat / 256 := by
    simp only [crcHigh, UInt8.toNat_ofBitVec, BitVec.toNat_setWidth, BitVec.toNat_ushiftRight,
      Nat.shiftRight_eq_div_pow]
    omega
  have hlow : (crcLow s).toNat = s.toNat % 256 := by
    simp only [crcLow, UInt8.toNat_ofBitVec, BitVec.toNat_setWidth]
  rw [← BitVec.toNat_inj, crcWord_toNat, ← UInt8.toNat_inj, ← UInt8.toNat_inj, hhigh, hlow]
  omega

/-- The byte that passes for a complement. -/
theorem complement_iff (blk cblk : UInt8) : blk ^^^ cblk = 0xFF ↔ cblk = ~~~blk := by
  have hall : ~~~blk = blk ^^^ 0xFF := UInt8.xor_neg_one.symm
  rw [hall]
  constructor
  · intro h
    rw [← h, ← UInt8.xor_assoc, UInt8.xor_self, UInt8.zero_xor]
  · rintro rfl
    rw [← UInt8.xor_assoc, UInt8.xor_self, UInt8.zero_xor]

/-- Waiting for bytes gives `bs`, after gaps perhaps, and nothing is left. -/
inductive Spells : List Event → List UInt8 → Prop
  | nil : Spells [] []
  | gap {line : List Event} {b : UInt8} {bs : List UInt8} (h : Spells line (b :: bs)) :
      Spells (.gap :: line) (b :: bs)
  | byte {line : List Event} (b : UInt8) {bs : List UInt8} (h : Spells line bs) :
      Spells (.byte b :: line) (b :: bs)

/-- A line that spells nothing is empty. -/
theorem spells_nil {line : List Event} (h : Spells line []) : line = [] := by
  cases h
  rfl

/-- Two stretches of line spell their bytes one after the other. -/
theorem Spells.append {v w : List Event} {bs cs : List UInt8} (hv : Spells v bs)
    (hw : Spells w cs) : Spells (v ++ w) (bs ++ cs) := by
  induction hv with
  | nil => exact hw
  | gap _ ih => exact ih.gap
  | byte b _ ih => exact ih.byte b

/-- Bytes one after another. -/
theorem spells_bytes (bs : List UInt8) : Spells (bs.map .byte) bs := by
  induction bs with
  | nil => exact .nil
  | cons b bs ih => exact ih.byte b

/-- Waiting for the next byte. -/
theorem Spells.getc {w : List Event} (rest : List Event) {b : UInt8} {bs : List UInt8}
    (h : Spells w (b :: bs)) :
    ∃ v, getcTimeout (w ++ rest) = (some b, v ++ rest) ∧ Spells v bs := by
  generalize hcs : b :: bs = cs at h
  induction h with
  | nil => cases hcs
  | gap _ ih => exact ih hcs
  | byte c h _ =>
      cases hcs
      exact ⟨_, rfl, h⟩

/-- A byte that came is on the line. -/
theorem getcTimeout_some {line rest : List Event} {b : UInt8}
    (h : getcTimeout line = (some b, rest)) : ∃ v, line = v ++ rest ∧ Spells v [b] := by
  induction line with
  | nil => cases h
  | cons e line ih =>
      cases e with
      | byte c =>
          cases h
          exact ⟨[.byte b], rfl, Spells.nil.byte b⟩
      | gap =>
          obtain ⟨v, rfl, hv⟩ := ih h
          exact ⟨.gap :: v, rfl, hv.gap⟩
      | silence => cases h

/-- A byte obtained was spelt. -/
theorem getc_some {x y : Xyz} {b : UInt8} (h : x.getc = (some b, y)) :
    ∃ v, x.line = v ++ y.line ∧ Spells v [b] := by
  obtain ⟨hbyte, hline⟩ := Prod.mk.inj h
  refine getcTimeout_some (Prod.ext hbyte ?_)
  rw [← hline]

/-- Noise in which no frame begins and nothing is cancelled, after `canTotal` CAN and
`hdrChars` bytes. -/
structure Noise (canTotal hdrChars : Nat) (noise : List UInt8) : Prop where
  noHeader : ∀ b ∈ noise, b ≠ soh ∧ b ≠ stx
  fewCan : canTotal + noise.count can < xyzModemCanCount
  noEot : hdrChars = 0 → noise.head? ≠ some eot

/-- Noise behind its first byte is noise. -/
theorem Noise.tail {canTotal hdrChars : Nat} {b : UInt8} {noise : List UInt8}
    (h : Noise canTotal hdrChars (b :: noise)) :
    Noise (canTotal + if b = can then 1 else 0) (hdrChars + 1) noise := by
  refine ⟨fun c hc => h.noHeader c (List.mem_cons_of_mem b hc), ?_, fun hzero => by omega⟩
  have hfew := h.fewCan
  rw [List.count_cons] at hfew
  simp only [beq_iff_eq] at hfew
  omega

/-- A byte that begins no header may stand in front of noise. -/
theorem Noise.cons {canTotal hdrChars : Nat} {b : UInt8} {noise : List UInt8}
    (h : Noise (canTotal + if b = can then 1 else 0) (hdrChars + 1) noise)
    (hheader : ¬ (b = soh ∨ b = stx)) (heot : ¬ (b = eot ∧ hdrChars + 1 = 1)) :
    Noise canTotal hdrChars (b :: noise) := by
  refine ⟨?_, ?_, ?_⟩
  · intro c hc
    rcases List.mem_cons.mp hc with rfl | hc
    · exact not_or.mp hheader
    · exact h.noHeader c hc
  · have hfew := h.fewCan
    rw [List.count_cons]
    simp only [beq_iff_eq]
    omega
  · intro hzero hhead
    exact heot ⟨Option.some.inj hhead, by omega⟩

/-- One byte of noise. -/
theorem findHdr_noise {canTotal hdrChars : Nat} {b : UInt8} {noise : List UInt8}
    (h : Noise canTotal hdrChars (b :: noise)) (line : List Event) :
    findHdr canTotal hdrChars (.byte b :: line) =
      findHdr (canTotal + if b = can then 1 else 0) (hdrChars + 1) line := by
  have hheader := h.noHeader b List.mem_cons_self
  have hfew := h.fewCan
  rw [findHdr, if_neg (not_or.mpr hheader)]
  by_cases hcan : b = can
  · have hcount : canTotal + 1 ≠ xyzModemCanCount := by
      rw [hcan, List.count_cons_self] at hfew
      omega
    rw [if_pos hcan, if_neg hcount, if_pos hcan]
  · have heot : ¬ (b = eot ∧ hdrChars + 1 = 1) := by
      rintro ⟨rfl, hfirst⟩
      exact h.noEot (by omega) rfl
    rw [if_neg hcan, if_neg heot, if_neg hcan]
    rfl

/-- Behind noise the header is found. -/
theorem findHdr_spells {canTotal hdrChars : Nat} {noise bs : List UInt8} {c : UInt8}
    (hnoise : Noise canTotal hdrChars noise) (hc : c = soh ∨ c = stx) {w : List Event}
    (rest : List Event) (hw : Spells w (noise ++ c :: bs)) :
    ∃ v, findHdr canTotal hdrChars (w ++ rest) = (.found c, v ++ rest) ∧ Spells v bs := by
  generalize hcs : noise ++ c :: bs = cs at hw
  induction hw generalizing canTotal hdrChars noise with
  | nil => simp at hcs
  | gap _ ih => exact ih hnoise hcs
  | byte b h ih =>
      cases noise with
      | nil =>
          cases hcs
          exact ⟨_, if_pos hc, h⟩
      | cons b' noise =>
          cases hcs
          obtain ⟨v, hfound, hv⟩ := ih hnoise.tail rfl
          exact ⟨v, (findHdr_noise hnoise _).trans hfound, hv⟩

/-- A header that is found stands behind noise. -/
theorem findHdr_found {canTotal hdrChars : Nat} {line rest : List Event} {c : UInt8}
    (hfew : canTotal < xyzModemCanCount)
    (h : findHdr canTotal hdrChars line = (.found c, rest)) :
    (c = soh ∨ c = stx) ∧ ∃ v noise, line = v ++ rest ∧ Spells v (noise ++ [c]) ∧
      Noise canTotal hdrChars noise := by
  induction line generalizing canTotal hdrChars with
  | nil => cases h
  | cons e line ih =>
      cases e with
      | silence => cases h
      | gap =>
          obtain ⟨hc, v, noise, rfl, hv, hnoise⟩ := ih hfew h
          refine ⟨hc, .gap :: v, noise, rfl, ?_, hnoise⟩
          cases noise with
          | nil => exact hv.gap
          | cons b noise => exact hv.gap
      | byte b =>
          by_cases hheader : b = soh ∨ b = stx
          · rw [findHdr, if_pos hheader] at h
            cases h
            refine ⟨hheader, [.byte c], [], rfl, Spells.nil.byte c, ?_, ?_, ?_⟩
            · exact fun _ hb => by cases hb
            · exact hfew
            · exact fun _ hhead => by cases hhead
          -- otherwise the byte is noise
          have hmore : ∀ canTotal', canTotal' < xyzModemCanCount →
              canTotal' = (canTotal + if b = can then 1 else 0) →
              ¬ (b = eot ∧ hdrChars + 1 = 1) →
              findHdr canTotal' (hdrChars + 1) line = (.found c, rest) →
              (c = soh ∨ c = stx) ∧ ∃ v noise, .byte b :: line = v ++ rest ∧
                Spells v (noise ++ [c]) ∧ Noise canTotal hdrChars noise := by
            intro canTotal' hfew' hcan heot hfound
            obtain ⟨hc, v, noise, rfl, hv, hnoise⟩ := ih hfew' hfound
            rw [hcan] at hnoise
            exact ⟨hc, .byte b :: v, b :: noise, rfl, hv.byte b, hnoise.cons hheader heot⟩
          rw [findHdr, if_neg hheader] at h
          by_cases hcan : b = can
          · rw [if_pos hcan] at h
            by_cases hcount : canTotal + 1 = xyzModemCanCount
            · rw [if_pos hcount] at h
              cases h
            · rw [if_neg hcount] at h
              refine hmore _ (by omega) (by rw [if_pos hcan]) ?_ h
              rintro ⟨rfl, -⟩
              exact absurd hcan (by decide)
          · rw [if_neg hcan] at h
            by_cases heot : b = eot ∧ hdrChars + 1 = 1
            · rw [if_pos heot] at h
              cases h
            · rw [if_neg heot] at h
              exact hmore _ hfew (by rw [if_neg hcan]; rfl) heot h

/-- The bytes on the line go into `pkt`. -/
theorem readPkt_spells {payload done bs cs : List UInt8} (hall : done ++ bs = payload) {x : Xyz}
    (hdone : Copied x.pkt payload done.length) {w rest : List Event} (hline : x.line = w ++ rest)
    (hw : Spells w (bs ++ cs)) :
    ∃ v pkt, readPkt done.length bs.length x = (true, { x with line := v ++ rest, pkt := pkt }) ∧
      Spells v cs ∧ Copied pkt payload payload.length := by
  induction bs generalizing done x w with
  | nil =>
      obtain rfl : done = payload := by rw [← hall, List.append_nil]
      exact ⟨w, x.pkt, by rw [← hline]; rfl, hw, hdone⟩
  | cons b bs ih =>
      obtain ⟨v, hgetc, hv⟩ := Spells.getc rest hw
      have hnext : payload[done.length]? = some b := by
        rw [← hall, List.getElem?_append_right (Nat.le_refl _), Nat.sub_self,
          List.getElem?_cons_zero]
      have hall' : done ++ [b] ++ bs = payload := by
        rw [← hall, List.append_assoc, List.singleton_append]
      have hlength : (done ++ [b]).length = done.length + 1 := List.length_append
      obtain ⟨u, pkt, hread, hu, hpkt⟩ :=
        ih (x := { x with line := v ++ rest, pkt := x.pkt.set done.length b }) hall'
          (by rw [hlength]; exact hdone.set hnext) rfl hv
      refine ⟨u, pkt, ?_, hu, hpkt⟩
      rw [hlength] at hread
      simp only [List.length_cons, readPkt, Xyz.getc, hline, hgetc]
      exact hread

/-- A payload that came is on the line. -/
theorem readPkt_true {i left : Nat} {x y : Xyz} (h : readPkt i left x = (true, y)) :
    ∃ v bs, x.line = v ++ y.line ∧ Spells v bs ∧ bs.length = left := by
  induction left generalizing i x with
  | zero =>
      cases h
      exact ⟨[], [], rfl, .nil, rfl⟩
  | succ left ih =>
      simp only [readPkt] at h
      split at h
      · next c z hz =>
          obtain ⟨u, hu, hspell⟩ := getc_some hz
          obtain ⟨v, bs, hv, hbs, hlen⟩ := ih h
          refine ⟨u ++ v, [c] ++ bs, ?_, hspell.append hbs, by simp [hlen]⟩
          have hrest : z.line = v ++ y.line := hv
          rw [hu, hrest, List.append_assoc]
      · cases h

/-- A frame as it is sent after its header byte. -/
def frameBytes (blk cblk : UInt8) (payload : List UInt8) (crc1 crc2 : UInt8) : List UInt8 :=
  blk :: cblk :: (payload ++ [crc1, crc2])

/-- A frame that came in full, before its checks. -/
structure InFull (x : Xyz) (c : UInt8) (rest : List Event) (blk cblk : UInt8)
    (payload : List UInt8) (crc1 crc2 : UInt8) : Prop where
  line : x.line = rest
  blk : x.blk = blk
  cblk : x.cblk = cblk
  len : x.len = payloadLen c
  packet : x.packet (payloadLen c) = payload
  crc1 : x.crc1 = crc1
  crc2 : x.crc2 = crc2

/-- Reading a frame that comes in full gets to its checks. -/
theorem readFrame_spells {c blk cblk crc1 crc2 : UInt8} {payload : List UInt8}
    (hsized : payload.length = payloadLen c) {x : Xyz} {w rest : List Event}
    (hline : x.line = w ++ rest) (hw : Spells w (frameBytes blk cblk payload crc1 crc2)) :
    ∃ y, readFrame c x = checkFrame c y ∧ InFull y c rest blk cblk payload crc1 crc2 := by
  obtain ⟨v1, hblk, hv1⟩ := Spells.getc rest hw
  obtain ⟨v2, hcblk, hv2⟩ := Spells.getc rest hv1
  obtain ⟨v3, pkt, hread, hv3, hpkt⟩ := readPkt_spells (List.nil_append payload)
    (x := { x with line := v2 ++ rest, blk := blk, cblk := cblk, len := payloadLen c, bufp := 0 })
    (copied_zero _ _) rfl hv2
  obtain ⟨v4, hcrc1, hv4⟩ := Spells.getc rest hv3
  obtain ⟨v5, hcrc2, hv5⟩ := Spells.getc rest hv4
  obtain rfl := spells_nil hv5
  have hpacket : (List.range (payloadLen c)).map pkt = payload := by
    rw [← hsized]
    exact hpkt.range_map
  refine ⟨{ x with
    line := rest, blk := blk, cblk := cblk, len := payloadLen c, bufp := 0, pkt := pkt,
    crc1 := crc1, crc2 := crc2 }, ?_, rfl, rfl, rfl, rfl, hpacket, rfl, rfl⟩
  rw [hsized, List.length_nil] at hread
  simp only [readFrame, Xyz.getc, hline, hblk, hcblk, hread, hcrc1, hcrc2, List.nil_append]

/-- The checks at the end succeed on a valid frame only. -/
theorem checkFrame_zero_iff {c : UInt8} {x : Xyz} :
    (checkFrame c x).1 = 0 ↔
      x.cblk = ~~~x.blk ∧ x.crc1 = crcHigh (crc16 (x.packet (payloadLen c))) ∧
        x.crc2 = crcLow (crc16 (x.packet (payloadLen c))) := by
  rw [← complement_iff, ← crcWord_iff, ← rdaCrc16_eq]
  unfold checkFrame
  split
  · next hcompl =>
      split
      · next hcrc => exact ⟨fun _ => ⟨hcompl, hcrc⟩, fun _ => rfl⟩
      · next hcrc => exact ⟨fun h => (by cases h), fun h => absurd h.2 hcrc⟩
  · next hcompl => exact ⟨fun h => (by cases h), fun h => absurd h.1 hcompl⟩

/-- Success leaves the state alone. -/
theorem checkFrame_of_zero {c : UInt8} {x : Xyz} (h : (checkFrame c x).1 = 0) :
    ∃ frames, (checkFrame c x).2 = { x with frames := frames } := by
  unfold checkFrame at h ⊢
  split at h
  · split at h
    · next hcompl hcrc =>
        rw [dif_pos hcompl, dif_pos hcrc]
        exact ⟨_, rfl⟩
    · cases h
  · cases h

/-- Where reading a frame succeeds, a frame came in full. -/
theorem readFrame_zero {c : UInt8} {x : Xyz} (h : (readFrame c x).1 = 0) :
    ∃ w rest blk cblk payload crc1 crc2, x.line = w ++ rest ∧
      Spells w (frameBytes blk cblk payload crc1 crc2) ∧ payload.length = payloadLen c := by
  simp only [readFrame] at h
  split at h
  · cases h
  next blk x1 h1 =>
  split at h
  · cases h
  next cblk x2 h2 =>
  split at h
  · cases h
  next x3 h3 =>
  split at h
  · cases h
  next crc1 x4 h4 =>
  split at h
  · cases h
  next crc2 x5 h5 =>
  obtain ⟨w1, hline1, hw1⟩ := getc_some h1
  obtain ⟨w2, hline2, hw2⟩ := getc_some h2
  obtain ⟨w3, payload, hline3, hw3, hsized⟩ := readPkt_true h3
  obtain ⟨w4, hline4, hw4⟩ := getc_some h4
  obtain ⟨w5, hline5, hw5⟩ := getc_some h5
  refine ⟨w1 ++ (w2 ++ (w3 ++ (w4 ++ w5))), x5.line, blk, cblk, payload, crc1, crc2, ?_,
    hw1.append (hw2.append (hw3.append (hw4.append hw5))), hsized⟩
  simp only at hline2 hline3 hline4 hline5
  rw [hline1, hline2, hline3, hline4, hline5]
  simp only [List.append_assoc]

/-- Noise and then a frame: header byte `c`, block number, complement, payload and CRC. -/
def sentBytes (noise : List UInt8) (c blk : UInt8) (payload : List UInt8) : List UInt8 :=
  noise ++ c :: frameBytes blk (~~~blk) payload (crcHigh (crc16 payload)) (crcLow (crc16 payload))

/-- The line carries noise in which no frame begins, and then a frame. -/
structure Sent (w : List Event) (c blk : UInt8) (payload : List UInt8) : Prop where
  header : c = soh ∨ c = stx
  sized : payload.length = payloadLen c
  bytes : ∃ noise, Noise 0 0 noise ∧ Spells w (sentBytes noise c blk payload)

/-- What a frame leaves behind, with `rest` still on the line. -/
structure Decoded (x : Xyz) (rest : List Event) (blk : UInt8) (payload : List UInt8) : Prop where
  line : x.line = rest
  blk : x.blk = blk
  len : x.len = payload.length
  pkt : x.packet payload.length = payload

/-- Sending the ACK leaves the line alone. -/
theorem sendAck_line (x : Xyz) : x.sendAck.line = x.line := by
  unfold Xyz.sendAck
  split <;> rfl

/-- A frame that came in full and passes its checks is in the state. -/
theorem InFull.decoded {x : Xyz} {c : UInt8} {rest : List Event} {blk cblk crc1 crc2 : UInt8}
    {payload : List UInt8} (h : InFull x c rest blk cblk payload crc1 crc2)
    (hzero : (checkFrame c x).1 = 0) : Decoded (checkFrame c x).2 rest blk payload := by
  obtain ⟨frames, hstate⟩ := checkFrame_of_zero hzero
  have hlength : payload.length = payloadLen c := by rw [← h.packet, x.length_packet]
  rw [hstate]
  refine ⟨h.line, h.blk, ?_, ?_⟩
  · rw [hlength]
    exact h.len
  · rw [hlength]
    exact h.packet

/-- A frame that came in full passes its checks if it has the right complement and
CRC. -/
theorem InFull.checkFrame_zero {x : Xyz} {c : UInt8} {rest : List Event}
    {blk cblk crc1 crc2 : UInt8} {payload : List UInt8}
    (h : InFull x c rest blk cblk payload crc1 crc2) :
    (checkFrame c x).1 = 0 ↔
      cblk = ~~~blk ∧ crc1 = crcHigh (crc16 payload) ∧ crc2 = crcLow (crc16 payload) := by
  rw [checkFrame_zero_iff, h.packet, h.blk, h.cblk, h.crc1, h.crc2]

/-- What is sent is decoded. -/
theorem xyzModemGetHdr_sent {x : Xyz} {w rest : List Event} {c blk : UInt8}
    {payload : List UInt8} (hline : x.line = w ++ rest) (h : Sent w c blk payload) :
    (xyzModemGetHdr x).1 = 0 ∧ Decoded (xyzModemGetHdr x).2 rest blk payload := by
  obtain ⟨hheader, hsized, noise, hnoise, hw⟩ := h
  obtain ⟨v, hfound, hv⟩ := findHdr_spells hnoise hheader rest hw
  obtain ⟨y, hread, hfull⟩ := readFrame_spells hsized
    (x := { x.sendAck with line := v ++ rest }) rfl hv
  have hget : xyzModemGetHdr x = checkFrame c y := by
    simp only [xyzModemGetHdr, sendAck_line, hline, hfound]
    exact hread
  have hzero : (checkFrame c y).1 = 0 := hfull.checkFrame_zero.mpr ⟨rfl, rfl, rfl⟩
  rw [hget]
  exact ⟨hzero, hfull.decoded hzero⟩

/-- What is decoded was sent. -/
theorem xyzModemGetHdr_zero {x : Xyz} (h : (xyzModemGetHdr x).1 = 0) :
    ∃ w rest c blk payload, x.line = w ++ rest ∧ Sent w c blk payload := by
  simp only [xyzModemGetHdr, sendAck_line] at h
  split at h
  · next c rest hfound =>
      obtain ⟨hheader, v, noise, hline, hv, hnoise⟩ := findHdr_found (by decide) hfound
      obtain ⟨w, rest', blk, cblk, payload, crc1, crc2, hrest, hw, hsized⟩ := readFrame_zero h
      obtain ⟨y, hread, hfull⟩ := readFrame_spells hsized hrest hw
      rw [hread] at h
      obtain ⟨rfl, rfl, rfl⟩ := hfull.checkFrame_zero.mp h
      refine ⟨v ++ w, rest', c, blk, payload, ?_, hheader, hsized, noise, hnoise, ?_⟩
      · rw [hline, List.append_assoc]
        exact congrArg _ hrest
      · have hall := hv.append hw
        rwa [List.append_assoc] at hall
  · cases h
  · cases h
  · cases h

/-- **Frames.**  Every frame sent behind noise is read to its end and decoded, and
where a frame is decoded it was sent. -/
theorem xyzModemGetHdr_iff_sent (x : Xyz) :
    (∀ w rest c blk payload, x.line = w ++ rest → Sent w c blk payload →
      (xyzModemGetHdr x).1 = 0 ∧ Decoded (xyzModemGetHdr x).2 rest blk payload) ∧
    ((xyzModemGetHdr x).1 = 0 →
      ∃ w rest c blk payload, x.line = w ++ rest ∧ Sent w c blk payload ∧
        Decoded (xyzModemGetHdr x).2 rest blk payload) := by
  refine ⟨fun w rest c blk payload hline h => xyzModemGetHdr_sent hline h, fun h => ?_⟩
  obtain ⟨w, rest, c, blk, payload, hline, hsent⟩ := xyzModemGetHdr_zero h
  exact ⟨w, rest, c, blk, payload, hline, hsent, (xyzModemGetHdr_sent hline hsent).2⟩

/-- The bytes of a frame, without gaps, are a frame sent. -/
theorem sent_bytes {noise : List UInt8} (hnoise : Noise 0 0 noise) {c : UInt8}
    (hc : c = soh ∨ c = stx) (blk : UInt8) {payload : List UInt8}
    (hsized : payload.length = payloadLen c) :
    Sent ((sentBytes noise c blk payload).map .byte) c blk payload :=
  ⟨hc, hsized, noise, hnoise, spells_bytes _⟩

/-- Two CAN before block 1 with 128 letters, and then silence. -/
theorem xyzModemGetHdr_iff_sent_letters :
    let payload : List UInt8 := List.replicate 128 0x61
    let x := waiting ((sentBytes [can, can] soh 1 payload).map .byte ++ [.silence])
    (xyzModemGetHdr x).1 = 0 ∧ Decoded (xyzModemGetHdr x).2 [.silence] 1 payload := by
  intro payload x
  have hnoise : Noise 0 0 [can, can] :=
    ⟨by decide +kernel, by decide +kernel, fun _ => by decide +kernel⟩
  have hsent : Sent ((sentBytes [can, can] soh 1 payload).map .byte) soh 1 payload :=
    sent_bytes hnoise (Or.inl rfl) 1 List.length_replicate
  exact (xyzModemGetHdr_iff_sent x).1 _ [.silence] soh 1 payload rfl hsent

end Xyzmodem

import Alp.XyzmodemErrors
import Alp.XyzmodemReads

/-!
# Whole files

A sender waits for an answer, sends block 1, and goes on with block 2 and so on, modulo
256; behind the last block it sends EOT.  What it sends may come changed, cut, late or
twice.  As long as each block comes through within the attempts of the retry loop
(`Carries`), calls of `xyzModem_stream_read` in any portions get the payloads one after
another, without their padding, and the call that asks for more than is left reports the
end of the file (`streamReads_carries`).

An attempt that gets something else than the expected block leaves the line at the next
answer (`Lost.attempt`), also where `xyzModem_flush` drops what is there: the sender
waits, so there is a gap.
-/

set_option autoImplicit false

namespace Xyzmodem

open CString

/-- Three `^Z` at the end. -/
def Padded (bs : List UInt8) : Prop :=
  bs.drop (bs.length - 3) = [ctrlZ, ctrlZ, ctrlZ]

instance (bs : List UInt8) : Decidable (Padded bs) :=
  inferInstanceAs (Decidable (_ = _))

/-- The payload without its padding. -/
def unpadded (payload : List UInt8) : List UInt8 :=
  if Padded payload then payload.rdropWhile (· == ctrlZ) else payload

/-- What the payloads carry. -/
def fileOf (packets : List (List UInt8)) : List UInt8 :=
  packets.flatMap unpadded

/-- What may come in place of block `next`: a frame whose changes are noticed, a frame
that is cut, nothing but noise, or a frame with another number. -/
inductive Lost (next : UInt8) : List Event → Prop
  | changed {w : List Event} {c blk m1 m2 : UInt8} {payload masks : List UInt8}
      (h : Disturbed w c blk payload m1 m2 masks) (hnoticed : m1 ≠ m2 ∨ rdaCrc16 masks ≠ 0) :
      Lost next w
  | cut {w : List Event} {c : UInt8} {noise bs : List UInt8} (hnoise : Noise 0 0 noise)
      (hc : c = soh ∨ c = stx) (hshort : bs.length < payloadLen c + 4)
      (hw : Spells w (noise ++ c :: bs)) : Lost next (w ++ [.silence])
  | silent {w : List Event} {noise : List UInt8} (hnoise : Noise 0 0 noise)
      (hw : Spells w noise) : Lost next (w ++ [.silence])
  | other {w : List Event} {c blk : UInt8} {payload : List UInt8} (h : Sent w c blk payload)
      (hblk : blk ≠ next) : Lost next w

/-- The line brings `packets`, from block `next` on, and EOT; the first of them within
`n` attempts, the others within as many as there are. -/
inductive Carries : Nat → UInt8 → List (List UInt8) → List Event → Prop
  | last {n : Nat} {next : UInt8} {w : List Event} (h : Spells w [eot]) (rest : List Event) :
      Carries (n + 1) next [] (.gap :: (w ++ rest))
  | block {n : Nat} {next c : UInt8} {payload : List UInt8} {packets : List (List UInt8)}
      {w line : List Event} (h : Sent w c next payload)
      (hline : Carries xyzModemMaxRetries (next + 1) packets line) :
      Carries (n + 1) next (payload :: packets) (.gap :: (w ++ line))
  | lost {n : Nat} {next : UInt8} {packets : List (List UInt8)} {w line : List Event}
      (h : Lost next w) (hline : Carries n next packets line) :
      Carries (n + 1) next packets (.gap :: (w ++ line))

/-- A line that carries packets begins with a gap, so that flushing leaves it. -/
theorem Carries.flush {n : Nat} {next : UInt8} {packets : List (List UInt8)} {line : List Event}
    (h : Carries n next packets line) : flush line = line := by
  cases h <;> rfl

/-- Three or more `^Z` at the end are a padding. -/
theorem padded_replicate {bs : List UInt8} {k : Nat} (hk : 3 ≤ k) :
    Padded (bs ++ List.replicate k ctrlZ) := by
  obtain ⟨m, rfl⟩ : ∃ m, k = m + 3 := ⟨k - 3, by omega⟩
  have hsplit : bs ++ List.replicate (m + 3) ctrlZ =
      bs ++ List.replicate m ctrlZ ++ [ctrlZ, ctrlZ, ctrlZ] := by
    rw [List.append_assoc, List.replicate_add]
    rfl
  rw [Padded, hsplit]
  exact List.drop_left' (by simp; omega)

/-- Where three `^Z` are at the end, there is one at the end before fewer of them. -/
theorem Padded.getLast {bs : List UInt8} {k : Nat} (hk : k < 3)
    (h : Padded (bs ++ List.replicate k ctrlZ)) : bs.getLast? = some ctrlZ := by
  unfold Padded at h
  have hlen := congrArg List.length h
  simp only [List.length_drop, List.length_append, List.length_replicate, List.length_cons,
    List.length_nil] at hlen
  have hget := congrArg (fun l : List UInt8 => l[2 - k]?) h
  simp only [List.getElem?_drop, List.length_append, List.length_replicate] at hget
  have hindex : bs.length + k - 3 + (2 - k) = bs.length - 1 := by omega
  rw [hindex, List.getElem?_append_left (by omega)] at hget
  rw [List.getLast?_eq_getElem?, hget]
  have hcases : k = 0 ∨ k = 1 ∨ k = 2 := by omega
  rcases hcases with rfl | rfl | rfl <;> rfl

/-- Dropping the `^Z` at the end drops those that were added. -/
theorem rdropWhile_replicate (bs : List UInt8) (k : Nat) :
    (bs ++ List.replicate k ctrlZ).rdropWhile (· == ctrlZ) = bs.rdropWhile (· == ctrlZ) := by
  induction k with
  | zero => rw [List.replicate_zero, List.append_nil]
  | succ k ih =>
      rw [List.replicate_succ', ← List.append_assoc, List.rdropWhile_concat_pos _ _ _ (by simp), ih]

/-- Nothing is dropped where the last byte is no `^Z`. -/
theorem rdropWhile_eq_self (bs : List UInt8) :
    bs.rdropWhile (· == ctrlZ) = bs ↔ bs.getLast? ≠ some ctrlZ := by
  rw [List.rdropWhile_eq_self_iff]
  cases hbs : bs.getLast? with
  | none =>
      rw [List.getLast?_eq_none_iff] at hbs
      simp [hbs]
  | some b =>
      have hne : bs ≠ [] := by
        rintro rfl
        cases hbs
      have hlast : bs.getLast hne = b := by
        rw [List.getLast?_eq_some_getLast hne] at hbs
        exact Option.some.inj hbs
      simp [hne, hlast]

/-- The bytes before `k` times `^Z` are left exactly where there are at least three of them
behind another byte, or none and no three `^Z` are there. -/
theorem unpadded_replicate_iff (bs : List UInt8) (k : Nat) :
    unpadded (bs ++ List.replicate k ctrlZ) = bs ↔
      k = 0 ∧ ¬ Padded bs ∨ 3 ≤ k ∧ bs.getLast? ≠ some ctrlZ := by
  by_cases hpad : Padded (bs ++ List.replicate k ctrlZ)
  · have hstrip : unpadded (bs ++ List.replicate k ctrlZ) = bs.rdropWhile (· == ctrlZ) := by
      rw [← rdropWhile_replicate bs k]
      exact if_pos hpad
    rw [hstrip, rdropWhile_eq_self]
    by_cases hk : k < 3
    · have hlast := hpad.getLast hk
      constructor
      · exact fun hne => absurd hlast hne
      · rintro (⟨rfl, hnot⟩ | ⟨hk', -⟩)
        · rw [List.replicate_zero, List.append_nil] at hpad
          exact absurd hpad hnot
        · omega
    · constructor
      · exact fun hne => Or.inr ⟨by omega, hne⟩
      · rintro (⟨rfl, -⟩ | ⟨-, hne⟩)
        · omega
        · exact hne
  · have hkeep : unpadded (bs ++ List.replicate k ctrlZ) = bs ++ List.replicate k ctrlZ :=
      if_neg hpad
    have hk : k < 3 := by
      by_contra hge
      exact hpad (padded_replicate (by omega))
    rw [hkeep, List.append_right_eq_self]
    constructor
    · intro hnil
      have hzero : k = 0 := by simpa using hnil
      subst hzero
      rw [List.replicate_zero, List.append_nil] at hpad
      exact Or.inl ⟨rfl, hpad⟩
    · rintro (⟨rfl, -⟩ | ⟨hk', -⟩)
      · rfl
      · omega

/-- The first byte spelt is the first one looked at. -/
theorem findHdr_cons {canTotal hdrChars : Nat} {w : List Event} {b : UInt8} {bs : List UInt8}
    (h : Spells w (b :: bs)) (rest : List Event) :
    ∃ v, findHdr canTotal hdrChars (w ++ rest) =
      findHdr canTotal hdrChars (.byte b :: (v ++ rest)) ∧ Spells v bs := by
  generalize hcs : b :: bs = cs at h
  induction h with
  | nil => cases hcs
  | gap _ ih => exact ih hcs
  | byte c h _ =>
      cases hcs
      exact ⟨_, rfl, h⟩

/-- Noise and then silence end the look for a header with a timeout. -/
theorem findHdr_silent {canTotal hdrChars : Nat} {noise : List UInt8} {w : List Event}
    (hnoise : Noise canTotal hdrChars noise) (hw : Spells w noise) (rest : List Event) :
    findHdr canTotal hdrChars (w ++ .silence :: rest) = (.timeout, flush rest) := by
  induction noise generalizing canTotal hdrChars w with
  | nil =>
      obtain rfl := spells_nil hw
      rfl
  | cons b noise ih =>
      obtain ⟨v, hfind, hv⟩ := findHdr_cons hw (.silence :: rest)
      rw [hfind, findHdr_noise hnoise, ih hnoise.tail hv]

/-- EOT ends the look for a header with the end of the file. -/
theorem findHdr_eot {w : List Event} (h : Spells w [eot]) (rest : List Event) :
    findHdr 0 0 (w ++ rest) = (.eof, rest) := by
  obtain ⟨v, hfind, hv⟩ := findHdr_cons h rest
  obtain rfl := spells_nil hv
  rw [hfind]
  rfl

/-- Waiting for a byte that does not come. -/
theorem getc_silence {x : Xyz} {w rest : List Event} (hline : x.line = w ++ .silence :: rest)
    (hw : Spells w []) : ∃ y, x.getc = (none, y) ∧ y.line = rest := by
  obtain rfl := spells_nil hw
  refine ⟨{ x with line := rest }, ?_, rfl⟩
  simp only [Xyz.getc, hline]
  rfl

/-- Waiting takes the first byte spelt. -/
theorem getc_spells {x : Xyz} {w rest : List Event} {b : UInt8} {bs : List UInt8}
    (hline : x.line = w ++ rest) (hw : Spells w (b :: bs)) :
    ∃ v y, x.getc = (some b, y) ∧ y.line = v ++ rest ∧ Spells v bs := by
  obtain ⟨v, hgetc, hv⟩ := Spells.getc rest hw
  refine ⟨v, { x with line := v ++ rest }, ?_, rfl, hv⟩
  simp only [Xyz.getc, hline, hgetc]

/-- A packet cut short by silence is not read, and the line goes on behind the silence. -/
theorem readPkt_cut {i left : Nat} {bs : List UInt8} (hshort : bs.length < left) {x : Xyz}
    {w rest : List Event} (hline : x.line = w ++ .silence :: rest) (hw : Spells w bs) :
    ∃ y, readPkt i left x = (false, y) ∧ y.line = rest := by
  induction bs generalizing i left x w with
  | nil =>
      obtain ⟨left, rfl⟩ : ∃ n, left = n + 1 := ⟨left - 1, by rw [List.length_nil] at hshort; omega⟩
      obtain ⟨y, hgetc, hy⟩ := getc_silence hline hw
      exact ⟨y, by simp only [readPkt, hgetc], hy⟩
  | cons b bs ih =>
      rw [List.length_cons] at hshort
      obtain ⟨left, rfl⟩ : ∃ n, left = n + 1 := ⟨left - 1, by omega⟩
      obtain ⟨v, y, hgetc, hy, hv⟩ := getc_spells hline hw
      simp only [readPkt, hgetc]
      exact ih (by omega) hy hv

/-- A payload that comes in full, whatever `pkt` holds then. -/
theorem readPkt_full {i : Nat} {bs cs : List UInt8} {x : Xyz} {w rest : List Event}
    (hline : x.line = w ++ rest) (hw : Spells w (bs ++ cs)) :
    ∃ v y, readPkt i bs.length x = (true, y) ∧ y.line = v ++ rest ∧ Spells v cs := by
  induction bs generalizing i x w with
  | nil => exact ⟨w, x, rfl, hline, hw⟩
  | cons b bs ih =>
      obtain ⟨v, y, hgetc, hy, hv⟩ := getc_spells hline hw
      simp only [List.length_cons, readPkt, hgetc]
      exact ih hy hv

/-- A frame that is cut ends in a timeout. -/
theorem readFrame_cut {c : UInt8} {bs : List UInt8} (hshort : bs.length < payloadLen c + 4)
    {x : Xyz} {w rest : List Event} (hline : x.line = w ++ .silence :: rest) (hw : Spells w bs) :
    ∃ y, readFrame c x = (xyzModemTimeout, y) ∧ y.line = rest := by
  cases bs with
  | nil =>
      obtain ⟨y, hget, hy⟩ := getc_silence hline hw
      exact ⟨y, by simp only [readFrame, hget], hy⟩
  | cons blk bs =>
  obtain ⟨v1, y1, hget1, hy1, hv1⟩ := getc_spells hline hw
  cases bs with
  | nil =>
      obtain ⟨y, hget, hy⟩ := getc_silence (x := { y1 with blk := blk }) hy1 hv1
      exact ⟨y, by simp only [readFrame, hget1, hget], hy⟩
  | cons cblk bs =>
  obtain ⟨v2, y2, hget2, hy2, hv2⟩ := getc_spells (x := { y1 with blk := blk }) hy1 hv1
  rw [List.length_cons, List.length_cons] at hshort
  let z : Xyz := { y2 with cblk := cblk, len := payloadLen c, bufp := 0 }
  have hz : z.line = v2 ++ .silence :: rest := hy2
  by_cases hpkt : bs.length < payloadLen c
  · obtain ⟨y, hread, hy⟩ := readPkt_cut (i := 0) hpkt hz hv2
    exact ⟨y, by simp only [readFrame, hget1, hget2, z, hread], hy⟩
  -- the payload is there, but not both bytes of the CRC
  have htake : (bs.take (payloadLen c)).length = payloadLen c := by
    rw [List.length_take]
    omega
  rw [← List.take_append_drop (payloadLen c) bs] at hv2
  have hdrop : (bs.drop (payloadLen c)).length < 2 := by
    rw [List.length_drop]
    omega
  obtain ⟨v3, y3, hread, hy3, hv3⟩ := readPkt_full (i := 0) hz hv2
  rw [htake] at hread
  generalize bs.drop (payloadLen c) = crc at hdrop hv3
  cases crc with
  | nil =>
      obtain ⟨y, hget, hy⟩ := getc_silence hy3 hv3
      exact ⟨y, by simp only [readFrame, hget1, hget2, z, hread, hget], hy⟩
  | cons crc1 crc =>
      obtain ⟨v4, y4, hget4, hy4, hv4⟩ := getc_spells hy3 hv3
      obtain rfl : crc = [] := by
        rw [List.length_cons] at hdrop
        exact List.eq_nil_of_length_eq_zero (by omega)
      obtain ⟨y, hget, hy⟩ := getc_silence (x := { y4 with crc1 := crc1 }) hy4 hv4
      exact ⟨y, by simp only [readFrame, hget1, hget2, z, hread, hget4, hget], hy⟩

/-- Fetching a packet starts behind a gap. -/
theorem xyzModemGetHdr_gap {x : Xyz} {line : List Event} (h : x.line = .gap :: line) :
    xyzModemGetHdr x = xyzModemGetHdr { x with line := line } := by
  have hfind : findHdr 0 0 (.gap :: line) = findHdr 0 0 line := rfl
  cases hack : x.txAck <;> simp [xyzModemGetHdr, Xyz.sendAck, Xyz.putc, hack, h, hfind]

/-- An attempt starts behind a gap. -/
theorem attempt_gap {x : Xyz} {line : List Event} (h : x.line = .gap :: line) :
    attempt x = attempt { x with line := line } := by
  rw [attempt, xyzModemGetHdr_gap h, attempt]

/-- Checking a frame that nothing follows at once leaves the line. -/
theorem checkFrame_line {c : UInt8} {x : Xyz} (h : flush x.line = x.line) :
    (checkFrame c x).2.line = x.line := by
  unfold checkFrame
  split
  · split <;> rfl
  · exact h

/-- What comes in place of a block is read to its end, and is no block `next`. -/
theorem Lost.get {next : UInt8} {w rest : List Event} (h : Lost next w) {x : Xyz}
    (hline : x.line = w ++ rest) (hrest : flush rest = rest) :
    ∃ stat y, xyzModemGetHdr x = (stat, y) ∧ y.line = rest ∧
      (stat = 0 → y.blk ≠ next) ∧ stat ≠ xyzModemCancel ∧ stat ≠ xyzModemEof := by
  cases h with
  | changed h hnoticed =>
      have hstat := xyzModemGetHdr_disturbed hline h
      obtain ⟨y, got, crc1, crc2, hget, hfull, -⟩ := h.inFull hline
      refine ⟨(xyzModemGetHdr x).1, (xyzModemGetHdr x).2, rfl, ?_, ?_⟩
      · rw [hget, checkFrame_line (by rw [hfull.line, hrest]), hfull.line]
      · rw [hstat]
        rcases hnoticed with hne | hne
        · rw [if_neg hne]
          exact ⟨fun hzero => absurd hzero (by decide), by decide, by decide⟩
        · rw [if_neg hne]
          split
          · exact ⟨fun hzero => absurd hzero (by decide), by decide, by decide⟩
          · exact ⟨fun hzero => absurd hzero (by decide), by decide, by decide⟩
  | cut hnoise hc hshort hw =>
      rw [List.append_assoc] at hline
      obtain ⟨v, hfound, hv⟩ := findHdr_spells hnoise hc ([.silence] ++ rest) hw
      obtain ⟨y, hread, hy⟩ := readFrame_cut hshort
        (x := { x.sendAck with line := v ++ .silence :: rest }) rfl hv
      refine ⟨xyzModemTimeout, y, ?_, hy, fun hzero => absurd hzero (by decide), by decide,
        by decide⟩
      simp only [xyzModemGetHdr, sendAck_line, hline, hfound]
      exact hread
  | silent hnoise hw =>
      rw [List.append_assoc] at hline
      have hfind := findHdr_silent hnoise hw rest
      rw [hrest] at hfind
      refine ⟨xyzModemTimeout, { x.sendAck with line := rest }, ?_, rfl,
        fun hzero => absurd hzero (by decide), by decide, by decide⟩
      simp only [xyzModemGetHdr, sendAck_line, hline, List.singleton_append, hfind]
  | other h hblk =>
      obtain ⟨hzero, hdec⟩ := xyzModemGetHdr_sent hline h
      refine ⟨(xyzModemGetHdr x).1, (xyzModemGetHdr x).2, rfl, hdec.line, fun _ => ?_, ?_⟩
      · rw [hdec.blk]
        exact hblk
      · rw [hzero]
        exact ⟨by decide, by decide⟩

/-- The receiver tries again, with the line at the next answer. -/
theorem Lost.attempt {w rest : List Event} {x : Xyz} (h : Lost x.nextBlk w)
    (hline : x.line = .gap :: (w ++ rest)) (hrest : flush rest = rest) :
    ∃ stat y, attempt x = .again stat y ∧ y.line = rest ∧ SameProgress x y := by
  obtain ⟨stat, y, hget, hy, hother, hcancel, heof⟩ :=
    h.get (x := { x with line := w ++ rest }) rfl hrest
  have hsame : SameProgress x y := by
    obtain ⟨hblk, hat⟩ := (frameRead_of_get hget).same
    exact ⟨hblk, hat⟩
  rw [attempt_gap hline]
  simp only [Xyzmodem.attempt, hget]
  by_cases hzero : stat = 0
  · have hne : y.blk ≠ y.nextBlk := by
      rw [hsame.nextBlk]
      exact hother hzero
    rw [if_pos hzero, if_neg hne]
    split
    · exact ⟨_, _, rfl, hy, hsame.nextBlk, hsame.atEof⟩
    · exact ⟨_, _, rfl, hy, hsame.nextBlk, hsame.atEof⟩
  · rw [if_neg hzero, if_neg hcancel, if_neg heof]
    exact ⟨_, _, rfl, hy, hsame.nextBlk, hsame.atEof⟩

/-- The block is taken. -/
theorem attempt_block {x : Xyz} {w rest : List Event} {c : UInt8} {payload : List UInt8}
    (h : Sent w c x.nextBlk payload) (hline : x.line = .gap :: (w ++ rest)) :
    ∃ y, attempt x = .block y ∧ y.line = rest ∧ y.pending = unpadded payload ∧ 0 ≤ y.len ∧
      y.nextBlk = x.nextBlk + 1 ∧ y.atEof = x.atEof := by
  obtain ⟨hzero, hdec⟩ := xyzModemGetHdr_sent (x := { x with line := w ++ rest }) rfl h
  rcases hget : xyzModemGetHdr { x with line := w ++ rest } with ⟨stat, y⟩
  rw [hget] at hzero hdec
  have hread := frameRead_of_get hget
  obtain ⟨f, -, hhold⟩ := hread.valid hzero
  have hpayload : f.payload = payload := by
    have hlen := hhold.len.symm.trans hdec.len
    rw [← hhold.packet, Int.ofNat_inj.mp hlen, hdec.pkt]
  have hnext : y.nextBlk = x.nextBlk := hread.same.nextBlk
  have hblk : y.blk = y.nextBlk := by rw [hnext, hdec.blk]
  obtain ⟨hpending, hlen⟩ := takeBlock_pending hhold
  refine ⟨y.takeBlock, ?_, hdec.line, ?_, hlen, ?_, hread.same.atEof⟩
  · rw [attempt_gap hline]
    simp only [attempt, hget]
    rw [if_pos hzero, if_pos hblk]
  · rw [hpending, ← hpayload]
    rfl
  · show y.nextBlk + 1 = x.nextBlk + 1
    rw [hnext]

/-- EOT ends the transfer. -/
theorem attempt_eot {x : Xyz} {w rest : List Event} (h : Spells w [eot])
    (hline : x.line = .gap :: (w ++ rest)) :
    ∃ y, attempt x = .stop xyzModemEof y ∧ y.atEof = true := by
  have hget : xyzModemGetHdr { x with line := w ++ rest } =
      (xyzModemEof,
        { ({ x with line := w ++ rest } : Xyz).sendAck.putc ack with line := rest }) := by
    simp only [xyzModemGetHdr, sendAck_line, findHdr_eot h rest]
  rw [attempt_gap hline]
  simp only [attempt, hget]
  exact ⟨_, rfl, rfl⟩

/-- What the retry loop comes to: the next block, or the end of the file. -/
inductive Fetched (x : Xyz) : List (List UInt8) → Int → Xyz → Prop
  | block {payload : List UInt8} {packets : List (List UInt8)} {y : Xyz}
      (hline : Carries xyzModemMaxRetries y.nextBlk packets y.line)
      (hpending : y.pending = unpadded payload) (hlen : 0 ≤ y.len) (heof : y.atEof = x.atEof) :
      Fetched x (payload :: packets) 0 y
  | eot {y : Xyz} (heof : y.atEof = true) : Fetched x [] xyzModemEof y

/-- What was fetched from a state with the same progress was fetched from this one. -/
theorem Fetched.of_same {x z y : Xyz} {packets : List (List UInt8)} {stat : Int}
    (h : Fetched z packets stat y) (hsame : SameProgress x z) : Fetched x packets stat y := by
  cases h with
  | block hline hpending hlen heof => exact .block hline hpending hlen (heof.trans hsame.atEof)
  | eot heof => exact .eot heof

/-- The retries fetch the first packet that the line carries, by induction on `Carries`. -/
theorem Carries.fetched {n : Nat} {next : UInt8} {packets : List (List UInt8)}
    {line : List Event} (h : Carries n next packets line) {x : Xyz} (hnext : next = x.nextBlk)
    (hline : line = x.line) (stat : Int) :
    Fetched x packets (retryLoop n stat x).1 (retryLoop n stat x).2 := by
  induction h generalizing x stat with
  | last h rest =>
      obtain ⟨y, hattempt, heof⟩ := attempt_eot h hline.symm
      rw [retryLoop_succ, hattempt]
      exact .eot heof
  | block h hmore _ =>
      subst hnext
      obtain ⟨y, hattempt, hy, hpending, hlen, hblk, heof⟩ := attempt_block h hline.symm
      rw [retryLoop_succ, hattempt]
      rw [← hblk, ← hy] at hmore
      exact .block hmore hpending hlen heof
  | lost h hmore ih =>
      subst hnext
      obtain ⟨stat', y, hattempt, hy, hsame⟩ := h.attempt hline.symm hmore.flush
      rw [retryLoop_succ, hattempt]
      exact (ih hsame.nextBlk.symm hy.symm stat').of_same hsame

/-- Between passes: what was delivered, what is left of the packet, and what is still to
come are the file. -/
structure Carrying (data : List UInt8) (packets : List (List UInt8)) (t : Transfer) : Prop where
  line : Carries xyzModemMaxRetries t.x.nextBlk packets t.x.line
  data : t.delivered ++ t.x.pending ++ fileOf packets = data
  len : 0 ≤ t.x.len
  heof : t.x.atEof = false
  err : t.err = none

/-- A transfer just opened carries the file. -/
theorem opened_carrying {t : Transfer} (h : Opened t) {packets : List (List UInt8)}
    (hline : Carries xyzModemMaxRetries 1 packets t.x.line) :
    Carrying (fileOf packets) packets t := by
  obtain ⟨x, htty, -, rfl⟩ := h
  rw [xyzModemStreamOpen, if_neg (by simp [htty])] at hline ⊢
  exact ⟨hline, rfl, Int.le_refl 0, rfl, rfl⟩

/-- A copy out of the packet. -/
theorem Carrying.copied {data : List UInt8} {packets : List (List UInt8)} {t : Transfer} {n : Int}
    (h : Carrying data packets t) (hn : 0 ≤ n) (hle : n ≤ t.x.len) :
    Carrying data packets (t.copied (t.x.pending.take n.toNat) (t.x.advance n)) := by
  refine ⟨h.line, ?_, ?_, h.heof, h.err⟩
  · show t.delivered ++ t.x.pending.take n.toNat ++ (t.x.advance n).pending ++ fileOf packets = data
    rw [List.append_assoc t.delivered, Xyz.advance, pending_append t.x hn hle, h.data]
  · show 0 ≤ t.x.len - n
    omega

/-- Getting the next block. -/
theorem Carrying.fetch {data payload : List UInt8} {packets : List (List UInt8)} {t : Transfer}
    {y : Xyz} {stat : Int} (h : Carrying data (payload :: packets) t) (hempty : t.x.len = 0)
    (hfetched : Fetched t.x (payload :: packets) stat y) :
    stat = 0 ∧ Carrying data packets { t with x := y } := by
  have hpending : t.x.pending = [] := by simp [Xyz.pending, hempty]
  have hdata := h.data
  rw [hpending, List.append_nil, fileOf, List.flatMap_cons, ← List.append_assoc] at hdata
  cases hfetched with
  | block hline hpend hlen heof =>
      exact ⟨rfl, hline, by rw [hpend]; exact hdata, hlen, heof.trans h.heof, h.err⟩

/-- What a call comes to that ends with `asked` bytes delivered, if there are as many. -/
inductive Served (data : List UInt8) (asked : Nat) (packets : List (List UInt8)) (u : Transfer) :
    Prop
  | full {more : List (List UInt8)} (hall : asked ≤ data.length)
      (hcarry : Carrying data more u) (hle : more.length ≤ packets.length)
      (hdel : u.delivered = data.take asked)
  | ended (hall : data.length < asked) (hdel : u.delivered = data)
      (herr : u.err = some xyzModemEof) (heof : u.x.atEof = true)

/-- More packets allow for more. -/
theorem Served.mono {data : List UInt8} {asked : Nat} {packets packets' : List (List UInt8)}
    {u : Transfer} (h : Served data asked packets u) (hle : packets.length ≤ packets'.length) :
    Served data asked packets' u := by
  cases h with
  | full hall hcarry hless hdel => exact .full hall hcarry (hless.trans hle) hdel
  | ended hall hdel herr heof => exact .ended hall hdel herr heof

/-- The passes that are enough: two for each block, and those of the call itself. -/
def enough (packets : List (List UInt8)) (t : Transfer) (size : Nat) : Nat :=
  if size = 0 then 1 else 2 * packets.length + (if t.x.len = 0 then 0 else 1) + 2

/-- A call that asks for no more is served. -/
theorem Carrying.done {data : List UInt8} {packets : List (List UInt8)} {t : Transfer}
    (h : Carrying data packets t) :
    Served data (t.delivered.length + 0) packets { t with size := none } := by
  have hdata := h.data
  rw [List.append_assoc] at hdata
  refine .full ?_ ⟨h.line, h.data, h.len, h.heof, h.err⟩ (Nat.le_refl _) ?_
  · rw [← hdata, List.length_append]
    omega
  · rw [← hdata, Nat.add_zero, List.take_left]

/-- The copy of a pass takes all that is asked for, or the rest of the packet. -/
theorem Carrying.copyOut {data : List UInt8} {packets : List (List UInt8)} {t : Transfer}
    (h : Carrying data packets t) (size : Nat) :
    ∃ bytes z, copyOut size t.x = some (.copied bytes z) ∧
      Carrying data packets (t.copied bytes z) ∧ bytes.length ≤ size ∧
      (size - bytes.length = 0 ∨ z.len = 0) := by
  have hlen := h.len
  have hcopy : 0 ≤ copyLen size t.x ∧ copyLen size t.x ≤ t.x.len ∧ copyLen size t.x ≤ size ∧
      (copyLen size t.x = size ∨ copyLen size t.x = t.x.len) := by
    unfold copyLen
    split <;> omega
  obtain ⟨hn, hle, hsize, hall⟩ := hcopy
  have hbytes := length_take_pending hn hle
  refine ⟨_, _, copyOut_eq h.heof hlen, h.copied hn hle, by omega, ?_⟩
  rcases hall with hall | hall
  · left
    omega
  · right
    show t.x.len - copyLen size t.x = 0
    omega

/-- One pass of a call: the end of the file, or a copy. -/
theorem Carrying.pass {data : List UInt8} {packets : List (List UInt8)} {t : Transfer}
    {size : Nat} (h : Carrying data packets t) (hpos : 0 < size) :
    (t.delivered = data ∧ ∃ y, readPass size t.x = some (.error xyzModemEof y) ∧ y.atEof = true) ∨
      ∃ bytes z more, readPass size t.x = some (.copied bytes z) ∧
        Carrying data more (t.copied bytes z) ∧ bytes.length ≤ size ∧
        more.length ≤ packets.length ∧
        enough more (t.copied bytes z) (size - bytes.length) < enough packets t size := by
  have hless : ∀ (more : List (List UInt8)) (bytes : List UInt8) (z : Xyz),
      (size - bytes.length = 0 ∨ z.len = 0) →
      2 * more.length + 2 < enough packets t size →
      enough more (t.copied bytes z) (size - bytes.length) < enough packets t size := by
    intro more bytes z hend hlt
    rw [enough]
    split
    · omega
    · next hleft =>
        have hz : (t.copied bytes z).x.len = 0 := hend.resolve_left hleft
        rw [if_pos hz]
        omega
  have hne : size ≠ 0 := by omega
  by_cases hempty : t.x.len = 0
  · have hfetched := h.line.fetched rfl rfl xyzModemCancel
    unfold readPass
    simp only [if_pos hempty]
    generalize (retryLoop xyzModemMaxRetries xyzModemCancel t.x).1 = stat at *
    generalize (retryLoop xyzModemMaxRetries xyzModemCancel t.x).2 = y at *
    cases packets with
    | nil =>
        left
        cases hfetched with
        | eot heof =>
            have hdata := h.data
            have hpending : t.x.pending = [] := by simp [Xyz.pending, hempty]
            rw [hpending, List.append_nil, fileOf, List.flatMap_nil, List.append_nil] at hdata
            exact ⟨hdata, _, if_pos (by decide), heof⟩
    | cons payload packets =>
        right
        obtain ⟨hstat, hcarry⟩ := h.fetch hempty hfetched
        obtain ⟨bytes, z, hcopy, hcarry', hle, hend⟩ := hcarry.copyOut size
        refine ⟨bytes, z, packets, ?_, hcarry', hle, by simp, hless packets bytes z hend ?_⟩
        · rw [if_neg (by omega)]
          exact hcopy
        · rw [enough, if_neg hne, if_pos hempty, List.length_cons]
          omega
  · right
    obtain ⟨bytes, z, hcopy, hcarry', hle, hend⟩ := h.copyOut size
    refine ⟨bytes, z, packets, ?_, hcarry', hle, Nat.le_refl _, hless packets bytes z hend ?_⟩
    · unfold readPass
      rw [if_neg hempty, hcopy]
    · rw [enough, if_neg hne, if_neg hempty]
      omega

/-- A call gets what it asks for, or all that is left. -/
theorem Carrying.finish {data : List UInt8} {fuel size : Nat} {packets : List (List UInt8)}
    {t : Transfer} (h : Carrying data packets t) (hfuel : enough packets t size ≤ fuel) :
    ∃ u, finish fuel (t.ask size) = some u ∧
      Served data (t.delivered.length + size) packets u := by
  induction fuel generalizing size packets t with
  | zero =>
      unfold enough at hfuel
      split at hfuel <;> omega
  | succ fuel ih =>
      by_cases hsize : size = 0
      · subst hsize
        exact ⟨_, finish_done (t := t.ask 0) rfl (Or.inr (Int.le_refl 0)) fuel, h.done⟩
      have hmore : ¬ (t.x.atEof = true ∨ (size : Int) ≤ 0) := by
        rw [h.heof, not_or]
        exact ⟨Bool.false_ne_true, by omega⟩
      rcases h.pass (Nat.pos_of_ne_zero hsize) with
        ⟨hdel, y, hpass, heof⟩ | ⟨bytes, z, more, hpass, hcarry, hle, hpackets, hless⟩
      · have hstep := step_ask hmore
        rw [hpass, Option.map_some, Transfer.passed] at hstep
        refine ⟨_, (finish_step hstep).trans (if_pos rfl), .ended ?_ hdel rfl heof⟩
        rw [hdel]
        omega
      · obtain ⟨u, hu, hserved⟩ := ih hcarry (Nat.le_of_lt_succ (hless.trans_le hfuel))
        have hleft : ((size - bytes.length : Nat) : Int) = size - bytes.length := by omega
        rw [hleft] at hu
        refine ⟨u, (finish_copied hmore hpass fuel).trans hu, ?_⟩
        have hasked : (t.copied bytes z).delivered.length + (size - bytes.length) =
            t.delivered.length + size := by
          rw [Transfer.copied, List.length_append]
          omega
        rw [hasked] at hserved
        exact hserved.mono hpackets

/-- The passes that are enough are at most two for each block and three. -/
theorem enough_le (packets : List (List UInt8)) (t : Transfer) (size : Nat) :
    enough packets t size ≤ 2 * packets.length + 3 := by
  unfold enough
  split
  · omega
  · split <;> omega

/-- One call. -/
theorem Carrying.read {data : List UInt8} {fuel : Nat} {packets : List (List UInt8)}
    {t : Transfer} (h : Carrying data packets t) (hidle : t.size = none)
    (hfuel : 2 * packets.length + 3 ≤ fuel) (size : Nat) :
    ∃ u, streamRead fuel size t = some u ∧ u.size = none ∧
      Served data (t.delivered.length + size) packets u := by
  obtain ⟨u, hu, hserved⟩ := h.finish ((enough_le packets t size).trans hfuel)
  exact ⟨u, streamRead_of hidle h.err hu, finish_size hu, hserved⟩

/-- Calls that ask for no more than there is. -/
theorem Carrying.reads {data : List UInt8} {fuel : Nat} {sizes : List Nat}
    {packets : List (List UInt8)} {t : Transfer} (h : Carrying data packets t)
    (hidle : t.size = none) (hfuel : 2 * packets.length + 3 ≤ fuel)
    (hall : t.delivered.length + sizes.sum ≤ data.length) :
    ∃ u more, streamReads fuel (sizes.map Int.ofNat) t = some u ∧ u.size = none ∧
      Carrying data more u ∧ more.length ≤ packets.length ∧
      u.delivered.length = t.delivered.length + sizes.sum := by
  induction sizes generalizing packets t with
  | nil => exact ⟨t, packets, rfl, hidle, h, Nat.le_refl _, rfl⟩
  | cons size sizes ih =>
      rw [List.sum_cons] at hall
      obtain ⟨u, hu, hidle', hserved⟩ := h.read hidle hfuel size
      cases hserved with
      | ended hless => omega
      | @full more _ hcarry hle hdel =>
          have hlen : u.delivered.length = t.delivered.length + size := by
            rw [hdel, List.length_take]
            omega
          obtain ⟨v, rest, hv, hidle'', hcarry', hle', hlen'⟩ :=
            ih hcarry hidle' (by omega) (by omega)
          refine ⟨v, rest, ?_, hidle'', hcarry', hle'.trans hle, ?_⟩
          · rw [List.map_cons, streamReads]
            exact Option.bind_eq_some_iff.mpr ⟨u, hu, hv⟩
          · rw [hlen', hlen, List.sum_cons]
            omega

/-- What was delivered is the beginning of the file. -/
theorem Carrying.delivered_eq {data : List UInt8} {packets : List (List UInt8)} {t : Transfer}
    (h : Carrying data packets t) : t.delivered = data.take t.delivered.length := by
  rw [← h.data, List.append_assoc, List.take_left]

/-- **Whole files.**  After `xyzModem_stream_open`, on a line that carries a file, calls
get its bytes in order in the portions they ask for, and the first call that asks for
more than is left gets the rest and the end of the file. -/
theorem streamReads_carries {t : Transfer} (hopen : Opened t) {packets : List (List UInt8)}
    (hline : Carries xyzModemMaxRetries 1 packets t.x.line) {fuel : Nat}
    (hfuel : 2 * packets.length + 3 ≤ fuel) {sizes : List Nat}
    (hall : sizes.sum ≤ (fileOf packets).length) :
    ∃ u, streamReads fuel (sizes.map Int.ofNat) t = some u ∧ u.err = none ∧
      u.delivered = (fileOf packets).take sizes.sum ∧
      ∀ size : Nat, (fileOf packets).length < sizes.sum + size →
        ∃ v, streamRead fuel size u = some v ∧ v.err = some xyzModemEof ∧
          v.delivered = fileOf packets := by
  have hcarry := opened_carrying hopen hline
  obtain ⟨hidle, hempty⟩ : t.size = none ∧ t.delivered = [] := by
    obtain ⟨x, -, -, rfl⟩ := hopen
    exact ⟨rfl, rfl⟩
  have hzero : t.delivered.length + sizes.sum = sizes.sum := by
    rw [hempty, List.length_nil, Nat.zero_add]
  obtain ⟨u, more, hu, hidle', hcarry', hle, hlen⟩ :=
    hcarry.reads hidle hfuel (hzero.symm ▸ hall)
  rw [hzero] at hlen
  refine ⟨u, hu, hcarry'.err, ?_, fun size hless => ?_⟩
  · rw [← hlen]
    exact hcarry'.delivered_eq
  · have hfuel' : 2 * more.length + 3 ≤ fuel := by omega
    obtain ⟨v, hv, -, hserved⟩ := hcarry'.read hidle' hfuel' size
    cases hserved with
    | full hmore => omega
    | ended _ hdel herr => exact ⟨v, hv, herr, hdel⟩

/-- Block 1 comes changed, is cut, and then comes in full; EOT is behind it. -/
def retried (payload : List UInt8) : List Event :=
  .gap :: (changedLetters (0x80 :: List.replicate 129 0) ++
    .gap :: ([.byte soh, .byte 1] ++ [.silence] ++
      .gap :: ((sentBytes [] soh 1 payload).map .byte ++ .gap :: ([.byte eot] ++ []))))

/-- The line of `retried` carries its one packet. -/
theorem carries_retried {payload : List UInt8} (h : payload.length = 128) :
    Carries xyzModemMaxRetries 1 [payload] (retried payload) := by
  have hempty : Noise 0 0 [] :=
    ⟨fun _ hb => (by cases hb), by decide, fun _ => by decide⟩
  have hcrc : rdaCrc16 (0x80 :: List.replicate 129 0) ≠ 0 := by decide +kernel
  have hcut : Lost 1 ([.byte soh, .byte 1] ++ [.silence]) :=
    .cut hempty (Or.inl rfl) (by decide : [1].length < payloadLen soh + 4) (spells_bytes [soh, 1])
  exact .lost (.changed (disturbed_changedLetters (by simp)) (Or.inr hcrc)) (.lost hcut
    (.block (sent_bytes hempty (Or.inl rfl) 1 h) (.last (spells_bytes [eot]) [])))

/-- Three letters and their padding, read in two calls and a third. -/
theorem streamReads_carries_retried :
    let payload : List UInt8 := [0x61, 0x62, 0x63] ++ List.replicate 125 ctrlZ
    ∃ u v, streamReads 5 [1, 1] (openedOn (retried payload)) = some u ∧
      u.delivered = [0x61, 0x62] ∧ streamRead 5 8 u = some v ∧
      v.delivered = [0x61, 0x62, 0x63] ∧ v.err = some xyzModemEof := by
  intro payload
  have hfile : fileOf [payload] = [0x61, 0x62, 0x63] := by decide +kernel
  have hlength : payload.length = 128 := by simp [payload]
  have hall : [1, 1].sum ≤ (fileOf [payload]).length := by rw [hfile]; decide
  obtain ⟨u, hu, -, hdel, hmore⟩ := streamReads_carries (opened_openedOn (retried payload))
    (carries_retried hlength) (Nat.le_refl 5) hall
  rw [hfile] at hdel hmore
  obtain ⟨v, hv, herr, hall⟩ := hmore 8 (by decide)
  exact ⟨u, v, hu, hdel, hv, hall, herr⟩

end Xyzmodem

import Alp.XyzmodemDelivery

/-!
# Answers

A block is acknowledged late: taking it sets `tx_ack`, and the ACK goes out when the
next header is waited for.  A repeated block is acknowledged at once, and so is EOT,
twice.  Everything else is answered with `C`.

A frame is taken for a repetition by its number, which is one less than the number
expected; so the first frame of all, if it has the number 0, is acknowledged too.

In every run the ACKs are accounted for (`acks_accounted`): each of them stands for one
block taken, one frame with the number before the expected one, or EOT, and at most one ACK
is still due.
-/

set_option autoImplicit false

namespace Xyzmodem

open CString Sequenced Transition

/-- The frames with the number before the one expected: the block taken last once more, or
number 0 before any block was taken. -/
def repeats : UInt8 → List Frame → Nat
  | _, [] => 0
  | next, f :: frames =>
    if f.blk = next then repeats (next + 1) frames
    else (if f.blk = next - 1 then 1 else 0) + repeats next frames

/-- Every ACK has its reason. -/
structure Accounted (x : Xyz) : Prop where
  expecting : Expecting x
  acks : x.sent.count ack + (if x.txAck then 1 else 0) =
    (taken x.frames).length + repeats 1 x.frames + (if x.atEof then 2 else 0)

/-- One more frame is one more repeat when its number is one less than expected. -/
theorem repeats_append (next : UInt8) (frames : List Frame) (f : Frame) :
    repeats next (frames ++ [f]) = repeats next frames +
      if f.blk ≠ expected Frame.blk (· + 1) next frames ∧
          f.blk = expected Frame.blk (· + 1) next frames - 1 then 1 else 0 := by
  induction frames generalizing next with
  | nil =>
      rw [List.nil_append, repeats, repeats, repeats, expected]
      by_cases h : f.blk = next <;> simp [h, repeats]
  | cons g frames ih =>
      rw [List.cons_append, repeats, repeats, expected]
      split
      · exact ih (next + 1)
      · rw [ih next, Nat.add_assoc]

/-- What reading a frame does not answer. -/
def SameAnswers (x y : Xyz) : Prop :=
  y.sent = x.sent ∧ y.txAck = x.txAck

/-- Waiting for a byte answers nothing. -/
theorem getc_answers {x y : Xyz} {o : Option UInt8} (h : x.getc = (o, y)) : SameAnswers x y := by
  obtain ⟨line, rfl⟩ := getc_line h
  exact ⟨rfl, rfl⟩

/-- Nothing answered twice is nothing answered. -/
theorem SameAnswers.trans {x y z : Xyz} (h : SameAnswers x y) (h' : SameAnswers y z) :
    SameAnswers x z :=
  ⟨h'.1.trans h.1, h'.2.trans h.2⟩

/-- Reading a packet answers nothing. -/
theorem readPkt_answers (i left : Nat) (x : Xyz) : SameAnswers x (readPkt i left x).2 := by
  induction left generalizing i x with
  | zero => exact ⟨rfl, rfl⟩
  | succ left ih =>
      simp only [readPkt]
      split
      · next c y hy =>
          exact (getc_answers hy).trans (ih (i + 1) { y with pkt := y.pkt.set i c })
      · next y hy => exact getc_answers hy

/-- A frame read without an answer. -/
structure Quiet (x : Xyz) (read : Int × Xyz) : Prop where
  same : SameAnswers x read.2
  noEof : read.1 ≠ xyzModemEof

/-- What is quiet behind a step that answers nothing is quiet from its start. -/
theorem Quiet.of_same {x y : Xyz} {read : Int × Xyz} (h : Quiet y read)
    (hsame : SameAnswers x y) : Quiet x read :=
  ⟨hsame.trans h.same, h.noEof⟩

/-- A timeout is quiet. -/
theorem quiet_timeout {x y : Xyz} (h : SameAnswers x y) : Quiet x (xyzModemTimeout, y) :=
  ⟨h, show xyzModemTimeout ≠ xyzModemEof by decide⟩

/-- Checking a frame is quiet. -/
theorem checkFrame_quiet (c : UInt8) (x : Xyz) : Quiet x (checkFrame c x) := by
  unfold checkFrame
  split
  · split
    · exact ⟨⟨rfl, rfl⟩, show (0 : Int) ≠ xyzModemEof by decide⟩
    · exact ⟨⟨rfl, rfl⟩, show xyzModemCksum ≠ xyzModemEof by decide⟩
  · exact ⟨⟨rfl, rfl⟩, show xyzModemFrame ≠ xyzModemEof by decide⟩

/-- Reading a frame is quiet. -/
theorem readFrame_quiet (c : UInt8) (x : Xyz) : Quiet x (readFrame c x) := by
  unfold readFrame
  split
  · next y hy => exact quiet_timeout (getc_answers hy)
  next blk y hy =>
  have hblk : SameAnswers x { y with blk := blk } :=
    ⟨(getc_answers hy).1, (getc_answers hy).2⟩
  split
  · next z hz => exact quiet_timeout (hblk.trans (getc_answers hz))
  next cblk z hz =>
  have hcblk := hblk.trans (getc_answers hz)
  have hpkt := SameAnswers.trans (y := { z with cblk := cblk, len := payloadLen c, bufp := 0 })
    hcblk (readPkt_answers 0 (payloadLen c) _)
  split
  · next u hu =>
      rw [hu] at hpkt
      exact quiet_timeout hpkt
  next u hu =>
  rw [hu] at hpkt
  split
  · next v hv => exact quiet_timeout (hpkt.trans (getc_answers hv))
  next crc1 v hv =>
  have hcrc1 : SameAnswers x { v with crc1 := crc1 } :=
    ⟨(hpkt.trans (getc_answers hv)).1, (hpkt.trans (getc_answers hv)).2⟩
  split
  · next w hw => exact quiet_timeout (hcrc1.trans (getc_answers hw))
  next crc2 w hw =>
  have hcrc2 := hcrc1.trans (getc_answers hw)
  exact (checkFrame_quiet c { w with crc2 := crc2 }).of_same ⟨hcrc2.1, hcrc2.2⟩

/-- Waiting for a header sends the ACK that is due. -/
theorem xyzModemGetHdr_answers {x y : Xyz} {stat : Int} (h : xyzModemGetHdr x = (stat, y)) :
    y.txAck = false ∧
      y.sent.count ack = x.sent.count ack + (if x.txAck then 1 else 0) +
        (if stat = xyzModemEof then 1 else 0) := by
  have hsend : x.sendAck.txAck = false ∧
      x.sendAck.sent.count ack = x.sent.count ack + (if x.txAck then 1 else 0) := by
    unfold Xyz.sendAck
    split
    · next hack => exact ⟨rfl, by rw [Xyz.putc, List.count_append]; rfl⟩
    · next hack => exact ⟨Bool.eq_false_iff.mpr hack, rfl⟩
  -- what ends the search without EOT leaves the answers alone
  have hother : SameAnswers x.sendAck y → stat ≠ xyzModemEof → y.txAck = false ∧
      y.sent.count ack = x.sent.count ack + (if x.txAck then 1 else 0) +
        (if stat = xyzModemEof then 1 else 0) := by
    intro hsame hne
    rw [hsame.1, hsame.2, if_neg hne]
    exact hsend
  simp only [xyzModemGetHdr] at h
  split at h
  · next c rest _ =>
      have hread := readFrame_quiet c { x.sendAck with line := rest }
      rw [h] at hread
      exact hother hread.same hread.noEof
  · cases h
    exact hother ⟨rfl, rfl⟩ (by decide)
  · cases h
    refine ⟨hsend.1, ?_⟩
    show (x.sendAck.sent ++ [ack]).count ack = _
    rw [List.count_append, hsend.2]
    rfl
  · cases h
    exact hother ⟨rfl, rfl⟩ (by decide)

/-- A frame that is not taken, and its answer. -/
theorem Accounted.skipped {x y z : Xyz} {stat : Int} (h : Accounted x) (heof : x.atEof = false)
    (hget : xyzModemGetHdr x = (stat, y)) (hother : stat = 0 → y.blk ≠ y.nextBlk)
    (hne : stat ≠ xyzModemEof) (hframes : z.frames = y.frames) (hnext : z.nextBlk = y.nextBlk)
    (hack : z.txAck = y.txAck) (hat : z.atEof = y.atEof)
    (hsent : z.sent.count ack = y.sent.count ack +
      if stat = 0 ∧ y.blk = y.nextBlk - 1 then 1 else 0) : Accounted z := by
  have hread := frameRead_of_get hget
  obtain ⟨hexp, htaken⟩ := hread.skipped h.expecting hother
  obtain ⟨hacked, hcount⟩ := xyzModemGetHdr_answers hget
  rw [if_neg hne, Nat.add_zero] at hcount
  have hacks := h.acks
  rw [heof] at hacks
  have hexpz : Expecting z := by
    show z.nextBlk = expected Frame.blk (· + 1) 1 z.frames
    rw [hnext, hframes]
    exact hexp
  refine ⟨hexpz, ?_⟩
  have hrepeats : repeats 1 y.frames = repeats 1 x.frames +
      if stat = 0 ∧ y.blk = y.nextBlk - 1 then 1 else 0 := by
    by_cases hzero : stat = 0
    · obtain ⟨f, hf, hhold⟩ := hread.valid hzero
      have hnum : expected Frame.blk (· + 1) 1 x.frames = y.nextBlk := by
        rw [hread.same.nextBlk]
        exact h.expecting.symm
      have hblk := hother hzero
      rw [hf, repeats_append, hnum, ← hhold.blk]
      simp [hzero, hblk]
    · rw [(hread.invalid hzero).2]
      simp [hzero]
  rw [hack, hacked, hat, hread.same.atEof, heof, hframes, htaken, hsent, hcount, hrepeats]
  simp only [Bool.false_eq_true, if_false] at hacks ⊢
  omega

/-- A block that is taken. -/
theorem Accounted.block {x y : Xyz} (h : Accounted x) (heof : x.atEof = false)
    (hget : xyzModemGetHdr x = (0, y)) (hnext : y.blk = y.nextBlk) : Accounted y.takeBlock := by
  have hread := frameRead_of_get hget
  obtain ⟨hexp, -⟩ := hread.block h.expecting rfl hnext
  obtain ⟨hacked, hcount⟩ := xyzModemGetHdr_answers hget
  obtain ⟨f, hf, hhold⟩ := hread.valid rfl
  have hnum : f.blk = expected Frame.blk (· + 1) 1 x.frames := by
    rw [← hhold.blk, hnext, hread.same.nextBlk]
    exact h.expecting
  have hacks := h.acks
  refine ⟨hexp, ?_⟩
  show y.sent.count ack + 1 = (taken y.frames).length + repeats 1 y.frames +
    (if y.atEof then 2 else 0)
  have hrepeats : repeats 1 (x.frames ++ [f]) = repeats 1 x.frames := by
    rw [repeats_append, if_neg fun hboth => hboth.1 hnum, Nat.add_zero]
  have htaken : (taken (x.frames ++ [f])).length = (taken x.frames).length + 1 := by
    rw [taken, accepted_take Frame.blk (· + 1) hnum, List.length_append]
    rfl
  have hno : (0 : Int) ≠ xyzModemEof := by decide
  rw [hcount, hread.same.atEof, heof, hf, hrepeats, htaken, if_neg hno]
  rw [heof] at hacks
  simp only [Bool.false_eq_true, if_false] at hacks ⊢
  omega

/-- The ACK of EOT is accounted for. -/
theorem Accounted.eof {x y : Xyz} (h : Accounted x) (heof : x.atEof = false)
    (hget : xyzModemGetHdr x = (xyzModemEof, y)) :
    Accounted { y.putc ack with atEof := true } := by
  have hread := frameRead_of_get hget
  have hne : xyzModemEof ≠ 0 := by decide
  obtain ⟨hexp, htaken⟩ := hread.skipped h.expecting fun hzero => absurd hzero hne
  obtain ⟨hacked, hcount⟩ := xyzModemGetHdr_answers hget
  have hacks := h.acks
  refine ⟨hexp, ?_⟩
  show (y.sent ++ [ack]).count ack + (if y.txAck then 1 else 0) =
    (taken y.frames).length + repeats 1 y.frames + 2
  rw [List.count_append, hcount, hacked, htaken, (hread.invalid hne).2, if_pos rfl]
  rw [heof] at hacks
  simp only [Bool.false_eq_true, if_false, List.count_singleton_self] at hacks ⊢
  omega

/-- The retry loop keeps the account. -/
theorem retryLoop_accounted (n : Nat) (stat : Int) {x : Xyz} (h : Accounted x)
    (heof : x.atEof = false) : Accounted (retryLoop n stat x).2 := by
  induction n generalizing stat x with
  | zero => exact h
  | succ n ih =>
      rcases hget : xyzModemGetHdr x with ⟨st, y⟩
      have hat : y.atEof = false := (frameRead_of_get hget).same.atEof.trans heof
      simp only [retryLoop, hget]
      by_cases hzero : st = 0
      · subst hzero
        rw [if_pos rfl]
        split
        · next hnext => exact h.block heof hget hnext
        next hnext =>
        have hno : (0 : Int) ≠ xyzModemEof := by decide
        split
        · next hrepeat =>
            refine ih 0 (h.skipped heof hget (fun _ => hnext) hno rfl rfl rfl rfl ?_) hat
            rw [if_pos ⟨rfl, hrepeat⟩, Xyz.putc, List.count_append]
            rfl
        · next hrepeat =>
            refine ih _ (h.skipped heof hget (fun _ => hnext) hno rfl rfl rfl rfl ?_) hat
            rw [if_neg (fun hboth => hrepeat hboth.2), Xyz.putc, List.count_append]
            rfl
      · rw [if_neg hzero]
        have hskip : ∀ z : Xyz, st ≠ xyzModemEof → z.frames = y.frames → z.nextBlk = y.nextBlk →
            z.txAck = y.txAck → z.atEof = y.atEof → z.sent.count ack = y.sent.count ack →
            Accounted z := by
          intro z hne hframes hnext hack hat' hsent
          refine h.skipped heof hget (fun h0 => absurd h0 hzero) hne hframes hnext hack hat' ?_
          rw [if_neg (fun hboth => hzero hboth.1), Nat.add_zero]
          exact hsent
        split
        · next hcancel => exact hskip y (by rw [hcancel]; decide) rfl rfl rfl rfl rfl
        split
        · next hend =>
            subst hend
            exact h.eof heof hget
        · next hne =>
            refine ih st (hskip (y.putc letterC) hne rfl rfl rfl rfl ?_) hat
            rw [Xyz.putc, List.count_append]
            rfl

/-- Opened for the first time. -/
def Fresh (t : Transfer) : Prop :=
  ∃ x : Xyz, x.ttyInitialized = true ∧ x.frames = [] ∧ x.sent = [] ∧
    t = ⟨(xyzModemStreamOpen x).2.2, none, [], none⟩

/-- A fresh transfer is accounted for. -/
theorem fresh_accounted {t : Transfer} (h : Fresh t) : Accounted t.x := by
  obtain ⟨x, htty, hframes, hsent, rfl⟩ := h
  rw [xyzModemStreamOpen, if_neg (by simp [htty])]
  constructor
  · show (1 : UInt8) = expected Frame.blk (· + 1) 1 x.frames
    rw [hframes]
    rfl
  · show (x.sent ++ [letterC]).count ack + 0 = (taken x.frames).length + repeats 1 x.frames + 0
    rw [hsent, hframes]
    rfl

/-- Copying answers nothing. -/
theorem copyOut_accounted {size : Int} {x : Xyz} {p : Pass} (h : Accounted x)
    (hp : copyOut size x = some p) : ∃ bytes y, p = .copied bytes y ∧ Accounted y := by
  unfold copyOut at hp
  split at hp
  · cases hp
    exact ⟨_, _, rfl, h⟩
  split at hp
  · cases hp
  · cases hp
    exact ⟨_, _, rfl, ⟨h.expecting, h.acks⟩⟩

/-- One pass of the outer loop keeps the account, with an error or without. -/
theorem readPass_accounted {size : Int} {x : Xyz} {p : Pass} (h : Accounted x)
    (heof : x.atEof = false) (hp : readPass size x = some p) :
    (∃ err y, p = .error err y ∧ Accounted y) ∨ ∃ bytes y, p = .copied bytes y ∧ Accounted y := by
  unfold readPass at hp
  split at hp
  · have hretry := retryLoop_accounted xyzModemMaxRetries xyzModemCancel h heof
    simp only at hp
    split at hp
    · cases hp
      exact Or.inl ⟨_, _, rfl, ⟨hretry.expecting, hretry.acks⟩⟩
    · exact Or.inr (copyOut_accounted hretry hp)
  · exact Or.inr (copyOut_accounted h hp)

/-- A step keeps the account. -/
theorem step_accounted {t u : Transfer} {a : Action} (h : Accounted t.x)
    (hstep : step t a = some u) : Accounted u.x := by
  cases a with
  | read size =>
      simp only [step] at hstep
      split at hstep
      · cases hstep
        exact h
      · cases hstep
  | pass =>
      simp only [step] at hstep
      split at hstep
      · cases hstep
      next size _ =>
      split at hstep
      · cases hstep
        exact h
      next hdone =>
      have heof : t.x.atEof = false := Bool.eq_false_iff.mpr fun hat => hdone (Or.inl hat)
      split at hstep
      · cases hstep
      · next err y hp =>
          cases hstep
          obtain ⟨_, _, hpass, hy⟩ | ⟨_, _, hpass, -⟩ := readPass_accounted h heof hp
          · cases hpass
            exact hy
          · cases hpass
      · next bytes y hp =>
          cases hstep
          obtain ⟨_, _, hpass, -⟩ | ⟨_, _, hpass, hy⟩ := readPass_accounted h heof hp
          · cases hpass
          · cases hpass
            exact hy

/-- **Answers.**  In every run the ACKs sent, with the one that may still be due, are as
many as the blocks taken and the frames with the number before the expected one, and two
more for EOT. -/
theorem acks_accounted {t : Transfer} (h : Reach step Fresh anyStep t) :
    t.x.sent.count ack + (if t.x.txAck then 1 else 0) =
      (taken t.x.frames).length + repeats 1 t.x.frames + (if t.x.atEof then 2 else 0) := by
  have hinv : Accounted t.x := by
    induction h with
    | start h => exact fresh_accounted h
    | next _ _ hstep ih => exact step_accounted ih hstep
  exact hinv.acks

/-- Block 1, the same block once more, and EOT. -/
def oneByteTwice : List Event :=
  oneByte ++ .gap :: oneByte ++ [.gap, .byte eot]

/-- Four ACKs: for the block, for its repetition, and two for EOT. -/
theorem acks_accounted_oneByteTwice :
    ∃ t, Reach step Fresh anyStep t ∧ t.x.sent = [letterC, ack, ack, ack, ack] ∧
      (taken t.x.frames).length + repeats 1 t.x.frames + (if t.x.atEof then 2 else 0) = 4 := by
  have hrun : (exec step (fun _ _ => true) (openedOn oneByteTwice) [.read 9, .pass, .pass]).map
      (fun t => (t.x.sent, t.x.txAck)) = some ([letterC, ack, ack, ack, ack], false) := by
    decide +kernel
  obtain ⟨t, ht, hpair⟩ := Option.map_eq_some_iff.mp hrun
  obtain ⟨hsent, htxAck⟩ := Prod.mk.inj hpair
  have hreach : Reach step Fresh anyStep t :=
    Reach.of_exec (fun _ _ _ => trivial) (.start ⟨waiting oneByteTwice, rfl, rfl, rfl, rfl⟩) ht
  have hacks := acks_accounted hreach
  rw [hsent, htxAck] at hacks
  exact ⟨t, hreach, hsent, hacks.symm⟩

end Xyzmodem

import Alp.Sequenced
import Alp.Transition
import Alp.Xyzmodem

/-!
# What the X-modem receiver delivers

Abstractly the receiver takes the valid frames in sequence (`Sequenced.accepted`,
from number 1 on) and delivers their payloads without padding.  Here
`xyzModem_stream_read` is a transition system, one step per pass of its outer loop,
and `InOrder` says that what was delivered so far is a prefix of that.

It holds as long as no retry loop runs out of its 200 attempts on a repeated block
(`endsOnRepeat`): that `continue` leaves `stat` at 0, and the pass goes on to copy the
repeated block.
-/

set_option autoImplicit false

namespace Xyzmodem

open CString Sequenced Transition

/-- The payload without padding: all trailing `^Z`, if there are three. -/
def Frame.data (f : Frame) : List UInt8 :=
  if f.payload.drop (f.payload.length - 3) = [ctrlZ, ctrlZ, ctrlZ] then
    f.payload.rdropWhile (· == ctrlZ)
  else f.payload

/-- The frames taken, in sequence from number 1 on. -/
def taken (frames : List Frame) : List Frame :=
  accepted Frame.blk (· + 1) 1 frames

/-- What the frames taken carry. -/
def payloads (frames : List Frame) : List UInt8 :=
  (taken frames).flatMap Frame.data

/-- The receiver and its calls. -/
structure Transfer where
  x : Xyz
  /-- The bytes the call under way has still to get, if there is one. -/
  size : Option Int
  /-- All bytes copied into the callers' buffers. -/
  delivered : List UInt8
  /-- The error a call has reported. -/
  err : Option Int

/-- What happens next: a call begins, or the call under way goes on. -/
inductive Action
  | read (size : Int)
  | pass

/-- One step: after the first error there are no more calls. -/
def step (t : Transfer) : Action → Option Transfer
  | .read size =>
    if t.size = none ∧ t.err = none then some { t with size := some size } else none
  | .pass =>
    match t.size with
    | none => none
    | some size =>
      if t.x.atEof ∨ size ≤ 0 then some { t with size := none }
      else
        match readPass size t.x with
        | none => none
        | some (.error err x) => some { t with x := x, size := none, err := some err }
        | some (.copied bytes x) => some { t with
            x := x, size := some (size - bytes.length), delivered := t.delivered ++ bytes }

/-- After `xyzModem_stream_open`, on any line. -/
def Opened (t : Transfer) : Prop :=
  ∃ x : Xyz, x.ttyInitialized = true ∧ x.frames = [] ∧
    t = ⟨(xyzModemStreamOpen x).2.2, none, [], none⟩

/-- Delivery in order: a prefix of the payloads of the frames taken, whose numbers are
1, 2, 3, ... modulo 256. -/
structure InOrder (t : Transfer) : Prop where
  delivered : t.delivered <+: payloads t.x.frames
  numbers : ∀ i f, (taken t.x.frames)[i]? = some f → f.blk = UInt8.ofNat (i + 1)

/-- The last of `n` attempts to get a block ends on a repeated one. -/
def endsOnRepeat : Nat → Xyz → Bool
  | 0, _ => false
  | n + 1, x =>
    let (stat, x) := xyzModemGetHdr x
    if stat = 0 then
      if x.blk = x.nextBlk then false
      else if x.blk = x.nextBlk - 1 then n = 0 || endsOnRepeat n (x.putc ack)
      else endsOnRepeat n (x.putc letterC)
    else if stat = xyzModemCancel ∨ stat = xyzModemEof then false
    else endsOnRepeat n (x.putc letterC)

/-- The condition on a step: a pass that has to get a block does not run out of its
attempts on a repeated one. -/
def GetsBlock (t : Transfer) : Action → Prop
  | .read _ => True
  | .pass =>
    ∀ size ∈ t.size, 0 < size → t.x.atEof = false → t.x.len = 0 →
      endsOnRepeat xyzModemMaxRetries t.x = false

instance (t : Transfer) : (a : Action) → Decidable (GetsBlock t a)
  | .read _ => inferInstanceAs (Decidable True)
  | .pass => inferInstanceAs (Decidable (∀ size ∈ t.size, 0 < size → t.x.atEof = false →
      t.x.len = 0 → endsOnRepeat xyzModemMaxRetries t.x = false))

/-- What reading a frame leaves alone. -/
structure SameProgress (x y : Xyz) : Prop where
  nextBlk : y.nextBlk = x.nextBlk
  atEof : y.atEof = x.atEof

/-- The packet in `pkt` is the payload of `f`. -/
structure Holding (x : Xyz) (f : Frame) : Prop where
  blk : x.blk = f.blk
  bufp : x.bufp = 0
  len : x.len = f.payload.length
  packet : x.packet f.payload.length = f.payload

/-- The outcome of reading a frame: a valid one, held in `pkt`, or an error. -/
structure FrameRead (x : Xyz) (stat : Int) (y : Xyz) : Prop where
  same : SameProgress x y
  valid : stat = 0 → ∃ f, y.frames = x.frames ++ [f] ∧ Holding y f
  invalid : stat ≠ 0 → stat < 0 ∧ y.frames = x.frames

/-- A read that failed and changed no progress reads no frame. -/
theorem FrameRead.fail {x y : Xyz} {stat : Int} (hsame : SameProgress x y)
    (hframes : y.frames = x.frames) (hstat : stat < 0) : FrameRead x stat y :=
  ⟨hsame, fun hzero => by omega, fun _ => ⟨hstat, hframes⟩⟩

/-- What was read from a state with the same progress and frames was read from this one. -/
theorem FrameRead.of_same {x x' y : Xyz} {stat : Int} (h : FrameRead x' stat y)
    (hsame : SameProgress x x') (hframes : x'.frames = x.frames) : FrameRead x stat y where
  same := ⟨h.same.nextBlk.trans hsame.nextBlk, h.same.atEof.trans hsame.atEof⟩
  valid := fun hzero => by rw [← hframes]; exact h.valid hzero
  invalid := fun hne => by rw [← hframes]; exact h.invalid hne

/-- Waiting for a byte changes the line only. -/
theorem getc_line {x y : Xyz} {o : Option UInt8} (h : x.getc = (o, y)) :
    ∃ line, y = { x with line := line } :=
  ⟨_, (congrArg Prod.snd h).symm⟩

/-- Reading a packet changes neither the progress nor the record of frames. -/
theorem readPkt_same (i left : Nat) (x : Xyz) :
    SameProgress x (readPkt i left x).2 ∧ (readPkt i left x).2.frames = x.frames ∧
      (readPkt i left x).2.bufp = x.bufp ∧ (readPkt i left x).2.len = x.len := by
  induction left generalizing i x with
  | zero => exact ⟨⟨rfl, rfl⟩, rfl, rfl, rfl⟩
  | succ left ih =>
      simp only [readPkt]
      split
      · next c y hy =>
          obtain ⟨line, rfl⟩ := getc_line hy
          obtain ⟨hsame, hframes, hbufp, hlen⟩ :=
            ih (i + 1) { x with line := line, pkt := x.pkt.set i c }
          exact ⟨⟨hsame.nextBlk, hsame.atEof⟩, hframes, hbufp, hlen⟩
      · next y hy =>
          obtain ⟨line, rfl⟩ := getc_line hy
          exact ⟨⟨rfl, rfl⟩, rfl, rfl, rfl⟩

/-- Checking a frame reads it, or fails. -/
theorem checkFrame_read (c : UInt8) (x : Xyz) (hbufp : x.bufp = 0)
    (hlen : x.len = payloadLen c) : FrameRead x (checkFrame c x).1 (checkFrame c x).2 := by
  unfold checkFrame
  split
  · split
    · refine ⟨⟨rfl, rfl⟩, fun _ => ⟨_, rfl, rfl, hbufp, ?_, ?_⟩, fun hne => absurd rfl hne⟩
      · simpa only [x.length_packet] using hlen
      · simp only [x.length_packet]
        rfl
    · exact FrameRead.fail ⟨rfl, rfl⟩ rfl (by simp [xyzModemCksum])
  · exact FrameRead.fail ⟨rfl, rfl⟩ rfl (by simp [xyzModemFrame])

/-- Reading a frame reads one, or fails. -/
theorem readFrame_read (c : UInt8) (x : Xyz) :
    FrameRead x (readFrame c x).1 (readFrame c x).2 := by
  have hfail : ∀ y : Xyz, SameProgress x y → y.frames = x.frames →
      FrameRead x xyzModemTimeout y :=
    fun y hsame hframes => FrameRead.fail hsame hframes (by decide)
  unfold readFrame
  split
  · next y hy =>
      obtain ⟨line, rfl⟩ := getc_line hy
      exact hfail _ ⟨rfl, rfl⟩ rfl
  · next blk y hy =>
      obtain ⟨line, rfl⟩ := getc_line hy
      split
      · next z hz =>
          obtain ⟨line', rfl⟩ := getc_line hz
          exact hfail _ ⟨rfl, rfl⟩ rfl
      · next cblk z hz =>
          obtain ⟨line', rfl⟩ := getc_line hz
          have hpkt := readPkt_same 0 (payloadLen c) { x with
            line := line', blk := blk, cblk := cblk, len := payloadLen c, bufp := 0 }
          split
          · next u hu =>
              rw [hu] at hpkt
              exact hfail _ ⟨hpkt.1.nextBlk, hpkt.1.atEof⟩ hpkt.2.1
          · next u hu =>
              rw [hu] at hpkt
              obtain ⟨hsame, hframes, hbufp, hlen⟩ := hpkt
              split
              · next v hv =>
                  obtain ⟨line'', rfl⟩ := getc_line hv
                  exact hfail _ ⟨hsame.nextBlk, hsame.atEof⟩ hframes
              · next crc1 v hv =>
                  obtain ⟨line'', rfl⟩ := getc_line hv
                  split
                  · next w hw =>
                      obtain ⟨line3, rfl⟩ := getc_line hw
                      exact hfail _ ⟨hsame.nextBlk, hsame.atEof⟩ hframes
                  · next crc2 w hw =>
                      obtain ⟨line3, rfl⟩ := getc_line hw
                      have hcheck := checkFrame_read c
                        { u with line := line3, crc1 := crc1, crc2 := crc2 } hbufp hlen
                      exact hcheck.of_same ⟨hsame.nextBlk, hsame.atEof⟩ hframes

/-- Sending the ACK changes neither the progress nor the record of frames. -/
theorem sendAck_same (x : Xyz) :
    SameProgress x x.sendAck ∧ x.sendAck.frames = x.frames := by
  unfold Xyz.sendAck
  split <;> exact ⟨⟨rfl, rfl⟩, rfl⟩

/-- `xyzModem_get_hdr` reads a valid frame into `pkt`, or fails. -/
theorem xyzModemGetHdr_read (x : Xyz) :
    FrameRead x (xyzModemGetHdr x).1 (xyzModemGetHdr x).2 := by
  obtain ⟨hsame, hframes⟩ := sendAck_same x
  refine FrameRead.of_same ?_ hsame hframes
  simp only [xyzModemGetHdr]
  split
  · exact (readFrame_read _ _).of_same ⟨rfl, rfl⟩ rfl
  · exact FrameRead.fail ⟨rfl, rfl⟩ rfl (by simp [xyzModemCancel])
  · exact FrameRead.fail ⟨rfl, rfl⟩ rfl (by simp [xyzModemEof])
  · exact FrameRead.fail ⟨rfl, rfl⟩ rfl (by simp [xyzModemTimeout])

/-- What an attempt to get a block comes to: the block, another attempt after `stat`, or
the end of the loop. -/
inductive Attempt
  | block (y : Xyz)
  | again (stat : Int) (y : Xyz)
  | stop (stat : Int) (y : Xyz)

/-- One round of the retry loop. -/
def attempt (x : Xyz) : Attempt :=
  let (stat, y) := xyzModemGetHdr x
  if stat = 0 then
    if y.blk = y.nextBlk then .block y.takeBlock
    else if y.blk = y.nextBlk - 1 then .again 0 (y.putc ack)
    else .again xyzModemSequence (y.putc letterC)
  else if stat = xyzModemCancel then .stop stat y
  else if stat = xyzModemEof then .stop stat { y.putc ack with atEof := true }
  else .again stat (y.putc letterC)

/-- The loop after an attempt, with `n` retries left. -/
def Attempt.retry (n : Nat) : Attempt → Int × Xyz
  | .block y => (0, y)
  | .again stat y => retryLoop n stat y
  | .stop stat y => (stat, y)

/-- The retries are one attempt and what follows from it. -/
theorem retryLoop_succ (n : Nat) (stat : Int) (x : Xyz) :
    retryLoop (n + 1) stat x = (attempt x).retry n := by
  simp only [retryLoop, attempt, apply_ite (Attempt.retry n)]
  rfl

/-- The retries end on a repeat when the last attempt does. -/
theorem endsOnRepeat_succ (n : Nat) (x : Xyz) :
    endsOnRepeat (n + 1) x =
      match attempt x with
      | .again stat y => (stat = 0 && n = 0) || endsOnRepeat n y
      | _ => false := by
  simp only [endsOnRepeat, attempt]
  by_cases hzero : (xyzModemGetHdr x).1 = 0
  · rw [if_pos hzero, if_pos hzero]
    split
    · rfl
    split
    · simp
    · simp [xyzModemSequence]
  · rw [if_neg hzero, if_neg hzero]
    by_cases hcancel : (xyzModemGetHdr x).1 = xyzModemCancel
    · rw [if_pos (Or.inl hcancel), if_pos hcancel]
    by_cases heof : (xyzModemGetHdr x).1 = xyzModemEof
    · rw [if_pos (Or.inr heof), if_neg hcancel, if_pos heof]
    · rw [if_neg (not_or.mpr ⟨hcancel, heof⟩), if_neg hcancel, if_neg heof]
      simp [hzero]

/-- How an attempt comes to what it does. -/
inductive Attempted (x : Xyz) : Attempt → Prop
  | block {y : Xyz} (hget : xyzModemGetHdr x = (0, y)) (hnext : y.blk = y.nextBlk) :
      Attempted x (.block y.takeBlock)
  | repeated {y : Xyz} (hget : xyzModemGetHdr x = (0, y)) (hother : y.blk ≠ y.nextBlk) :
      Attempted x (.again 0 (y.putc ack))
  | sequence {y : Xyz} (hget : xyzModemGetHdr x = (0, y)) (hother : y.blk ≠ y.nextBlk) :
      Attempted x (.again xyzModemSequence (y.putc letterC))
  | failed {stat : Int} {y : Xyz} (hget : xyzModemGetHdr x = (stat, y)) (hstat : stat < 0) :
      Attempted x (.again stat (y.putc letterC))
  | cancel {y : Xyz} (hget : xyzModemGetHdr x = (xyzModemCancel, y)) :
      Attempted x (.stop xyzModemCancel y)
  | eof {y : Xyz} (hget : xyzModemGetHdr x = (xyzModemEof, y)) :
      Attempted x (.stop xyzModemEof { y.putc ack with atEof := true })

/-- Fetching a packet reads a frame, or fails. -/
theorem frameRead_of_get {x y : Xyz} {stat : Int} (h : xyzModemGetHdr x = (stat, y)) :
    FrameRead x stat y := by
  have hread := xyzModemGetHdr_read x
  rwa [h] at hread

/-- An attempt is one of those that `Attempted` lists. -/
theorem attempt_cases (x : Xyz) : Attempted x (attempt x) := by
  rcases hget : xyzModemGetHdr x with ⟨stat, y⟩
  simp only [attempt, hget]
  by_cases hzero : stat = 0
  · subst hzero
    rw [if_pos rfl]
    split
    · next hnext => exact .block hget hnext
    · next hother =>
        split
        · exact .repeated hget hother
        · exact .sequence hget hother
  · obtain ⟨hneg, -⟩ := (frameRead_of_get hget).invalid hzero
    rw [if_neg hzero]
    split
    · next hcancel =>
        subst hcancel
        exact .cancel hget
    split
    · next heof =>
        subst heof
        exact .eof hget
    · exact .failed hget hneg

/-- The trimming loop drops the `^Z` at the end of the packet. -/
theorem range_trimLoop (pkt : Mem) (n : Nat) :
    (List.range (trimLoop pkt n)).map pkt =
      ((List.range n).map pkt).rdropWhile (· == ctrlZ) := by
  induction n with
  | zero => rfl
  | succ n ih =>
      rw [List.range_succ, List.map_append, List.map_singleton, List.rdropWhile_concat, ← ih]
      by_cases hz : pkt n = ctrlZ
      · simp [trimLoop, hz]
      · simp [trimLoop, hz, List.range_succ]

/-- The three tests of the padding are on the last three bytes. -/
theorem range_drop_three (pkt : Mem) {n : Nat} (hn : 3 ≤ n) :
    ((List.range n).map pkt).drop (n - 3) = [pkt (n - 3), pkt (n - 2), pkt (n - 1)] := by
  obtain ⟨m, rfl⟩ : ∃ m, n = m + 3 := ⟨n - 3, by omega⟩
  have hlast : (List.range (m + 3)).map pkt =
      (List.range m).map pkt ++ [pkt m, pkt (m + 1), pkt (m + 2)] := by
    simp [List.range_succ]
  rw [hlast, List.drop_append_of_le_length (by simp)]
  simp

/-- Taking a block leaves its payload without padding to be read. -/
theorem takeBlock_pending {x : Xyz} {f : Frame} (h : Holding x f) :
    x.takeBlock.pending = f.data ∧ 0 ≤ x.takeBlock.len := by
  obtain ⟨-, hbufp, hlen, hpacket⟩ := h
  have hthree : 3 ≤ f.payload.length := by
    rw [f.sized, payloadLen]
    split <;> omega
  refine ⟨?_, Int.natCast_nonneg _⟩
  have hpkt : (fun i => x.pkt (x.bufp + i)) = x.pkt := by
    funext i
    rw [hbufp, Nat.zero_add]
  have hpending : x.takeBlock.pending =
      (List.range (trimLen x.pkt f.payload.length)).map x.pkt := by
    simp only [Xyz.pending, Xyz.takeBlock, hlen, Int.toNat_natCast, hpkt]
  have hdrop := range_drop_three x.pkt hthree
  unfold Xyz.packet at hpacket
  rw [hpacket] at hdrop
  rw [hpending, trimLen, Frame.data, hdrop]
  have hlast : [x.pkt (f.payload.length - 3), x.pkt (f.payload.length - 2),
      x.pkt (f.payload.length - 1)] = [ctrlZ, ctrlZ, ctrlZ] ↔
      x.pkt (f.payload.length - 1) = ctrlZ ∧ x.pkt (f.payload.length - 2) = ctrlZ ∧
        x.pkt (f.payload.length - 3) = ctrlZ := by
    simp only [List.cons.injEq, and_true]
    exact ⟨fun h => ⟨h.2.2, h.2.1, h.1⟩, fun h => ⟨h.2.2, h.2.1, h.1⟩⟩
  by_cases hz : x.pkt (f.payload.length - 1) = ctrlZ ∧ x.pkt (f.payload.length - 2) = ctrlZ ∧
      x.pkt (f.payload.length - 3) = ctrlZ
  · rw [if_pos hz, if_pos (hlast.mpr hz), range_trimLoop, hpacket]
  · rw [if_neg hz, if_neg (fun hall => hz (hlast.mp hall)), hpacket]

/-- `next_blk` is the number the abstract receiver expects. -/
def Expecting (x : Xyz) : Prop :=
  x.nextBlk = expected Frame.blk (· + 1) 1 x.frames

/-- What the retry loop ends with: an error and nothing taken, or a block taken and
ready to be read. -/
inductive Retried (x : Xyz) (stat : Int) (y : Xyz) : Prop
  | error (hstat : stat < 0) (htaken : taken y.frames = taken x.frames)
  | block (f : Frame) (hstat : stat = 0) (htaken : taken y.frames = taken x.frames ++ [f])
      (hpending : y.pending = f.data) (hlen : 0 ≤ y.len) (heof : y.atEof = x.atEof)

/-- What the retries do behind an attempt that took nothing they do from its start. -/
theorem Retried.of_skipped {x z y : Xyz} {stat : Int} (h : Retried z stat y)
    (htaken : taken z.frames = taken x.frames) (heof : z.atEof = x.atEof) : Retried x stat y := by
  cases h with
  | error hstat ht => exact .error hstat (ht.trans htaken)
  | block f hstat ht hpending hlen he =>
      exact .block f hstat (by rw [ht, htaken]) hpending hlen (he.trans heof)

/-- A frame that is not the expected one, or none at all, is not taken. -/
theorem FrameRead.skipped {x y : Xyz} {stat : Int} (h : FrameRead x stat y) (hexp : Expecting x)
    (hother : stat = 0 → y.blk ≠ y.nextBlk) :
    Expecting y ∧ taken y.frames = taken x.frames := by
  by_cases hzero : stat = 0
  · obtain ⟨f, hframes, hhold⟩ := h.valid hzero
    have hnum : f.blk ≠ expected Frame.blk (· + 1) 1 x.frames := by
      rw [← hhold.blk, ← hexp, ← h.same.nextBlk]
      exact hother hzero
    constructor
    · show y.nextBlk = expected Frame.blk (· + 1) 1 y.frames
      rw [hframes, expected_skip _ _ hnum, ← hexp, h.same.nextBlk]
    · rw [hframes]
      exact accepted_skip _ _ hnum
  · obtain ⟨-, hframes⟩ := h.invalid hzero
    constructor
    · show y.nextBlk = expected Frame.blk (· + 1) 1 y.frames
      rw [hframes, h.same.nextBlk, hexp]
    · rw [hframes]

/-- The expected frame is taken. -/
theorem FrameRead.block {x y : Xyz} {stat : Int} (h : FrameRead x stat y) (hexp : Expecting x)
    (hzero : stat = 0) (hnext : y.blk = y.nextBlk) :
    Expecting y.takeBlock ∧ Retried x 0 y.takeBlock := by
  obtain ⟨f, hframes, hhold⟩ := h.valid hzero
  have hnum : f.blk = expected Frame.blk (· + 1) 1 x.frames := by
    rw [← hhold.blk, hnext, h.same.nextBlk, hexp]
  obtain ⟨hpending, hlen⟩ := takeBlock_pending hhold
  refine ⟨?_, .block f rfl ?_ hpending hlen h.same.atEof⟩
  · show y.nextBlk + 1 = expected Frame.blk (· + 1) 1 y.frames
    rw [hframes, expected_take _ _ hnum, ← hexp, h.same.nextBlk]
  · show taken y.frames = taken x.frames ++ [f]
    rw [hframes]
    exact accepted_take _ _ hnum

/-- A retry loop that does not end on a repeated block takes at most one block, the one
that was expected. -/
theorem retryLoop_retried (n : Nat) (stat : Int) (x : Xyz) (hexp : Expecting x)
    (hends : endsOnRepeat n x = false) (hn : 0 < n ∨ stat < 0) :
    Expecting (retryLoop n stat x).2 ∧
      Retried x (retryLoop n stat x).1 (retryLoop n stat x).2 := by
  induction n generalizing stat x with
  | zero =>
      have hstat : stat < 0 := by omega
      exact ⟨hexp, .error hstat rfl⟩
  | succ n ih =>
      rw [endsOnRepeat_succ] at hends
      rw [retryLoop_succ]
      have hcases := attempt_cases x
      generalize attempt x = a at *
      -- the loop goes on, after an answer, with what it had
      have hmore : ∀ {st : Int} {y : Xyz}, FrameRead x st y → (st = 0 → y.blk ≠ y.nextBlk) →
          ∀ (c : UInt8) (st' : Int), endsOnRepeat n (y.putc c) = false → (0 < n ∨ st' < 0) →
            Expecting (retryLoop n st' (y.putc c)).2 ∧
              Retried x (retryLoop n st' (y.putc c)).1 (retryLoop n st' (y.putc c)).2 := by
        intro st y hread hother c st' hrest hn'
        obtain ⟨hexp', htaken⟩ := hread.skipped hexp hother
        obtain ⟨hexpect, hretried⟩ := ih st' (y.putc c) hexp' hrest hn'
        exact ⟨hexpect, hretried.of_skipped htaken hread.same.atEof⟩
      cases hcases with
      | block hget hnext => exact (frameRead_of_get hget).block hexp rfl hnext
      | repeated hget hother =>
          obtain ⟨hlast, hrest⟩ := Bool.or_eq_false_iff.mp hends
          have hleft : n ≠ 0 := by simpa using hlast
          exact hmore (frameRead_of_get hget) (fun _ => hother) ack 0 hrest
            (Or.inl (Nat.pos_of_ne_zero hleft))
      | sequence hget hother =>
          exact hmore (frameRead_of_get hget) (fun _ => hother) letterC xyzModemSequence hends
            (Or.inr (by decide))
      | failed hget hstat =>
          have hne := Int.ne_of_lt hstat
          obtain ⟨-, hrest⟩ := Bool.or_eq_false_iff.mp hends
          exact hmore (frameRead_of_get hget) (fun hzero => absurd hzero hne) letterC _ hrest
            (Or.inr hstat)
      | cancel hget =>
          have hneg : xyzModemCancel < 0 := by decide
          obtain ⟨hexp', htaken⟩ := (frameRead_of_get hget).skipped hexp fun hzero => by cases hzero
          exact ⟨hexp', .error hneg htaken⟩
      | eof hget =>
          have hneg : xyzModemEof < 0 := by decide
          obtain ⟨hexp', htaken⟩ := (frameRead_of_get hget).skipped hexp fun hzero => by cases hzero
          exact ⟨hexp', .error hneg htaken⟩

/-- A retry loop that ends on a repeated block succeeds with that block and has taken
none. -/
theorem retryLoop_repeat (n : Nat) (stat : Int) (x : Xyz) (hexp : Expecting x)
    (hends : endsOnRepeat n x = true) :
    (retryLoop n stat x).1 = 0 ∧ 0 < (retryLoop n stat x).2.len ∧
      (retryLoop n stat x).2.atEof = x.atEof ∧
      taken (retryLoop n stat x).2.frames = taken x.frames := by
  induction n generalizing stat x with
  | zero => cases hends
  | succ n ih =>
      rw [endsOnRepeat_succ] at hends
      rw [retryLoop_succ]
      have hcases := attempt_cases x
      generalize attempt x = a at *
      have hmore : ∀ {st : Int} {y : Xyz}, FrameRead x st y → (st = 0 → y.blk ≠ y.nextBlk) →
          ∀ (c : UInt8) (st' : Int), endsOnRepeat n (y.putc c) = true →
            (retryLoop n st' (y.putc c)).1 = 0 ∧ 0 < (retryLoop n st' (y.putc c)).2.len ∧
              (retryLoop n st' (y.putc c)).2.atEof = x.atEof ∧
              taken (retryLoop n st' (y.putc c)).2.frames = taken x.frames := by
        intro st y hread hother c st' hrest
        obtain ⟨hexp', htaken⟩ := hread.skipped hexp hother
        obtain ⟨hstat, hlen, heof, htaken'⟩ := ih st' (y.putc c) hexp' hrest
        exact ⟨hstat, hlen, heof.trans hread.same.atEof, htaken'.trans htaken⟩
      cases hcases with
      | block hget hnext => cases hends
      | @repeated y hget hother =>
          have hread := frameRead_of_get hget
          by_cases hlast : n = 0
          · -- the last attempt: the block stays in `pkt`
            obtain ⟨f, -, hhold⟩ := hread.valid rfl
            obtain ⟨-, htaken⟩ := hread.skipped hexp fun _ => hother
            subst hlast
            refine ⟨rfl, ?_, hread.same.atEof, htaken⟩
            show 0 < y.len
            rw [hhold.len, f.sized, payloadLen]
            split <;> decide
          · have hrest : endsOnRepeat n (y.putc ack) = true := by simpa [hlast] using hends
            exact hmore hread (fun _ => hother) ack 0 hrest
      | sequence hget hother =>
          exact hmore (frameRead_of_get hget) (fun _ => hother) letterC xyzModemSequence hends
      | @failed st y hget hstat =>
          have hne := Int.ne_of_lt hstat
          have hrest : endsOnRepeat n (y.putc letterC) = true := by simpa [hne] using hends
          exact hmore (frameRead_of_get hget) (fun hzero => absurd hzero hne) letterC st hrest
      | cancel hget => cases hends
      | eof hget => cases hends

/-- The bytes copied are the front of those pending; the others stay pending. -/
theorem pending_append (x : Xyz) {n : Int} (hn : 0 ≤ n) (hle : n ≤ x.len) :
    x.pending.take n.toNat ++
      Xyz.pending { x with len := x.len - n, bufp := x.bufp + n.toNat } = x.pending := by
  have hsplit : x.len.toNat = n.toNat + (x.len - n).toNat := by omega
  have hpending : x.pending = (List.range n.toNat).map (fun i => x.pkt (x.bufp + i)) ++
      Xyz.pending { x with len := x.len - n, bufp := x.bufp + n.toNat } := by
    simp only [Xyz.pending, hsplit, List.range_add, List.map_append, List.map_map]
    congr 1
    refine List.map_congr_left fun i _ => ?_
    simp only [Function.comp_apply, Nat.add_assoc]
  have htake : x.pending.take n.toNat =
      (List.range n.toNat).map (fun i => x.pkt (x.bufp + i)) := by
    rw [hpending]
    exact List.take_left' (by simp)
  rw [htake, ← hpending]

/-- What a pass did: `bytes` were copied, and with what is now pending they are what
was pending before and the payloads that came in. -/
inductive Received (x : Xyz) : Pass → Prop
  | error (err : Int) (y : Xyz) (hexp : Expecting y) (hpending : y.pending = x.pending)
      (htaken : payloads y.frames = payloads x.frames) : Received x (.error err y)
  | copied (bytes data : List UInt8) (y : Xyz) (hexp : Expecting y) (hlen : 0 ≤ y.len)
      (hbytes : bytes ++ y.pending = x.pending ++ data)
      (htaken : payloads y.frames = payloads x.frames ++ data) :
      Received x (.copied bytes y)

/-- What is copied out of `y` when it holds what was pending in `x` and `data`. -/
theorem copyOut_received {size : Int} {x y : Xyz} {p : Pass} (data : List UInt8)
    (h : copyOut size y = some p) (hsize : 0 < size) (heof : y.atEof = false)
    (hexp : Expecting y) (hlen : 0 ≤ y.len) (hpending : y.pending = x.pending ++ data)
    (htaken : payloads y.frames = payloads x.frames ++ data) : Received x p := by
  unfold copyOut at h
  rw [if_neg (by simp [heof]), if_neg (by omega)] at h
  have hcopied : ∀ n : Int, 0 ≤ n → n ≤ y.len → Received x
      (.copied (y.pending.take n.toNat) { y with len := y.len - n, bufp := y.bufp + n.toNat }) := by
    intro n hn hle
    refine .copied _ data _ hexp ?_ ((pending_append y hn hle).trans hpending) htaken
    show 0 ≤ y.len - n
    omega
  obtain rfl := Option.some.inj h
  by_cases hshort : size < y.len
  · simp only [if_pos hshort]
    exact hcopied size (by omega) (by omega)
  · simp only [if_neg hshort]
    exact hcopied y.len hlen (by omega)

/-- A pass that does not run out of its attempts on a repeated block copies the next
bytes in order. -/
theorem readPass_received {size : Int} {x : Xyz} {p : Pass} (h : readPass size x = some p)
    (hsize : 0 < size) (heof : x.atEof = false) (hexp : Expecting x) (hlen : 0 ≤ x.len)
    (hends : x.len = 0 → endsOnRepeat xyzModemMaxRetries x = false) : Received x p := by
  unfold readPass at h
  by_cases hzero : x.len = 0
  · have hempty : x.pending = [] := by simp [Xyz.pending, hzero]
    obtain ⟨hexpect, hretried⟩ := retryLoop_retried xyzModemMaxRetries xyzModemCancel x hexp
      (hends hzero) (Or.inl (by decide))
    simp only [if_pos hzero] at h
    generalize (retryLoop xyzModemMaxRetries xyzModemCancel x).1 = stat at *
    generalize (retryLoop xyzModemMaxRetries xyzModemCancel x).2 = y at *
    cases hretried with
    | error hstat htaken =>
        rw [if_pos hstat] at h
        obtain rfl := Option.some.inj h
        refine .error _ _ hexpect ?_ (congrArg (List.flatMap Frame.data) htaken)
        rw [hempty]
        rfl
    | block f hstat htaken hpending hlen' heof' =>
        rw [if_neg (by omega)] at h
        refine copyOut_received f.data h hsize (heof'.trans heof) hexpect hlen' ?_ ?_
        · rw [hempty, hpending, List.nil_append]
        · rw [payloads, htaken, List.flatMap_append, List.flatMap_singleton, payloads]
  · rw [if_neg hzero] at h
    exact copyOut_received [] h hsize heof hexp hlen (List.append_nil _).symm
      (List.append_nil _).symm

/-- The invariant: what was delivered, with what is pending, are the payloads of the
frames taken. -/
structure Receiving (t : Transfer) : Prop where
  expecting : Expecting t.x
  delivered : t.delivered ++ t.x.pending = payloads t.x.frames
  calling : t.size ≠ none → t.err = none
  len : t.err = none → 0 ≤ t.x.len

/-- A transfer just opened is receiving. -/
theorem opened_receiving {t : Transfer} (h : Opened t) : Receiving t := by
  obtain ⟨x, htty, hframes, rfl⟩ := h
  rw [xyzModemStreamOpen, if_neg (by simp [htty])]
  refine ⟨?_, ?_, fun _ => rfl, fun _ => Int.le_refl 0⟩
  · show (1 : UInt8) = expected Frame.blk (· + 1) 1 x.frames
    rw [hframes]
    rfl
  · show [] = payloads x.frames
    rw [hframes]
    rfl

/-- One step under the condition keeps the invariant. -/
theorem step_receiving {t u : Transfer} {a : Action} (h : Receiving t) (ha : GetsBlock t a)
    (hstep : step t a = some u) : Receiving u := by
  obtain ⟨hexp, hdel, hcalling, hlen⟩ := h
  cases a with
  | read size =>
      simp only [step] at hstep
      split at hstep
      · next hidle =>
          obtain rfl := Option.some.inj hstep
          exact ⟨hexp, hdel, fun _ => hidle.2, hlen⟩
      · cases hstep
  | pass =>
      simp only [step] at hstep
      split at hstep
      · cases hstep
      · next size hsize =>
          have herr : t.err = none := hcalling (by simp [hsize])
          by_cases hdone : t.x.atEof = true ∨ size ≤ 0
          · -- the call returns
            rw [if_pos hdone] at hstep
            obtain rfl := Option.some.inj hstep
            exact ⟨hexp, hdel, fun hne => absurd rfl hne, hlen⟩
          · rw [if_neg hdone] at hstep
            obtain ⟨heof, hpos⟩ := not_or.mp hdone
            have heof' : t.x.atEof = false := Bool.eq_false_iff.mpr heof
            have hends := ha size hsize (by omega) heof'
            cases hpass : readPass size t.x with
            | none =>
                rw [hpass] at hstep
                cases hstep
            | some p =>
                have hreceived := readPass_received hpass (by omega) heof' hexp (hlen herr) hends
                rw [hpass] at hstep
                cases hreceived with
                | error err y hexp' hpending htaken =>
                    obtain rfl := Option.some.inj hstep
                    refine ⟨hexp', ?_, fun hne => absurd rfl hne, fun hno => by cases hno⟩
                    show t.delivered ++ y.pending = payloads y.frames
                    rw [hpending, hdel, htaken]
                | copied bytes data y hexp' hlen' hbytes htaken =>
                    obtain rfl := Option.some.inj hstep
                    refine ⟨hexp', ?_, fun _ => herr, fun _ => hlen'⟩
                    show t.delivered ++ bytes ++ y.pending = payloads y.frames
                    rw [List.append_assoc, hbytes, ← List.append_assoc, hdel, htaken]

/-- The numbers the abstract receiver expects are 1, 2, 3, ... modulo 256. -/
theorem iterate_succ (i : Nat) : (fun b : UInt8 => b + 1)^[i] 1 = UInt8.ofNat (i + 1) := by
  induction i with
  | zero => rfl
  | succ i ih => rw [Function.iterate_succ_apply', ih, UInt8.ofNat_add (i + 1) 1]; rfl

/-- A transfer that is receiving has delivered in order. -/
theorem Receiving.inOrder {t : Transfer} (h : Receiving t) : InOrder t := by
  refine ⟨⟨_, h.delivered⟩, fun i f hf => ?_⟩
  rw [← iterate_succ]
  exact num_accepted _ _ hf

/-- A pass that runs out of its attempts on a repeated block delivers what was not
taken. -/
theorem step_repeat {t u : Transfer} {a : Action} (h : Receiving t) (ha : ¬ GetsBlock t a)
    (hstep : step t a = some u) : ¬ InOrder u := by
  cases a with
  | read size => exact absurd trivial ha
  | pass =>
      simp only [GetsBlock, not_forall] at ha
      obtain ⟨size, hsize, hpos, heof, hlen, hends⟩ := ha
      have hsize' : t.size = some size := hsize
      have hempty : t.x.pending = [] := by simp [Xyz.pending, hlen]
      have hdel : t.delivered = payloads t.x.frames := by
        rw [← h.delivered, hempty, List.append_nil]
      obtain ⟨hstat, hlen', heof', htaken⟩ := retryLoop_repeat xyzModemMaxRetries xyzModemCancel
        t.x h.expecting (Bool.not_eq_false _ ▸ hends)
      simp only [step, hsize', readPass, if_pos hlen] at hstep
      generalize (retryLoop xyzModemMaxRetries xyzModemCancel t.x).1 = stat at *
      generalize (retryLoop xyzModemMaxRetries xyzModemCancel t.x).2 = y at *
      rw [if_neg (by simp [heof, hpos]), if_neg (by omega), copyOut, if_neg (by simp [heof', heof]),
        if_neg (by omega)] at hstep
      obtain rfl := Option.some.inj hstep
      intro horder
      have hle := horder.delivered.length_le
      have hpay : payloads y.frames = payloads t.x.frames :=
        congrArg (List.flatMap Frame.data) htaken
      simp only [hpay, hdel, List.length_append, List.length_take, Xyz.pending, List.length_map,
        List.length_range] at hle
      split at hle <;> omega

/-- **Delivery in order.**  In every run none of whose passes runs out of its attempts
on a repeated block, what was delivered so far is a prefix of the payloads of the
frames taken, and these are numbered 1, 2, 3, ... modulo 256; a next step keeps this
only if it meets the condition too. -/
theorem inOrder_iff_getsBlock {t : Transfer} (h : Reach step Opened GetsBlock t) :
    InOrder t ∧ ∀ a u, step t a = some u → (InOrder u ↔ GetsBlock t a) := by
  have hinv : Receiving t :=
    Reach.invariant (fun _ => opened_receiving)
      (fun _ _ _ _ hrec ha hstep => step_receiving hrec ha hstep) h
  refine ⟨hinv.inOrder, fun a u hstep => ⟨fun horder => ?_, fun ha => ?_⟩⟩
  · by_contra hnot
    exact step_repeat hinv hnot hstep horder
  · exact (step_receiving hinv ha hstep).inOrder

/-- The receiver before it is opened. -/
def waiting (line : List Event) : Xyz where
  pkt := fun _ => 0
  bufp := 0
  blk := 0
  cblk := 0
  crc1 := 0
  crc2 := 0
  nextBlk := 0
  len := 0
  atEof := false
  txAck := false
  ttyInitialized := true
  line := line
  sent := []
  frames := []

/-- After `xyzModem_stream_open` on a line. -/
def openedOn (line : List Event) : Transfer :=
  ⟨(xyzModemStreamOpen (waiting line)).2.2, none, [], none⟩

/-- `openedOn` is just opened. -/
theorem opened_openedOn (line : List Event) : Opened (openedOn line) :=
  ⟨waiting line, rfl, rfl, rfl⟩

/-- A frame with a short packet. -/
def shortFrame (blk : UInt8) (payload : List UInt8) (crc1 crc2 : UInt8) : List Event :=
  ([soh, blk, 0xFF ^^^ blk] ++ payload ++ [crc1, crc2]).map .byte

/-- Block 1 with one byte of data. -/
def oneByte : List Event :=
  shortFrame 1 (0x61 :: List.replicate 127 ctrlZ) 0x92 0x0E

/-- A transfer of one byte, delivered in order. -/
theorem inOrder_iff_getsBlock_oneByte :
    ∃ t, Reach step Opened GetsBlock t ∧ t.delivered = [0x61] ∧ InOrder t := by
  have hrun : (exec step (fun t a => decide (GetsBlock t a)) (openedOn oneByte)
      [.read 1, .pass]).map Transfer.delivered = some [0x61] := by decide +kernel
  obtain ⟨t, ht, hdel⟩ := Option.map_eq_some_iff.mp hrun
  have hreach : Reach step Opened GetsBlock t :=
    Reach.of_exec (fun _ _ => of_decide_eq_true) (.start (opened_openedOn oneByte)) ht
  exact ⟨t, hreach, hdel, (inOrder_iff_getsBlock hreach).1⟩

/-- 199 timeouts, and then a frame with number 0. -/
def lateRepeat : List Event :=
  List.replicate 199 .silence ++ .gap :: shortFrame 0 (List.replicate 128 0x62) 0x79 0x67

/-- On the last attempt to get block 1 comes number 0, and its first byte is delivered. -/
theorem repeated_block_delivered :
    ∃ t, Reach step Opened anyStep t ∧ t.delivered = [0x62] ∧ ¬ InOrder t := by
  have hrun : (exec step (fun _ _ => true) (openedOn lateRepeat) [.read 1, .pass]).map
      (fun t => (t.delivered, payloads t.x.frames)) = some ([0x62], []) := by decide +kernel
  obtain ⟨t, ht, hpair⟩ := Option.map_eq_some_iff.mp hrun
  obtain ⟨hdel, hpay⟩ := Prod.mk.inj hpair
  refine ⟨t, Reach.of_exec (fun _ _ _ => trivial) (.start (opened_openedOn lateRepeat)) ht,
    hdel, fun h => ?_⟩
  have hprefix := h.delivered
  rw [hdel, hpay] at hprefix
  exact absurd hprefix.length_le (by decide)

end Xyzmodem

import Alp.XyzmodemBuffer
import Alp.XyzmodemFrame

/-!
# A silent line ends a read

The line is a list of what happens on it, and is silent after that.  A call of
`xyzModem_stream_read` that begins with `len` not negative returns, and it waits at most
once for each thing on the line and 200 times more (`streamRead_returns`).

Each wait but a timeout at the end of the line takes something off the line, and a
frame reader that has met the end of the line fails (`Spent`).  So the attempts of the
last retry loop are the only ones to meet the end; every other pass takes something off
the line, or copies a byte.
-/

set_option autoImplicit false

namespace Xyzmodem

open CString

/-- The waits of `findHdr`. -/
def findHdrWaits : Nat → Nat → List Event → Nat
  | _, _, [] => 1
  | canTotal, hdrChars, .gap :: rest => findHdrWaits canTotal hdrChars rest
  | _, _, .silence :: _ => 1
  | canTotal, hdrChars, .byte c :: rest =>
    if c = soh ∨ c = stx then 1
    else if c = can then
      if canTotal + 1 = xyzModemCanCount then 1
      else 1 + findHdrWaits (canTotal + 1) (hdrChars + 1) rest
    else if c = eot ∧ hdrChars + 1 = 1 then 1
    else 1 + findHdrWaits canTotal (hdrChars + 1) rest

/-- The waits of `readPkt`. -/
def readPktWaits : Nat → Nat → Xyz → Nat
  | _, 0, _ => 0
  | i, left + 1, x =>
    match x.getc with
    | (some c, x) => 1 + readPktWaits (i + 1) left { x with pkt := x.pkt.set i c }
    | (none, _) => 1

/-- The waits of `readFrame`. -/
def readFrameWaits (c : UInt8) (x : Xyz) : Nat :=
  match x.getc with
  | (none, _) => 1
  | (some blk, x) =>
    match Xyz.getc { x with blk := blk } with
    | (none, _) => 2
    | (some cblk, x) =>
      let x : Xyz := { x with cblk := cblk, len := payloadLen c, bufp := 0 }
      2 + readPktWaits 0 (payloadLen c) x +
        match readPkt 0 (payloadLen c) x with
        | (false, _) => 0
        | (true, x) =>
          match x.getc with
          | (none, _) => 1
          | (some _, _) => 2

/-- The waits of `xyzModem_get_hdr`. -/
def getHdrWaits (x : Xyz) : Nat :=
  findHdrWaits 0 0 x.line +
    match findHdr 0 0 x.line with
    | (.found c, rest) => readFrameWaits c { x.sendAck with line := rest }
    | _ => 0

/-- The waits of the retry loop with `n` retries left. -/
def retryWaits : Nat → Xyz → Nat
  | 0, _ => 0
  | n + 1, x =>
    let (stat, y) := xyzModemGetHdr x
    getHdrWaits x +
      if stat = 0 then
        if y.blk = y.nextBlk then 0
        else if y.blk = y.nextBlk - 1 then retryWaits n (y.putc ack)
        else retryWaits n (y.putc letterC)
      else if stat = xyzModemCancel then 0
      else if stat = xyzModemEof then 0
      else retryWaits n (y.putc letterC)

/-- The waits of `nextBlock`. -/
def nextBlockWaits (x : Xyz) : Nat :=
  if x.len = 0 then retryWaits xyzModemMaxRetries x else 0

/-- The waits of the next pass. -/
def Session.passWaits (s : Session) : Nat :=
  match s.call with
  | none => 0
  | some c =>
    if s.x.atEof ∨ c.size ≤ 0 then 0 else nextBlockWaits s.x

/-- The passes of a call until it returns, at most `fuel`: the waits and the session
then. -/
def readLoop : Nat → Session → Option (Nat × Session)
  | 0, _ => none
  | fuel + 1, s =>
    match s.step .pass with
    | none => none
    | some t =>
      if t.call = none then some (s.passWaits, t)
      else (readLoop fuel t).map fun r => (s.passWaits + r.1, r.2)

/-- `xyzModem_stream_read`: a call, and its passes. -/
def xyzModemStreamRead (fuel : Nat) (size : Int) (x : Xyz) : Option (Nat × Session) :=
  (Session.step ⟨x, none, [], [], false⟩ (.read size)).bind (readLoop fuel)

/-- `waits` waits take `line` to `rest`, and at most `late` of them met its end. -/
def Spent (late : Nat) (line : List Event) (waits : Nat) (rest : List Event) : Prop :=
  waits + rest.length ≤ line.length ∨ rest = [] ∧ waits ≤ line.length + late

/-- No wait leaves the line as it is. -/
theorem Spent.none (line : List Event) (late : Nat) : Spent late line 0 line :=
  Or.inl (Nat.le_of_eq (Nat.zero_add _))

/-- Allowing more late waits keeps the count. -/
theorem Spent.mono {line rest : List Event} {waits j k : Nat} (h : Spent j line waits rest)
    (hle : j ≤ k) : Spent k line waits rest := by
  rcases h with h | ⟨hrest, h⟩
  · exact Or.inl h
  · exact Or.inr ⟨hrest, by omega⟩

/-- Without a late wait every wait took an event. -/
theorem Spent.le {line rest : List Event} {waits : Nat} (h : Spent 0 line waits rest) :
    waits + rest.length ≤ line.length := by
  rcases h with h | ⟨rfl, h⟩
  · exact h
  · exact h

/-- What is left on the line was there in time. -/
theorem Spent.of_ne {line rest : List Event} {waits late : Nat} (h : Spent late line waits rest)
    (hrest : rest ≠ []) : Spent 0 line waits rest :=
  Or.inl (h.resolve_right fun hlate => hrest hlate.1)

/-- The counts of two stretches add up. -/
theorem Spent.trans {line mid rest : List Event} {n m j k : Nat} (h : Spent j line n mid)
    (h' : Spent k mid m rest) : Spent (j + k) line (n + m) rest := by
  rcases h with h | ⟨rfl, h⟩
  · rcases h' with h' | ⟨hrest, h'⟩
    · exact Or.inl (by omega)
    · exact Or.inr ⟨hrest, by omega⟩
  · unfold Spent at h'
    rw [List.length_nil] at h'
    rcases h' with h' | ⟨hrest, h'⟩
    · have hrest : rest = [] := List.eq_nil_of_length_eq_zero (by omega)
      exact Or.inr ⟨hrest, by omega⟩
    · exact Or.inr ⟨hrest, by omega⟩

/-- Behind a stretch without a late wait the late ones are those of the next. -/
theorem Spent.next {line mid rest : List Event} {n m k : Nat} (h : Spent 0 line n mid)
    (h' : Spent k mid m rest) : Spent k line (n + m) rest :=
  (h.trans h').mono (by omega)

/-- A gap passed over costs no wait. -/
theorem Spent.gap {line rest : List Event} {waits late : Nat} (h : Spent late line waits rest)
    (e : Event) : Spent late (e :: line) waits rest := by
  rcases h with h | ⟨hrest, h⟩
  · exact Or.inl (by simp only [List.length_cons]; omega)
  · exact Or.inr ⟨hrest, by simp only [List.length_cons]; omega⟩

/-- An event taken costs one wait. -/
theorem Spent.one {line rest : List Event} {waits late : Nat} (h : Spent late line waits rest)
    (e : Event) : Spent late (e :: line) (1 + waits) rest := by
  rcases h with h | ⟨hrest, h⟩
  · exact Or.inl (by simp only [List.length_cons]; omega)
  · exact Or.inr ⟨hrest, by simp only [List.length_cons]; omega⟩

/-- Flushing never lengthens the line. -/
theorem flush_length (line : List Event) : (flush line).length ≤ line.length := by
  fun_induction flush line with
  | case1 b rest ih => exact Nat.le_succ_of_le ih
  | case2 line => exact Nat.le_refl _

/-- Flushing waits for nothing. -/
theorem Spent.flush (line : List Event) : Spent 0 line 0 (flush line) :=
  Or.inl (by rw [Nat.zero_add]; exact flush_length line)

/-- A wait for a byte takes an event, or is late when there is none. -/
theorem getcTimeout_spent (line : List Event) :
    Spent (if (getcTimeout line).1.isSome then 0 else 1) line 1 (getcTimeout line).2 := by
  fun_induction getcTimeout line with
  | case1 => exact Or.inr ⟨rfl, Nat.le_refl 1⟩
  | case2 b rest => exact (Spent.none rest 0).one (.byte b)
  | case3 rest ih => exact ih.gap .gap
  | case4 rest => exact (Spent.none rest 1).one .silence

/-- A byte that came took its place on the line. -/
theorem getc_spent {x y : Xyz} {b : UInt8} (h : x.getc = (some b, y)) :
    Spent 0 x.line 1 y.line := by
  obtain ⟨hbyte, hline⟩ := Prod.mk.inj h
  have hspent := getcTimeout_spent x.line
  rw [hbyte] at hspent
  rw [← hline]
  exact hspent

/-- A timeout may be at the end of the line. -/
theorem getc_timeout_spent {x y : Xyz} (h : x.getc = (none, y)) : Spent 1 x.line 1 y.line := by
  obtain ⟨hbyte, hline⟩ := Prod.mk.inj h
  have hspent := getcTimeout_spent x.line
  rw [hbyte] at hspent
  rw [← hline]
  exact hspent

/-- Only a search that finds no header may meet the end of the line. -/
def Search.late : Search → Nat
  | .found _ => 0
  | _ => 1

/-- Looking for a header waits once for each event, and once more if it runs out of the line. -/
theorem findHdr_spent (canTotal hdrChars : Nat) (line : List Event) :
    Spent (findHdr canTotal hdrChars line).1.late line (findHdrWaits canTotal hdrChars line)
      (findHdr canTotal hdrChars line).2 := by
  fun_induction findHdr canTotal hdrChars line with
  | case1 => exact Or.inr ⟨rfl, Nat.le_refl 1⟩
  | case2 canTotal hdrChars rest ih => exact ih.gap .gap
  | case3 canTotal hdrChars rest => exact ((Spent.flush rest).one .silence).mono (Nat.zero_le 1)
  | case4 canTotal hdrChars c rest hheader =>
      rw [findHdrWaits, if_pos hheader]
      exact (Spent.none rest 0).one (.byte c)
  | case5 canTotal hdrChars rest hcount hheader =>
      rw [findHdrWaits, if_neg hheader, if_pos rfl, if_pos hcount]
      exact (Spent.none rest 1).one (.byte can)
  | case6 canTotal hdrChars rest hcount hheader ih =>
      rw [findHdrWaits, if_neg hheader, if_pos rfl, if_neg hcount]
      exact ih.one (.byte can)
  | case7 canTotal hdrChars c rest hheader hcan heot =>
      rw [findHdrWaits, if_neg hheader, if_neg hcan, if_pos heot]
      exact (Spent.none rest 1).one (.byte c)
  | case8 canTotal hdrChars c rest hheader hcan heot ih =>
      rw [findHdrWaits, if_neg hheader, if_neg hcan, if_neg heot]
      exact ih.one (.byte c)

/-- Looking for a header waits at least once. -/
theorem findHdrWaits_pos (canTotal hdrChars : Nat) (line : List Event) :
    0 < findHdrWaits canTotal hdrChars line := by
  fun_induction findHdrWaits canTotal hdrChars line <;> omega

/-- Reading a packet waits once for each event, and once more if it runs out of the line. -/
theorem readPkt_spent (i left : Nat) (x : Xyz) :
    Spent (if (readPkt i left x).1 then 0 else 1) x.line (readPktWaits i left x)
      (readPkt i left x).2.line := by
  induction left generalizing i x with
  | zero => exact Spent.none x.line 0
  | succ left ih =>
      rcases hget : x.getc with ⟨_ | c, y⟩
      · simp only [readPkt, readPktWaits, hget]
        exact getc_timeout_spent hget
      · simp only [readPkt, readPktWaits, hget]
        exact (getc_spent hget).next (ih (i + 1) { y with pkt := y.pkt.set i c })

/-- Only an attempt that fails may meet the end of the line. -/
def late (stat : Int) : Nat :=
  if stat = 0 then 0 else 1

/-- An attempt meets the end of the line at most once. -/
theorem late_le (stat : Int) : late stat ≤ 1 := by
  unfold late
  split <;> omega

/-- Checking a frame waits for nothing. -/
theorem checkFrame_spent (c : UInt8) (x : Xyz) : Spent 0 x.line 0 (checkFrame c x).2.line := by
  unfold checkFrame
  split
  · split <;> exact Spent.none x.line 0
  · exact Spent.flush x.line

/-- Reading a frame is late at most when it fails. -/
theorem readFrame_spent (c : UInt8) (x : Xyz) :
    Spent (late (readFrame c x).1) x.line (readFrameWaits c x) (readFrame c x).2.line := by
  rcases h1 : x.getc with ⟨_ | blk, x1⟩
  · simp only [readFrame, readFrameWaits, h1]
    exact getc_timeout_spent h1
  have hs1 := getc_spent h1
  rcases h2 : Xyz.getc { x1 with blk := blk } with ⟨_ | cblk, x2⟩
  · have ht2 := getc_timeout_spent h2
    simp only [readFrame, readFrameWaits, h1, h2]
    exact hs1.next ht2
  have hb2 := getc_spent h2
  have hs2 : Spent 0 x.line 2 x2.line := hs1.next hb2
  have hpkt := readPkt_spent 0 (payloadLen c)
    { x2 with cblk := cblk, len := payloadLen c, bufp := 0 }
  rcases h3 : readPkt 0 (payloadLen c) { x2 with cblk := cblk, len := payloadLen c, bufp := 0 } with
    ⟨_ | _, x3⟩
  · simp only [readFrame, readFrameWaits, h1, h2, h3]
    rw [h3] at hpkt
    exact hs2.next hpkt
  rw [h3] at hpkt
  have hs3 := hs2.next hpkt
  rcases h4 : x3.getc with ⟨_ | crc1, x4⟩
  · have ht4 := getc_timeout_spent h4
    simp only [readFrame, readFrameWaits, h1, h2, h3, h4]
    exact hs3.next ht4
  have hs4 := hs3.next (getc_spent h4)
  rcases h5 : Xyz.getc { x4 with crc1 := crc1 } with ⟨_ | crc2, x5⟩
  · have ht5 := getc_timeout_spent h5
    simp only [readFrame, readFrameWaits, h1, h2, h3, h4, h5]
    exact hs4.next ht5
  have hb5 := getc_spent h5
  have hs5 := (hs4.next hb5).trans (checkFrame_spent c { x5 with crc2 := crc2 })
  simp only [readFrame, readFrameWaits, h1, h2, h3, h4, h5]
  exact hs5.mono (Nat.zero_le _)

/-- Fetching a packet is late at most when it fails. -/
theorem xyzModemGetHdr_spent (x : Xyz) :
    Spent (late (xyzModemGetHdr x).1) x.line (getHdrWaits x) (xyzModemGetHdr x).2.line := by
  have hfind := findHdr_spent 0 0 x.line
  simp only [xyzModemGetHdr, sendAck_line, getHdrWaits]
  split
  · next c rest hfound =>
      rw [hfound] at hfind
      rw [hfound]
      exact Spent.next hfind (readFrame_spent c { x.sendAck with line := rest })
  · next rest hfound =>
      rw [hfound] at hfind ⊢
      exact hfind
  · next rest hfound =>
      rw [hfound] at hfind ⊢
      exact hfind
  · next rest hfound =>
      rw [hfound] at hfind ⊢
      exact hfind

/-- A silent line is a timeout. -/
theorem xyzModemGetHdr_silent {x : Xyz} (h : x.line = []) :
    (xyzModemGetHdr x).1 = xyzModemTimeout ∧ (xyzModemGetHdr x).2.line = [] := by
  simp [xyzModemGetHdr, sendAck_line, h, findHdr]

/-- On a silent line no attempt brings a block. -/
theorem retryLoop_silent (n : Nat) {stat : Int} {x : Xyz} (hstat : stat < 0) (h : x.line = []) :
    (retryLoop n stat x).1 < 0 := by
  induction n generalizing stat x with
  | zero => exact hstat
  | succ n ih =>
      obtain ⟨htimeout, hline⟩ := xyzModemGetHdr_silent h
      have hneg : xyzModemTimeout < 0 := by decide
      simp only [retryLoop, htimeout]
      exact ih hneg hline

/-- The waits of the loop after an attempt. -/
def Attempt.waits (n : Nat) : Attempt → Nat
  | .again _ y => retryWaits n y
  | _ => 0

/-- The waits of the retries are those of one attempt and of the others. -/
theorem retryWaits_succ (n : Nat) (x : Xyz) :
    retryWaits (n + 1) x = getHdrWaits x + (attempt x).waits n := by
  simp only [retryWaits, attempt, apply_ite (Attempt.waits n)]
  rfl

/-- `xyzModemGetHdr_spent` with its results named. -/
theorem getHdr_spent {x y : Xyz} {stat : Int} (hget : xyzModemGetHdr x = (stat, y)) :
    Spent (late stat) x.line (getHdrWaits x) y.line := by
  have hspent := xyzModemGetHdr_spent x
  rwa [hget] at hspent

/-- The attempts of a retry loop; one that succeeds has not met the end of the line. -/
theorem retryLoop_spent (n : Nat) (stat : Int) (x : Xyz) :
    Spent n x.line (retryWaits n x) (retryLoop n stat x).2.line ∧
      (0 ≤ (retryLoop n stat x).1 →
        Spent 0 x.line (retryWaits n x) (retryLoop n stat x).2.line) := by
  induction n generalizing stat x with
  | zero => exact ⟨Spent.none x.line 0, fun _ => Spent.none x.line 0⟩
  | succ n ih =>
      rw [retryLoop_succ, retryWaits_succ]
      have hcases := attempt_cases x
      generalize attempt x = a at *
      -- after a frame, which came in time
      have hframe : ∀ {y : Xyz} (c : UInt8) (st : Int), Spent 0 x.line (getHdrWaits x) y.line →
          Spent (n + 1) x.line (getHdrWaits x + retryWaits n (y.putc c))
              (retryLoop n st (y.putc c)).2.line ∧
            (0 ≤ (retryLoop n st (y.putc c)).1 →
              Spent 0 x.line (getHdrWaits x + retryWaits n (y.putc c))
                (retryLoop n st (y.putc c)).2.line) := by
        intro y c st hspent
        obtain ⟨hall, htime⟩ := ih st (y.putc c)
        exact ⟨(hspent.next hall).mono (Nat.le_succ n), fun hok => hspent.next (htime hok)⟩
      -- the loop ends without a block
      have hstop : ∀ {line : List Event} {st : Int}, st < 0 →
          Spent (late st) x.line (getHdrWaits x) line →
          Spent (n + 1) x.line (getHdrWaits x + 0) line ∧
            (0 ≤ st → Spent 0 x.line (getHdrWaits x + 0) line) := by
        intro line st hneg hspent
        exact ⟨hspent.mono (Nat.le_trans (late_le st) (Nat.succ_pos n)), fun hok => by omega⟩
      cases hcases with
      | block hget hnext =>
          have hspent := getHdr_spent hget
          exact ⟨hspent.mono (Nat.zero_le _), fun _ => hspent⟩
      | repeated hget hother => exact hframe ack 0 (getHdr_spent hget)
      | sequence hget hother => exact hframe letterC xyzModemSequence (getHdr_spent hget)
      | @failed st y hget hneg =>
          have hspent := getHdr_spent hget
          obtain ⟨hall, htime⟩ := ih st (y.putc letterC)
          have hlate := late_le st
          refine ⟨(hspent.trans hall).mono (by omega), fun hok => ?_⟩
          have hmid : y.line ≠ [] := by
            intro hsilent
            have hfail := retryLoop_silent n (x := y.putc letterC) hneg hsilent
            exact absurd hok (Int.not_le.mpr hfail)
          exact (hspent.of_ne hmid).next (htime hok)
      | cancel hget =>
          have hneg : xyzModemCancel < 0 := by decide
          have hspent := getHdr_spent hget
          exact hstop hneg hspent
      | eof hget =>
          have hneg : xyzModemEof < 0 := by decide
          have hspent := getHdr_spent hget
          exact hstop hneg hspent

/-- Fetching a packet waits at least once. -/
theorem getHdrWaits_pos (x : Xyz) : 0 < getHdrWaits x :=
  Nat.lt_of_lt_of_le (findHdrWaits_pos 0 0 x.line) (Nat.le_add_right _ _)

/-- A retry waits at least once. -/
theorem retryWaits_pos (n : Nat) (x : Xyz) : 0 < retryWaits (n + 1) x :=
  Nat.lt_of_lt_of_le (getHdrWaits_pos x) (Nat.le_add_right _ _)

/-- The waits are no more than the events and the late ones. -/
theorem Spent.waits_le {line rest : List Event} {waits late : Nat}
    (h : Spent late line waits rest) : waits ≤ line.length + late := by
  rcases h with h | ⟨-, h⟩ <;> omega

/-- Getting a block takes something off the line, where no byte is left. -/
theorem nextBlock_progress {x : Xyz} (hlen : 0 ≤ x.len) :
    nextBlockWaits x ≤ x.line.length + xyzModemMaxRetries ∧
      (0 ≤ x.nextBlock.1 →
        0 ≤ x.nextBlock.2.len ∧
          nextBlockWaits x + x.nextBlock.2.line.length ≤ x.line.length ∧
          (x.nextBlock.2 = x ∧ 0 < x.len ∨ x.nextBlock.2.line.length < x.line.length)) := by
  unfold nextBlockWaits Xyz.nextBlock
  by_cases hzero : x.len = 0
  · rw [if_pos hzero, if_pos hzero]
    obtain ⟨hall, htime⟩ := retryLoop_spent xyzModemMaxRetries xyzModemCancel x
    refine ⟨hall.waits_le, fun hok => ?_⟩
    have hheld := retryLoop_held xyzModemMaxRetries xyzModemCancel x (Or.inl (by decide))
    have hspent := (htime hok).le
    have hpos : 0 < retryWaits xyzModemMaxRetries x := retryWaits_pos 199 x
    exact ⟨(hheld.resolve_left (by omega)).len, hspent, Or.inr (by omega)⟩
  · rw [if_neg hzero, if_neg hzero]
    refine ⟨Nat.zero_le _, fun _ => ⟨hlen, ?_, Or.inl ⟨rfl, by omega⟩⟩⟩
    rw [Nat.zero_add]

/-- A pass of a call: it returns, after the waits that end the line at most, or goes on
with less on the line or less to get. -/
theorem pass_progress {s : Session} {c : Call} (hcall : s.call = some c)
    (hdefined : s.undefined = false) (hlen : 0 ≤ s.x.len) :
    ∃ t, s.step .pass = some t ∧ t.undefined = false ∧
      ((t.call = none ∧ s.passWaits ≤ s.x.line.length + xyzModemMaxRetries) ∨
        ∃ c', t.call = some c' ∧ 0 ≤ t.x.len ∧
          s.passWaits + t.x.line.length ≤ s.x.line.length ∧
          c'.size.toNat + t.x.line.length < c.size.toNat + s.x.line.length) := by
  simp only [Session.step, Session.passWaits, hcall]
  rw [if_neg (by simp [hdefined])]
  by_cases hdone : s.x.atEof = true ∨ c.size ≤ 0
  · rw [if_pos hdone, if_pos hdone]
    exact ⟨_, rfl, hdefined, Or.inl ⟨rfl, Nat.zero_le _⟩⟩
  rw [if_neg hdone, if_neg hdone]
  obtain ⟨heof, hpos⟩ := not_or.mp hdone
  obtain ⟨hwaits, hblock⟩ := nextBlock_progress hlen
  generalize s.x.nextBlock.1 = stat at *
  generalize s.x.nextBlock.2 = y at *
  by_cases hstat : stat < 0
  · rw [if_pos hstat]
    exact ⟨_, rfl, hdefined, Or.inl ⟨rfl, hwaits⟩⟩
  rw [if_neg hstat]
  obtain ⟨hylen, hspent, hless⟩ := hblock (by omega)
  by_cases hyeof : y.atEof = true
  · -- the end of the file came with a block
    rw [if_pos hyeof]
    have hshort := hless.resolve_left fun hsame => heof (by rw [← hsame.1]; exact hyeof)
    exact ⟨_, rfl, hdefined, Or.inr ⟨c, rfl, hylen, hspent, by simp only; omega⟩⟩
  rw [if_neg hyeof]
  have hn : 0 ≤ copyLen c.size y ∧ copyLen c.size y ≤ y.len ∧
      (0 < y.len → 0 < copyLen c.size y) := by
    unfold copyLen
    split <;> omega
  rw [Session.copy, if_neg (by omega)]
  refine ⟨_, rfl, hdefined, Or.inr ⟨_, rfl, ?_, hspent, ?_⟩⟩
  · simp only
    omega
  · simp only
    rcases hless with ⟨rfl, hlen'⟩ | hshort
    · have hcopied := hn.2.2 hlen'
      omega
    · omega

/-- The passes of a call. -/
theorem readLoop_returns {fuel : Nat} {s : Session} {c : Call} (hcall : s.call = some c)
    (hdefined : s.undefined = false) (hlen : 0 ≤ s.x.len)
    (hfuel : c.size.toNat + s.x.line.length < fuel) :
    ∃ waits t, readLoop fuel s = some (waits, t) ∧ t.call = none ∧ t.undefined = false ∧
      waits ≤ s.x.line.length + xyzModemMaxRetries := by
  induction fuel generalizing s c with
  | zero => omega
  | succ fuel ih =>
      obtain ⟨t, hstep, hdefined', hpass⟩ := pass_progress hcall hdefined hlen
      rcases hpass with ⟨hnone, hwaits⟩ | ⟨c', hcall', hlen', hspent, hless⟩
      · refine ⟨s.passWaits, t, ?_, hnone, hdefined', hwaits⟩
        rw [readLoop, hstep]
        exact if_pos hnone
      · obtain ⟨waits, u, hloop, hnone, hdefined'', hwaits⟩ := ih hcall' hdefined' hlen' (by omega)
        refine ⟨s.passWaits + waits, u, ?_, hnone, hdefined'', by omega⟩
        rw [readLoop, hstep]
        simp only [hcall', reduceCtorEq, if_false, hloop, Option.map_some]

/-- **Silence.**  On every line, a call that begins with `len` not negative returns,
after one wait for each thing on the line and 200 more at most. -/
theorem streamRead_returns (x : Xyz) (size : Int) (hlen : 0 ≤ x.len) {fuel : Nat}
    (hfuel : size.toNat + x.line.length < fuel) :
    ∃ waits s, xyzModemStreamRead fuel size x = some (waits, s) ∧ s.call = none ∧
      s.undefined = false ∧ waits ≤ x.line.length + xyzModemMaxRetries := by
  have hbegin : Session.step ⟨x, none, [], [], false⟩ (.read size) =
      some ⟨x, some ⟨size, size, 0⟩, [], [], false⟩ := by simp [Session.step]
  rw [xyzModemStreamRead, hbegin]
  exact readLoop_returns (c := ⟨size, size, 0⟩) rfl rfl hlen hfuel

/-- A line with one byte on it, and a read of two. -/
theorem streamRead_returns_oneByte :
    ∃ waits s, xyzModemStreamRead 136 2 (sessionOn oneByte).x = some (waits, s) ∧
      s.call = none ∧ s.undefined = false ∧
      waits ≤ (sessionOn oneByte).x.line.length + xyzModemMaxRetries :=
  streamRead_returns (sessionOn oneByte).x 2 (by decide) (by decide +kernel)

end Xyzmodem

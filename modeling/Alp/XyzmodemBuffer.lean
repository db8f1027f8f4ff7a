import Alp.XyzmodemDelivery

/-!
# The receive buffer

Every `memcpy` of `xyzModem_stream_read` is meant to stay within what its caller still
wants and within the packet that `bufp` points into.  Here the calls go on after one of
them has reported an error, and each `memcpy` and each value returned is recorded.

After an error `len` is -1, which is the mark of an error and the number of bytes left
at once.  `Bounded` holds as long as no call asks for bytes then, and a call that does
copies -1 bytes (`bounded_iff_readsOn`).
-/

set_option autoImplicit false

namespace Xyzmodem

open CString Transition

/-- A `memcpy` of `xyzModem_stream_read`: its length, the bytes the caller still wants,
and the bytes from `bufp` to the end of the packet. -/
structure Memcpy where
  len : Int
  size : Int
  left : Int

/-- A call under way: the size it was called with, what is left of it, and `total`. -/
structure Call where
  asked : Int
  size : Int
  total : Int
  deriving DecidableEq

/-- A call that has returned, and the error it reported. -/
structure Return where
  asked : Int
  total : Int
  err : Option Int

/-- The receiver, the call under way, and what the calls did so far.  After a `memcpy`
of negative length nothing more is known. -/
structure Session where
  x : Xyz
  call : Option Call
  memcpys : List Memcpy
  returns : List Return
  undefined : Bool

/-- The end of the current packet in `pkt`, that is of the last valid frame. -/
def Xyz.packetEnd (x : Xyz) : Nat :=
  (x.frames.getLast?.map fun f => f.payload.length).getD 0

/-- The first half of the outer loop: get a block if no byte is left. -/
def Xyz.nextBlock (x : Xyz) : Int × Xyz :=
  if x.len = 0 then retryLoop xyzModemMaxRetries xyzModemCancel x else (0, x)

/-- The call returns. -/
def Session.finish (s : Session) (c : Call) (err : Option Int) : Session :=
  { s with call := none, returns := s.returns ++ [⟨c.asked, c.total, err⟩] }

/-- `len`, or `size` if that is less. -/
def copyLen (size : Int) (x : Xyz) : Int :=
  if size < x.len then size else x.len

/-- The second half of the outer loop: the `memcpy` and what follows it. -/
def Session.copy (s : Session) (c : Call) (x : Xyz) : Session :=
  let n := copyLen c.size x
  let memcpy : Memcpy := ⟨n, c.size, x.packetEnd - x.bufp⟩
  if n < 0 then { s with x := x, memcpys := s.memcpys ++ [memcpy], undefined := true }
  else { s with
    x := { x with len := x.len - n, bufp := x.bufp + n.toNat },
    call := some ⟨c.asked, c.size - n, c.total + n⟩, memcpys := s.memcpys ++ [memcpy] }

/-- One step: a call begins, or the call under way makes a pass of its outer loop. -/
def Session.step (s : Session) : Action → Option Session
  | .read size =>
    if s.call = none ∧ s.undefined = false then some { s with call := some ⟨size, size, 0⟩ }
    else none
  | .pass =>
    match s.call with
    | none => none
    | some c =>
      if s.undefined then none
      else if s.x.atEof ∨ c.size ≤ 0 then some (s.finish c none)
      else
        let (stat, x) := s.x.nextBlock
        if stat < 0 then some ({ s with x := { x with len := -1 } }.finish c (some stat))
        else if x.atEof then some { s with x := x }
        else some (s.copy c x)

/-- After `xyzModem_stream_open`, on any line. -/
def Session.Opened (s : Session) : Prop :=
  ∃ x : Xyz, x.ttyInitialized = true ∧ s = ⟨(xyzModemStreamOpen x).2.2, none, [], [], false⟩

/-- A `memcpy` within the request and within the packet. -/
def Memcpy.Within (m : Memcpy) : Prop :=
  0 ≤ m.len ∧ m.len ≤ m.size ∧ m.len ≤ m.left

/-- Every `memcpy` and every value returned is within bounds. -/
structure Bounded (s : Session) : Prop where
  memcpys : ∀ m ∈ s.memcpys, m.Within
  returns : ∀ r ∈ s.returns, 0 ≤ r.total ∧ r.total ≤ r.asked

/-- The condition on a step: a call asks for no negative size, and for bytes only if
`len` does not mark an error or the end of the file has come. -/
def ReadsOn (s : Session) : Action → Prop
  | .read size => 0 ≤ size ∧ (0 < size → s.x.atEof = false → 0 ≤ s.x.len)
  | .pass => True

instance (s : Session) : (a : Action) → Decidable (ReadsOn s a)
  | .read size =>
    inferInstanceAs (Decidable (0 ≤ size ∧ (0 < size → s.x.atEof = false → 0 ≤ s.x.len)))
  | .pass => inferInstanceAs (Decidable True)

/-- A pass fetches a block where it needs one, and copies. -/
theorem readPass_nextBlock (size : Int) (x : Xyz) :
    readPass size x =
      if x.nextBlock.1 < 0 then some (.error x.nextBlock.1 { x.nextBlock.2 with len := -1 })
      else copyOut size x.nextBlock.2 := by
  unfold readPass Xyz.nextBlock
  by_cases hzero : x.len = 0
  · rw [if_pos hzero, if_pos hzero]
  · rw [if_neg hzero, if_neg hzero]
    rfl

/-- A pass copies a negative length exactly when `len` is negative. -/
theorem copyLen_neg {size : Int} {x : Xyz} (hsize : 0 < size) : copyLen size x < 0 ↔ x.len < 0 := by
  unfold copyLen
  split <;> omega

/-- A length in bounds is the number of bytes taken. -/
theorem length_take_copyLen {size : Int} {x : Xyz} (hsize : 0 < size) (hlen : 0 ≤ x.len) :
    ((x.pending.take (copyLen size x).toNat).length : Int) = copyLen size x := by
  rw [List.length_take, Xyz.pending, List.length_map, List.length_range, copyLen]
  split <;> omega

/-- The `memcpy` of a pass, and what it copies. -/
theorem copyOut_copy {s : Session} {c : Call} {y : Xyz} (hsize : 0 < c.size)
    (heof : ¬ y.atEof = true) (hdefined : (s.copy c y).undefined = false) :
    ∃ bytes, copyOut c.size y = some (.copied bytes (s.copy c y).x) ∧
      (s.copy c y).call.map Call.size = some (c.size - bytes.length) := by
  have hlen : ¬ y.len < 0 := by
    intro hneg
    rw [Session.copy, if_pos ((copyLen_neg hsize).mpr hneg)] at hdefined
    cases hdefined
  have hcopy : ¬ copyLen c.size y < 0 := fun hneg => hlen ((copyLen_neg hsize).mp hneg)
  have htake := length_take_copyLen hsize (Int.not_lt.mp hlen)
  rw [copyOut, if_neg heof, if_neg hlen, Session.copy, if_neg hcopy]
  refine ⟨y.pending.take (copyLen c.size y).toNat, rfl, ?_⟩
  rw [htake]
  rfl

/-- The part of a session that a transfer has. -/
def Session.transfer (s : Session) (delivered : List UInt8) (err : Option Int) : Transfer :=
  ⟨s.x, s.call.map Call.size, delivered, err⟩

/-- A pass after which something is known is a pass of the transfer. -/
theorem step_transfer {s u : Session} (delivered : List UInt8) (err : Option Int)
    (hstep : s.step .pass = some u) (hu : u.undefined = false) :
    ∃ delivered' err',
      step (s.transfer delivered err) .pass = some (u.transfer delivered' err') := by
  simp only [Session.step] at hstep
  split at hstep
  · cases hstep
  next c hcall =>
  split at hstep
  · cases hstep
  have hsize : (s.transfer delivered err).size = some c.size := by
    simp [Session.transfer, hcall]
  simp only [step, hsize]
  by_cases hdone : s.x.atEof = true ∨ c.size ≤ 0
  · rw [if_pos hdone] at hstep
    obtain rfl := Option.some.inj hstep
    exact ⟨delivered, err, if_pos hdone⟩
  rw [if_neg hdone] at hstep
  have hgo : ¬ ((s.transfer delivered err).x.atEof = true ∨ c.size ≤ 0) := hdone
  have hx : (s.transfer delivered err).x = s.x := rfl
  rw [if_neg hgo, hx, readPass_nextBlock]
  generalize s.x.nextBlock.1 = stat at *
  generalize s.x.nextBlock.2 = y at *
  by_cases hstat : stat < 0
  · rw [if_pos hstat] at hstep
    obtain rfl := Option.some.inj hstep
    rw [if_pos hstat]
    exact ⟨delivered, some stat, rfl⟩
  rw [if_neg hstat] at hstep ⊢
  by_cases heof : y.atEof = true
  · rw [if_pos heof] at hstep
    obtain rfl := Option.some.inj hstep
    rw [copyOut, if_pos heof]
    refine ⟨delivered, err, ?_⟩
    simp [Session.transfer, hcall]
  rw [if_neg heof] at hstep
  obtain rfl := Option.some.inj hstep
  obtain ⟨bytes, hout, hleft⟩ := copyOut_copy (by omega) heof hu
  rw [hout]
  refine ⟨delivered ++ bytes, err, ?_⟩
  simp only [Session.transfer, hleft]

/-- The bytes left are in the packet. -/
structure Held (x : Xyz) : Prop where
  len : 0 ≤ x.len
  packet : x.bufp + x.len ≤ x.packetEnd

/-- Trimming makes no packet longer. -/
theorem trimLoop_le (pkt : Mem) (n : Nat) : trimLoop pkt n ≤ n := by
  induction n with
  | zero => exact Nat.le_refl 0
  | succ n ih =>
      rw [trimLoop]
      split
      · exact Nat.le_succ_of_le ih
      · exact Nat.le_refl _

/-- Trimming makes no packet longer. -/
theorem trimLen_le (pkt : Mem) (n : Nat) : trimLen pkt n ≤ n := by
  unfold trimLen
  split
  · exact trimLoop_le pkt n
  · exact Nat.le_refl n

/-- A valid frame just read is in the packet. -/
theorem Holding.held {x : Xyz} {f : Frame} {frames : List Frame} (h : Holding x f)
    (hframes : x.frames = frames ++ [f]) : Held x := by
  have hend : x.packetEnd = f.payload.length := by
    simp [Xyz.packetEnd, hframes]
  have hlen := h.len
  have hbufp := h.bufp
  constructor <;> omega

/-- Taking a block cuts it at most. -/
theorem Held.takeBlock {x : Xyz} (h : Held x) : Held x.takeBlock := by
  have htrim := trimLen_le (fun i => x.pkt (x.bufp + i)) x.len.toNat
  have hlen := h.len
  have hpacket := h.packet
  refine ⟨Int.natCast_nonneg _, ?_⟩
  show (x.bufp : Int) + (trimLen (fun i => x.pkt (x.bufp + i)) x.len.toNat : Int) ≤ x.packetEnd
  omega

/-- A packet that was fetched is held by the buffer. -/
theorem held_of_get {x y : Xyz} (hget : xyzModemGetHdr x = (0, y)) : Held y := by
  obtain ⟨f, hframes, hhold⟩ := (frameRead_of_get hget).valid rfl
  exact hhold.held hframes

/-- The retry loop fails or gets a block. -/
theorem retryLoop_held (n : Nat) (stat : Int) (x : Xyz) (hx : 0 < n ∨ stat < 0 ∨ Held x) :
    (retryLoop n stat x).1 < 0 ∨ Held (retryLoop n stat x).2 := by
  induction n generalizing stat x with
  | zero => exact hx.resolve_left (Nat.lt_irrefl 0)
  | succ n ih =>
      rw [retryLoop_succ]
      have hcases := attempt_cases x
      generalize attempt x = a at *
      cases hcases with
      | block hget hnext => exact Or.inr (held_of_get hget).takeBlock
      | repeated hget hother =>
          have hheld := held_of_get hget
          exact ih 0 _ (Or.inr (Or.inr ⟨hheld.len, hheld.packet⟩))
      | sequence hget hother => exact ih xyzModemSequence _ (Or.inr (Or.inl (by decide)))
      | failed hget hstat => exact ih _ _ (Or.inr (Or.inl hstat))
      | cancel hget =>
          have hneg : xyzModemCancel < 0 := by decide
          exact Or.inl hneg
      | eof hget =>
          have hneg : xyzModemEof < 0 := by decide
          exact Or.inl hneg

/-- What the first half of a pass ends with. -/
theorem nextBlock_held {x : Xyz} (hlen : 0 ≤ x.len) (hheld : 0 < x.len → Held x) :
    x.nextBlock.1 < 0 ∨ Held x.nextBlock.2 := by
  unfold Xyz.nextBlock
  split
  · exact retryLoop_held _ _ _ (Or.inl (by decide))
  · exact Or.inr (hheld (by omega))

/-- The invariant: all was within bounds, and what is left is in the packet. -/
structure Fits (s : Session) : Prop where
  bounded : Bounded s
  defined : s.undefined = false
  calling : ∀ c ∈ s.call, 0 ≤ c.size ∧ 0 ≤ c.total ∧ c.total + c.size = c.asked ∧
    (0 < c.size → s.x.atEof = false → 0 ≤ s.x.len)
  held : 0 < s.x.len → Held s.x

/-- A session just opened fits the buffer. -/
theorem opened_fits {s : Session} (h : s.Opened) : Fits s := by
  obtain ⟨x, htty, rfl⟩ := h
  rw [xyzModemStreamOpen, if_neg (by simp [htty])]
  refine ⟨⟨?_, ?_⟩, rfl, ?_, fun hpos => absurd hpos (Int.lt_irrefl 0)⟩
  · intro m hm
    cases hm
  · intro r hr
    cases hr
  · intro c hc
    cases hc

/-- A call that returns what it has. -/
theorem Fits.finish {s : Session} {c : Call} (h : Fits s) (hc : s.call = some c)
    (x : Xyz) (err : Option Int) (hx : 0 < x.len → Held x) :
    Fits ({ s with x := x }.finish c err) := by
  obtain ⟨hsize, htotal, hasked, -⟩ := h.calling c hc
  refine ⟨⟨h.bounded.memcpys, ?_⟩, h.defined, ?_, hx⟩
  · intro r hr
    rcases List.mem_append.mp hr with hr | hr
    · exact h.bounded.returns r hr
    · obtain rfl := List.mem_singleton.mp hr
      constructor <;> simp only <;> omega
  · intro c hc
    cases hc

/-- A `memcpy` out of the packet. -/
theorem Fits.copy {s : Session} {c : Call} (h : Fits s) (hc : s.call = some c)
    (hpos : 0 < c.size) {x : Xyz} (hx : Held x) : Fits (s.copy c x) := by
  obtain ⟨-, htotal, hasked, -⟩ := h.calling c hc
  have hlen := hx.len
  have hpacket := hx.packet
  have hn : 0 ≤ copyLen c.size x ∧ copyLen c.size x ≤ c.size ∧ copyLen c.size x ≤ x.len := by
    unfold copyLen
    split <;> omega
  rw [Session.copy, if_neg (by omega)]
  refine ⟨⟨?_, h.bounded.returns⟩, h.defined, ?_, ?_⟩
  · intro m hm
    rcases List.mem_append.mp hm with hm | hm
    · exact h.bounded.memcpys m hm
    · obtain rfl := List.mem_singleton.mp hm
      refine ⟨?_, ?_, ?_⟩ <;> simp only <;> omega
  · intro c' hc'
    obtain rfl := Option.some.inj hc'
    refine ⟨?_, ?_, ?_, fun _ _ => ?_⟩ <;> simp only <;> omega
  · intro _
    constructor <;> simp only [Xyz.packetEnd] at * <;> omega

/-- One step under the condition keeps the invariant. -/
theorem step_fits {s u : Session} {a : Action} (h : Fits s) (ha : ReadsOn s a)
    (hstep : s.step a = some u) : Fits u := by
  cases a with
  | read size =>
      simp only [Session.step] at hstep
      split at hstep
      · obtain rfl := Option.some.inj hstep
        refine ⟨⟨h.bounded.memcpys, h.bounded.returns⟩, h.defined, ?_, h.held⟩
        intro c hc
        obtain rfl := Option.some.inj hc
        exact ⟨ha.1, Int.le_refl 0, Int.zero_add size, ha.2⟩
      · cases hstep
  | pass =>
      simp only [Session.step] at hstep
      split at hstep
      · cases hstep
      next c hc =>
      obtain ⟨-, -, -, hlen⟩ := h.calling c hc
      rw [if_neg (by simp [h.defined])] at hstep
      by_cases hdone : s.x.atEof = true ∨ c.size ≤ 0
      · rw [if_pos hdone] at hstep
        obtain rfl := Option.some.inj hstep
        exact h.finish hc s.x none h.held
      rw [if_neg hdone] at hstep
      obtain ⟨heof, hpos⟩ := not_or.mp hdone
      have hnext := nextBlock_held (hlen (by omega) (Bool.eq_false_iff.mpr heof)) h.held
      generalize s.x.nextBlock.1 = stat at *
      generalize s.x.nextBlock.2 = y at *
      by_cases hstat : stat < 0
      · -- an error: the mark
        rw [if_pos hstat] at hstep
        obtain rfl := Option.some.inj hstep
        exact h.finish hc _ _ fun hpos => absurd hpos (by decide : ¬ (0 : Int) < -1)
      rw [if_neg hstat] at hstep
      have hheld := hnext.resolve_left hstat
      split at hstep
      · next heof' =>
          obtain rfl := Option.some.inj hstep
          refine ⟨⟨h.bounded.memcpys, h.bounded.returns⟩, h.defined, ?_, fun _ => hheld⟩
          intro c' hc'
          obtain ⟨hsize, htotal, hasked, -⟩ := h.calling c' hc'
          exact ⟨hsize, htotal, hasked, fun _ hno => by simp [heof'] at hno⟩
      · obtain rfl := Option.some.inj hstep
        exact h.copy hc (by omega) hheld

/-- A call that does not meet the condition goes out of bounds with its first pass. -/
theorem pass_unbounded {s t u : Session} {size : Int} (h : Fits s)
    (ha : ¬ ReadsOn s (.read size)) (hread : s.step (.read size) = some t)
    (hpass : t.step .pass = some u) : ¬ Bounded u := by
  simp only [Session.step] at hread
  split at hread
  · obtain rfl := Option.some.inj hread
    simp only [Session.step, h.defined] at hpass
    by_cases hneg : size < 0
    · -- it returns 0
      rw [if_neg (by decide), if_pos (Or.inr (by omega))] at hpass
      obtain rfl := Option.some.inj hpass
      intro hbounded
      have hreturn := (hbounded.returns ⟨size, 0, none⟩ (by simp [Session.finish])).2
      simp only at hreturn
      omega
    · -- it copies a negative number of bytes
      have hbad : 0 < size ∧ s.x.atEof = false ∧ s.x.len < 0 := by
        simp only [ReadsOn, not_and, not_forall] at ha
        obtain ⟨hpos, heof, hlen⟩ := ha (by omega)
        exact ⟨hpos, heof, by omega⟩
      obtain ⟨hpos, heof, hlen⟩ := hbad
      have hnext : s.x.nextBlock = (0, s.x) := if_neg (by omega)
      have hcopy : copyLen size s.x < 0 := (copyLen_neg hpos).mpr hlen
      rw [if_neg (by decide), if_neg (by simp [heof, hpos]), hnext] at hpass
      simp only at hpass
      rw [if_neg (by decide), if_neg (by simp [heof]), Session.copy, if_pos hcopy] at hpass
      obtain rfl := Option.some.inj hpass
      intro hbounded
      have hmemcpy := (hbounded.memcpys _ (List.mem_append_right _ List.mem_cons_self)).1
      simp only at hmemcpy
      omega
  · cases hread

/-- **Bounds.**  In every run none of whose calls asks for bytes after an error, every
`memcpy` is within the request and the packet and every value returned within the
request; a next call keeps this only if it meets the condition too. -/
theorem bounded_iff_readsOn {s : Session} (h : Reach Session.step Session.Opened ReadsOn s) :
    Bounded s ∧ ∀ size t u, s.step (.read size) = some t → t.step .pass = some u →
      (Bounded u ↔ ReadsOn s (.read size)) := by
  have hinv : Fits s :=
    Reach.invariant (fun _ => opened_fits)
      (fun _ _ _ _ hfits ha hstep => step_fits hfits ha hstep) h
  refine ⟨hinv.bounded, fun size t u hread hpass => ⟨fun hbounded => ?_, fun ha => ?_⟩⟩
  · by_contra hnot
    exact pass_unbounded hinv hnot hread hpass hbounded
  · have hpassOn : ReadsOn t .pass := trivial
    exact (step_fits (step_fits hinv ha hread) hpassOn hpass).bounded

/-- A session on a line. -/
def sessionOn (line : List Event) : Session :=
  ⟨(xyzModemStreamOpen (waiting line)).2.2, none, [], [], false⟩

/-- `sessionOn` is just opened. -/
theorem opened_sessionOn (line : List Event) : (sessionOn line).Opened :=
  ⟨waiting line, rfl, rfl⟩

/-- A read of two on a line with one byte. -/
theorem bounded_iff_readsOn_oneByte :
    ∃ s, Reach Session.step Session.Opened ReadsOn s ∧
      s.returns.map (fun r => (r.asked, r.total)) = [(2, 1)] ∧ Bounded s := by
  have hrun : (exec Session.step (fun s a => decide (ReadsOn s a)) (sessionOn oneByte)
      [.read 2, .pass, .pass]).map (fun s => s.returns.map fun r => (r.asked, r.total)) =
        some [(2, 1)] := by decide +kernel
  obtain ⟨s, hs, hreturns⟩ := Option.map_eq_some_iff.mp hrun
  have hreach : Reach Session.step Session.Opened ReadsOn s :=
    Reach.of_exec (fun _ _ => of_decide_eq_true) (.start (opened_sessionOn oneByte)) hs
  exact ⟨s, hreach, hreturns, (bounded_iff_readsOn hreach).1⟩

/-- On a silent line the first call reports a timeout, and the second copies -1 bytes. -/
theorem read_after_error :
    ∃ s, Reach Session.step Session.Opened anyStep s ∧
      s.returns.map Return.err = [some xyzModemTimeout] ∧
      s.memcpys.map Memcpy.len = [-1] ∧ ¬ Bounded s := by
  have hrun : (exec Session.step (fun _ _ => true) (sessionOn [])
      [.read 1, .pass, .read 1, .pass]).map
        (fun s => (s.returns.map Return.err, s.memcpys.map Memcpy.len)) =
          some ([some xyzModemTimeout], [-1]) := by decide +kernel
  obtain ⟨s, hs, hpair⟩ := Option.map_eq_some_iff.mp hrun
  obtain ⟨herrs, hmemcpys⟩ := Prod.mk.inj hpair
  refine ⟨s, Reach.of_exec (fun _ _ _ => trivial) (.start (opened_sessionOn [])) hs, herrs,
    hmemcpys, fun hbounded => ?_⟩
  have hmem : (-1 : Int) ∈ s.memcpys.map Memcpy.len := by
    rw [hmemcpys]
    exact List.mem_cons_self
  obtain ⟨m, hm, hlen⟩ := List.mem_map.mp hmem
  have hnonneg := (hbounded.memcpys m hm).1
  omega

end Xyzmodem

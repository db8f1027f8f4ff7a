import Alp.SerialMailbox

/-!
# The loopback device

In a build with `DEBUG` the RX step copies the TX channel into the RX channel, so
for its client the device is a register of bytes: `Loopback`.  While no wait fails
each call has at most one command under way, so commands are only stored into an
empty mailbox (`Turn.storesIntoEmpty`) and the bookkeeping of `MailInv` applies;
`LoopData` follows the bytes through the two copy loops, which the other thread
never overlaps.
-/

set_option autoImplicit false

namespace Serial

open CString Transition

/-- A register of bytes and the results it has given. -/
structure Loopback where
  last : Option (List UInt8)
  returns : List Ret

/-- The `n`-th call on the register. -/
def Loopback.call (l : Loopback) (n : Nat) : Call → Loopback
  | .write pbuf len =>
    ⟨some ((List.range len.toNat).map pbuf), l.returns ++ [.wrote n len.toNat]⟩
  | .read _ _ =>
    let bs := l.last.getD []
    ⟨l.last, l.returns ++ [.read n bs.length bs]⟩
  | .destroy => l

/-- The register after a list of calls. -/
def loopback (calls : List Call) : Loopback :=
  calls.zipIdx.foldl (fun l p => l.call p.2 p.1) ⟨none, []⟩

/-- The commands of a list of calls under their numbers. -/
def numbered (calls : List Call) : List (Nat × SerCmd) :=
  calls.zipIdx.map fun p => (p.2, p.1.cmd)

/-- One more call acts on what the others left. -/
theorem loopback_snoc (calls : List Call) (c : Call) :
    loopback (calls ++ [c]) = (loopback calls).call calls.length c := by
  simp [loopback, List.zipIdx_append]

/-- One more call has the next number. -/
theorem numbered_snoc (calls : List Call) (c : Call) :
    numbered (calls ++ [c]) = numbered calls ++ [(calls.length, c.cmd)] := by
  simp [numbered, List.zipIdx_append]

/-- The conditions on the calls, and no wait fails. -/
def LoopbackOk (s : State) : Action → Prop
  | .call (.write _ len) => len.toNat ≤ serialChanBufSize
  | .call (.read len _) => ∃ bs ∈ (loopback s.calls).last, bs.length ≤ len.toNat
  | .call .destroy => False
  | .client | .worker => True
  | .timeout | .clockError => False

instance (s : State) : (a : Action) → Decidable (LoopbackOk s a)
  | .call (.write _ len) => inferInstanceAs (Decidable (len.toNat ≤ serialChanBufSize))
  | .call (.read len _) =>
    inferInstanceAs (Decidable (∃ bs ∈ (loopback s.calls).last, bs.length ≤ len.toNat))
  | .call .destroy | .timeout | .clockError => .isFalse id
  | .client | .worker => .isTrue trivial

/-- Between two calls: each call had exactly its step of the worker, in order, and
the results of the register; the semaphores are zero and the mailbox is empty. -/
structure BetweenCalls (s : State) : Prop where
  steps : s.ran = numbered s.calls
  returns : s.returns = (loopback s.calls).returns
  active : s.active = 0
  rxReady : s.rxReady = 0
  txReady : s.txReady = 0
  cmd : s.cmd = .null

/-- The call under way. -/
def ClientPc.current : ClientPc → List Call
  | .idle => []
  | .write pbuf len _ => [.write pbuf len]
  | .read len tmSec _ => [.read len tmSec]
  | .destroy _ | .gone => [.destroy]

/-- The call has stored its command and not yet taken its completion. -/
def ClientPc.awaiting : ClientPc → Bool
  | .write _ _ .post | .write _ _ .wait => true
  | .read _ _ .post | .read _ _ .clock | .read _ _ .wait => true
  | _ => false

/-- The commands stored for the call under way. -/
def ClientPc.stored (pc : ClientPc) : List Call :=
  if pc.beforeSend then [] else pc.current

/-- A client that is storing is not waiting for an answer. -/
theorem ClientPc.of_storing {pc : ClientPc} (h : pc.storing = true) : pc.awaiting = false := by
  unfold ClientPc.storing at h
  split at h
  case h_3 => cases h
  all_goals rfl

/-- A client that waits for an answer has one call under way, and stored its command. -/
theorem ClientPc.of_awaiting {pc : ClientPc} (h : pc.awaiting = true) :
    ∃ call, pc.current = [call] ∧ pc.stored = [call] := by
  unfold ClientPc.awaiting at h
  split at h
  case h_6 => cases h
  all_goals exact ⟨_, rfl, rfl⟩

/-- The calls `done` are completed; the call under way has stored its command once,
and has taken its completion unless it is awaiting it. -/
structure Turn (s : State) (done : List Call) : Prop where
  calls : s.calls = done ++ s.client.current
  cur : s.client ≠ .idle → s.cur = done.length
  sent : s.sent = numbered (done ++ s.client.stored)
  owed : s.rxReady + s.txReady + s.sent.length = s.ran.length + s.client.awaiting.toNat
  running : s.stop = false
  calling : .destroy ∉ s.client.current

/-- When the serial was created no call was made. -/
theorem turn_created {s : State} (h : Created s) : Turn s [] := by
  obtain ⟨rxchan, txchan, pbuf, rfl⟩ := h
  constructor <;>
    simp [serialDevCreate, ClientPc.current, ClientPc.stored, ClientPc.beforeSend,
      ClientPc.awaiting, numbered]

section Turns

variable {s t : State} {done : List Call}

/-- Where no command is held or pending, `cmd` is null. -/
theorem cmd_null_of_nothing (hheld : s.held = []) (hpend : s.pending = []) : s.cmd = .null := by
  by_contra hcmd
  cases hw : s.worker with
  | idleClear c =>
      by_cases hc : c = s.cmd ∧ s.wTag = s.cmdTag
      · cases c with
        | null => exact hcmd hc.1.symm
        | rd => simp [State.held, hw] at hheld
        | wr => simp [State.held, hw] at hheld
      · simp [State.pending, hcmd, hw, hc] at hpend
  | _ => simp [State.pending, hcmd, hw] at hpend

/-- While no completion is awaited, nothing is in the worker's hands or in the
mailbox, and no token is there. -/
theorem Turn.quiet (h : Turn s done) (hmail : MailInv s) (hawait : s.client.awaiting = false) :
    s.held = [] ∧ s.cmd = .null ∧ s.rxReady = 0 ∧ s.txReady = 0 ∧ s.sent = s.ran := by
  have howed := h.owed
  have hcons := hmail.conserved
  have hlen : s.sent.length = s.ran.length + s.held.length + s.pending.length := by
    rw [hcons, List.length_append, List.length_append]
  rw [hawait, Bool.toNat_false] at howed
  have hheld : s.held = [] := List.length_eq_zero_iff.mp (by omega)
  have hpend : s.pending = [] := List.length_eq_zero_iff.mp (by omega)
  refine ⟨hheld, cmd_null_of_nothing hheld hpend, by omega, by omega, ?_⟩
  rw [hcons, hheld, hpend, List.append_nil, List.append_nil]

/-- While no wait fails, commands are stored into an empty mailbox. -/
theorem Turn.storesIntoEmpty (h : Turn s done) (hmail : MailInv s) {a : Action} :
    StoresIntoEmpty s a := by
  cases a with
  | client =>
      intro hstoring
      exact (h.quiet hmail (ClientPc.of_storing hstoring)).2.1
  | _ => trivial

/-- The command in the worker's hands is that of the call under way, which awaits
it. -/
theorem Turn.held_current (h : Turn s done) (hmail : MailInv s) {n : Nat} {c : SerCmd}
    (hheld : s.held = [(n, c)]) :
    s.client.awaiting = true ∧ s.rxReady = 0 ∧ ∃ call ∈ s.client.current, c = call.cmd := by
  have howed := h.owed
  have hcons := hmail.conserved
  have hlen : s.sent.length = s.ran.length + s.held.length + s.pending.length := by
    rw [hcons, List.length_append, List.length_append]
  rw [hheld, List.length_singleton] at hlen
  have hawait : s.client.awaiting = true := by
    by_contra hno
    rw [Bool.not_eq_true] at hno
    rw [hno, Bool.toNat_false] at howed
    omega
  rw [hawait, Bool.toNat_true] at howed
  have hpend : s.pending = [] := List.length_eq_zero_iff.mp (by omega)
  refine ⟨hawait, by omega, ?_⟩
  obtain ⟨call, hcall, hstored⟩ := ClientPc.of_awaiting hawait
  have hsent := h.sent
  rw [hstored, numbered_snoc, hcons, hheld, hpend, List.append_nil] at hsent
  have hlast := List.append_inj_right' hsent rfl
  refine ⟨call, by simp [hcall], ?_⟩
  simpa using congrArg (fun l => l.map Prod.snd) hlast

/-- A step of the client that keeps its call's standing. -/
theorem Turn.move (h : Turn s done) {pc : ClientPc} (active : Nat) (rxchan txchan : Chan)
    (pbuf : Mem) (hcur : pc.current = s.client.current) (hstored : pc.stored = s.client.stored)
    (hawait : pc.awaiting = s.client.awaiting) (hidle : s.client ≠ .idle) :
    Turn { s with
      client := pc, active := active, rxchan := rxchan, txchan := txchan, pbuf := pbuf } done where
  calls := by simpa only [hcur] using h.calls
  cur := fun _ => h.cur hidle
  sent := by simpa only [hstored] using h.sent
  owed := by simpa only [hawait] using h.owed
  running := h.running
  calling := by simpa only [hcur] using h.calling

/-- Storing the command of the call under way. -/
theorem Turn.store (h : Turn s done) {pc : ClientPc} {c : Call} (hclient : s.client.current = [c])
    (hbefore : s.client.stored = []) (hnot : s.client.awaiting = false) (hidle : s.client ≠ .idle)
    (hcur : pc.current = [c]) (hstored : pc.stored = [c]) (hawait : pc.awaiting = true) :
    Turn { s.storeCmd c.cmd with client := pc } done := by
  have howed := h.owed
  have hsent := h.sent
  rw [hbefore, List.append_nil] at hsent
  rw [hnot, Bool.toNat_false] at howed
  constructor
  · simpa only [State.storeCmd, hcur, hclient] using h.calls
  · exact fun _ => h.cur hidle
  · simp [State.storeCmd, hstored, numbered_snoc, hsent, h.cur hidle]
  · simp only [State.storeCmd, hawait, Bool.toNat_true, List.length_append,
      List.length_singleton]
    omega
  · exact h.running
  · simpa only [hcur, hclient] using h.calling

/-- Taking the completion. -/
theorem Turn.take (h : Turn s done) {pc : ClientPc} (rxReady txReady : Nat)
    (hready : rxReady + txReady + 1 = s.rxReady + s.txReady)
    (hcur : pc.current = s.client.current) (hstored : pc.stored = s.client.stored)
    (hbefore : s.client.awaiting = true) (hafter : pc.awaiting = false)
    (hidle : s.client ≠ .idle) :
    Turn { s with client := pc, rxReady := rxReady, txReady := txReady } done := by
  have howed := h.owed
  rw [hbefore, Bool.toNat_true] at howed
  constructor
  · simpa only [hcur] using h.calls
  · exact fun _ => h.cur hidle
  · simpa only [hstored] using h.sent
  · simp only [hafter, Bool.toNat_false]
    omega
  · exact h.running
  · simpa only [hcur] using h.calling

/-- The call ends. -/
theorem Turn.finish (h : Turn s done) {c : Call} (r : Ret) (hclient : s.client.current = [c])
    (hstored : s.client.stored = [c]) (hnot : s.client.awaiting = false) :
    Turn (s.finish r) (done ++ [c]) := by
  have hcalls := h.calls
  have hsent := h.sent
  have howed := h.owed
  rw [hclient] at hcalls
  rw [hstored] at hsent
  rw [hnot] at howed
  constructor
  · simpa only [State.finish, ClientPc.current, List.append_nil] using hcalls
  · exact fun hidle => absurd rfl hidle
  · simpa [State.finish, ClientPc.stored, ClientPc.beforeSend, ClientPc.current] using hsent
  · simpa only [State.finish, ClientPc.awaiting] using howed
  · exact h.running
  · simp [State.finish, ClientPc.current]

/-- A new call begins. -/
theorem Turn.begin (h : Turn s done) {c : Call} (hidle : s.client = .idle) (hc : c ≠ .destroy) :
    Turn { s with client := c.entry, cur := s.calls.length, calls := s.calls ++ [c] } done := by
  have hentry : c.entry.current = [c] ∧ c.entry.stored = [] ∧ c.entry.awaiting = false := by
    cases c with
    | write pbuf len => exact ⟨rfl, rfl, rfl⟩
    | read len tmSec => exact ⟨rfl, rfl, rfl⟩
    | destroy => exact absurd rfl hc
  have hcalls : s.calls = done := by simpa [hidle, ClientPc.current] using h.calls
  have hsent := h.sent
  have howed := h.owed
  rw [hidle] at hsent howed
  constructor
  · simp [hentry.1, hcalls]
  · simp [hcalls]
  · rw [hentry.2.1]
    exact hsent
  · rw [hentry.2.2]
    exact howed
  · exact h.running
  · simp [hentry.1, hc.symm]

/-- A step of the worker. -/
theorem Turn.worker (h : Turn s done) (hmove : WorkerMove s t) : Turn t done := by
  have howed := h.owed
  cases hmove with
  | sent hw hl =>
      refine ⟨h.calls, h.cur, h.sent, ?_, h.running, h.calling⟩
      simp only [List.length_append, List.length_singleton]
      omega
  | received hw hl =>
      refine ⟨h.calls, h.cur, h.sent, ?_, h.running, h.calling⟩
      simp only [List.length_append, List.length_singleton]
      omega
  | _ => exact ⟨h.calls, h.cur, h.sent, h.owed, h.running, h.calling⟩

end Turns

/-- The bytes a write hands over. -/
def written (pbuf : Mem) (len : BitVec 32) : List UInt8 :=
  (List.range len.toNat).map pbuf

/-- The TX channel holds the bytes of a write. -/
structure TxHolds (chan : Chan) (bs : List UInt8) : Prop where
  len : chan.len.toNat = bs.length
  short : bs.length ≤ serialChanBufSize
  bytes : Copied chan.buf bs bs.length

/-- The RX channel holds the bytes of a read. -/
structure RxHolds (chan : Chan) (bs : List UInt8) : Prop where
  cnt : chan.cnt.toNat = bs.length
  bytes : Copied chan.buf bs bs.length

/-- How far the RX step has come. -/
def RxStep (rxchan : Chan) (bs : List UInt8) : WorkerPc → Prop
  | .rxLoad len i => len = bs.length ∧ i ≤ bs.length ∧ Copied rxchan.buf bs i
  | .rxStore len i b => len = bs.length ∧ bs[i]? = some b ∧ Copied rxchan.buf bs i
  | .rxPost => RxHolds rxchan bs
  | _ => True

/-- The worker is serving a read of `bs`, or has served it. -/
structure RxServing (s : State) (bs : List UInt8) : Prop where
  ready : 0 < s.rxReady → RxHolds s.rxchan bs
  step : RxStep s.rxchan bs s.worker

/-- The bytes at each point of a write. -/
def WriteData (s : State) (pbuf : Mem) (len : BitVec 32) : WrPc → Prop
  | .cnt | .len => True
  | .copy i => s.txchan.len = len ∧ i ≤ len.toNat ∧ Copied s.txchan.buf (written pbuf len) i
  | .cmd | .post | .wait | .ret => TxHolds s.txchan (written pbuf len)

/-- The bytes at each point of a read. -/
def ReadData (s : State) (bs : List UInt8) : RdPc → Prop
  | .cnt | .len | .timeout | .cmd => True
  | .post | .clock | .wait => RxServing s bs
  | .get => RxHolds s.rxchan bs
  | .copy cnt i =>
    RxHolds s.rxchan bs ∧ cnt.toNat = bs.length ∧ i ≤ bs.length ∧ Copied s.pbuf bs i

/-- The device is the register `l`, up to the call under way. -/
def LoopData (s : State) (l : Loopback) : Prop :=
  s.returns = l.returns ∧
    match s.client with
    | .write pbuf len pc => len.toNat ≤ serialChanBufSize ∧ WriteData s pbuf len pc
    | .read _ _ pc => ∃ bs, l.last = some bs ∧ TxHolds s.txchan bs ∧ ReadData s bs pc
    | _ => ∀ bs, l.last = some bs → TxHolds s.txchan bs

/-- A write has as many bytes as its length says. -/
theorem length_written (pbuf : Mem) (len : BitVec 32) : (written pbuf len).length = len.toNat := by
  simp [written]

/-- A worker with nothing in its hands is in no RX step. -/
theorem rxStep_of_free {s : State} (h : s.held = []) (rxchan : Chan) (bs : List UInt8) :
    RxStep rxchan bs s.worker := by
  cases hw : s.worker with
  | rxLoad len i => simp [State.held, hw] at h
  | rxStore len i b => simp [State.held, hw] at h
  | rxPost => simp [State.held, hw] at h
  | _ => trivial

/-- The completed calls and the bytes. -/
structure LoopInv (s : State) (done : List Call) : Prop where
  turn : Turn s done
  data : LoopData s (loopback done)

/-- The invariant holds when the serial was created. -/
theorem loopInv_created {s : State} (h : Created s) : LoopInv s [] := by
  refine ⟨turn_created h, ?_⟩
  obtain ⟨rxchan, txchan, pbuf, rfl⟩ := h
  exact ⟨rfl, fun bs hbs => by cases hbs⟩

/-- A step of `serial_dev_write`. -/
theorem loopInv_write {s t : State} {done : List Call} {pbuf : Mem} {len : BitVec 32} {pc : WrPc}
    (h : LoopInv s done) (hc : s.client = .write pbuf len pc)
    (hstep : serialDevWrite s pbuf len pc = some t) : ∃ done', LoopInv t done' := by
  obtain ⟨hturn, hret, hdata⟩ := h
  rw [hc] at hdata
  obtain ⟨hshort, hbytes⟩ := hdata
  have hidle : s.client ≠ .idle := by simp [hc]
  have hlen := length_written pbuf len
  cases pc with
  | cnt =>
      cases hstep
      exact ⟨done, hturn.move _ _ _ _ (by rw [hc]; rfl) (by rw [hc]; rfl) (by rw [hc]; rfl) hidle,
        hret, hshort, trivial⟩
  | len =>
      cases hstep
      exact ⟨done, hturn.move _ _ _ _ (by rw [hc]; rfl) (by rw [hc]; rfl) (by rw [hc]; rfl) hidle,
        hret, hshort, rfl, Nat.zero_le _, copied_zero _ _⟩
  | copy i =>
      obtain ⟨hchan, hi, hcopied⟩ := hbytes
      simp only [serialDevWrite] at hstep
      split at hstep
      · next hlt =>
          cases hstep
          have hbyte : (written pbuf len)[i]? = some (pbuf i) := copied_range pbuf len.toNat i hlt
          exact ⟨done, hturn.move _ _ _ _ (by rw [hc]; rfl) (by rw [hc]; rfl) (by rw [hc]; rfl)
            hidle, hret, hshort, hchan, by omega, hcopied.set hbyte⟩
      · next hge =>
          cases hstep
          have hend : i = (written pbuf len).length := by omega
          exact ⟨done, hturn.move _ _ _ _ (by rw [hc]; rfl) (by rw [hc]; rfl) (by rw [hc]; rfl)
            hidle, hret, hshort, by rw [hlen]; exact congrArg _ hchan, by omega, hend ▸ hcopied⟩
  | cmd =>
      cases hstep
      refine ⟨done, ?_, hret, hshort, hbytes⟩
      exact hturn.store (c := .write pbuf len) (by rw [hc]; rfl) (by rw [hc]; rfl) (by rw [hc]; rfl)
        hidle rfl rfl rfl
  | post =>
      cases hstep
      exact ⟨done, hturn.move _ _ _ _ (by rw [hc]; rfl) (by rw [hc]; rfl) (by rw [hc]; rfl) hidle,
        hret, hshort, hbytes⟩
  | wait =>
      simp only [serialDevWrite] at hstep
      split at hstep
      · next hpos =>
          cases hstep
          exact ⟨done, hturn.take _ _ (by omega) (by rw [hc]; rfl) (by rw [hc]; rfl)
            (by rw [hc]; rfl) rfl hidle, hret, hshort, hbytes⟩
      · cases hstep
  | ret =>
      cases hstep
      have htx : TxHolds s.txchan (written pbuf len) := hbytes
      have hval : s.txchan.len.toInt = len.toNat := by
        rw [toInt_of_short (by rw [htx.len]; exact htx.short), htx.len, hlen]
      refine ⟨done ++ [.write pbuf len], hturn.finish _ (by rw [hc]; rfl) (by rw [hc]; rfl)
        (by rw [hc]; rfl), ?_, ?_⟩
      · rw [loopback_snoc, hval, hturn.cur hidle]
        show s.returns ++ _ = (loopback done).returns ++ _
        rw [hret]
      · intro bs hbs
        rw [loopback_snoc] at hbs
        cases hbs
        exact htx

/-- A step of `serial_dev_read`. -/
theorem loopInv_read {s t : State} {done : List Call} {len tmSec : BitVec 32} {pc : RdPc}
    (h : LoopInv s done) (hmail : MailInv s) (hc : s.client = .read len tmSec pc)
    (hstep : serialDevRead s len tmSec pc = some t) : ∃ done', LoopInv t done' := by
  obtain ⟨hturn, hret, hdata⟩ := h
  rw [hc] at hdata
  obtain ⟨bs, hlast, htx, hbytes⟩ := hdata
  have hidle : s.client ≠ .idle := by simp [hc]
  have hfinish : ∀ r : Ret, s.client.stored = [.read len tmSec] → s.client.awaiting = false →
      r = .read s.cur bs.length bs →
      LoopInv (s.finish r) (done ++ [.read len tmSec]) := by
    intro r hstored hawait hr
    refine ⟨hturn.finish _ (by rw [hc]; rfl) hstored hawait, ?_, ?_⟩
    · rw [loopback_snoc, hr, hturn.cur hidle]
      simp [State.finish, Loopback.call, hret, hlast]
    · intro bs' hbs
      rw [loopback_snoc] at hbs
      obtain rfl : bs = bs' := Option.some.inj (hlast.symm.trans hbs)
      exact htx
  cases pc with
  | cnt | len | timeout =>
      cases hstep
      exact ⟨done, hturn.move _ _ _ _ (by rw [hc]; rfl) (by rw [hc]; rfl) (by rw [hc]; rfl) hidle,
        hret, bs, hlast, htx, trivial⟩
  | cmd =>
      cases hstep
      obtain ⟨hheld, -, hready, -, -⟩ := hturn.quiet hmail (by rw [hc]; rfl)
      refine ⟨done, ?_, hret, bs, hlast, htx, fun hpos => ?_, rxStep_of_free hheld _ _⟩
      · exact hturn.store (c := .read len tmSec) (by rw [hc]; rfl) (by rw [hc]; rfl)
          (by rw [hc]; rfl) hidle rfl rfl rfl
      · exact absurd hready (Nat.pos_iff_ne_zero.mp hpos)
  | post | clock =>
      cases hstep
      obtain ⟨hready, hserve⟩ := hbytes
      exact ⟨done, hturn.move _ _ _ _ (by rw [hc]; rfl) (by rw [hc]; rfl) (by rw [hc]; rfl) hidle,
        hret, bs, hlast, htx, hready, hserve⟩
  | wait =>
      simp only [serialDevRead] at hstep
      split at hstep
      · next hpos =>
          cases hstep
          exact ⟨done, hturn.take _ _ (by omega) (by rw [hc]; rfl) (by rw [hc]; rfl)
            (by rw [hc]; rfl) rfl hidle, hret, bs, hlast, htx, hbytes.ready hpos⟩
      · cases hstep
  | get =>
      have hrx : RxHolds s.rxchan bs := hbytes
      simp only [serialDevRead] at hstep
      split at hstep
      · next hzero =>
          cases hstep
          have hnil : bs = [] := by
            have hcnt := hrx.cnt
            rw [hzero] at hcnt
            exact List.length_eq_zero_iff.mp hcnt.symm
          exact ⟨_, hfinish _ (by rw [hc]; rfl) (by rw [hc]; rfl) (by rw [hnil]; rfl)⟩
      · cases hstep
        exact ⟨done, hturn.move _ _ _ _ (by rw [hc]; rfl) (by rw [hc]; rfl) (by rw [hc]; rfl)
          hidle, hret, bs, hlast, htx, hrx, hrx.cnt, Nat.zero_le _, copied_zero _ _⟩
  | copy cnt i =>
      obtain ⟨hrx, hcnt, hi, hcopied⟩ := hbytes
      have hshort : cnt.toNat ≤ serialChanBufSize := by rw [hcnt]; exact htx.short
      simp only [serialDevRead, memcpyLen_of_short hshort, hcnt] at hstep
      split at hstep
      · next hlt =>
          cases hstep
          exact ⟨done, hturn.move _ _ _ _ (by rw [hc]; rfl) (by rw [hc]; rfl) (by rw [hc]; rfl)
            hidle, hret, bs, hlast, htx, hrx, hcnt, hlt, hcopied.set (hrx.bytes i hlt)⟩
      · next hge =>
          cases hstep
          have hend : i = bs.length := by omega
          rw [hend] at hcopied
          refine ⟨_, hfinish _ (by rw [hc]; rfl) (by rw [hc]; rfl) ?_⟩
          rw [toInt_of_short hshort, hcnt, Int.toNat_natCast, State.received, hcopied.range_map]

/-- A step of the worker that advances its RX step, or leaves the RX channel alone. -/
theorem LoopData.worker {s t : State} {l : Loopback} (h : LoopData s l)
    (hclient : t.client = s.client) (hret : t.returns = s.returns) (htx : t.txchan = s.txchan)
    (hpbuf : t.pbuf = s.pbuf) (hrx : t.rxchan = s.rxchan ∨ s.client.awaiting = true)
    (hserve : ∀ bs, TxHolds s.txchan bs → RxServing s bs → RxServing t bs) : LoopData t l := by
  obtain ⟨hr, hdata⟩ := h
  refine ⟨hret.trans hr, ?_⟩
  rw [hclient]
  cases hc : s.client with
  | write pbuf len pc =>
      rw [hc] at hdata
      refine ⟨hdata.1, ?_⟩
      cases pc with
      | cnt | len => trivial
      | copy i => simpa only [WriteData, htx] using hdata.2
      | cmd | post | wait | ret => simpa only [WriteData, htx] using hdata.2
  | read len tmSec pc =>
      rw [hc] at hdata hrx
      obtain ⟨bs, hlast, hholds, hbytes⟩ := hdata
      refine ⟨bs, hlast, htx ▸ hholds, ?_⟩
      cases pc with
      | cnt | len | timeout | cmd => trivial
      | post | clock | wait => exact hserve bs hholds hbytes
      | get =>
          rcases hrx with hrx | hawait
          · simpa only [ReadData, hrx] using hbytes
          · cases hawait
      | copy cnt i =>
          rcases hrx with hrx | hawait
          · simpa only [ReadData, hrx, hpbuf] using hbytes
          · cases hawait
  | _ =>
      rw [hc] at hdata
      simpa only [htx] using hdata

/-- A step of the worker away from the RX step: nothing of the two channels moves. -/
theorem LoopData.quiet {s t : State} {l : Loopback} (h : LoopData s l)
    (hclient : t.client = s.client) (hret : t.returns = s.returns) (htx : t.txchan = s.txchan)
    (hpbuf : t.pbuf = s.pbuf) (hrx : t.rxchan = s.rxchan) (hready : t.rxReady = s.rxReady)
    (hrest : ∀ bs, RxStep s.rxchan bs t.worker) : LoopData t l := by
  refine h.worker hclient hret htx hpbuf (Or.inl hrx) fun bs _ hserve => ⟨?_, ?_⟩
  · rw [hready, hrx]
    exact hserve.ready
  · rw [hrx]
    exact hrest bs

/-- The length in the channel is that of the bytes it holds. -/
theorem TxHolds.toInt_len {c : Chan} {bs : List UInt8} (h : TxHolds c bs) :
    c.len.toInt = bs.length := by
  rw [toInt_of_short (by rw [h.len]; exact h.short), h.len]

/-- The count the RX step leaves is the number of bytes it has copied. -/
theorem rxHolds_of_copied {c : Chan} {bs : List UInt8} {i : Nat}
    (hcopied : Copied c.buf bs i) (hend : i = bs.length) (hshort : bs.length ≤ serialChanBufSize) :
    RxHolds { c with cnt := BitVec.ofNat 32 i } bs := by
  unfold serialChanBufSize at hshort
  refine ⟨?_, hend ▸ hcopied⟩
  rw [hend, BitVec.toNat_ofNat]
  omega

/-- A step of `serial_run` in the `DEBUG` build. -/
theorem loopInv_serialRun {s t : State} {done : List Call} (h : LoopInv s done)
    (hmail : MailInv s) (hland : s.LandOk) (hstep : serialRun true s = some t) :
    LoopInv t done := by
  obtain ⟨hturn, hdata⟩ := h
  refine ⟨hturn.worker (serialRun_cases hland hstep), ?_⟩
  have hown : s.held = [(s.wTag, .rd)] → s.client.awaiting = true ∧ ¬ 0 < s.rxReady := by
    intro hheld
    obtain ⟨hawait, hready, -⟩ := hturn.held_current hmail hheld
    exact ⟨hawait, by omega⟩
  cases serialRun_moves hstep with
  | reset hw hl =>
      refine hdata.quiet rfl rfl rfl rfl rfl rfl fun bs => ?_
      show RxStep s.rxchan bs s.worker
      rw [hw]
      trivial
  | look hw | back hw =>
      refine hdata.quiet rfl rfl rfl rfl rfl rfl fun bs => ?_
      cases s.stop <;> trivial
  | rxLen hw =>
      refine hdata.worker rfl rfl rfl rfl (Or.inl rfl) fun bs htx hserve => ⟨hserve.ready, ?_⟩
      exact ⟨htx.toInt_len, Nat.zero_le _, copied_zero _ _⟩
  | rxLoad len i hw hlt =>
      refine hdata.worker rfl rfl rfl rfl (Or.inl rfl) fun bs htx hserve => ⟨hserve.ready, ?_⟩
      have hrx := hserve.step
      rw [hw] at hrx
      obtain ⟨hlen, hi, hcopied⟩ := hrx
      exact ⟨hlen, htx.bytes i (by omega), hcopied⟩
  | rxCount len i hw hge =>
      obtain ⟨hawait, hready⟩ := hown (by simp [State.held, hw])
      refine hdata.worker rfl rfl rfl rfl (Or.inr hawait) fun bs htx hserve =>
        ⟨fun hpos => absurd hpos hready, ?_⟩
      have hrx := hserve.step
      rw [hw] at hrx
      obtain ⟨hlen, hi, hcopied⟩ := hrx
      exact rxHolds_of_copied hcopied (by omega) htx.short
  | rxStore len i b hw =>
      obtain ⟨hawait, hready⟩ := hown (by simp [State.held, hw])
      refine hdata.worker rfl rfl rfl rfl (Or.inr hawait) fun bs htx hserve =>
        ⟨fun hpos => absurd hpos hready, ?_⟩
      have hrx := hserve.step
      rw [hw] at hrx
      obtain ⟨hlen, hbyte, hcopied⟩ := hrx
      obtain ⟨hi, -⟩ := List.getElem?_eq_some_iff.mp hbyte
      exact ⟨hlen, hi, hcopied.set hbyte⟩
  | received hw =>
      refine hdata.worker rfl rfl rfl rfl (Or.inl rfl) fun bs htx hserve => ⟨fun _ => ?_, trivial⟩
      have hrx := hserve.step
      rw [hw] at hrx
      exact hrx
  | _ => exact hdata.quiet rfl rfl rfl rfl rfl rfl fun _ => trivial

/-- Every step keeps the register and the bookkeeping. -/
theorem loopInv_step {s t : State} {a : Action} {done : List Call} (h : LoopInv s done)
    (hmail : MailInv s) (hland : s.LandOk) (hok : LoopbackOk s a)
    (hstep : step true s a = some t) : ∃ done', LoopInv t done' := by
  cases step_cases hstep with
  | call c hc =>
      obtain ⟨hturn, hret, hdata⟩ := h
      have hcalls : s.calls = done := by simpa [hc, ClientPc.current] using hturn.calls
      rw [hc] at hdata
      cases c with
      | write pbuf len => exact ⟨done, hturn.begin hc (by simp), hret, hok, trivial⟩
      | read len tmSec =>
          obtain ⟨bs, hlast, -⟩ := hok
          rw [hcalls, Option.mem_def] at hlast
          exact ⟨done, hturn.begin hc (by simp), hret, bs, hlast, hdata bs hlast, trivial⟩
      | destroy => exact absurd hok (by simp [LoopbackOk])
  | client hmove =>
      cases hmove with
      | write pbuf len pc hc hrun => exact loopInv_write h hc hrun
      | read len tmSec pc hc hrun => exact loopInv_read h hmail hc hrun
      | destroy pc hc hrun => exact absurd h.turn.calling (by simp [hc, ClientPc.current])
  | timeout len tmSec hc hready => exact absurd hok (by simp [LoopbackOk])
  | clockError len tmSec hc => exact absurd hok (by simp [LoopbackOk])
  | worker hrun => exact ⟨done, loopInv_serialRun h hmail hland hrun⟩

/-- The bookkeeping of the mailbox together with the register. -/
structure DeviceInv (s : State) : Prop where
  mail : MailInv s
  loop : ∃ done, LoopInv s done

/-- Between calls the invariant is what the client sees. -/
theorem LoopInv.betweenCalls {s : State} {done : List Call} (h : LoopInv s done)
    (hmail : MailInv s) (hidle : s.client = .idle) : BetweenCalls s := by
  obtain ⟨hturn, hret, -⟩ := h
  obtain ⟨-, hcmd, hrx, htx, hsent⟩ := hturn.quiet hmail (by rw [hidle]; rfl)
  have hcalls : s.calls = done := by simpa [hidle, ClientPc.current] using hturn.calls
  have hnumbered : s.sent = numbered done := by
    simpa [hidle, ClientPc.stored, ClientPc.beforeSend, ClientPc.current] using hturn.sent
  have htoken := hmail.token hturn.running
  rw [if_pos hcmd] at htoken
  exact ⟨by rw [← hsent, hnumbered, hcalls], by rw [hret, hcalls], by omega, hrx, htx, hcmd⟩

/-- **The loopback device.**  In the `DEBUG` build, in every run of calls within the
buffer size, each read preceded by a write it has room for, and no wait failing:
between calls each call has had exactly one step of the worker, in order, the
results are those of the register, the semaphores are zero and the mailbox is
empty. -/
theorem loopback_betweenCalls {s : State} (h : Reach (step true) Created LoopbackOk s)
    (hidle : s.client = .idle) : BetweenCalls s := by
  have hinv : DeviceInv s := by
    refine h.invariant (fun s hs => ⟨mailInv_created hs, [], loopInv_created hs⟩) ?_
    intro s a t hs hinv hok hstep
    obtain ⟨hmail, done, hloop⟩ := hinv
    have hland := landOk_reach hs
    exact ⟨mailInv_step hland hmail (hloop.turn.storesIntoEmpty hmail) hstep,
      loopInv_step hloop hmail hland hok hstep⟩
  obtain ⟨hmail, done, hloop⟩ := hinv
  exact hloop.betweenCalls hmail hidle

/-- A byte is written, and the read after it gets it back. -/
theorem betweenCalls_writeReadRun :
    ∃ s, Reach (step true) Created LoopbackOk s ∧ s.client = .idle ∧
      s.returns = [.wrote 0 1, .read 1 1 [7]] ∧ BetweenCalls s := by
  obtain ⟨t, hrun, hret, hidle⟩ : ∃ t,
      exec (step true) (fun s a => decide (LoopbackOk s a)) blank writeReadRun = some t ∧
        t.returns = [.wrote 0 1, .read 1 1 [7]] ∧ t.client = .idle := ⟨_, rfl, rfl, rfl⟩
  have hreach : Reach (step true) Created LoopbackOk t :=
    Reach.of_exec (fun _ _ => of_decide_eq_true) (.start created_blank) hrun
  exact ⟨t, hreach, hidle, hret, loopback_betweenCalls hreach hidle⟩

end Serial

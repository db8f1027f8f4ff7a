import Alp.SerialWorker

/-!
# Bounds of the channel buffers

In a build with `DEBUG` three loops run over the channel buffers: the copy of
`serial_dev_write`, the loop of `serial_rx_process` and the copy of
`serial_dev_read`.  None of them looks at `SERIAL_CHAN_BUF_SIZE`, and
`rxchan->len` is stored but never read, so the bounds rest on the lengths of the
calls (`ChannelOk`): a write fits the buffer, and a read has room for what the TX
channel holds.

A read that gave up leaves its RX step behind, which may run into the next write and
still use the old length.  It cannot run past that write: the worker is sequential,
so when a write returns no RX step is left (`WriteInv.settled`).  From then on the
RX step under way, if there is one, uses the length that is in the TX channel
(`RxStepOk`).
-/

set_option autoImplicit false

namespace Serial

open CString Transition

/-- The next access of each loop is inside its buffers, and no read gave more bytes
than its caller has room for. -/
structure ChannelBounds (s : State) : Prop where
  /-- `serial_dev_write` stores into `txchan->buf`. -/
  written : ∀ pbuf len i, s.client = .write pbuf len (.copy i) → i < len.toNat →
    i < serialChanBufSize
  /-- `serial_rx_process` reads `txchan->buf`. -/
  loaded : ∀ (len : Int) (i : Nat), s.worker = .rxLoad len i → i < len → i < serialChanBufSize
  /-- `serial_rx_process` stores into `rxchan->buf`. -/
  stored : ∀ len i b, s.worker = .rxStore len i b → i < serialChanBufSize
  /-- `serial_dev_read` reads `rxchan->buf` and stores into the caller's buffer. -/
  copied : ∀ len tmSec cnt i, s.client = .read len tmSec (.copy cnt i) → i < memcpyLen cnt →
    i < serialChanBufSize ∧ i < len.toNat
  /-- The results of the reads. -/
  returned : ∀ n val bytes, .read n val bytes ∈ s.returns →
    ∃ len tmSec, s.calls[n]? = some (.read len tmSec) ∧ val ≤ len.toNat

/-- The bytes an RX step copies out of a TX channel; its `len` is an `int` there. -/
def Chan.copyLen (c : Chan) : Nat :=
  c.len.toInt.toNat

/-- The condition on the calls: a write fits the TX buffer, and at a read the TX
channel holds no more than fits the RX buffer and the caller's. -/
def ChannelOk (s : State) : Action → Prop
  | .call (.write _ len) => len.toNat ≤ serialChanBufSize
  | .call (.read len _) =>
    s.txchan.copyLen ≤ serialChanBufSize ∧ s.txchan.copyLen ≤ len.toNat
  | _ => True

instance (s : State) : (a : Action) → Decidable (ChannelOk s a)
  | .call (.write _ len) => inferInstanceAs (Decidable (len.toNat ≤ serialChanBufSize))
  | .call (.read len _) =>
    inferInstanceAs (Decidable
      (s.txchan.copyLen ≤ serialChanBufSize ∧ s.txchan.copyLen ≤ len.toNat))
  | .call .destroy | .client | .timeout | .clockError | .worker => .isTrue trivial

/-- How many of the commands are `c`. -/
def commands (c : SerCmd) (l : List (Nat × SerCmd)) : Nat :=
  (l.map Prod.snd).count c

/-- The client has stored its WR command and not yet taken the completion. -/
def ClientPc.awaitsWrite : ClientPc → Bool
  | .write _ _ .post | .write _ _ .wait => true
  | _ => false

/-- The client's write is about to return. -/
def ClientPc.writeDone : ClientPc → Bool
  | .write _ _ .ret => true
  | _ => false

/-- No RX step is under way or will be, until a command is stored. -/
def State.NoRx (s : State) : Prop :=
  s.cmd = .null ∧ commands .rd s.held = 0

/-- A WR command is past the mailbox. -/
def State.wrTaken (s : State) : Prop :=
  0 < s.txReady ∨ s.worker.taking = false ∧ 0 < commands .wr s.held

/-- The WR command of the write under way. -/
structure WriteInv (s : State) : Prop where
  /-- It is in one place only: the mailbox, the worker's hands or `tx_ready`. -/
  owed : commands .wr s.held + commands .wr s.pending + s.txReady ≤ s.client.awaitsWrite.toNat
  /-- Once the worker has it, RX steps are over. -/
  settled : s.wrTaken ∨ s.client.writeDone = true → s.NoRx

@[simp] theorem commands_nil (c : SerCmd) : commands c [] = 0 := rfl

@[simp] theorem commands_single (c d : SerCmd) (n : Nat) :
    commands c [(n, d)] = if d = c then 1 else 0 := by
  by_cases h : d = c <;> simp [commands, h]

/-- The invariant of writes holds when the serial was created. -/
theorem writeInv_created {s : State} (h : Created s) : WriteInv s := by
  obtain ⟨rxchan, txchan, pbuf, rfl⟩ := h
  constructor <;>
    simp [serialDevCreate, State.held, State.pending, State.wrTaken, ClientPc.writeDone]

section Write

variable {s t : State}

/-- The mailbox is one word. -/
theorem commands_pending_le (s : State) (c : SerCmd) :
    commands c s.pending ≤ if s.cmd = c then 1 else 0 := by
  unfold State.pending
  split
  · simp
  · split
    · split <;> simp
    · simp

/-- A step of the worker passes commands on and makes no new ones. -/
theorem WorkerMove.commands_le (hmove : WorkerMove s t) (c : SerCmd) :
    commands c t.held + commands c t.pending ≤ commands c s.held + commands c s.pending := by
  cases hmove with
  | wake hw hl ha => simp [State.held, State.pending, hw]
  | look hw hl =>
      cases s.stop <;> simp [State.held, State.pending, hw, hl]
  | take hw hl =>
      cases hc : s.cmd <;> simp [State.held, State.pending, hw, hc]
  | clear d hw hl =>
      cases d <;> simp [State.held, State.pending, hw, idleLand, takeShip_idle_rx, takeShip_idle_tx]
  | sent hw hl => simp [State.held, State.pending, hw, hl]
  | received hw hl => simp [State.held, State.pending, hw, hl]
  | inside worker land rxchan hbefore hafter hheld hok =>
      have hpend : State.pending { s with worker := worker, land := land, rxchan := rxchan } =
          s.pending := State.pending_congr hafter hbefore rfl rfl
      rw [hheld, hpend]

/-- A completed TX step turns its command into a token. -/
theorem WorkerMove.commands_wr_le (hmove : WorkerMove s t) :
    commands .wr t.held + commands .wr t.pending + t.txReady ≤
      commands .wr s.held + commands .wr s.pending + s.txReady := by
  have hle := hmove.commands_le .wr
  cases hmove with
  | sent hw hl => simp [State.held, State.pending, hw, hl]; omega
  | _ => exact Nat.add_le_add_right hle _

/-- RX steps do not come back by themselves. -/
theorem WorkerMove.noRx (hmove : WorkerMove s t) (h : s.NoRx) : t.NoRx := by
  obtain ⟨hcmd, hheld⟩ := h
  have hle := hmove.commands_le .rd
  rw [State.pending_of_null hcmd, hheld, commands_nil] at hle
  refine ⟨?_, by omega⟩
  cases hmove with
  | clear c hw hl => rfl
  | _ => exact hcmd

/-- When the worker takes the WR command past the mailbox, RX steps are over. -/
theorem WorkerMove.wrTaken (hmove : WorkerMove s t) (ht : t.wrTaken) : s.wrTaken ∨ t.NoRx := by
  cases hmove with
  | wake hw hl ha => exact Or.inl (ht.imp id fun h => absurd h.1 (by simp [WorkerPc.taking]))
  | look hw hl =>
      refine Or.inl (ht.imp id fun h => absurd h.2 ?_)
      cases s.stop <;> simp [State.held, hl]
  | take hw hl => exact Or.inl (ht.imp id fun h => absurd h.1 (by simp [WorkerPc.taking]))
  | clear c hw hl =>
      rcases ht with hready | ⟨-, hheld⟩
      · exact Or.inl (Or.inl hready)
      · cases c with
        | wr => exact Or.inr ⟨rfl, by simp [State.held, idleLand, takeShip_idle_tx]⟩
        | rd => simp [State.held, idleLand, takeShip_idle_rx] at hheld
        | null => simp [State.held, idleLand] at hheld
  | sent hw hl =>
      exact Or.inl (Or.inr ⟨by rw [hw]; rfl, by simp [State.held, hw]⟩)
  | received hw hl =>
      rcases ht with hready | ⟨-, hheld⟩
      · exact Or.inl (Or.inl hready)
      · simp [State.held, hl] at hheld
  | inside worker land rxchan hbefore hafter hheld hok =>
      rcases ht with hready | ⟨-, hcount⟩
      · exact Or.inl (Or.inl hready)
      · rw [hheld] at hcount
        exact Or.inl (Or.inr ⟨hbefore, hcount⟩)

/-- A move of the worker keeps the invariant of writes. -/
theorem WriteInv.worker (h : WriteInv s) (hmove : WorkerMove s t) : WriteInv t where
  owed := by
    rw [hmove.frame.1]
    exact Nat.le_trans hmove.commands_wr_le h.owed
  settled := by
    rw [hmove.frame.1]
    rintro (htaken | hdone)
    · rcases hmove.wrTaken htaken with hbefore | hno
      · exact hmove.noRx (h.settled (Or.inl hbefore))
      · exact hno
    · exact hmove.noRx (h.settled (Or.inr hdone))

/-- While no WR completion is awaited, the command is nowhere. -/
theorem WriteInv.not_taken (h : WriteInv s) (hawait : s.client.awaitsWrite = false) :
    ¬ s.wrTaken := by
  have howed := h.owed
  rw [hawait, Bool.toNat_false] at howed
  rintro (hready | ⟨-, hheld⟩) <;> omega

/-- A step of the client that leaves the WR command where it is. -/
theorem WriteInv.move (h : WriteInv s) (hcmd : t.cmd = s.cmd) (hheld : t.held = s.held)
    (hpend : t.pending = s.pending) (htaking : t.worker.taking = s.worker.taking)
    (htx : t.txReady = s.txReady) (hawait : t.client.awaitsWrite = s.client.awaitsWrite)
    (hdone : t.client.writeDone = false) : WriteInv t where
  owed := by
    rw [hheld, hpend, htx, hawait]
    exact h.owed
  settled := by
    rintro (htaken | hdone')
    · have hbefore : s.wrTaken := by
        unfold State.wrTaken at htaken
        rwa [htx, htaking, hheld] at htaken
      obtain ⟨hnull, hno⟩ := h.settled (Or.inl hbefore)
      exact ⟨hcmd.trans hnull, hheld ▸ hno⟩
    · rw [hdone] at hdone'
      cases hdone'

/-- Storing a command: of the call under way only a write awaits one. -/
theorem WriteInv.store (h : WriteInv s) {c : SerCmd} {pc : ClientPc}
    (hawait : s.client.awaitsWrite = false) (hdone : pc.writeDone = false)
    (hc : c = .wr → pc.awaitsWrite = true) : WriteInv { s.storeCmd c with client := pc } where
  owed := by
    have howed := h.owed
    have hpend : commands .wr (State.pending { s.storeCmd c with client := pc }) ≤
        if c = .wr then 1 else 0 := commands_pending_le _ .wr
    rw [hawait, Bool.toNat_false] at howed
    show commands .wr s.held + _ + s.txReady ≤ pc.awaitsWrite.toNat
    by_cases hwr : c = .wr
    · rw [hc hwr, Bool.toNat_true]
      have hone : commands .wr (State.pending { s.storeCmd c with client := pc }) ≤ 1 := by
        refine Nat.le_trans hpend ?_
        split <;> omega
      omega
    · have hzero : commands .wr (State.pending { s.storeCmd c with client := pc }) ≤ 0 := by
        rwa [if_neg hwr] at hpend
      omega
  settled := by
    rintro (htaken | hdone')
    · exact absurd htaken (h.not_taken hawait)
    · exact absurd hdone' (by simp [hdone])

/-- Taking the completion of the write. -/
theorem WriteInv.take (h : WriteInv s) {pc : ClientPc} (hready : 0 < s.txReady)
    (hawait : pc.awaitsWrite = false) :
    WriteInv { s with client := pc, txReady := s.txReady - 1 } where
  owed := by
    have howed := h.owed
    have hone : s.client.awaitsWrite.toNat ≤ 1 := by cases s.client.awaitsWrite <;> decide
    show commands .wr s.held + commands .wr s.pending + (s.txReady - 1) ≤ pc.awaitsWrite.toNat
    rw [hawait, Bool.toNat_false]
    omega
  settled := fun _ => h.settled (Or.inl (Or.inl hready))

/-- A move of the client keeps the invariant of writes. -/
theorem WriteInv.client (h : WriteInv s) (hmove : ClientMove s t) : WriteInv t := by
  cases hmove with
  | write pbuf len pc hc hrun =>
      cases pc with
      | cmd =>
          cases hrun
          exact h.store (by rw [hc]; rfl) rfl fun _ => rfl
      | wait =>
          simp only [serialDevWrite] at hrun
          split at hrun
          · next hready =>
              cases hrun
              exact h.take hready rfl
          · cases hrun
      | cnt | len | post | ret =>
          cases hrun
          exact h.move rfl rfl rfl rfl rfl (by rw [hc]; rfl) rfl
      | copy i =>
          simp only [serialDevWrite] at hrun
          split at hrun <;> cases hrun <;>
            exact h.move rfl rfl rfl rfl rfl (by rw [hc]; rfl) rfl
  | read len tmSec pc hc hrun =>
      cases pc with
      | cmd =>
          cases hrun
          exact h.store (by rw [hc]; rfl) rfl fun hrd => by cases hrd
      | cnt | len | timeout | post | clock =>
          cases hrun
          exact h.move rfl rfl rfl rfl rfl (by rw [hc]; rfl) rfl
      | wait | get | copy cnt i =>
          simp only [serialDevRead] at hrun
          split at hrun <;> cases hrun <;>
            exact h.move rfl rfl rfl rfl rfl (by rw [hc]; rfl) rfl
  | destroy pc hc hrun =>
      cases pc <;> simp only [serialDevDestroy] at hrun <;> (try split at hrun) <;>
        cases hrun <;> exact h.move rfl rfl rfl rfl rfl (by rw [hc]; rfl) rfl

/-- The WR command of a write never is in two places. -/
theorem writeInv_step {debug : Bool} {a : Action} (h : WriteInv s) (hland : s.LandOk)
    (hstep : step debug s a = some t) : WriteInv t := by
  cases step_cases hstep with
  | call c hc => exact h.move rfl rfl rfl rfl rfl (by rw [hc]; cases c <;> rfl) (by cases c <;> rfl)
  | client hmove => exact h.client hmove
  | timeout len tmSec hc hready => exact h.move rfl rfl rfl rfl rfl (by rw [hc]; rfl) rfl
  | clockError len tmSec hc => exact h.move rfl rfl rfl rfl rfl (by rw [hc]; rfl) rfl
  | worker hrun => exact h.worker (serialRun_cases hland hrun)

end Write

/-- The write under way has stored its length. -/
def ClientPc.lenStored : ClientPc → Bool
  | .write _ _ .cnt | .write _ _ .len => false
  | .write _ _ _ => true
  | _ => false

/-- The RX step under way.  Unless a write has changed it meanwhile, its length is
that of the TX channel. -/
def RxStepOk (s : State) : Prop :=
  match s.worker with
  | .rxLoad len i => len.toNat ≤ serialChanBufSize ∧ i ≤ len.toNat ∧
      (s.client.lenStored = false → len.toNat = s.txchan.copyLen)
  | .rxStore len i _ => len.toNat ≤ serialChanBufSize ∧ i < len.toNat ∧
      (s.client.lenStored = false → len.toNat = s.txchan.copyLen)
  | _ => True

/-- The count a read has found in the RX channel, or will find there. -/
def ReadCount (s : State) : RdPc → Prop
  | .cnt => True
  | .copy cnt _ => cnt.toNat ≤ s.txchan.copyLen
  | _ => s.rxchan.cnt.toNat ≤ s.txchan.copyLen

/-- The call under way. -/
def CallOk (s : State) : Prop :=
  match s.client with
  | .write _ len _ => len.toNat ≤ serialChanBufSize ∧
      (s.client.lenStored = true → s.txchan.len = len)
  | .read len tmSec pc => s.txchan.copyLen ≤ serialChanBufSize ∧ s.txchan.copyLen ≤ len.toNat ∧
      s.calls[s.cur]? = some (.read len tmSec) ∧ ReadCount s pc
  | _ => True

/-- The results of the reads are within their lengths. -/
def ReadsOk (s : State) : Prop :=
  ∀ n val bytes, .read n val bytes ∈ s.returns →
    ∃ len tmSec, s.calls[n]? = some (.read len tmSec) ∧ val ≤ len.toNat

/-- The lengths of the calls, of the channels and of the RX step. -/
structure LenInv (s : State) : Prop where
  served : s.cmd = .rd ∨ 0 < commands .rd s.held → s.txchan.copyLen ≤ serialChanBufSize
  step : RxStepOk s
  call : CallOk s
  returned : ReadsOk s

/-- The invariant of lengths holds when the serial was created. -/
theorem lenInv_created {s : State} (h : Created s) : LenInv s := by
  obtain ⟨rxchan, txchan, pbuf, rfl⟩ := h
  refine ⟨?_, trivial, trivial, ?_⟩
  · simp [serialDevCreate, State.held]
  · intro n val bytes hmem
    cases hmem

/-- A length within the buffer is the length copied. -/
theorem copyLen_of_short {c : Chan} (h : c.len.toNat ≤ serialChanBufSize) :
    c.copyLen = c.len.toNat := by
  rw [Chan.copyLen, toInt_of_short h, Int.toNat_natCast]

section Lengths

variable {s t : State}

/-- A step of the client leaves the RX step as it is. -/
theorem RxStepOk.client (h : RxStepOk s) (hworker : t.worker = s.worker)
    (hlen : t.client.lenStored = false →
      s.client.lenStored = false ∧ t.txchan.copyLen = s.txchan.copyLen) : RxStepOk t := by
  unfold RxStepOk at h ⊢
  rw [hworker]
  split at h
  · next len i hw =>
      obtain ⟨hshort, hi, hsame⟩ := h
      refine ⟨hshort, hi, fun hno => ?_⟩
      rw [(hlen hno).2]
      exact hsame (hlen hno).1
  · next len i b hw =>
      obtain ⟨hshort, hi, hsame⟩ := h
      refine ⟨hshort, hi, fun hno => ?_⟩
      rw [(hlen hno).2]
      exact hsame (hlen hno).1
  · trivial

/-- While the write under way has stored its length the RX step may use another one. -/
theorem RxStepOk.stored (h : RxStepOk s) (hworker : t.worker = s.worker)
    (hstored : t.client.lenStored = true) : RxStepOk t := by
  apply h.client hworker
  intro hno
  rw [hstored] at hno
  cases hno

/-- No RX step, nothing to say. -/
theorem State.NoRx.rxStepOk (h : s.NoRx) (hworker : t.worker = s.worker) : RxStepOk t := by
  have hheld := h.2
  unfold RxStepOk
  rw [hworker]
  split
  · next hw => simp [State.held, hw] at hheld
  · next hw => simp [State.held, hw] at hheld
  · trivial

/-- A step of `serial_dev_write`. -/
theorem lenInv_write {pbuf : Mem} {len : BitVec 32} {pc : WrPc} (h : LenInv s)
    (hwrite : WriteInv s) (hc : s.client = .write pbuf len pc)
    (hstep : serialDevWrite s pbuf len pc = some t) : LenInv t := by
  obtain ⟨hserved, hrx, hcall, hret⟩ := h
  unfold CallOk at hcall
  rw [hc] at hcall
  obtain ⟨hfits, hlen⟩ := hcall
  have hshort : s.client.lenStored = true → s.txchan.copyLen ≤ serialChanBufSize := by
    intro hstored
    rw [hc] at hstored
    rw [copyLen_of_short (by rw [hlen hstored]; exact hfits), hlen hstored]
    exact hfits
  cases pc with
  | cnt =>
      cases hstep
      exact ⟨hserved, hrx.client rfl fun _ => ⟨by rw [hc]; rfl, rfl⟩,
        ⟨hfits, fun hstored => by cases hstored⟩, hret⟩
  | len =>
      cases hstep
      refine ⟨fun _ => ?_, hrx.stored rfl rfl, ⟨hfits, fun _ => rfl⟩, hret⟩
      rw [copyLen_of_short hfits]
      exact hfits
  | copy i =>
      simp only [serialDevWrite] at hstep
      split at hstep <;> cases hstep <;>
        exact ⟨hserved, hrx.stored rfl rfl, ⟨hfits, fun _ => hlen rfl⟩, hret⟩
  | cmd =>
      cases hstep
      exact ⟨fun _ => hshort (by rw [hc]; rfl), hrx.stored rfl rfl,
        ⟨hfits, fun _ => hlen rfl⟩, hret⟩
  | post =>
      cases hstep
      exact ⟨hserved, hrx.stored rfl rfl, ⟨hfits, fun _ => hlen rfl⟩, hret⟩
  | wait =>
      simp only [serialDevWrite] at hstep
      split at hstep <;> cases hstep
      exact ⟨hserved, hrx.stored rfl rfl, ⟨hfits, fun _ => hlen rfl⟩, hret⟩
  | ret =>
      -- the length of the next RX step is that of this write from here on
      have hno : s.NoRx := hwrite.settled (Or.inr (by rw [hc]; rfl))
      cases hstep
      refine ⟨hserved, hno.rxStepOk rfl, trivial, fun n val bytes hmem => ?_⟩
      rcases List.mem_append.mp hmem with hmem | hmem
      · exact hret n val bytes hmem
      · simp at hmem

/-- A read ends with a result that fits. -/
theorem LenInv.finish {len tmSec : BitVec 32} {pc : RdPc} (h : LenInv s)
    (hc : s.client = .read len tmSec pc) {val : Int} (bytes : List UInt8) (hval : val ≤ len.toNat) :
    LenInv (s.finish (.read s.cur val bytes)) := by
  obtain ⟨hserved, hrx, hcall, hret⟩ := h
  unfold CallOk at hcall
  rw [hc] at hcall
  obtain ⟨-, -, hcur, -⟩ := hcall
  refine ⟨hserved, hrx.client rfl fun _ => ⟨by rw [hc]; rfl, rfl⟩, trivial, ?_⟩
  intro n val' bytes' hmem
  rcases List.mem_append.mp hmem with hmem | hmem
  · exact hret n val' bytes' hmem
  · obtain ⟨rfl, rfl, rfl⟩ : n = s.cur ∧ val' = val ∧ bytes' = bytes := by simpa using hmem
    exact ⟨len, tmSec, hcur, hval⟩

/-- A step of `serial_dev_read`. -/
theorem lenInv_read {len tmSec : BitVec 32} {pc : RdPc} (h : LenInv s)
    (hc : s.client = .read len tmSec pc) (hstep : serialDevRead s len tmSec pc = some t) :
    LenInv t := by
  have hkeep := h
  obtain ⟨hserved, hrx, hcall, hret⟩ := h
  unfold CallOk at hcall
  rw [hc] at hcall
  obtain ⟨hshort, hroom, hcur, hcount⟩ := hcall
  have hstay : ∀ u : State, u.worker = s.worker → u.client.lenStored = false →
      u.txchan = s.txchan → RxStepOk u := by
    intro u hworker hno htx
    exact hrx.client hworker fun _ => ⟨by rw [hc]; rfl, by rw [htx]⟩
  cases pc with
  | cnt =>
      cases hstep
      exact ⟨hserved, hstay _ rfl rfl rfl, ⟨hshort, hroom, hcur, Nat.zero_le _⟩, hret⟩
  | cmd =>
      cases hstep
      exact ⟨fun _ => hshort, hstay _ rfl rfl rfl, ⟨hshort, hroom, hcur, hcount⟩, hret⟩
  | len | timeout | post | clock =>
      cases hstep
      exact ⟨hserved, hstay _ rfl rfl rfl, ⟨hshort, hroom, hcur, hcount⟩, hret⟩
  | wait =>
      simp only [serialDevRead] at hstep
      split at hstep <;> cases hstep
      exact ⟨hserved, hstay _ rfl rfl rfl, ⟨hshort, hroom, hcur, hcount⟩, hret⟩
  | get =>
      simp only [serialDevRead] at hstep
      split at hstep <;> cases hstep
      · exact hkeep.finish hc [] (by omega)
      · exact ⟨hserved, hstay _ rfl rfl rfl, ⟨hshort, hroom, hcur, hcount⟩, hret⟩
  | copy cnt i =>
      have hcnt : cnt.toNat ≤ s.txchan.copyLen := hcount
      simp only [serialDevRead] at hstep
      split at hstep <;> cases hstep
      · exact ⟨hserved, hstay _ rfl rfl rfl, ⟨hshort, hroom, hcur, hcount⟩, hret⟩
      · refine hkeep.finish hc _ ?_
        have hle : cnt.toInt ≤ cnt.toNat := by rw [BitVec.toInt_eq_toNat_cond]; split <;> omega
        omega

/-- An RX step of the `DEBUG` build, and the count it leaves in the RX channel. -/
theorem rxStepOk_serialRun (h : RxStepOk s)
    (hlen : s.worker = .rxLen → s.txchan.copyLen ≤ serialChanBufSize)
    (hstep : serialRun true s = some t) :
    RxStepOk t ∧ (t.rxchan.cnt = s.rxchan.cnt ∨
      (s.client.lenStored = false → t.rxchan.cnt.toNat ≤ s.txchan.copyLen)) := by
  cases serialRun_moves hstep with
  | rxLen hw => exact ⟨⟨hlen hw, Nat.zero_le _, fun _ => rfl⟩, Or.inl rfl⟩
  | rxLoad len i hw hlt =>
      unfold RxStepOk at h
      rw [hw] at h
      obtain ⟨hshort, hi, hsame⟩ := h
      exact ⟨⟨hshort, by omega, hsame⟩, Or.inl rfl⟩
  | rxCount len i hw hge =>
      unfold RxStepOk at h
      rw [hw] at h
      obtain ⟨hshort, hi, hsame⟩ := h
      refine ⟨trivial, Or.inr fun hno => ?_⟩
      show (BitVec.ofNat 32 i).toNat ≤ s.txchan.copyLen
      have hle := hsame hno
      rw [BitVec.toNat_ofNat]
      exact Nat.le_trans (Nat.mod_le _ _) (by omega)
  | rxStore len i b hw =>
      unfold RxStepOk at h
      rw [hw] at h
      exact ⟨h, Or.inl rfl⟩
  | reset hw hl =>
      refine ⟨?_, Or.inl rfl⟩
      unfold RxStepOk
      rw [hw]
      trivial
  | look hw | back hw =>
      refine ⟨?_, Or.inl rfl⟩
      cases s.stop <;> trivial
  | _ => exact ⟨trivial, Or.inl rfl⟩

/-- An RD command the worker comes to hold was in the mailbox or in its hands. -/
theorem WorkerMove.rd_before (hmove : WorkerMove s t)
    (h : t.cmd = .rd ∨ 0 < commands .rd t.held) : s.cmd = .rd ∨ 0 < commands .rd s.held := by
  rcases h with hcmd | hheld
  · cases hmove with
    | clear c hw hl => cases hcmd
    | _ => exact Or.inl hcmd
  · have hle := hmove.commands_le .rd
    have hpend := commands_pending_le s .rd
    by_cases hcmd : s.cmd = .rd
    · exact Or.inl hcmd
    · rw [if_neg hcmd] at hpend
      exact Or.inr (by omega)

/-- A step of the worker keeps the invariant of lengths. -/
theorem LenInv.worker (h : LenInv s) (hland : s.LandOk) (hstep : serialRun true s = some t) :
    LenInv t := by
  have hmove := serialRun_cases hland hstep
  obtain ⟨hclient, htx, hcalls, hreturns, hcur⟩ := hmove.frame
  obtain ⟨hserved, hrx, hcall, hret⟩ := h
  obtain ⟨hrx', hcnt⟩ := rxStepOk_serialRun hrx
    (fun hw => hserved (Or.inr (by simp [State.held, hw]))) hstep
  refine ⟨fun hrd => ?_, hrx', ?_, ?_⟩
  · rw [htx]
    exact hserved (hmove.rd_before hrd)
  · unfold CallOk at hcall ⊢
    rw [hclient, htx, hcalls, hcur]
    split at hcall
    · exact hcall
    · next len tmSec pc hc =>
        obtain ⟨hshort, hroom, hnum, hcount⟩ := hcall
        refine ⟨hshort, hroom, hnum, ?_⟩
        have hcnt' : s.rxchan.cnt.toNat ≤ s.txchan.copyLen →
            t.rxchan.cnt.toNat ≤ t.txchan.copyLen := by
          intro hle
          rw [htx]
          rcases hcnt with heq | hnew
          · rwa [heq]
          · exact hnew (by rw [hc]; rfl)
        cases pc with
        | cnt => trivial
        | copy cnt i => simpa only [ReadCount, htx] using hcount
        | _ => exact hcnt' hcount
    · trivial
  · unfold ReadsOk
    rw [hreturns, hcalls]
    exact hret

/-- A call within the bounds begins. -/
theorem LenInv.begin (h : LenInv s) (hc : s.client = .idle) {c : Call}
    (hok : ChannelOk s (.call c)) :
    LenInv { s with client := c.entry, cur := s.calls.length, calls := s.calls ++ [c] } := by
  obtain ⟨hserved, hrx, -, hret⟩ := h
  have hidle : s.client.lenStored = false := by rw [hc]; rfl
  refine ⟨hserved, hrx.client rfl fun _ => ⟨hidle, rfl⟩, ?_, fun n val bytes hmem => ?_⟩
  · cases c with
    | write pbuf len => exact ⟨hok, fun hstored => by cases hstored⟩
    | read len tmSec => exact ⟨hok.1, hok.2, by simp, trivial⟩
    | destroy => trivial
  · obtain ⟨len, tmSec, hnum, hval⟩ := hret n val bytes hmem
    obtain ⟨hn, -⟩ := List.getElem?_eq_some_iff.mp hnum
    exact ⟨len, tmSec, by simp [List.getElem?_append_left hn, hnum], hval⟩

/-- A step of `serial_dev_destroy`. -/
theorem lenInv_destroy {pc : StPc} (h : LenInv s) (hc : s.client = .destroy pc)
    (hstep : serialDevDestroy s pc = some t) : LenInv t := by
  obtain ⟨hserved, hrx, -, hret⟩ := h
  have hbefore : s.client.lenStored = false := by rw [hc]; rfl
  cases pc <;> simp only [serialDevDestroy] at hstep <;> (try split at hstep) <;>
    cases hstep <;> exact ⟨hserved, hrx.client rfl fun _ => ⟨hbefore, rfl⟩, trivial, hret⟩

/-- Every step whose call is within the bounds keeps the lengths. -/
theorem lenInv_step {a : Action} (h : LenInv s) (hwrite : WriteInv s) (hland : s.LandOk)
    (hok : ChannelOk s a) (hstep : step true s a = some t) : LenInv t := by
  cases step_cases hstep with
  | call c hc => exact h.begin hc hok
  | client hmove =>
      cases hmove with
      | write pbuf len pc hc hrun => exact lenInv_write h hwrite hc hrun
      | read len tmSec pc hc hrun => exact lenInv_read h hc hrun
      | destroy pc hc hrun => exact lenInv_destroy h hc hrun
  | timeout len tmSec hc hready => exact h.finish hc [] (by omega)
  | clockError len tmSec hc => exact h.finish hc [] (by omega)
  | worker hrun => exact h.worker hland hrun

/-- The lengths bound the next accesses. -/
theorem LenInv.channelBounds (h : LenInv s) : ChannelBounds s := by
  obtain ⟨-, hrx, hcall, hret⟩ := h
  unfold RxStepOk at hrx
  unfold CallOk at hcall
  refine ⟨?_, ?_, ?_, ?_, hret⟩
  · intro pbuf len i hc hi
    rw [hc] at hcall
    exact Nat.lt_of_lt_of_le hi hcall.1
  · intro len i hw hi
    rw [hw] at hrx
    have hshort := hrx.1
    omega
  · intro len i b hw
    rw [hw] at hrx
    exact Nat.lt_of_lt_of_le hrx.2.1 hrx.1
  · intro len tmSec cnt i hc hi
    rw [hc] at hcall
    obtain ⟨hshort, hroom, -, hcount⟩ := hcall
    have hcnt : cnt.toNat ≤ s.txchan.copyLen := hcount
    rw [memcpyLen_of_short (Nat.le_trans hcnt hshort)] at hi
    omega

end Lengths

/-- The WR command of the write under way and the lengths. -/
structure BoundsInv (s : State) : Prop where
  write : WriteInv s
  len : LenInv s

/-- A step that meets the condition keeps both invariants. -/
theorem boundsInv_step {s t : State} {a : Action} (h : BoundsInv s) (hland : s.LandOk)
    (hok : ChannelOk s a) (hstep : step true s a = some t) : BoundsInv t :=
  ⟨writeInv_step h.write hland hstep, lenInv_step h.len h.write hland hok hstep⟩

/-- **Bounds of the channels.**  In the `DEBUG` build, in every run whose writes fit
the TX buffer and whose reads have room for what the TX channel holds, timeouts
included: every access of the three copy loops is inside its buffers, and no read
gives more bytes than its caller asked for. -/
theorem channelBounds_of_reach {s : State} (h : Reach (step true) Created ChannelOk s) :
    ChannelBounds s := by
  have hinv : BoundsInv s := by
    apply h.invariant
    · intro s hs
      exact ⟨writeInv_created hs, lenInv_created hs⟩
    · intro s a t hs hinv hok hstep
      exact boundsInv_step hinv (landOk_reach hs) hok hstep
  exact hinv.len.channelBounds

/-- A byte is written and read back within the bounds. -/
theorem channelBounds_writeReadRun :
    ∃ s, Reach (step true) Created ChannelOk s ∧ s.returns = [.wrote 0 1, .read 1 1 [7]] ∧
      ChannelBounds s := by
  obtain ⟨t, hrun, hret⟩ : ∃ t,
      exec (step true) (fun s a => decide (ChannelOk s a)) blank writeReadRun = some t ∧
        t.returns = [.wrote 0 1, .read 1 1 [7]] := ⟨_, rfl, rfl⟩
  have hreach : Reach (step true) Created ChannelOk t :=
    Reach.of_exec (fun _ _ => of_decide_eq_true) (.start created_blank) hrun
  exact ⟨t, hreach, hret, channelBounds_of_reach hreach⟩

/-- A two-byte write, and a read with room for one. -/
def shortReadRun : List Action :=
  .call (.write (fun _ => 7) 2) :: List.replicate 7 .client ++ List.replicate 8 .worker ++
    [.client, .client, .call (.read 1 1)] ++ List.replicate 6 .client ++
    List.replicate 14 .worker ++ List.replicate 5 .client

/-- A read gives its caller more bytes than asked for. -/
theorem read_past_caller :
    ¬ ∀ s : State, Reach (step true) Created anyStep s → ChannelBounds s := by
  intro hclaim
  obtain ⟨t, hrun, hret, hcalls⟩ : ∃ t,
      exec (step true) (fun _ _ => true) blank shortReadRun = some t ∧
        t.returns = [.wrote 0 2, .read 1 2 [7, 7]] ∧ t.calls[1]? = some (.read 1 1) :=
    ⟨_, rfl, rfl, rfl⟩
  have hreach : Reach (step true) Created anyStep t :=
    Reach.of_exec (fun _ _ _ => trivial) (.start created_blank) hrun
  obtain ⟨len, tmSec, hcall, hval⟩ := (hclaim t hreach).returned 1 2 [7, 7] (by simp [hret])
  rw [hcalls] at hcall
  cases hcall
  simp at hval

end Serial

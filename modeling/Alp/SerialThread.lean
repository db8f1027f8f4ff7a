import Alp.CString
import Alp.Transition

/-!
# The serial device: one client thread and the worker

This file embeds `drivers/serial_thread.c` and `common/island.c`.  The client
runs `serial_dev_write`, `serial_dev_read` and `serial_dev_destroy` one after
another; the worker runs `serial_run`.  They share the mailbox word `ctrl->cmd`,
the stop flag, three semaphores and the two channels.

A step of either thread makes one access to shared memory or one semaphore
operation, together with the local work around it, so `step` interleaves them at
every such access; `step_cases` and `serialRun_moves` say once what a step can do.
Semaphores are counters: `os_sem_wait` blocks at zero, and `os_sem_timedwait` may
also give up while the count is zero.

Next to the C fields the state carries a record of the run: the call numbers
(`cur`, `cmdTag`, `wTag`) and the lists `calls`, `sent`, `ran` and `returns`.
No step tests them.
-/

set_option autoImplicit false

namespace Serial

open CString

/-- `island_t`. -/
inductive Island
  | null
  | idle
  | tx
  | rx
  deriving DecidableEq

/-- `enum ticket`. -/
inductive Ticket
  | idleToIdle
  | idleToTx
  | txToIdle
  | idleToRx
  | rxToRx
  | rxToIdle
  deriving DecidableEq

/-- `struct ship_ticket`. -/
structure ShipTicket where
  origin : Island
  dest : Island
  t : Ticket

/-- `tickets`. -/
def tickets : List ShipTicket :=
  [⟨.idle, .idle, .idleToIdle⟩, ⟨.idle, .tx, .idleToTx⟩, ⟨.tx, .idle, .txToIdle⟩,
    ⟨.idle, .rx, .idleToRx⟩, ⟨.rx, .rx, .rxToRx⟩, ⟨.rx, .idle, .rxToIdle⟩]

/-- `take_ship`. -/
def takeShip (origin : Island) (t : Ticket) : Island :=
  match tickets.find? (fun pt => pt.origin == origin && pt.t == t) with
  | some pt => pt.dest
  | none => .null

/-- `SERIAL_CHAN_BUF_SIZE`. -/
def serialChanBufSize : Nat := 0x2000

/-- The words of the mailbox `ctrl->cmd`. -/
inductive SerCmd
  | null
  | rd
  | wr
  deriving DecidableEq

/-- `struct serial_chan`; `buf` is the memory from the buffer on, so an access behind its
`SERIAL_CHAN_BUF_SIZE` bytes is seen, but not what lies there. -/
structure Chan where
  buf : Mem
  cnt : BitVec 32
  len : BitVec 32
  timeout : BitVec 32

/-- A call of the client: `dev->write`, `dev->read` or `serial_dev_destroy`. -/
inductive Call
  | write (pbuf : Mem) (len : BitVec 32)
  | read (len tmSec : BitVec 32)
  | destroy

/-- The command a call posts. -/
def Call.cmd : Call → SerCmd
  | .write _ _ => .wr
  | .read _ _ => .rd
  | .destroy => .null

/-- Points of `serial_dev_write`. -/
inductive WrPc
  /-- `txchan->cnt = 0` -/
  | cnt
  /-- `txchan->len = len` -/
  | len
  /-- `memcpy` of byte `i` -/
  | copy (i : Nat)
  /-- `ctrl->cmd = SER_CMD_WR` -/
  | cmd
  /-- `os_sem_post(&ctrl->active)` -/
  | post
  /-- `os_sem_wait(&ctrl->tx_ready)` -/
  | wait
  /-- `cnt = (int)(txchan->len)` -/
  | ret
  deriving DecidableEq

/-- Points of `serial_dev_read`. -/
inductive RdPc
  /-- `rxchan->cnt = 0` -/
  | cnt
  /-- `rxchan->len = len` -/
  | len
  /-- `rxchan->timeout = tm_sec` -/
  | timeout
  /-- `ctrl->cmd = SER_CMD_RD` -/
  | cmd
  /-- `os_sem_post(&ctrl->active)` -/
  | post
  /-- `clock_gettime` -/
  | clock
  /-- `os_sem_timedwait(&ctrl->rx_ready)` -/
  | wait
  /-- `cnt = (int)(rxchan->cnt)` -/
  | get
  /-- `memcpy` of byte `i` of `cnt` -/
  | copy (cnt : BitVec 32) (i : Nat)
  deriving DecidableEq

/-- Points of `serial_dev_destroy`. -/
inductive StPc
  /-- `ctrl->stop = 1` -/
  | set
  /-- `os_sem_post(&ctrl->active)` -/
  | post
  /-- `pthread_join` -/
  | join
  deriving DecidableEq

/-- Where the client is. -/
inductive ClientPc
  | idle
  | write (pbuf : Mem) (len : BitVec 32) (pc : WrPc)
  | read (len tmSec : BitVec 32) (pc : RdPc)
  | destroy (pc : StPc)
  /-- The device is closed and freed. -/
  | gone

/-- Where the worker is. -/
inductive WorkerPc
  /-- The head of the loop of `serial_run`. -/
  | loop
  /-- `os_sem_wait(&ctrl->active)` in `serial_idle_process` -/
  | idleWait
  /-- `serial_is_stopped` in `serial_idle_process` -/
  | idleStop
  /-- `cmd = ctrl->cmd` -/
  | idleRead
  /-- `ctrl->cmd = SER_CMD_NULL`, having read `cmd` -/
  | idleClear (cmd : SerCmd)
  /-- `serial_is_stopped` in `serial_run`, after `serial_idle_process` -/
  | idleRet
  /-- `os_sem_post(&ctrl->tx_ready)` -/
  | txPost
  /-- `len = txchan->len` -/
  | rxLen
  /-- `txchan->buf[i]` in the copy loop, or `rxchan->cnt = i` at its end -/
  | rxLoad (len : Int) (i : Nat)
  /-- `rxbuf[i] = b` -/
  | rxStore (len : Int) (i : Nat) (b : UInt8)
  /-- `os_sem_post(&ctrl->rx_ready)` -/
  | rxPost
  /-- The loop is left. -/
  | done
  deriving DecidableEq

/-- A finished call: its number, its result, and for a read the bytes it stored. -/
inductive Ret
  | wrote (call : Nat) (val : Int)
  | read (call : Nat) (val : Int) (bytes : List UInt8)
  deriving DecidableEq

/-- The device with both threads. -/
structure State where
  cmd : SerCmd
  stop : Bool
  active : Nat
  rxReady : Nat
  txReady : Nat
  rxchan : Chan
  txchan : Chan
  client : ClientPc
  /-- The caller's buffer of a read. -/
  pbuf : Mem
  worker : WorkerPc
  land : Island
  /-- Number of the call under way. -/
  cur : Nat
  /-- Number of the call that stored `cmd`. -/
  cmdTag : Nat
  /-- Number of the call whose command the worker read last. -/
  wTag : Nat
  /-- The calls begun. -/
  calls : List Call
  /-- The commands stored in the mailbox. -/
  sent : List (Nat × SerCmd)
  /-- The TX and RX steps the worker completed. -/
  ran : List (Nat × SerCmd)
  /-- The finished calls. -/
  returns : List Ret

/-- After `serial_dev_create`, whatever memory it was given. -/
def serialDevCreate (rxchan txchan : Chan) (pbuf : Mem) : State where
  cmd := .null
  stop := false
  active := 0
  rxReady := 0
  txReady := 0
  rxchan := rxchan
  txchan := txchan
  client := .idle
  pbuf := pbuf
  worker := .loop
  land := .idle
  cur := 0
  cmdTag := 0
  wTag := 0
  calls := []
  sent := []
  ran := []
  returns := []

/-- The states a device starts in. -/
def Created (s : State) : Prop :=
  ∃ rxchan txchan pbuf, s = serialDevCreate rxchan txchan pbuf

/-- Who moves. -/
inductive Action
  /-- The client begins a call. -/
  | call (c : Call)
  /-- The client goes on with its call. -/
  | client
  /-- `sem_timedwait` gives up. -/
  | timeout
  /-- `clock_gettime` fails. -/
  | clockError
  /-- The worker goes on. -/
  | worker

/-- The first point of a call. -/
def Call.entry : Call → ClientPc
  | .write pbuf len => .write pbuf len .cnt
  | .read len tmSec => .read len tmSec .cnt
  | .destroy => .destroy .set

/-- The bytes `memcpy` moves for an `int` count. -/
def memcpyLen (cnt : BitVec 32) : Nat :=
  (cnt.signExtend 64).toNat

/-- As an `int` a count within the buffer size is itself. -/
theorem toInt_of_short {x : BitVec 32} (h : x.toNat ≤ serialChanBufSize) : x.toInt = x.toNat := by
  unfold serialChanBufSize at h
  exact BitVec.toInt_eq_toNat_of_lt (by omega)

/-- A length within the buffer is the length copied. -/
theorem memcpyLen_of_short {x : BitVec 32} (h : x.toNat ≤ serialChanBufSize) :
    memcpyLen x = x.toNat := by
  unfold serialChanBufSize at h
  have hmsb : x.msb = false := BitVec.msb_eq_false_iff_two_mul_lt.mpr (by omega)
  rw [memcpyLen, BitVec.signExtend_eq_setWidth_of_msb_false hmsb, BitVec.toNat_setWidth]
  omega

/-- `serial_send_cmd`'s store into the mailbox. -/
def State.storeCmd (s : State) (c : SerCmd) : State :=
  { s with cmd := c, cmdTag := s.cur, sent := s.sent ++ [(s.cur, c)] }

/-- The client's call ends. -/
def State.finish (s : State) (r : Ret) : State :=
  { s with client := .idle, returns := s.returns ++ [r] }

/-- The bytes a read stored in the caller's buffer. -/
def State.received (s : State) (n : Nat) : List UInt8 :=
  (List.range n).map s.pbuf

/-- A step of `serial_dev_write`. -/
def serialDevWrite (s : State) (pbuf : Mem) (len : BitVec 32) : WrPc → Option State
  | .cnt => some { s with
      client := .write pbuf len .len, txchan := { s.txchan with cnt := 0 } }
  | .len => some { s with
      client := .write pbuf len (.copy 0), txchan := { s.txchan with len := len } }
  | .copy i =>
    if i < len.toNat then some { s with
      client := .write pbuf len (.copy (i + 1)),
      txchan := { s.txchan with buf := s.txchan.buf.set i (pbuf i) } }
    else some { s with client := .write pbuf len .cmd }
  | .cmd => some { s.storeCmd .wr with client := .write pbuf len .post }
  | .post => some { s with client := .write pbuf len .wait, active := s.active + 1 }
  | .wait =>
    if 0 < s.txReady then some { s with
      client := .write pbuf len .ret, txReady := s.txReady - 1 }
    else none
  | .ret => some (s.finish (.wrote s.cur s.txchan.len.toInt))

/-- A step of `serial_dev_read`. -/
def serialDevRead (s : State) (len tmSec : BitVec 32) : RdPc → Option State
  | .cnt => some { s with
      client := .read len tmSec .len, rxchan := { s.rxchan with cnt := 0 } }
  | .len => some { s with
      client := .read len tmSec .timeout, rxchan := { s.rxchan with len := len } }
  | .timeout => some { s with
      client := .read len tmSec .cmd, rxchan := { s.rxchan with timeout := tmSec } }
  | .cmd => some { s.storeCmd .rd with client := .read len tmSec .post }
  | .post => some { s with client := .read len tmSec .clock, active := s.active + 1 }
  | .clock => some { s with client := .read len tmSec .wait }
  | .wait =>
    if 0 < s.rxReady then some { s with
      client := .read len tmSec .get, rxReady := s.rxReady - 1 }
    else none
  | .get =>
    if s.rxchan.cnt = 0 then some (s.finish (.read s.cur 0 []))
    else some { s with client := .read len tmSec (.copy s.rxchan.cnt 0) }
  | .copy cnt i =>
    if i < memcpyLen cnt then some { s with
      client := .read len tmSec (.copy cnt (i + 1)),
      pbuf := s.pbuf.set i (s.rxchan.buf i) }
    else some (s.finish (.read s.cur cnt.toInt (s.received cnt.toInt.toNat)))

/-- A step of `serial_dev_destroy`. -/
def serialDevDestroy (s : State) : StPc → Option State
  | .set => some { s with client := .destroy .post, stop := true }
  | .post => some { s with client := .destroy .join, active := s.active + 1 }
  | .join => if s.worker = .done then some { s with client := .gone } else none

/-- A step of the client's call. -/
def clientStep (s : State) : Option State :=
  match s.client with
  | .idle => none
  | .write pbuf len pc => serialDevWrite s pbuf len pc
  | .read len tmSec pc => serialDevRead s len tmSec pc
  | .destroy pc => serialDevDestroy s pc
  | .gone => none

/-- The island `serial_idle_process` returns for the command it read. -/
def idleLand (land : Island) : SerCmd → Island
  | .wr => takeShip land .idleToTx
  | .rd => takeShip land .idleToRx
  | .null => land

/-- A step of `serial_run`; `debug` says whether `DEBUG` was defined. -/
def serialRun (debug : Bool) (s : State) : Option State :=
  match s.worker with
  | .loop =>
    match s.land with
    | .idle => some { s with worker := .idleWait }
    | .tx => some { s with worker := .txPost, land := takeShip s.land .txToIdle }
    | .rx => some { s with
        worker := if debug then .rxLen else .rxPost, land := takeShip s.land .rxToIdle }
    | .null => some { s with land := .idle }
  | .idleWait =>
    if 0 < s.active then some { s with worker := .idleStop, active := s.active - 1 } else none
  | .idleStop => some { s with worker := if s.stop then .idleRet else .idleRead }
  | .idleRead => some { s with worker := .idleClear s.cmd, wTag := s.cmdTag }
  | .idleClear cmd => some { s with
      worker := .idleRet, cmd := .null, land := idleLand s.land cmd }
  | .idleRet => some { s with worker := if s.stop then .done else .loop }
  | .txPost => some { s with
      worker := .loop, txReady := s.txReady + 1, ran := s.ran ++ [(s.wTag, .wr)] }
  | .rxLen => some { s with worker := .rxLoad s.txchan.len.toInt 0 }
  | .rxLoad len i =>
    if (i : Int) < len then some { s with worker := .rxStore len i (s.txchan.buf i) }
    else some { s with
      worker := .rxPost, rxchan := { s.rxchan with cnt := BitVec.ofNat 32 i } }
  | .rxStore len i b => some { s with
      worker := .rxLoad len (i + 1), rxchan := { s.rxchan with buf := s.rxchan.buf.set i b } }
  | .rxPost => some { s with
      worker := .loop, rxReady := s.rxReady + 1, ran := s.ran ++ [(s.wTag, .rd)] }
  | .done => none

/-- A failed wait: the read returns -1. -/
def State.readFails (s : State) : State :=
  s.finish (.read s.cur (-1) [])

/-- One step of the system. -/
def step (debug : Bool) (s : State) : Action → Option State
  | .call c =>
    match s.client with
    | .idle => some { s with client := c.entry, cur := s.calls.length, calls := s.calls ++ [c] }
    | _ => none
  | .client => clientStep s
  | .timeout =>
    match s.client with
    | .read _ _ .wait => if s.rxReady = 0 then some s.readFails else none
    | _ => none
  | .clockError =>
    match s.client with
    | .read _ _ .clock => some s.readFails
    | _ => none
  | .worker => serialRun debug s

/-- The steps of the client's call. -/
inductive ClientMove (s t : State) : Prop
  | write (pbuf : Mem) (len : BitVec 32) (pc : WrPc) (hc : s.client = .write pbuf len pc)
      (hrun : serialDevWrite s pbuf len pc = some t)
  | read (len tmSec : BitVec 32) (pc : RdPc) (hc : s.client = .read len tmSec pc)
      (hrun : serialDevRead s len tmSec pc = some t)
  | destroy (pc : StPc) (hc : s.client = .destroy pc) (hrun : serialDevDestroy s pc = some t)

/-- A step of the client is one of its moves. -/
theorem clientStep_cases {s t : State} (h : clientStep s = some t) : ClientMove s t := by
  unfold clientStep at h
  split at h
  · cases h
  · next pbuf len pc hc => exact .write pbuf len pc hc h
  · next len tmSec pc hc => exact .read len tmSec pc hc h
  · next pc hc => exact .destroy pc hc h
  · cases h

/-- The steps of the worker. -/
inductive RunMove (debug : Bool) (s : State) : State → Prop
  | toIdle (hw : s.worker = .loop) (hland : s.land = .idle) :
      RunMove debug s { s with worker := .idleWait }
  | toTx (hw : s.worker = .loop) (hland : s.land = .tx) :
      RunMove debug s { s with worker := .txPost, land := takeShip s.land .txToIdle }
  | toRx (hw : s.worker = .loop) (hland : s.land = .rx) :
      RunMove debug s { s with
        worker := if debug then .rxLen else .rxPost, land := takeShip s.land .rxToIdle }
  | reset (hw : s.worker = .loop) (hland : s.land = .null) :
      RunMove debug s { s with land := .idle }
  | wake (hw : s.worker = .idleWait) (ha : 0 < s.active) :
      RunMove debug s { s with worker := .idleStop, active := s.active - 1 }
  | look (hw : s.worker = .idleStop) :
      RunMove debug s { s with worker := if s.stop then .idleRet else .idleRead }
  | take (hw : s.worker = .idleRead) :
      RunMove debug s { s with worker := .idleClear s.cmd, wTag := s.cmdTag }
  | clear (c : SerCmd) (hw : s.worker = .idleClear c) :
      RunMove debug s { s with worker := .idleRet, cmd := .null, land := idleLand s.land c }
  | back (hw : s.worker = .idleRet) :
      RunMove debug s { s with worker := if s.stop then .done else .loop }
  | sent (hw : s.worker = .txPost) :
      RunMove debug s { s with
        worker := .loop, txReady := s.txReady + 1, ran := s.ran ++ [(s.wTag, .wr)] }
  | rxLen (hw : s.worker = .rxLen) :
      RunMove debug s { s with worker := .rxLoad s.txchan.len.toInt 0 }
  | rxLoad (len : Int) (i : Nat) (hw : s.worker = .rxLoad len i) (hlt : (i : Int) < len) :
      RunMove debug s { s with worker := .rxStore len i (s.txchan.buf i) }
  | rxCount (len : Int) (i : Nat) (hw : s.worker = .rxLoad len i) (hge : ¬ (i : Int) < len) :
      RunMove debug s { s with
        worker := .rxPost, rxchan := { s.rxchan with cnt := BitVec.ofNat 32 i } }
  | rxStore (len : Int) (i : Nat) (b : UInt8) (hw : s.worker = .rxStore len i b) :
      RunMove debug s { s with
        worker := .rxLoad len (i + 1), rxchan := { s.rxchan with buf := s.rxchan.buf.set i b } }
  | received (hw : s.worker = .rxPost) :
      RunMove debug s { s with
        worker := .loop, rxReady := s.rxReady + 1, ran := s.ran ++ [(s.wTag, .rd)] }

/-- A step of the worker is one of its moves. -/
theorem serialRun_moves {debug : Bool} {s t : State} (h : serialRun debug s = some t) :
    RunMove debug s t := by
  unfold serialRun at h
  split at h
  · next hw =>
      split at h <;> cases h
      · next hl => exact .toIdle hw hl
      · next hl => exact .toTx hw hl
      · next hl => exact .toRx hw hl
      · next hl => exact .reset hw hl
  · next hw =>
      split at h <;> cases h
      next ha => exact .wake hw ha
  · next hw =>
      cases h
      exact .look hw
  · next hw =>
      cases h
      exact .take hw
  · next c hw =>
      cases h
      exact .clear c hw
  · next hw =>
      cases h
      exact .back hw
  · next hw =>
      cases h
      exact .sent hw
  · next hw =>
      cases h
      exact .rxLen hw
  · next len i hw =>
      split at h <;> cases h
      · next hlt => exact .rxLoad len i hw hlt
      · next hge => exact .rxCount len i hw hge
  · next len i b hw =>
      cases h
      exact .rxStore len i b hw
  · next hw =>
      cases h
      exact .received hw
  · cases h

/-- The steps of the system. -/
inductive StepMove (debug : Bool) (s : State) : Action → State → Prop
  | call (c : Call) (hc : s.client = .idle) :
      StepMove debug s (.call c)
        { s with client := c.entry, cur := s.calls.length, calls := s.calls ++ [c] }
  | client {t : State} (hmove : ClientMove s t) : StepMove debug s .client t
  | timeout (len tmSec : BitVec 32) (hc : s.client = .read len tmSec .wait)
      (hready : s.rxReady = 0) : StepMove debug s .timeout s.readFails
  | clockError (len tmSec : BitVec 32) (hc : s.client = .read len tmSec .clock) :
      StepMove debug s .clockError s.readFails
  | worker {t : State} (hrun : serialRun debug s = some t) : StepMove debug s .worker t

/-- A step is one of the moves. -/
theorem step_cases {debug : Bool} {s t : State} {a : Action} (h : step debug s a = some t) :
    StepMove debug s a t := by
  cases a with
  | call c =>
      simp only [step] at h
      split at h
      · next hc =>
          cases h
          exact .call c hc
      · cases h
  | client => exact .client (clientStep_cases h)
  | timeout =>
      simp only [step] at h
      split at h
      · next len tmSec hc =>
          split at h
          · next hready =>
              cases h
              exact .timeout len tmSec hc hready
          · cases h
      · cases h
  | clockError =>
      simp only [step] at h
      split at h
      · next len tmSec hc =>
          cases h
          exact .clockError len tmSec hc
      · cases h
  | worker => exact .worker h

/-- A device created in zeroed memory. -/
def blank : State :=
  serialDevCreate ⟨fun _ => 0, 0, 0, 0⟩ ⟨fun _ => 0, 0, 0, 0⟩ fun _ => 0

/-- `blank` is just created. -/
theorem created_blank : Created blank := ⟨_, _, _, rfl⟩

/-- A one-byte write and the read that follows it. -/
def writeReadRun : List Action :=
  .call (.write (fun _ => 7) 1) :: List.replicate 6 .client ++ List.replicate 8 .worker ++
    [.client, .client, .call (.read 1 1)] ++ List.replicate 6 .client ++
    List.replicate 12 .worker ++ List.replicate 4 .client

end Serial

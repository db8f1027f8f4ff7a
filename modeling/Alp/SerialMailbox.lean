import Alp.SerialWorker

/-!
# Commands in the mailbox

Nothing is lost when what the worker ran, what it holds and what waits in the
mailbox make up everything that was sent, in order (`NoCommandLost`).

The mailbox is one word and the semaphore `active` a counter, so this needs that
no command is stored while the word of an earlier one is still there, which only
a read that gave up waiting can bring about.  Under that condition on the storing
step (`StoresIntoEmpty`) the tokens of `active` and the word in the mailbox go
together; `MailInv` is that bookkeeping, kept by every step.
-/

set_option autoImplicit false

namespace Serial

open CString Transition

/-- The client has stored a command and not yet posted `active`. -/
def ClientPc.posting : ClientPc → Bool
  | .write _ _ .post => true
  | .read _ _ .post => true
  | _ => false

/-- No command is lost: what was sent is what the worker ran, what it holds and
what is still in the mailbox, each command once and in order; and the worker does
not sleep on a posted command. -/
structure NoCommandLost (s : State) : Prop where
  conserved : s.sent = s.ran ++ s.held ++ s.pending
  once : (s.sent.map Prod.fst).Nodup
  awake : s.worker = .idleWait → s.pending ≠ [] → 0 < s.active ∨ s.client.posting = true

/-- The client's next step stores a command. -/
def ClientPc.storing : ClientPc → Bool
  | .write _ _ .cmd => true
  | .read _ _ .cmd => true
  | _ => false

/-- The condition on a step: a command is stored only into an empty mailbox. -/
def StoresIntoEmpty (s : State) : Action → Prop
  | .client => s.client.storing = true → s.cmd = .null
  | _ => True

instance (s : State) : (a : Action) → Decidable (StoresIntoEmpty s a)
  | .client => inferInstanceAs (Decidable (s.client.storing = true → s.cmd = .null))
  | .call _ | .timeout | .clockError | .worker => .isTrue trivial

/-- The client has not stored the command of its call yet. -/
def ClientPc.beforeSend : ClientPc → Bool
  | .write _ _ .cnt | .write _ _ .len | .write _ _ (.copy _) | .write _ _ .cmd => true
  | .read _ _ .cnt | .read _ _ .len | .read _ _ .timeout | .read _ _ .cmd => true
  | _ => false

/-- The client is destroying the device. -/
def ClientPc.stopping : ClientPc → Bool
  | .destroy .post | .destroy .join | .gone => true
  | _ => false

/-- A client before its send is in a call and does not post or stop. -/
theorem ClientPc.of_beforeSend {pc : ClientPc} (h : pc.beforeSend = true) :
    pc ≠ .idle ∧ pc.posting = false ∧ pc.stopping = false := by
  unfold ClientPc.beforeSend at h
  split at h
  case h_9 => cases h
  all_goals exact ⟨by simp, rfl, rfl⟩

/-- A client that posts is in a call and does not stop. -/
theorem ClientPc.of_posting {pc : ClientPc} (h : pc.posting = true) :
    pc ≠ .idle ∧ pc.stopping = false := by
  unfold ClientPc.posting at h
  split at h
  case h_3 => cases h
  all_goals exact ⟨by simp, rfl⟩

/-- A client that stops does not post or send. -/
theorem ClientPc.of_stopping {pc : ClientPc} (h : pc.stopping = true) :
    pc.posting = false ∧ pc.beforeSend = false := by
  unfold ClientPc.stopping at h
  split at h
  case h_4 => cases h
  all_goals exact ⟨rfl, rfl⟩

/-- Bookkeeping of the mailbox. -/
structure MailInv (s : State) : Prop where
  stop_iff : s.stop = true ↔ s.client.stopping = true
  token : s.stop = false → s.active + s.worker.taking.toNat + s.client.posting.toNat =
    if s.cmd = .null then 0 else 1
  reading : s.worker = .idleRead → s.cmd ≠ .null ∧ s.client.posting = false
  clearing : ∀ c, s.worker = .idleClear c →
    s.cmd ≠ .null ∧ s.client.posting = false ∧ c = s.cmd ∧ s.wTag = s.cmdTag
  conserved : s.sent = s.ran ++ s.held ++ s.pending
  once : (s.sent.map Prod.fst).Nodup
  cur_lt : s.client ≠ .idle → s.cur < s.calls.length
  sent_lt : ∀ e ∈ s.sent, e.1 < s.calls.length
  fresh : s.client.beforeSend = true → ∀ e ∈ s.sent, e.1 < s.cur

/-- The invariant of the mailbox holds when the serial was created. -/
theorem mailInv_created {s : State} (h : Created s) : MailInv s := by
  obtain ⟨rxchan, txchan, pbuf, rfl⟩ := h
  constructor <;>
    simp [serialDevCreate, ClientPc.stopping, WorkerPc.taking, ClientPc.posting,
      State.held, State.pending, ClientPc.beforeSend]

section Client

variable {s : State}

/-- A client step that neither touches the mailbox nor the tokens keeps the
bookkeeping. -/
theorem MailInv.quiet (h : MailInv s) {pc : ClientPc} (rxchan txchan : Chan) (pbuf : Mem)
    (txReady rxReady : Nat) (returns : List Ret)
    (hpost : pc.posting = s.client.posting) (hstop : pc.stopping = s.client.stopping)
    (hidle : pc ≠ .idle → s.client ≠ .idle)
    (hsend : pc.beforeSend = true → s.client.beforeSend = true) :
    MailInv { s with
      client := pc, rxchan := rxchan, txchan := txchan, pbuf := pbuf, txReady := txReady,
      rxReady := rxReady, returns := returns } where
  stop_iff := by simpa [hstop] using h.stop_iff
  token := by simpa [hpost] using h.token
  reading := by simpa [hpost] using h.reading
  clearing := by simpa [hpost] using h.clearing
  conserved := h.conserved
  once := h.once
  cur_lt := fun hne => h.cur_lt (hidle hne)
  sent_lt := h.sent_lt
  fresh := fun hb => h.fresh (hsend hb)

/-- Beginning a call takes a new call number. -/
theorem MailInv.begin (h : MailInv s) (hclient : s.client = .idle) (c : Call) :
    MailInv { s with
      client := c.entry, cur := s.calls.length, calls := s.calls ++ [c] } := by
  have hpost : c.entry.posting = false := by cases c <;> rfl
  have hstop : c.entry.stopping = false := by cases c <;> rfl
  have hnot : s.client.posting = false := by rw [hclient]; rfl
  have hrun : s.stop = false := by
    have := h.stop_iff
    simpa [hclient, ClientPc.stopping] using this
  constructor
  · simp [hstop, hrun]
  · simpa [hpost, hnot] using h.token
  · simpa [hpost, hnot] using h.reading
  · simpa [hpost, hnot] using h.clearing
  · exact h.conserved
  · exact h.once
  · simp
  · intro e he
    have := h.sent_lt e he
    simp only [List.length_append, List.length_singleton]
    omega
  · intro _ e he
    exact h.sent_lt e he

/-- Storing a command into the empty mailbox makes it the pending one. -/
theorem MailInv.store (h : MailInv s) {c : SerCmd} (hc : c ≠ .null) {pc : ClientPc}
    (hclient : s.client.beforeSend = true) (hempty : s.cmd = .null)
    (hpost : pc.posting = true) (hstop : pc.stopping = false) (hsend : pc.beforeSend = false) :
    MailInv { s.storeCmd c with client := pc } := by
  obtain ⟨hidle, hnot, hclientStop⟩ := ClientPc.of_beforeSend hclient
  have hrun : s.stop = false := by simpa [hclientStop] using h.stop_iff
  have htoken := h.token hrun
  rw [hempty, hnot] at htoken
  have hactive : s.active = 0 := by simp at htoken; omega
  have htaking : s.worker.taking = false := by
    cases hw : s.worker.taking
    · rfl
    · simp [hw] at htoken
  have hclear : ∀ c, s.worker ≠ .idleClear c := by
    intro c hw
    simp [hw, WorkerPc.taking] at htaking
  have hold : s.pending = [] := by simp [State.pending, hempty]
  have hnew : State.pending { s.storeCmd c with client := pc } = [(s.cur, c)] := by
    unfold State.pending State.storeCmd
    cases hw : s.worker <;> simp_all
  have hheld : State.held { s.storeCmd c with client := pc } = s.held := rfl
  constructor
  · simp [State.storeCmd, hstop, hrun]
  · simp [State.storeCmd, hactive, htaking, hpost, hc]
  · intro hw
    have hw' : s.worker = .idleRead := hw
    simp [hw', WorkerPc.taking] at htaking
  · intro c' hw
    exact absurd hw (hclear c')
  · rw [hnew, hheld]
    show s.sent ++ [(s.cur, c)] = s.ran ++ s.held ++ [(s.cur, c)]
    rw [h.conserved, hold, List.append_nil]
  · show ((s.sent ++ [(s.cur, c)]).map Prod.fst).Nodup
    rw [List.map_append, List.nodup_append]
    refine ⟨h.once, by simp, ?_⟩
    intro n hn m hm
    obtain ⟨e, he, rfl⟩ := List.mem_map.mp hn
    have hlt := h.fresh hclient e he
    have hm' : m = s.cur := by simpa using hm
    omega
  · intro _
    exact h.cur_lt hidle
  · intro e he
    rcases List.mem_append.mp he with he | he
    · exact h.sent_lt e he
    · have hcur := h.cur_lt hidle
      have he' : e = (s.cur, c) := by simpa using he
      rw [he']
      exact hcur
  · simp [hsend]

/-- Posting `active` turns the stored command into a posted one. -/
theorem MailInv.post (h : MailInv s) {pc : ClientPc} (hclient : s.client.posting = true)
    (hpost : pc.posting = false) (hstop : pc.stopping = false) (hsend : pc.beforeSend = false) :
    MailInv { s with client := pc, active := s.active + 1 } := by
  obtain ⟨hidle, hclientStop⟩ := ClientPc.of_posting hclient
  have hrun : s.stop = false := by simpa [hclientStop] using h.stop_iff
  have htoken := h.token hrun
  constructor
  · simp [hstop, hrun]
  · intro _
    simp only [hclient, hpost, Bool.toNat_true, Bool.toNat_false] at htoken ⊢
    omega
  · intro hw
    have hnot := (h.reading hw).2
    simp [hclient] at hnot
  · intro c hw
    have hnot := (h.clearing c hw).2.1
    simp [hclient] at hnot
  · exact h.conserved
  · exact h.once
  · intro _
    exact h.cur_lt hidle
  · exact h.sent_lt
  · simp [hsend]

/-- Setting the stop flag, and posting `active` for it. -/
theorem MailInv.stopping (h : MailInv s) {pc : ClientPc} (active : Nat)
    (hclient : ∃ p, s.client = .destroy p) (hstop : pc.stopping = true) :
    MailInv { s with client := pc, stop := true, active := active } := by
  obtain ⟨p, hp⟩ := hclient
  have hpc := ClientPc.of_stopping hstop
  have hread := h.reading
  have hclear := h.clearing
  constructor
  · simp [hstop]
  · simp
  · intro hw
    exact ⟨(hread hw).1, hpc.1⟩
  · intro c hw
    exact ⟨(hclear c hw).1, hpc.1, (hclear c hw).2.2⟩
  · exact h.conserved
  · exact h.once
  · intro _
    exact h.cur_lt (by simp [hp])
  · exact h.sent_lt
  · simp [hpc.2]

end Client

/-- A step of `serial_dev_write`. -/
theorem mailInv_write {s t : State} {pbuf : Mem} {len : BitVec 32} {pc : WrPc} (h : MailInv s)
    (hc : s.client = .write pbuf len pc) (hok : StoresIntoEmpty s .client)
    (hstep : serialDevWrite s pbuf len pc = some t) : MailInv t := by
  have hidle : s.client ≠ .idle := by simp [hc]
  cases pc with
  | cnt | len =>
      cases hstep
      exact h.quiet _ _ _ _ _ _ (by rw [hc]; rfl) (by rw [hc]; rfl) (fun _ => hidle)
        (by rw [hc]; exact fun _ => rfl)
  | copy i =>
      simp only [serialDevWrite] at hstep
      split at hstep <;> cases hstep <;>
        exact h.quiet _ _ _ _ _ _ (by rw [hc]; rfl) (by rw [hc]; rfl) (fun _ => hidle)
          (by rw [hc]; exact fun _ => rfl)
  | cmd =>
      cases hstep
      exact h.store (by simp) (by rw [hc]; rfl) (hok (by rw [hc]; rfl)) rfl rfl rfl
  | post =>
      cases hstep
      exact h.post (by rw [hc]; rfl) rfl rfl rfl
  | wait =>
      simp only [serialDevWrite] at hstep
      split at hstep
      · cases hstep
        exact h.quiet _ _ _ _ _ _ (by rw [hc]; rfl) (by rw [hc]; rfl) (fun _ => hidle)
          (by simp [ClientPc.beforeSend])
      · cases hstep
  | ret =>
      cases hstep
      exact h.quiet _ _ _ _ _ _ (by rw [hc]; rfl) (by rw [hc]; rfl) (fun _ => hidle)
        (by simp [ClientPc.beforeSend])

/-- A step of `serial_dev_read`. -/
theorem mailInv_read {s t : State} {len tmSec : BitVec 32} {pc : RdPc} (h : MailInv s)
    (hc : s.client = .read len tmSec pc) (hok : StoresIntoEmpty s .client)
    (hstep : serialDevRead s len tmSec pc = some t) : MailInv t := by
  have hidle : s.client ≠ .idle := by simp [hc]
  cases pc with
  | cnt | len | timeout =>
      cases hstep
      exact h.quiet _ _ _ _ _ _ (by rw [hc]; rfl) (by rw [hc]; rfl) (fun _ => hidle)
        (by rw [hc]; exact fun _ => rfl)
  | cmd =>
      cases hstep
      exact h.store (by simp) (by rw [hc]; rfl) (hok (by rw [hc]; rfl)) rfl rfl rfl
  | post =>
      cases hstep
      exact h.post (by rw [hc]; rfl) rfl rfl rfl
  | clock =>
      cases hstep
      exact h.quiet _ _ _ _ _ _ (by rw [hc]; rfl) (by rw [hc]; rfl) (fun _ => hidle)
        (by simp [ClientPc.beforeSend])
  | wait =>
      simp only [serialDevRead] at hstep
      split at hstep
      · cases hstep
        exact h.quiet _ _ _ _ _ _ (by rw [hc]; rfl) (by rw [hc]; rfl) (fun _ => hidle)
          (by simp [ClientPc.beforeSend])
      · cases hstep
  | get | copy cnt i =>
      simp only [serialDevRead] at hstep
      split at hstep <;> cases hstep <;>
        exact h.quiet _ _ _ _ _ _ (by rw [hc]; rfl) (by rw [hc]; rfl) (fun _ => hidle)
          (by simp [ClientPc.beforeSend])

/-- A step of `serial_dev_destroy`. -/
theorem mailInv_destroy {s t : State} {pc : StPc} (h : MailInv s)
    (hc : s.client = .destroy pc) (hstep : serialDevDestroy s pc = some t) : MailInv t := by
  cases pc with
  | set =>
      cases hstep
      exact h.stopping s.active ⟨_, hc⟩ rfl
  | post =>
      have hstop : s.stop = true := h.stop_iff.mpr (by rw [hc]; rfl)
      have hkeep : MailInv { s with
          client := .destroy .join, stop := true, active := s.active + 1 } :=
        h.stopping (s.active + 1) ⟨_, hc⟩ rfl
      cases hstep
      rw [← hstop] at hkeep
      exact hkeep
  | join =>
      simp only [serialDevDestroy] at hstep
      split at hstep
      · cases hstep
        exact h.quiet _ _ _ _ _ _ (by rw [hc]; rfl) (by rw [hc]; rfl)
          (by simp [hc]) (by simp [ClientPc.beforeSend])
      · cases hstep

/-- Every step of the client's call keeps the bookkeeping, as long as it stores
into an empty mailbox. -/
theorem MailInv.client {s t : State} (h : MailInv s) (hok : StoresIntoEmpty s .client)
    (hmove : ClientMove s t) : MailInv t := by
  cases hmove with
  | write pbuf len pc hc hrun => exact mailInv_write h hc hok hrun
  | read len tmSec pc hc hrun => exact mailInv_read h hc hok hrun
  | destroy pc hc hrun => exact mailInv_destroy h hc hrun

/-- The token a worker has taken was posted for the word in the mailbox. -/
theorem MailInv.word_of_taking {s : State} (h : MailInv s) (hw : s.worker.taking = true)
    (hs : s.stop = false) : s.cmd ≠ .null ∧ s.client.posting = false := by
  have htoken := h.token hs
  rw [hw, Bool.toNat_true] at htoken
  have hcmd : s.cmd ≠ .null := by
    intro hn
    rw [if_pos hn] at htoken
    omega
  rw [if_neg hcmd] at htoken
  refine ⟨hcmd, ?_⟩
  cases hp : s.client.posting
  · rfl
  · simp only [hp, Bool.toNat_true] at htoken
    omega

/-- Every step of the worker keeps the bookkeeping. -/
theorem mailInv_serialRun {debug : Bool} {s t : State} (hland : s.LandOk) (h : MailInv s)
    (hstep : serialRun debug s = some t) : MailInv t := by
  have hcons := h.conserved
  cases serialRun_cases hland hstep with
  | wake hw hl ha =>
      refine ⟨h.stop_iff, ?_, by simp, by simp, ?_, h.once, h.cur_lt, h.sent_lt, h.fresh⟩
      · intro hrun
        have htoken := h.token hrun
        simp only [WorkerPc.taking, hw, Bool.toNat_true, Bool.toNat_false] at htoken ⊢
        omega
      · simpa [State.held, State.pending, hw] using hcons
  | look hw hl =>
      rcases Bool.eq_false_or_eq_true s.stop with hs | hs
      · refine ⟨h.stop_iff, by simp [hs], by simp [hs], by simp [hs], ?_, h.once, h.cur_lt,
          h.sent_lt, h.fresh⟩
        simpa [State.held, State.pending, hw, hl, hs] using hcons
      · obtain ⟨hcmd, hpost⟩ := h.word_of_taking (by rw [hw]; rfl) hs
        have htoken := h.token hs
        simp only [hw, if_neg hcmd] at htoken
        refine ⟨h.stop_iff, ?_, by simp [hcmd, hpost], by simp [hs], ?_, h.once, h.cur_lt,
          h.sent_lt, h.fresh⟩
        · simpa [WorkerPc.taking, hs, hcmd] using htoken
        · simpa [State.held, State.pending, hw, hs] using hcons
  | take hw hl =>
      obtain ⟨hcmd, hpost⟩ := h.reading hw
      refine ⟨h.stop_iff, ?_, by simp, ?_, ?_, h.once, h.cur_lt, h.sent_lt, h.fresh⟩
      · simpa [WorkerPc.taking, hw] using h.token
      · simp [hcmd, hpost]
      · -- the word moves from the mailbox into the worker's hands
        simp only [State.held, State.pending, hw, if_neg hcmd, List.append_nil] at hcons
        cases hc : s.cmd with
        | null => exact absurd hc hcmd
        | rd => simpa [State.held, State.pending, hc] using hcons
        | wr => simpa [State.held, State.pending, hc] using hcons
  | clear c hw hl =>
      obtain ⟨hcmd, hpost, rfl, htag⟩ := h.clearing c hw
      refine ⟨h.stop_iff, ?_, by simp, by simp, ?_, h.once, h.cur_lt, h.sent_lt, h.fresh⟩
      · intro hrun
        have htoken := h.token hrun
        simp only [WorkerPc.taking, hw, hpost, if_neg hcmd, Bool.toNat_true,
          Bool.toNat_false] at htoken
        simp only [WorkerPc.taking, hpost, Bool.toNat_false, if_true]
        omega
      · cases hc : s.cmd with
        | null => exact absurd hc hcmd
        | rd =>
            simpa [State.held, State.pending, hw, hc, htag, idleLand, takeShip_idle_rx]
              using hcons
        | wr =>
            simpa [State.held, State.pending, hw, hc, htag, idleLand, takeShip_idle_tx]
              using hcons
  | sent hw hl =>
      refine ⟨h.stop_iff, ?_, by simp, by simp, ?_, h.once, h.cur_lt, h.sent_lt, h.fresh⟩
      · simpa [WorkerPc.taking, hw] using h.token
      · simpa [State.held, State.pending, hw, hl] using hcons
  | received hw hl =>
      refine ⟨h.stop_iff, ?_, by simp, by simp, ?_, h.once, h.cur_lt, h.sent_lt, h.fresh⟩
      · simpa [WorkerPc.taking, hw] using h.token
      · simpa [State.held, State.pending, hw, hl] using hcons
  | inside worker land rxchan hbefore hafter hheld hok =>
      have hread : worker ≠ .idleRead := by
        intro hw
        simp [hw, WorkerPc.taking] at hafter
      have hclear : ∀ c, worker ≠ .idleClear c := by
        intro c hw
        simp [hw, WorkerPc.taking] at hafter
      refine ⟨h.stop_iff, ?_, fun hw => absurd hw hread, fun c hw => absurd hw (hclear c), ?_,
        h.once, h.cur_lt, h.sent_lt, h.fresh⟩
      · simpa [hbefore, hafter] using h.token
      · have hpend : State.pending { s with worker := worker, land := land, rxchan := rxchan } =
            s.pending := State.pending_congr hafter hbefore rfl rfl
        rw [hheld, hpend]
        exact hcons

/-- Every step that stores into an empty mailbox only keeps the bookkeeping. -/
theorem mailInv_step {debug : Bool} {s t : State} {a : Action} (hland : s.LandOk)
    (h : MailInv s) (hok : StoresIntoEmpty s a) (hstep : step debug s a = some t) : MailInv t := by
  cases step_cases hstep with
  | call c hc => exact h.begin hc c
  | client hmove => exact h.client hok hmove
  | timeout len tmSec hc hready =>
      exact h.quiet _ _ _ _ _ _ (by rw [hc]; rfl) (by rw [hc]; rfl) (by simp)
        (by simp [ClientPc.beforeSend])
  | clockError len tmSec hc =>
      exact h.quiet _ _ _ _ _ _ (by rw [hc]; rfl) (by rw [hc]; rfl) (by simp)
        (by simp [ClientPc.beforeSend])
  | worker hrun => exact mailInv_serialRun hland h hrun

/-- The tokens of `active` keep the worker awake for a posted command. -/
theorem MailInv.noCommandLost {s : State} (h : MailInv s) (hrun : s.stop = false) :
    NoCommandLost s where
  conserved := h.conserved
  once := h.once
  awake := by
    intro hw hpend
    have hcmd : s.cmd ≠ .null := by
      intro hn
      exact hpend (by simp [State.pending, hn])
    have htoken := h.token hrun
    rw [if_neg hcmd] at htoken
    by_cases hpost : s.client.posting = true
    · exact Or.inr hpost
    · left
      simp [hw, WorkerPc.taking, hpost] at htoken
      omega

/-- **No command lost.**  In every run in which commands are stored into an empty
mailbox only, until `serial_send_stop` has set the flag: what was sent is what the
worker ran, holds, or still finds in the mailbox, in order and each command once. -/
theorem noCommandLost_of_empty {debug : Bool} {s : State}
    (h : Reach (step debug) Created StoresIntoEmpty s) (hrun : s.stop = false) :
    NoCommandLost s :=
  have hinv : MailInv s :=
    h.invariant (fun _ => mailInv_created) fun _ _ _ hs => mailInv_step (landOk_reach hs)
  hinv.noCommandLost hrun

/-- A one-byte write, stored, posted and run by the worker. -/
def writeRun : List Action :=
  .call (.write (fun _ => 0) 1) :: List.replicate 6 .client ++ List.replicate 8 .worker

/-- The worker has run the command of a write. -/
theorem noCommandLost_writeRun :
    ∃ s, Reach (step false) Created StoresIntoEmpty s ∧ s.ran = [(0, .wr)] ∧ s.stop = false ∧
      NoCommandLost s := by
  obtain ⟨t, hrun, hran, hstop⟩ : ∃ t,
      exec (step false) (fun s a => decide (StoresIntoEmpty s a)) blank writeRun = some t ∧
        t.ran = [(0, .wr)] ∧ t.stop = false := ⟨_, rfl, rfl, rfl⟩
  have hreach : Reach (step false) Created StoresIntoEmpty t :=
    Reach.of_exec (fun _ _ => of_decide_eq_true) (.start created_blank) hrun
  exact ⟨t, hreach, hran, hstop, noCommandLost_of_empty hreach hstop⟩

/-- A read gives up before the worker has taken its command, and a write stores its
own on top. -/
def overwrittenRun : List Action :=
  .call (.read 1 1) :: List.replicate 6 .client ++ [.timeout, .call (.write (fun _ => 0) 1)] ++
    List.replicate 5 .client

/-- Without the condition a command is lost. -/
theorem command_overwritten :
    ¬ ∀ (debug : Bool) (s : State), Reach (step debug) Created anyStep s → s.stop = false →
      NoCommandLost s := by
  intro hclaim
  obtain ⟨t, hrun, hstop, hlost⟩ : ∃ t,
      exec (step false) (fun _ _ => true) blank overwrittenRun = some t ∧
        t.stop = false ∧ t.sent ≠ t.ran ++ t.held ++ t.pending :=
    ⟨_, rfl, rfl, by decide +kernel⟩
  have hreach : Reach (step false) Created anyStep t :=
    Reach.of_exec (fun _ _ _ => trivial) (.start created_blank) hrun
  exact hlost (hclaim false t hreach hstop).conserved

end Serial

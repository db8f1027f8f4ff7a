import Alp.UsbMemory

/-!
# A session of reads and writes

`usb read` and `usb write` lines, well formed or not, one after another on a bound
device that is a memory.  Abstractly the device is a store of words, one for each address
of each module: a write line puts one word there, a read line looks words up
(`RwPlan.writes`, `RwPlan.asks`, `RwPlan.report`).

After any session a line reports what its plan reports on the store that holds, at each
address, the word the session wrote there last, or else what the device held before
(`console_reports`).
-/

set_option autoImplicit false

namespace Usb

open CString

section Store

variable {κ ν : Type*} [DecidableEq κ]

/-- The value the last write to `k` gave. -/
def lastWrite (writes : List (κ × ν)) (k : κ) : Option ν :=
  (writes.reverse.find? fun e => e.1 == k).map Prod.snd

/-- One write is the last one to its key. -/
theorem lastWrite_singleton (e : κ × ν) (k : κ) :
    lastWrite [e] k = if e.1 = k then some e.2 else none := by
  unfold lastWrite
  by_cases h : e.1 = k
  · simp [h]
  · have hne : (e.1 == k) = false := beq_eq_false_iff_ne.mpr h
    simp [h, hne]

/-- The last write of two stretches is the later one's, if it has one. -/
theorem lastWrite_append (before after : List (κ × ν)) (k : κ) :
    lastWrite (before ++ after) k = (lastWrite after k).or (lastWrite before k) := by
  unfold lastWrite
  rw [List.reverse_append, List.find?_append]
  cases after.reverse.find? (fun e => e.1 == k) <;> rfl

end Store

/-- The words of a memory, by module and address. -/
abbrev Store := RwCmd × BitVec 32 → Option (BitVec 32)

/-- The store after writes. -/
def Store.after (s : Store) (writes : List ((RwCmd × BitVec 32) × BitVec 32)) : Store :=
  fun k => (lastWrite writes k).or (s k)

/-- The words of a device: a module's word is there when the payload is long enough. -/
def view (d : MemDevice) : Store := fun k =>
  if k.1.width ≤ (d k.1.opcode k.2.toNat).length then
    some (leWord ((d k.1.opcode k.2.toNat).take k.1.width))
  else none

/-- A `usb read` or `usb write` line. -/
structure RwLine where
  read : Bool
  argv : List (List UInt8)

/-- The plan of a line. -/
def RwLine.plan (l : RwLine) : RwPlan :=
  rwPlan l.argv l.read

/-- The words a plan writes. -/
def RwPlan.writes : RwPlan → List ((RwCmd × BitVec 32) × BitVec 32)
  | .send cmd addr buf _ => [((cmd, addr), leWord buf)]
  | .answer _ | .burst .. => []

/-- The words of a burst, in order. -/
def burstAsks (cmd : RwCmd) (inc : BitVec 32) (times : Nat) (addr : BitVec 32) :
    List (RwCmd × BitVec 32) :=
  (List.range times).map fun i => (cmd, addr + inc * BitVec.ofNat 32 i)

/-- The words a plan asks for. -/
def RwPlan.asks : RwPlan → List (RwCmd × BitVec 32)
  | .burst cmd _ inc times addr _ => burstAsks cmd inc times.toNat addr
  | .answer _ | .send .. => []

/-- The word of a store as a line of output. -/
def Store.line (s : Store) (k : RwCmd × BitVec 32) : Option (BitVec 32 × BitVec 32) :=
  (s k).map fun v => (k.2, v)

/-- What a plan returns and prints on a store; what is not there counts as an error. -/
def RwPlan.report (s : Store) : RwPlan → Int × List (BitVec 32 × BitVec 32)
  | .answer r => (r, [])
  | .send .. => (0, [])
  | p@(.burst ..) =>
    ((BitVec.ofNat 32 (p.asks.countP fun k => (s k).isNone)).toInt, p.asks.filterMap s.line)

/-- `DATA: [addr] = d` -/
def Event.data? : Event → Option (BitVec 32 × BitVec 32)
  | .data addr d => some (addr, d)
  | _ => none

/-- The values printed so far. -/
def World.printed {σ : Type} (w : World σ) : List (BitVec 32 × BitVec 32) :=
  w.log.filterMap Event.data?

/-- A line. -/
def RwLine.run {σ : Type} (lib : Libusb σ) (l : RwLine) (w : World σ) : Int × World σ :=
  execUsbCmd lib (rwCmd l.read) l.argv w

/-- Lines one after another. -/
def runLines {σ : Type} (lib : Libusb σ) : List RwLine → World σ → World σ
  | [], w => w
  | l :: session, w => runLines lib session (l.run lib w).2

/-- The lengths in a plan are those of its module. -/
def RwPlan.Sized : RwPlan → Prop
  | .answer _ => True
  | .send cmd _ buf len => len.toNat = cmd.width ∧ buf.length = cmd.width
  | .burst cmd len _ _ _ buf => len.toNat = cmd.width ∧ buf.length = cmd.width

/-- A plan chosen by a test has the sizes that both have. -/
theorem RwPlan.sized_ite {c : Prop} [Decidable c] {p q : RwPlan} (hp : p.Sized) (hq : q.Sized) :
    (if c then p else q).Sized := by
  split
  · exact hp
  · exact hq

/-- Every plan's transfers carry as many bytes as they say. -/
theorem rwPlan_sized (argv : List (List UInt8)) (read : Bool) : (rwPlan argv read).Sized := by
  unfold rwPlan
  split
  · exact trivial
  split
  · exact trivial
  next cmd _ =>
  refine RwPlan.sized_ite ?_ ?_
  · cases cmd with
    | ana | pmu | dig | mem => exact RwPlan.sized_ite trivial ⟨rfl, rfl⟩
    | exec | reset | resetCdc => exact trivial
  · refine RwPlan.sized_ite trivial ?_
    cases cmd with
    | ana | pmu | dig | mem => exact RwPlan.sized_ite trivial ⟨rfl, rfl⟩
    | exec | reset | resetCdc => exact ⟨rfl, rfl⟩

section Memory

variable (lib : Libusb MemDevice)

/-- Different modules have different opcodes. -/
theorem RwCmd.opcode_inj {c c' : RwCmd} (h : c.opcode = c'.opcode) : c = c' := by
  revert h
  cases c <;> cases c' <;> decide

/-- A word written is in the store; the other words are as before. -/
theorem view_storePayload (d : MemDevice) {cmd : RwCmd} {addr : BitVec 32} {buf : List UInt8}
    (hbuf : buf.length = cmd.width) :
    view (storePayload d cmd.opcode addr.toNat buf) =
      (view d).after [((cmd, addr), leWord buf)] := by
  funext k
  rw [Store.after, lastWrite_singleton]
  by_cases hk : (cmd, addr) = k
  · subst hk
    simp only [view, storePayload_same, hbuf, le_refl, if_true]
    rw [← hbuf, List.take_length]
    rfl
  · rw [if_neg hk]
    have hother : k.1.opcode ≠ cmd.opcode ∨ k.2.toNat ≠ addr.toNat := by
      by_contra hboth
      rw [not_or, not_not, not_not] at hboth
      exact hk (Prod.ext (RwCmd.opcode_inj hboth.1.symm) (BitVec.eq_of_toNat_eq hboth.2.symm))
    simp only [view, storePayload_other d buf hother]
    rfl

/-- What a memory answers to a request for a word. -/
theorem memBus_word (h : Handle) {cmd : RwCmd} {len : BitVec 8} (hlen : len.toNat = cmd.width)
    (addr : BitVec 32) (buf : List UInt8) (d : MemDevice) :
    (memBus lib).controlTransfer h (accessSetup reqTypeOthRd cmd addr len) buf d =
      let payload := (d cmd.opcode addr.toNat).take cmd.width
      (((payload.length : Int), payload), d) := by
  have hin : ¬ reqTypeOthRd &&& 0x80 = 0 := by decide
  have hop : (accessSetup reqTypeOthRd cmd addr len).bRequest = cmd.opcode := rfl
  refine (if_neg hin).trans ?_
  simp only [accessSetup_address, hop, accessSetup_wLength, hlen]

/-- A burst of one more pass asks for the present address first. -/
theorem burstAsks_succ (cmd : RwCmd) (inc : BitVec 32) (times : Nat) (addr : BitVec 32) :
    burstAsks cmd inc (times + 1) addr = (cmd, addr) :: burstAsks cmd inc times (addr + inc) := by
  unfold burstAsks
  rw [List.range_succ_eq_map, List.map_cons, List.map_map]
  have hrest : (List.range times).map
      ((fun i => (cmd, addr + inc * BitVec.ofNat 32 i)) ∘ Nat.succ) =
        (List.range times).map fun i => (cmd, addr + inc + inc * BitVec.ofNat 32 i) :=
    List.map_congr_left fun i _ => by rw [Function.comp_apply, burst_step]
  rw [hrest]
  simp

/-- One transfer of a read: what it answers, and the buffer and the world after it. -/
theorem memBus_transfer {cmd : RwCmd} {len : BitVec 8} (hlen : len.toNat = cmd.width)
    (addr : BitVec 32) {buf : List UInt8} (hbuf : buf.length = cmd.width) (w : World MemDevice) :
    let setup := accessSetup reqTypeOthRd cmd addr len
    let tr := libusbControlTransfer (memBus lib) w.usbctrl.handle setup buf w
    (answerTo (memBus lib) w.usbctrl.handle setup buf w).full = (view w.bus (cmd, addr)).isSome ∧
      tr.1.2.length = cmd.width ∧
      (∀ v, view w.bus (cmd, addr) = some v → leWord tr.1.2 = v) ∧
      tr.2.printed = w.printed ∧ tr.2.bus = w.bus ∧ tr.2.usbctrl = w.usbctrl := by
  intro setup tr
  have hword := memBus_word lib w.usbctrl.handle hlen addr buf w.bus
  have hwLength : setup.wLength.toNat = cmd.width :=
    (accessSetup_wLength reqTypeOthRd cmd addr len).trans hlen
  have htake : ((w.bus cmd.opcode addr.toNat).take cmd.width).take cmd.width =
      (w.bus cmd.opcode addr.toNat).take cmd.width := by
    rw [List.take_take, Nat.min_self]
  have hbytes : tr.1.2 = (w.bus cmd.opcode addr.toNat).take cmd.width ++
      buf.drop ((w.bus cmd.opcode addr.toNat).take cmd.width).length := by
    show (((memBus lib).controlTransfer w.usbctrl.handle setup buf w.bus).1.2.take
        setup.wLength.toNat) ++ buf.drop
      (((memBus lib).controlTransfer w.usbctrl.handle setup buf w.bus).1.2.take
        setup.wLength.toNat).length = _
    rw [hword, hwLength, htake]
  refine ⟨?_, ?_, fun v hv => ?_, ?_, ?_, rfl⟩
  · rw [answerTo, hword, Answer.full, hwLength, view]
    show ((((w.bus cmd.opcode addr.toNat).take cmd.width).length : Int) == (cmd.width : Int)) = _
    rw [List.length_take]
    by_cases hthere : cmd.width ≤ (w.bus cmd.opcode addr.toNat).length
    · simp [hthere]
    · rw [if_neg hthere, Option.isSome_none, beq_eq_false_iff_ne]
      simp only [ne_eq]
      omega
  · rw [hbytes, List.length_append, List.length_drop, List.length_take, hbuf]
    omega
  · unfold view at hv
    split at hv
    · next hthere =>
        cases hv
        have hdrop : buf.drop ((w.bus cmd.opcode addr.toNat).take cmd.width).length = [] := by
          refine List.drop_eq_nil_of_le ?_
          rw [List.length_take, hbuf]
          exact le_min (le_refl _) hthere
        rw [hbytes, hdrop, List.append_nil]
    · cases hv
  · show (w.log ++ [_]).filterMap Event.data? = w.log.filterMap Event.data?
    rw [List.filterMap_append]
    exact List.append_nil _
  · exact congrArg Prod.snd hword

/-- A read prints the words that are there, and counts the others. -/
theorem usbReadLoop_report {cmd : RwCmd} {len : BitVec 8} (hlen : len.toNat = cmd.width)
    (inc : BitVec 32) (times : Nat) (addr : BitVec 32) {buf : List UInt8}
    (hbuf : buf.length = cmd.width) (err : BitVec 32) (w : World MemDevice) :
    let asks := burstAsks cmd inc times addr
    let run := usbReadLoop (memBus lib) cmd (len.setWidth 32) inc times addr buf err w
    run.1 = (err + BitVec.ofNat 32 (asks.countP fun k => (view w.bus k).isNone)).toInt ∧
      run.2.printed = w.printed ++ asks.filterMap (view w.bus).line ∧
      run.2.bus = w.bus ∧ run.2.usbctrl = w.usbctrl := by
  induction times generalizing addr buf err w with
  | zero =>
      refine ⟨?_, (List.append_nil _).symm, rfl, rfl⟩
      show err.toInt = (err + 0#32).toInt
      rw [BitVec.add_zero]
  | succ times ih =>
      intro asks run
      have hrun : run = _ := usbReadLoop_succ (memBus lib) cmd len inc times addr buf err w
      obtain ⟨hfull, hlength, hvalue, hprinted, hbus, hctrl⟩ :=
        memBus_transfer lib hlen addr hbuf w
      have hasks : asks = _ := burstAsks_succ cmd inc times addr
      rw [hrun, hasks]
      generalize libusbControlTransfer (memBus lib) w.usbctrl.handle
        (accessSetup reqTypeOthRd cmd addr len) buf w = tr at *
      cases hv : view w.bus (cmd, addr) with
      | some v =>
          have hword := hvalue v hv
          rw [hv, Option.isSome_some] at hfull
          rw [if_pos hfull]
          obtain ⟨hres, hout, hsame, hctrl'⟩ := ih (addr + inc) hlength err
            (trace (.data addr (leWord tr.1.2)) tr.2).2
          have hfirst : (trace (.data addr (leWord tr.1.2)) tr.2).2.printed =
              w.printed ++ [(addr, v)] := by
            rw [← hprinted, ← hword]
            show (tr.2.log ++ [_]).filterMap Event.data? = _
            rw [List.filterMap_append]
            rfl
          have hbus' : (trace (.data addr (leWord tr.1.2)) tr.2).2.bus = w.bus := hbus
          rw [hbus'] at hres hout hsame
          rw [hfirst] at hout
          refine ⟨?_, ?_, hsame, hctrl'.trans hctrl⟩
          · rw [hres, List.countP_cons_of_neg (by simp [hv])]
          · have hline : (view w.bus).line (cmd, addr) = some (addr, v) := by
              rw [Store.line, hv]
              rfl
            rw [hout, List.filterMap_cons, hline, List.append_assoc]
            rfl
      | none =>
          rw [hv, Option.isSome_none] at hfull
          rw [if_neg (by simp [hfull])]
          obtain ⟨hres, hout, hsame, hctrl'⟩ := ih (addr + inc) hlength (err + 1) tr.2
          rw [hbus] at hres hout hsame
          refine ⟨?_, ?_, hsame, hctrl'.trans hctrl⟩
          · rw [hres, List.countP_cons_of_pos (by simp [hv]), BitVec.ofNat_add, BitVec.add_assoc,
              BitVec.add_comm (BitVec.ofNat 32 _)]
            rfl
          · have hline : (view w.bus).line (cmd, addr) = none := by
              rw [Store.line, hv]
              rfl
            rw [hout, hprinted, List.filterMap_cons, hline]

/-- A line reports what its plan reports on the words that are there, and writes the
words of its plan. -/
theorem RwLine.run_report (l : RwLine) {w : World MemDevice} (hbind : w.usbctrl.bind ≠ 0) :
    let out := l.run (memBus lib) w
    (out.1 = (l.plan.report (view w.bus)).1 ∧
        out.2.printed = w.printed ++ (l.plan.report (view w.bus)).2) ∧
      view out.2.bus = (view w.bus).after l.plan.writes ∧ out.2.usbctrl = w.usbctrl := by
  intro out
  have hrun : out = l.plan.run (memBus lib) w := by
    show execUsbCmd (memBus lib) (rwCmd l.read) l.argv w = _
    rw [execUsbCmd_rwCmd]
    exact usbHandleCmdRw_eq (memBus lib) l.argv l.read hbind
  have hsized : l.plan.Sized := rwPlan_sized l.argv l.read
  rw [hrun]
  cases hp : l.plan with
  | answer r => exact ⟨⟨rfl, (List.append_nil _).symm⟩, rfl, rfl⟩
  | send cmd addr buf len =>
      rw [hp] at hsized
      obtain ⟨hret, hbus, hctrl⟩ := usbRwSend_memBus lib cmd addr buf len
        (hsized.2.trans hsized.1.symm) w
      refine ⟨⟨hret, ?_⟩, ?_, hctrl⟩
      · rw [RwPlan.run, usbRwSend_eq]
        show (w.log ++ [_]).filterMap Event.data? = w.printed ++ []
        rw [List.filterMap_append]
        rfl
      · show view (usbRwSend (memBus lib) cmd addr buf (len.setWidth 32) w).2.bus = _
        rw [hbus]
        exact view_storePayload w.bus hsized.2
  | burst cmd len inc times addr buf =>
      rw [hp] at hsized
      obtain ⟨hres, hout, hsame, hctrl⟩ := usbReadLoop_report lib hsized.1 inc times.toNat addr
        hsized.2 0 w
      refine ⟨⟨?_, hout⟩, ?_, hctrl⟩
      · refine hres.trans ?_
        show (0#32 + _).toInt = _
        rw [BitVec.zero_add]
        rfl
      · exact congrArg view hsame

end Memory

/-- Writes joined act one after the other. -/
theorem Store.after_append (s : Store) (before after : List ((RwCmd × BitVec 32) × BitVec 32)) :
    s.after (before ++ after) = (s.after before).after after := by
  funext k
  rw [Store.after, Store.after, Store.after, lastWrite_append, Option.or_assoc]

/-- After a session the store holds the words written last. -/
theorem runLines_view (lib : Libusb MemDevice) (session : List RwLine) {w : World MemDevice}
    (hbind : w.usbctrl.bind ≠ 0) :
    let w' := runLines (memBus lib) session w
    view w'.bus = (view w.bus).after (session.flatMap fun l => l.plan.writes) ∧
      w'.usbctrl = w.usbctrl := by
  induction session generalizing w with
  | nil => exact ⟨rfl, rfl⟩
  | cons l session ih =>
      obtain ⟨-, hview, hctrl⟩ := l.run_report lib hbind
      obtain ⟨hview', hctrl'⟩ := ih (w := (l.run (memBus lib) w).2) (by rw [hctrl]; exact hbind)
      refine ⟨?_, hctrl'.trans hctrl⟩
      rw [List.flatMap_cons, Store.after_append, ← hview]
      exact hview'

/-- **A console session.**  After any lines on a bound device that is a memory, a line
returns and prints what its plan reports on the store that holds, at each address of
each module, the word the lines wrote there last, or what the device held before. -/
theorem console_reports (lib : Libusb MemDevice) (session : List RwLine) (l : RwLine)
    {w : World MemDevice} (hbind : w.usbctrl.bind ≠ 0) :
    let before := runLines (memBus lib) session w
    let out := l.run (memBus lib) before
    let held := (view w.bus).after (session.flatMap fun l => l.plan.writes)
    out.1 = (l.plan.report held).1 ∧
      out.2.printed = before.printed ++ (l.plan.report held).2 := by
  intro before out held
  obtain ⟨hview, hctrl⟩ := runLines_view lib session hbind
  obtain ⟨hreport, -, -⟩ := l.run_report lib (w := before) (by rw [hctrl]; exact hbind)
  rw [hview] at hreport
  exact hreport

/-- Two writes to one address, and one to a module of its own. -/
def writeSession : List RwLine :=
  [⟨false, writeLine (lit "mem") (asciiBytes "0x20000000") (asciiBytes "5")⟩,
    ⟨false, writeLine (lit "mem") (asciiBytes "0x20000000") (asciiBytes "7")⟩,
    ⟨false, writeLine (lit "ana") (asciiBytes "0x60") (asciiBytes "0x12345")⟩]

/-- `usb read mem 0x20000000 2` then reports the second write, and one error. -/
theorem console_reports_writeSession :
    let lib := memBus (quietBus MemDevice)
    let l : RwLine := ⟨true, readLine (lit "mem") (asciiBytes "0x20000000") ++ [asciiBytes "2"]⟩
    let out := l.run lib (runLines lib writeSession (boundWorld fun _ _ => []))
    out.1 = 1 ∧ out.2.printed = [(0x20000000, 7)] := by
  intro lib l out
  have hbind : (boundWorld (fun _ _ => []) : World MemDevice).usbctrl.bind ≠ 0 := by decide
  obtain ⟨hret, hprinted⟩ := console_reports (quietBus MemDevice) writeSession l hbind
  have hreport : l.plan.report ((view fun _ _ => []).after
      (writeSession.flatMap fun l => l.plan.writes)) = (1, [(0x20000000, 7)]) := by decide +kernel
  have hbefore : (runLines lib writeSession (boundWorld fun _ _ => [])).printed = [] := by
    decide +kernel
  refine ⟨hret.trans (congrArg Prod.fst hreport), hprinted.trans ?_⟩
  rw [show (boundWorld (fun _ _ => []) : World MemDevice).bus = fun _ _ => [] from rfl, hreport]
  exact congrArg (· ++ _) hbefore

end Usb

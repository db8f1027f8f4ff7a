import Mathlib.Logic.Function.Basic
import Alp.UsbBurst

/-!
# Writing and reading back

`memBus` is a device that is a memory: for each module it keeps the payload last
written at an address, and answers a read with it.  A word written with `usb write` is
what `usb read` of the same address reports, and no other address changes
(`usb_write_read`).
-/

set_option autoImplicit false

namespace Usb

open CString

/-- The bytes of a word from bit `shift` on, as a write puts them into its buffer. -/
def bytesFrom (x : BitVec 32) : Nat → Nat → List UInt8
  | _, 0 => []
  | shift, n + 1 => byteAt x shift :: bytesFrom x (shift + 8) n

@[simp] theorem length_bytesFrom (x : BitVec 32) (shift n : Nat) :
    (bytesFrom x shift n).length = n := by
  induction n generalizing shift with
  | zero => rfl
  | succ n ih => simp [bytesFrom, ih]

/-- The bits of a byte are those of the word from its place on. -/
theorem byteAt_getLsbD (x : BitVec 32) (shift : Nat) {i : Nat} (hi : i < 8) :
    (byteAt x shift).toBitVec.getLsbD i = x.getLsbD (shift + i) := by
  have hones : ∀ j < 8, (0xFF#32).getLsbD j = true := by decide
  show (((x >>> shift) &&& 0xFF#32).setWidth 8).getLsbD i = _
  rw [BitVec.getLsbD_setWidth, BitVec.getLsbD_and, BitVec.getLsbD_ushiftRight, hones i hi]
  simp [hi]

/-- The lowest bits of a word are those of its first byte. -/
theorem leWord_cons_getLsbD (b : UInt8) (rest : List UInt8) {i : Nat} (hi : i < 32) :
    (leWord (b :: rest)).getLsbD i =
      if i < 8 then b.toBitVec.getLsbD i else (leWord rest).getLsbD (i - 8) := by
  rw [leWord, BitVec.getLsbD_or, BitVec.getLsbD_setWidth, BitVec.getLsbD_shiftLeft]
  by_cases hlow : i < 8
  · simp [hlow, hi]
  · have hnone : b.toBitVec.getLsbD i = false := BitVec.getLsbD_of_ge _ _ (by omega)
    simp [hlow, hi, hnone]

/-- Putting bytes together again. -/
theorem leWord_bytesFrom_getLsbD (x : BitVec 32) (shift n : Nat) {i : Nat} (hi : i < 32) :
    (leWord (bytesFrom x shift n)).getLsbD i =
      (decide (i < 8 * n) && x.getLsbD (shift + i)) := by
  induction n generalizing shift i with
  | zero => simp [bytesFrom, leWord]
  | succ n ih =>
      rw [bytesFrom, leWord_cons_getLsbD _ _ hi]
      by_cases hlow : i < 8
      · have hin : i < 8 * (n + 1) := by omega
        rw [if_pos hlow, byteAt_getLsbD x shift hlow, decide_eq_true hin, Bool.true_and]
      · have hsum : shift + 8 + (i - 8) = shift + i := by omega
        have hiff : (i - 8 < 8 * n) = (i < 8 * (n + 1)) := by
          apply propext
          omega
        rw [if_neg hlow, ih (shift + 8) (by omega), hsum]
        simp only [hiff]

/-- The low `8 * n` bits of a word. -/
theorem leWord_bytesFrom (x : BitVec 32) (n : Nat) :
    leWord (bytesFrom x 0 n) = (x.setWidth (8 * n)).setWidth 32 := by
  refine BitVec.eq_of_getLsbD_eq fun i hi => ?_
  rw [leWord_bytesFrom_getLsbD x 0 n hi, Nat.zero_add, BitVec.getLsbD_setWidth,
    BitVec.getLsbD_setWidth, decide_eq_true hi, Bool.true_and]

/-- The payload at each address of each module. -/
abbrev MemDevice := BitVec 8 → Nat → List UInt8

/-- One payload stored. -/
def storePayload (d : MemDevice) (opcode : BitVec 8) (addr : Nat) (payload : List UInt8) :
    MemDevice :=
  Function.update d opcode (Function.update (d opcode) addr payload)

/-- A bus with the device; the rest of libusb is that of `rest`. -/
def memBus (rest : Libusb MemDevice) : Libusb MemDevice :=
  { rest with
    controlTransfer := fun _ setup data d =>
      if setup.bmRequestType &&& 0x80 = 0 then
        ((setup.wLength.toNat, []),
          storePayload d setup.bRequest setup.address (data.take setup.wLength.toNat))
      else
        let payload := (d setup.bRequest setup.address).take setup.wLength.toNat
        ((payload.length, payload), d) }

/-- What was stored is there. -/
theorem storePayload_same (d : MemDevice) (opcode : BitVec 8) (addr : Nat)
    (payload : List UInt8) : storePayload d opcode addr payload opcode addr = payload := by
  rw [storePayload, Function.update_self, Function.update_self]

/-- Storing leaves other addresses and other modules alone. -/
theorem storePayload_other (d : MemDevice) {opcode opcode' : BitVec 8} {addr addr' : Nat}
    (payload : List UInt8) (h : opcode' ≠ opcode ∨ addr' ≠ addr) :
    storePayload d opcode addr payload opcode' addr' = d opcode' addr' := by
  unfold storePayload
  by_cases hop : opcode' = opcode
  · subst hop
    rw [Function.update_self, Function.update_of_ne (h.resolve_left (not_not_intro rfl))]
  · rw [Function.update_of_ne hop]

/-- The request asks for as many bytes as were given. -/
theorem accessSetup_wLength (request : BitVec 8) (cmd : RwCmd) (addr : BitVec 32)
    (len : BitVec 8) : (accessSetup request cmd addr len).wLength.toNat = len.toNat := by
  show ((len.setWidth 32).setWidth 16).toNat = _
  rw [BitVec.toNat_setWidth, BitVec.toNat_setWidth]
  omega

section Device

variable (rest : Libusb MemDevice)

/-- A write transfer stores the bytes and answers their number. -/
theorem memBus_out (h : Handle) (cmd : RwCmd) (addr : BitVec 32) (len : BitVec 8)
    (buf : List UInt8) (hbuf : buf.length = len.toNat) (d : MemDevice) :
    (memBus rest).controlTransfer h (accessSetup reqTypeOthWr cmd addr len) buf d =
      ((((accessSetup reqTypeOthWr cmd addr len).wLength.toNat : Int), []),
        storePayload d cmd.opcode addr.toNat buf) := by
  have hout : reqTypeOthWr &&& 0x80 = 0 := by decide
  refine (if_pos hout).trans ?_
  rw [accessSetup_address, accessSetup_wLength, ← hbuf, List.take_length]
  rfl

/-- A read transfer answers what is stored. -/
theorem memBus_in (h : Handle) (cmd : RwCmd) (addr : BitVec 32) (len : BitVec 8)
    (buf payload : List UInt8) (hpayload : payload.length = len.toNat) {d : MemDevice}
    (hd : d cmd.opcode addr.toNat = payload) :
    (memBus rest).controlTransfer h (accessSetup reqTypeOthRd cmd addr len) buf d =
      ((((accessSetup reqTypeOthRd cmd addr len).wLength.toNat : Int), payload), d) := by
  have hin : ¬ reqTypeOthRd &&& 0x80 = 0 := by decide
  have hop : (accessSetup reqTypeOthRd cmd addr len).bRequest = cmd.opcode := rfl
  refine (if_neg hin).trans ?_
  simp only [accessSetup_address, hop, hd, accessSetup_wLength, ← hpayload, List.take_length]

/-- A write stores its buffer and succeeds. -/
theorem usbRwSend_memBus (cmd : RwCmd) (addr : BitVec 32) (buf : List UInt8) (len : BitVec 8)
    (hbuf : buf.length = len.toNat) (w : World MemDevice) :
    (usbRwSend (memBus rest) cmd addr buf (len.setWidth 32) w).1 = 0 ∧
      (usbRwSend (memBus rest) cmd addr buf (len.setWidth 32) w).2.bus =
        storePayload w.bus cmd.opcode addr.toNat buf ∧
      (usbRwSend (memBus rest) cmd addr buf (len.setWidth 32) w).2.usbctrl = w.usbctrl := by
  have hout := memBus_out rest w.usbctrl.handle cmd addr len buf hbuf w.bus
  have hfull : (answerTo (memBus rest) w.usbctrl.handle (accessSetup reqTypeOthWr cmd addr len)
      buf w).full = true := by
    rw [answerTo, hout]
    exact beq_self_eq_true _
  rw [usbRwSend_eq, if_pos hfull]
  exact ⟨rfl, congrArg Prod.snd hout, rfl⟩

/-- What a burst prints is about the addresses it reads. -/
theorem usbReadLoop_data {σ : Type} (lib : Libusb σ) (cmd : RwCmd) (len : BitVec 8)
    (inc : BitVec 32) (times : Nat) (addr : BitVec 32) (buf : List UInt8) (err : BitVec 32)
    (w : World σ) :
    ∃ events, (usbReadLoop lib cmd (len.setWidth 32) inc times addr buf err w).2.log =
        w.log ++ events ∧
      ∀ a d, .data a d ∈ events → ∃ i < times, a = addr + inc * BitVec.ofNat 32 i := by
  induction times generalizing addr buf err w with
  | zero => exact ⟨[], (List.append_nil _).symm, fun a d h => by cases h⟩
  | succ times ih =>
      have hall : ∀ first events : List Event,
          (∀ a d, .data a d ∈ first → a = addr) →
          (∀ a d, .data a d ∈ events → ∃ i < times, a = addr + inc + inc * BitVec.ofNat 32 i) →
          ∀ a d, .data a d ∈ first ++ events →
            ∃ i < times + 1, a = addr + inc * BitVec.ofNat 32 i := by
        intro first events hfirst hevents a d hmem
        rcases List.mem_append.mp hmem with hmem | hmem
        · exact ⟨0, Nat.succ_pos _, by rw [hfirst a d hmem]; simp⟩
        · obtain ⟨i, hi, rfl⟩ := hevents a d hmem
          exact ⟨i + 1, Nat.succ_lt_succ hi, (burst_step addr inc i).symm⟩
      rw [usbReadLoop_succ]
      generalize accessSetup reqTypeOthRd cmd addr len = setup
      let tr := libusbControlTransfer lib w.usbctrl.handle setup buf w
      let e := Event.transfer w.usbctrl.handle setup buf tr.1.1
      split
      · obtain ⟨events, hlog, hdata⟩ := ih (addr + inc) tr.1.2 err
          (trace (.data addr (leWord tr.1.2)) tr.2).2
        refine ⟨[e, .data addr (leWord tr.1.2)] ++ events, ?_, hall _ events ?_ hdata⟩
        · rw [hlog]
          simp [trace, tr, libusbControlTransfer, e]
        · simp [e]
      · obtain ⟨events, hlog, hdata⟩ := ih (addr + inc) tr.1.2 (err + 1) tr.2
        refine ⟨[e] ++ events, ?_, hall _ events ?_ hdata⟩
        · rw [hlog]
          simp [tr, libusbControlTransfer, e]
        · simp [e]

/-- The first round of a burst from an address that holds a payload prints it. -/
theorem usbReadLoop_memBus (cmd : RwCmd) (len : BitVec 8) (inc : BitVec 32) (times : Nat)
    (addr : BitVec 32) (buf payload : List UInt8) (err : BitVec 32) {w : World MemDevice}
    (hpayload : payload.length = len.toNat) (hbuf : buf.length = len.toNat)
    (hd : w.bus cmd.opcode addr.toNat = payload) :
    ∃ first events, (usbReadLoop (memBus rest) cmd (len.setWidth 32) inc (times + 1) addr buf err
        w).2.log = w.log ++ [first, .data addr (leWord payload)] ++ events ∧
      (∀ a d, first ≠ .data a d) ∧
      ∀ a d, .data a d ∈ events → ∃ i < times, a = addr + inc + inc * BitVec.ofNat 32 i := by
  have hin := memBus_in rest w.usbctrl.handle cmd addr len buf payload hpayload hd
  have hwLength := accessSetup_wLength reqTypeOthRd cmd addr len
  rw [usbReadLoop_succ]
  generalize accessSetup reqTypeOthRd cmd addr len = setup at *
  have hfull : (answerTo (memBus rest) w.usbctrl.handle setup buf w).full = true := by
    rw [answerTo, hin]
    exact beq_self_eq_true _
  have htr : libusbControlTransfer (memBus rest) w.usbctrl.handle setup buf w =
      (((setup.wLength.toNat : Int), payload), ({ w with
        log := w.log ++ [.transfer w.usbctrl.handle setup buf setup.wLength.toNat] } :
          World MemDevice)) := by
    have hdrop : buf.drop payload.length = [] := List.drop_eq_nil_of_le (by omega)
    simp only [libusbControlTransfer, hin, hwLength, ← hpayload, List.take_length, hdrop,
      List.append_nil]
  rw [if_pos hfull, htr]
  obtain ⟨events, hlog, hdata⟩ := usbReadLoop_data (memBus rest) cmd len inc times (addr + inc)
    payload err (trace (.data addr (leWord payload)) { w with
      log := w.log ++ [.transfer w.usbctrl.handle setup buf setup.wLength.toNat] }).2
  refine ⟨.transfer w.usbctrl.handle setup buf setup.wLength.toNat, events, hlog.trans ?_,
    fun a d h => (by cases h), hdata⟩
  simp only [trace, List.append_assoc, List.cons_append, List.nil_append]

end Device

/-- The addresses a module accepts. -/
def RwCmd.accepts (cmd : RwCmd) (addr : BitVec 32) : Prop :=
  match cmd with
  | .ana | .pmu => addr < anaRegMaxAddr
  | .dig | .mem => addr &&& 3 = 0
  | .exec | .reset | .resetCdc => True

/-- What a module keeps of a word. -/
def RwCmd.stored (cmd : RwCmd) (data : BitVec 32) : BitVec 32 :=
  match cmd with
  | .ana | .pmu => BitVec.ofNat 32 (data.toNat % 2 ^ 16)
  | .dig | .mem | .exec | .reset | .resetCdc => data

/-- `usb write mod addr data`. -/
def writeLine (mod : CStr) (addr data : List UInt8) : List (List UInt8) :=
  [asciiBytes "usb", asciiBytes "write", mod.bytes, addr, data]

/-- `usb read mod addr`. -/
def readLine (mod : CStr) (addr : List UInt8) : List (List UInt8) :=
  [asciiBytes "usb", asciiBytes "read", mod.bytes, addr]

/-- The new lines of output report `v` at the address, and nothing else there. -/
def Reported (w w' : World MemDevice) (addr v : BitVec 32) : Prop :=
  ∃ events, w'.log = w.log ++ events ∧ .data addr v ∈ events ∧
    ∀ d, .data addr d ∈ events → d = v

/-- A word of the table names its module. -/
theorem rwSubCmd_name {c : CStr × RwCmd} (hc : c ∈ rwSubCmds) {argv : List (List UInt8)}
    (hname : argv[usbIdxArgc1]? = some c.1.bytes) : rwSubCmd argv = some c.2 := by
  have hfind : ∀ c ∈ rwSubCmds, (rwSubCmds.find? fun c' => c'.1.bytes == c.1.bytes).map Prod.snd =
      some c.2 := by decide +kernel
  rw [rwSubCmd, hname]
  exact hfind c hc

/-- The bytes of a module's word. -/
def RwCmd.width : RwCmd → Nat
  | .ana | .pmu => 2
  | .dig | .mem | .exec | .reset | .resetCdc => 4

/-- What is read back of a word is what its module stores of it. -/
theorem leWord_stored {cmd : RwCmd} (data : BitVec 32) :
    leWord (bytesFrom data 0 cmd.width) = cmd.stored data := by
  rw [leWord_bytesFrom]
  cases cmd with
  | ana | pmu =>
      apply BitVec.eq_of_toNat_eq
      simp [RwCmd.width, RwCmd.stored]
  | dig | mem | exec | reset | resetCdc =>
      apply BitVec.eq_of_toNat_eq
      simp [RwCmd.width, RwCmd.stored]

/-- A write line in range plans one transfer of the word's bytes. -/
theorem writeLine_plan {c : CStr × RwCmd} (hc : c ∈ rwSubCmds) (hmod : c.2.isMod = true)
    (sa sd : List UInt8) (haccepts : c.2.accepts ((strtoul sa).setWidth 32)) :
    rwPlan (writeLine c.1 sa sd) false =
      .send c.2 ((strtoul sa).setWidth 32)
        (bytesFrom ((strtoul sd).setWidth 32) 0 c.2.width) (BitVec.ofNat 8 c.2.width) := by
  have hsub : rwSubCmd (writeLine c.1 sa sd) = some c.2 := rwSubCmd_name hc rfl
  have haddr : rwAddr (writeLine c.1 sa sd) = (strtoul sa).setWidth 32 := rfl
  have hdata : rwArgv3 (writeLine c.1 sa sd) = (strtoul sd).setWidth 32 := rfl
  have hargs : usbIdxArgc3 < (writeLine c.1 sa sd).length := Nat.lt_succ_self 4
  rw [rwPlan_eq hsub, haddr, hdata]
  generalize (strtoul sa).setWidth 32 = addr at *
  generalize c.2 = cmd at *
  cases cmd with
  | ana | pmu =>
      rw [if_neg (by simp), writePlan_register (by simp) hargs,
        if_neg (BitVec.not_le.mpr haccepts)]
      rfl
  | dig | mem =>
      have haligned : ¬ addr &&& 3 ≠ 0 := not_not.mpr haccepts
      rw [if_neg (by simp), writePlan_word (by simp) hargs, if_neg haligned]
      rfl
  | exec | reset | resetCdc => cases hmod

/-- The rounds after the first are at other addresses. -/
theorem readLine_plan {c : CStr × RwCmd} (hc : c ∈ rwSubCmds) (hmod : c.2.isMod = true)
    (sa : List UInt8) (haccepts : c.2.accepts ((strtoul sa).setWidth 32)) :
    ∃ (inc times : BitVec 32) (more : Nat), rwPlan (readLine c.1 sa) true =
        .burst c.2 (BitVec.ofNat 8 c.2.width) inc times ((strtoul sa).setWidth 32)
          (List.replicate c.2.width 0) ∧
      times.toNat = more + 1 ∧
      ∀ (addr : BitVec 32), ∀ i < more, addr ≠ addr + inc + inc * BitVec.ofNat 32 i := by
  have hsub : rwSubCmd (readLine c.1 sa) = some c.2 := rwSubCmd_name hc rfl
  have haddr : rwAddr (readLine c.1 sa) = (strtoul sa).setWidth 32 := rfl
  have hcount : rwArgv3 (readLine c.1 sa) = 1 := rfl
  rw [rwPlan_eq hsub, haddr, hcount]
  generalize (strtoul sa).setWidth 32 = addr at *
  generalize c.2 = cmd at *
  cases cmd with
  | ana | pmu =>
      refine ⟨1, 1 * 4 / 2, 1, ?_, rfl, ?_⟩
      · rw [if_pos rfl, readPlan_register (by simp), if_neg (BitVec.not_le.mpr haccepts)]
        rfl
      · intro addr i hi heq
        obtain rfl : i = 0 := by omega
        have hne := congrArg BitVec.toNat heq
        simp at hne
        omega
  | dig | mem =>
      refine ⟨4, 1 * 4 / 4, 0, ?_, rfl, fun _ _ hi => absurd hi (Nat.not_lt_zero _)⟩
      have haligned : ¬ addr &&& 3 ≠ 0 := not_not.mpr haccepts
      rw [if_pos rfl, readPlan_word (by simp), if_neg haligned]
      rfl
  | exec | reset | resetCdc => cases hmod

/-- A read of an address that holds a word reports it. -/
theorem readLine_reports (rest : Libusb MemDevice) {w : World MemDevice}
    (hbind : w.usbctrl.bind ≠ 0) {c : CStr × RwCmd} (hc : c ∈ rwSubCmds)
    (hmod : c.2.isMod = true) (sa : List UInt8)
    (haccepts : c.2.accepts ((strtoul sa).setWidth 32)) {payload : List UInt8}
    (hpayload : payload.length = c.2.width)
    (hd : w.bus c.2.opcode ((strtoul sa).setWidth 32).toNat = payload) :
    Reported w (execUsbCmd (memBus rest) .read (readLine c.1 sa) w).2
      ((strtoul sa).setWidth 32) (leWord payload) := by
  obtain ⟨inc, times, more, hplan, htimes, hother⟩ := readLine_plan hc hmod sa haccepts
  have hwidth : (BitVec.ofNat 8 c.2.width).toNat = c.2.width := by
    cases c.2 <;> rfl
  obtain ⟨first, events, hlog, hfirst, hdata⟩ := usbReadLoop_memBus rest c.2
    (BitVec.ofNat 8 c.2.width) inc more ((strtoul sa).setWidth 32) (List.replicate c.2.width 0)
    payload 0 (hpayload.trans hwidth.symm) (by rw [hwidth, List.length_replicate]) hd
  have hrun : execUsbCmd (memBus rest) .read (readLine c.1 sa) w =
      usbReadLoop (memBus rest) c.2 ((BitVec.ofNat 8 c.2.width).setWidth 32) inc (more + 1)
        ((strtoul sa).setWidth 32) (List.replicate c.2.width 0) 0 w := by
    rw [← htimes]
    have hline := usbHandleCmdRw_eq (memBus rest) (readLine c.1 sa) true hbind
    rw [hplan] at hline
    exact hline
  rw [hrun]
  refine ⟨[first, .data ((strtoul sa).setWidth 32) (leWord payload)] ++ events, ?_, ?_, ?_⟩
  · rw [hlog, List.append_assoc]
  · simp
  · intro d hmem
    rcases List.mem_append.mp hmem with hmem | hmem
    · rcases List.mem_cons.mp hmem with heq | hmem
      · exact absurd heq.symm (hfirst _ d)
      · exact (Event.data.inj (List.mem_singleton.mp hmem)).2
    · obtain ⟨i, hi, heq⟩ := hdata _ d hmem
      exact absurd heq (hother _ i hi)

/-- **Write, then read.**  On a bound device that is a memory, a write to an address
the module accepts succeeds and changes that address only, and a read of the address
then reports what the module keeps of the word. -/
theorem usb_write_read (rest : Libusb MemDevice) {w : World MemDevice}
    (hbind : w.usbctrl.bind ≠ 0) {c : CStr × RwCmd} (hc : c ∈ rwSubCmds)
    (hmod : c.2.isMod = true) (sa sd : List UInt8)
    (haccepts : c.2.accepts ((strtoul sa).setWidth 32)) :
    let addr : BitVec 32 := (strtoul sa).setWidth 32
    let data : BitVec 32 := (strtoul sd).setWidth 32
    let written := execUsbCmd (memBus rest) .write (writeLine c.1 sa sd) w
    let read := execUsbCmd (memBus rest) .read (readLine c.1 sa) written.2
    written.1 = 0 ∧
      (∀ opcode a, opcode ≠ c.2.opcode ∨ a ≠ addr.toNat →
        written.2.bus opcode a = w.bus opcode a) ∧
      Reported written.2 read.2 addr (c.2.stored data) := by
  intro addr data written read
  have hplan := writeLine_plan hc hmod sa sd haccepts
  have hwidth : (BitVec.ofNat 8 c.2.width).toNat = c.2.width := by
    cases c.2 <;> rfl
  obtain ⟨hret, hbus, hctrl⟩ := usbRwSend_memBus rest c.2 addr (bytesFrom data 0 c.2.width)
    (BitVec.ofNat 8 c.2.width) (by rw [hwidth, length_bytesFrom]) w
  have hrun : written = usbRwSend (memBus rest) c.2 addr (bytesFrom data 0 c.2.width)
      ((BitVec.ofNat 8 c.2.width).setWidth 32) w := by
    have hline := usbHandleCmdRw_eq (memBus rest) (writeLine c.1 sa sd) false hbind
    rw [hplan] at hline
    exact hline
  rw [← hrun] at hret hbus hctrl
  refine ⟨hret, fun opcode a hne => ?_, ?_⟩
  · rw [hbus]
    exact storePayload_other w.bus _ hne
  · have hheld : written.2.bus c.2.opcode addr.toNat = bytesFrom data 0 c.2.width := by
      rw [hbus]
      exact storePayload_same w.bus _ _ _
    have hbound : written.2.usbctrl.bind ≠ 0 := by
      rw [hctrl]
      exact hbind
    rw [← leWord_stored]
    exact readLine_reports rest hbound hc hmod sa haccepts (length_bytesFrom _ _ _) hheld

/-- `usb write ana 0x60 0x12345`, then `usb read ana 0x60`. -/
theorem usb_write_read_ana :
    let written := execUsbCmd (memBus (quietBus MemDevice)) .write
      (writeLine (lit "ana") (asciiBytes "0x60") (asciiBytes "0x12345")) (boundWorld fun _ _ => [])
    let read := execUsbCmd (memBus (quietBus MemDevice)) .read
      (readLine (lit "ana") (asciiBytes "0x60")) written.2
    Reported written.2 read.2 0x60 0x2345 := by
  have haccepts : RwCmd.ana.accepts ((strtoul (asciiBytes "0x60")).setWidth 32) :=
    show (strtoul (asciiBytes "0x60")).setWidth 32 < anaRegMaxAddr by decide +kernel
  have hwritten := usb_write_read (quietBus MemDevice) (w := boundWorld fun _ _ => []) (by decide)
    (c := (lit "ana", RwCmd.ana)) (by decide +kernel) rfl (asciiBytes "0x60")
    (asciiBytes "0x12345") haccepts
  exact hwritten.2.2

end Usb

import Alp.UsbFm
import Alp.UsbTransfers

/-!
# Whether failed transfers are reported

A read or write counts its failed transfers, and a count below `2 ^ 32` that is 0 says
that there were none.  The `usb fm` subcommands drop what their transfer returned
twice: `usb_fm_raw_xfer` turns an error into 0, and `usb_handle_cmd_fm` returns 0
whatever the status byte was.  So an fm line reports nothing, and its success means
something only where the device answered well (`reports_iff`).
-/

set_option autoImplicit false

namespace Usb

open CString

variable {σ : Type}

/-- A request that sets, with one byte of status. -/
def ControlSetup.isFmSet (s : ControlSetup) : Bool :=
  s.bRequest == usbFmPrimitiveSet && s.wLength == 1

/-- The whole length was moved, and a status byte is 0. -/
structure Answer.Good (a : Answer) : Prop where
  full : a.full = true
  status : a.setup.isFmSet = true → ∀ b ∈ a.bytes.head?, b = 0

/-- The command returns 0 only if all its transfers were answered well. -/
def Reports (lib : Libusb σ) (id : UsbCmd) (argv : List (List UInt8)) (w : World σ) : Prop :=
  (execUsbCmd lib id argv w).1 = 0 → ∀ a ∈ issued lib id argv w, a.Good

/-- Where no answer failed, every answer is full. -/
theorem failures_eq_zero {answers : List Answer} (h : failures answers = 0) {a : Answer}
    (ha : a ∈ answers) : a.full = true := by
  have hnone := List.countP_eq_zero.mp h a ha
  simpa using hnone

/-- What a plan requests is no request of `usb fm`. -/
theorem RwPlan.setups_isFmSet (p : RwPlan) : ∀ s ∈ p.setups, s.isFmSet = false := by
  have hcmd : ∀ (request : BitVec 8) (cmd : RwCmd) (addr : BitVec 32) (len : BitVec 8),
      (accessSetup request cmd addr len).isFmSet = false := by
    intro request cmd addr len
    cases cmd <;> rfl
  intro s hs
  cases p with
  | answer r => cases hs
  | send cmd addr buf len =>
      obtain rfl := List.mem_singleton.mp hs
      exact hcmd _ _ _ _
  | burst cmd len inc times addr buf =>
      obtain ⟨i, -, rfl⟩ := List.mem_map.mp hs
      exact hcmd _ _ _ _

/-- A plan that returns 0 had no failed transfer. -/
theorem RwPlan.failures_of_result {p : RwPlan} {answers : List Answer}
    (hsetups : answers.map Answer.setup = p.setups) (hzero : p.result answers = 0) :
    failures answers = 0 := by
  cases p with
  | answer r =>
      rw [List.map_eq_nil_iff.mp hsetups]
      rfl
  | send cmd addr buf len => exact Int.ofNat_eq_zero.mp hzero
  | burst cmd len inc times addr buf =>
      -- the count has not wrapped
      have hlength : answers.length = times.toNat := by
        have hlen := congrArg List.length hsetups
        simpa [RwPlan.setups, burstSetups] using hlen
      have hle : failures answers ≤ answers.length := List.countP_le_length
      have hlt := times.isLt
      have hmod : BitVec.ofNat 32 (failures answers) = 0#32 := by
        rw [← BitVec.toInt_inj]
        exact hzero
      have hnat := congrArg BitVec.toNat hmod
      rw [BitVec.toNat_ofNat, Nat.mod_eq_of_lt (by omega)] at hnat
      exact hnat

/-- A read or write reports its failures, once a device is bound. -/
theorem reports_rw (lib : Libusb σ) (argv : List (List UInt8)) (read : Bool) {w : World σ}
    (hbind : w.usbctrl.bind ≠ 0) : Reports lib (rwCmd read) argv w := by
  intro hzero a ha
  obtain ⟨hsetups, hresult⟩ := issued_rw lib argv read hbind
  have hfail := RwPlan.failures_of_result hsetups (hresult.symm.trans hzero)
  refine ⟨failures_eq_zero hfail ha, fun hset => ?_⟩
  have hmem : a.setup ∈ (rwPlan argv read).setups := by
    rw [← hsetups]
    exact List.mem_map_of_mem ha
  rw [RwPlan.setups_isFmSet _ _ hmem] at hset
  cases hset

/-- A request to the FM device with its buffer. -/
structure FmRequest where
  request : BitVec 8
  wValue : BitVec 16
  wIndex : BitVec 16
  wLength : BitVec 16
  deriving DecidableEq

def FmRequest.setup (q : FmRequest) : ControlSetup :=
  ⟨reqTypeDevRd, q.request, q.wValue, q.wIndex, q.wLength⟩

/-- The zeroed buffer of the request. -/
def FmRequest.buf (q : FmRequest) : List UInt8 :=
  List.replicate q.wLength.toNat 0

/-- The request of a register command. -/
def regRequest (setCode : UsbFmSet) (mask : BitVec 16) (request : BitVec 8)
    (getCode : UsbFmGet) : Option (BitVec 16) → FmRequest
  | some x => ⟨usbFmPrimitiveSet, setCode.code, x &&& mask, 1⟩
  | none => ⟨request, getCode.code, 0, 2⟩

/-- The one request of a subcommand, other than those of `test`. -/
def fmRequest (arg : Option (BitVec 16)) : FmCmd → Option FmRequest
  | .powerOn => some ⟨usbFmPrimitiveSet, UsbFmSet.power.code, 1, 1⟩
  | .powerOff => some ⟨usbFmPrimitiveSet, UsbFmSet.power.code, 0, 1⟩
  | .volume => some (regRequest .volume 0xF usbFmPrimitiveGet .vol arg)
  | .channel => some (regRequest .tuningChan 0xFFFF usbFmPrimitiveGet .curChan arg)
  | .band => some (regRequest .band 0x03 usbFmPrimitiveSet .band arg)
  | .mute => some (regRequest .mute 0x03 usbFmPrimitiveSet .muteState arg)
  | .device => some ⟨usbFmPrimitiveGet, UsbFmGet.fmIc.code, 0, 2⟩
  | .test => none

/-- The request of a line `usb fm sub [arg]`. -/
def fmLineRequest (argv : List (List UInt8)) : Option FmRequest :=
  (argv[usbIdxArgc1]?.bind fun subCmd =>
    (fmSubCmds.findRev? fun c => c.1.bytes == subCmd).map Prod.snd).bind
      (fmRequest (argv[usbIdxArgc2]?.map fun s => (strtoul s).setWidth 16))

section Fm

variable (lib : Libusb σ)

/-- What the device is asked by a request, with the answer. -/
def FmRequest.answer (q : FmRequest) (w : World σ) : Answer :=
  answerTo lib w.usbctrl.handle q.setup q.buf w

/-- A radio transfer records its own answer. -/
theorem usbFmRawXfer_issued (h : Handle) (setup : ControlSetup) (buf : List UInt8)
    (w : World (σ × List Answer)) :
    (usbFmRawXfer lib.recorded h setup.bmRequestType setup.bRequest setup.wValue setup.wIndex
        setup.wLength buf w).2.bus.2 =
      w.bus.2 ++ [answerTo lib.recorded h setup buf w] := by
  let tr := libusbControlTransfer lib.recorded h setup buf w
  show ((if tr.1.1 < 0 then pure (0, tr.1.2) else pure tr.1 :
    UsbM (σ × List Answer) (Int × List UInt8)) tr.2).2.bus.2 = _
  split <;> rfl

/-- A radio setting makes one request. -/
theorem usbFmSet_issued (code value : BitVec 16) (w : World (σ × List Answer)) :
    (usbFmSet lib.recorded code value w).2.bus.2 =
      w.bus.2 ++ [FmRequest.answer lib.recorded ⟨usbFmPrimitiveSet, code, value, 1⟩ w] :=
  usbFmRawXfer_issued lib w.usbctrl.handle
    (FmRequest.setup ⟨usbFmPrimitiveSet, code, value, 1⟩) [0] w

/-- A radio query makes one request. -/
theorem usbFmGet_issued (request : BitVec 8) (code : BitVec 16)
    (w : World (σ × List Answer)) :
    (usbFmGet lib.recorded request code w).2.bus.2 =
      w.bus.2 ++ [FmRequest.answer lib.recorded ⟨request, code, 0, 2⟩ w] :=
  usbFmRawXfer_issued lib w.usbctrl.handle (FmRequest.setup ⟨request, code, 0, 2⟩) [0, 0] w

/-- A radio subcommand of one value makes one request. -/
theorem usbFmCmdReg_issued (value : FmValue) (setCode : UsbFmSet) (mask : BitVec 16)
    (request : BitVec 8) (getCode : UsbFmGet) (arg : Option (BitVec 16))
    (w : World (σ × List Answer)) :
    (usbFmCmdReg lib.recorded value setCode mask request getCode (arg.getD 0) arg.isSome
        w).2.bus.2 =
      w.bus.2 ++
        [FmRequest.answer lib.recorded (regRequest setCode mask request getCode arg) w] := by
  cases arg with
  | none => exact usbFmGet_issued lib request getCode.code w
  | some x => exact usbFmSet_issued lib setCode.code (x &&& mask) w

/-- A subcommand with one request issues it and returns 0, whatever the answer. -/
theorem usbFmSwitch_issued {id : FmCmd} {arg : Option (BitVec 16)} {q : FmRequest}
    (hq : fmRequest arg id = some q) (w : World (σ × List Answer)) :
    (usbFmSwitch lib.recorded id arg w).1 = 0 ∧
      (usbFmSwitch lib.recorded id arg w).2.bus.2 =
        w.bus.2 ++ [FmRequest.answer lib.recorded q w] := by
  cases id with
  | test => cases hq
  | powerOn | powerOff =>
      obtain rfl := Option.some.inj hq
      exact ⟨rfl, usbFmSet_issued lib _ _ w⟩
  | device =>
      obtain rfl := Option.some.inj hq
      exact ⟨rfl, usbFmGet_issued lib _ _ w⟩
  | volume | channel | band | mute =>
      obtain rfl := Option.some.inj hq
      exact ⟨rfl, usbFmCmdReg_issued lib _ _ _ _ _ arg w⟩

/-- A line without request fails, and there is no success to be wrong about. -/
theorem usbHandleCmdFm_fails {argv : List (List UInt8)} (hq : fmLineRequest argv = none)
    {w : World σ} (hbind : w.usbctrl.bind ≠ 0) : (usbHandleCmdFm lib argv w).1 ≠ 0 := by
  unfold fmLineRequest at hq
  cases hsub : argv[usbIdxArgc1]? with
  | none =>
      have hrun : usbHandleCmdFm lib argv w = (-2, w) := by
        simp only [usbHandleCmdFm, hsub]
        exact congrFun (if_neg hbind) w
      rw [hrun]
      exact (by decide : (-2 : Int) ≠ 0)
  | some subCmd =>
      cases hid : fmSubCmds.findRev? (fun c => c.1.bytes == subCmd) with
      | none =>
          have hrun : usbHandleCmdFm lib argv w = (-3, w) := by
            simp only [usbHandleCmdFm, hsub, hid]
            exact congrFun (if_neg hbind) w
          rw [hrun]
          exact (by decide : (-3 : Int) ≠ 0)
      | some c =>
          rw [hsub, Option.bind_some, hid, Option.map_some, Option.bind_some] at hq
          rw [usbHandleCmdFm_eq lib hbind hsub hid]
          obtain ⟨name, id⟩ := c
          cases id with
          | test => exact (by decide : (-4 : Int) ≠ 0)
          | _ => cases hq

/-- A line with a request issues it and returns 0, whatever the answer. -/
theorem usbHandleCmdFm_issued {argv : List (List UInt8)} {q : FmRequest}
    (hq : fmLineRequest argv = some q) {w : World (σ × List Answer)}
    (hbind : w.usbctrl.bind ≠ 0) :
    (usbHandleCmdFm lib.recorded argv w).1 = 0 ∧
      (usbHandleCmdFm lib.recorded argv w).2.bus.2 =
        w.bus.2 ++ [FmRequest.answer lib.recorded q w] := by
  obtain ⟨id, hid, hrequest⟩ := Option.bind_eq_some_iff.mp hq
  obtain ⟨subCmd, hsub, hfind⟩ := Option.bind_eq_some_iff.mp hid
  obtain ⟨c, hc, rfl⟩ := Option.map_eq_some_iff.mp hfind
  rw [usbHandleCmdFm_eq lib.recorded hbind hsub hc]
  exact usbFmSwitch_issued lib hrequest w

/-- `usb fm` reports its failures exactly where its request got a good answer. -/
theorem reports_fm (argv : List (List UInt8)) {w : World σ} (hbind : w.usbctrl.bind ≠ 0) :
    Reports lib .fm argv w ↔ ∀ q ∈ fmLineRequest argv, (q.answer lib w).Good := by
  have hrun := execUsbCmd_recorded lib .fm argv w
  cases hq : fmLineRequest argv with
  | none =>
      refine ⟨fun _ q hmem => (by cases hmem), fun _ hzero => ?_⟩
      exact absurd hzero (usbHandleCmdFm_fails lib hq hbind)
  | some q =>
      obtain ⟨hzero, hbus⟩ := usbHandleCmdFm_issued (w := w.recording) lib hq hbind
      have hissued : issued lib .fm argv w = [q.answer lib w] := hbus
      have hret : (execUsbCmd lib .fm argv w).1 = 0 := by
        rw [hrun]
        exact hzero
      rw [Reports, hissued]
      simp [hret]

end Fm

/-- **Failed transfers are reported.**  Reads and writes report theirs; an fm line on a
bound device does if it issues none, or the one it issues is answered well. -/
theorem reports_iff (lib : Libusb σ) {w : World σ} (hbind : w.usbctrl.bind ≠ 0) {id : UsbCmd}
    (hid : id = .read ∨ id = .write ∨ id = .fm) (argv : List (List UInt8)) :
    Reports lib id argv w ↔
      (id = .fm → ∀ q ∈ fmLineRequest argv, (q.answer lib w).Good) := by
  rcases hid with rfl | rfl | rfl
  · exact iff_of_true (reports_rw lib argv true hbind) fun h => by cases h
  · exact iff_of_true (reports_rw lib argv false hbind) fun h => by cases h
  · exact (reports_fm lib argv hbind).trans (imp_iff_right rfl).symm

/-- `usb fm volume 8`. -/
def fmVolume : List (List UInt8) :=
  [asciiBytes "usb", asciiBytes "fm", asciiBytes "volume", asciiBytes "8"]

/-- The request of the line `usb fm volume 8`. -/
theorem fmLineRequest_fmVolume :
    fmLineRequest fmVolume = some ⟨usbFmPrimitiveSet, UsbFmSet.volume.code, 8, 1⟩ := by
  decide +kernel

/-- The quiet bus with a device that answers every request alike. -/
def answerBus (r : Int) (bytes : List UInt8) : Libusb Unit :=
  { quietBus Unit with controlTransfer := fun _ _ _ s => ((r, bytes), s) }

/-- A device that takes the request. -/
theorem reports_fmVolume : Reports (answerBus 1 [0]) .fm fmVolume (boundWorld ()) :=
  (reports_iff (answerBus 1 [0]) (by decide) (by decide) fmVolume).mpr fun _ q hq => by
    rw [fmLineRequest_fmVolume] at hq
    obtain rfl := Option.some.inj hq
    exact ⟨by decide +kernel, by decide +kernel⟩

/-- A transfer that fails, and a status that is not 0, look like success. -/
theorem fm_failure_unreported :
    ¬ Reports (answerBus (-1) []) .fm fmVolume (boundWorld ()) ∧
      ¬ Reports (answerBus 1 [5]) .fm fmVolume (boundWorld ()) := by
  constructor
  · intro hreports
    have hgood := (reports_fm _ fmVolume (by decide)).mp hreports _ fmLineRequest_fmVolume
    exact absurd hgood.full (by decide)
  · intro hreports
    have hgood := (reports_fm _ fmVolume (by decide)).mp hreports _ fmLineRequest_fmVolume
    exact absurd (hgood.status (by decide) 5 rfl) (by decide)

end Usb

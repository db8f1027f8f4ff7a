import Mathlib.Logic.Function.Basic
import Alp.UsbCmd

/-!
# The FM settings

A device that decodes control requests by the numbers of `usb_fm_ctrl.h` is a file of
settings: request `0xA1` writes the setting with the number `wValue`, request `0xA2`
answers with the value with that number.  The two numberings differ: the value
`USB_FM_GET_BAND` is 3, the setting with the number 3 is the channel spacing.

Against such a device each `usb fm` subcommand is a read or a write of one setting
(`FmOk`), except `usb fm band` and `usb fm mute` without argument, which send the
number of the value with the request that writes.
-/

set_option autoImplicit false

namespace Usb

open CString

/-- The settings, and the values that can only be read. -/
structure FmDevice where
  setting : UsbFmSet → BitVec 16
  info : UsbFmGet → BitVec 16

/-- The setting a value reports. -/
def UsbFmGet.setting : UsbFmGet → Option UsbFmSet
  | .fmPowerState => some .power
  | .band => some .band
  | .seekChanRssiTh => some .chanRssiTh
  | .seekChanSpacing => some .chanSpacing
  | .muteState => some .mute
  | .monoState => some .mono
  | .vol => some .volume
  | .rdsState => some .rds
  | .curChan => some .tuningChan
  | .dcThres => some .dcThres
  | .spikeThres => some .spikeThres
  | .fmIc | .seekState | .dnsState | .afState => none

/-- All of `USB_FM_SET_CMD_E`. -/
def UsbFmSet.all : List UsbFmSet :=
  [.power, .band, .chanRssiTh, .chanSpacing, .mute, .volume, .mono, .seekStart, .seekStop,
    .tuningChan, .rds, .dcThres, .spikeThres]

/-- All of `USB_FM_GET_CMD_E`. -/
def UsbFmGet.all : List UsbFmGet :=
  [.fmIc, .fmPowerState, .band, .seekChanRssiTh, .seekChanSpacing, .muteState, .monoState,
    .vol, .seekState, .rdsState, .dnsState, .afState, .curChan, .dcThres, .spikeThres]

/-- One setting written. -/
def FmDevice.write (d : FmDevice) (s : UsbFmSet) (v : BitVec 16) : FmDevice :=
  { d with setting := Function.update d.setting s v }

/-- The value of a number of `USB_FM_GET_CMD_E`. -/
def FmDevice.read (d : FmDevice) (g : UsbFmGet) : BitVec 16 :=
  match g.setting with
  | some s => d.setting s
  | none => d.info g

/-- The device after request `0xA1`; numbers of no setting are ignored. -/
def FmDevice.setRequest (d : FmDevice) (wValue wIndex : BitVec 16) : FmDevice :=
  match UsbFmSet.all.find? (fun s => s.code == wValue) with
  | some s => d.write s wIndex
  | none => d

/-- Two bytes, low byte first. -/
def le16 (v : BitVec 16) : List UInt8 :=
  [UInt8.ofBitVec (v.setWidth 8), UInt8.ofBitVec ((v >>> 8).setWidth 8)]

/-- The answer to request `0xA2`. -/
def FmDevice.getRequest (d : FmDevice) (wValue : BitVec 16) : List UInt8 :=
  match UsbFmGet.all.find? (fun g => g.code == wValue) with
  | some g => le16 (d.read g)
  | none => []

/-- A bus with the device, on which every transfer succeeds.  What the device answers
to a request that writes is `status`; the rest of libusb is that of `rest`. -/
def fmBus (rest : Libusb FmDevice) (status : ControlSetup → FmDevice → List UInt8) :
    Libusb FmDevice :=
  { rest with
    controlTransfer := fun _ setup _ d =>
      if setup.bRequest = usbFmPrimitiveSet then
        ((setup.wLength.toNat, status setup d), d.setRequest setup.wValue setup.wIndex)
      else if setup.bRequest = usbFmPrimitiveGet then
        ((setup.wLength.toNat, d.getRequest setup.wValue), d)
      else ((setup.wLength.toNat, []), d) }

/-- A 16-bit value is read back from its two bytes. -/
theorem leWord_le16 (v : BitVec 16) : (leWord (le16 v)).setWidth 16 = v := by
  ext i hi
  simp only [leWord, le16]
  by_cases hlow : i < 8
  · simp [hlow, BitVec.getLsbD_eq_getElem hi]
  · have hrest : 8 + (i - 8) = i := by omega
    have hhigh : i - 8 < 8 := by omega
    simp [hlow, hhigh, hrest, BitVec.getLsbD_eq_getElem hi]

/-- The subcommands of `usb fm` on settings. -/
inductive FmSub
  | on
  | off
  | band
  | channel
  | volume
  | mute
  deriving DecidableEq

def FmSub.name : FmSub → CStr
  | .on => lit "on"
  | .off => lit "off"
  | .band => lit "band"
  | .channel => lit "channel"
  | .volume => lit "volume"
  | .mute => lit "mute"

/-- A line `usb fm sub [arg]`. -/
structure FmLine where
  sub : FmSub
  arg : Option (List UInt8)

/-- The words of the line. -/
def FmLine.argv (l : FmLine) : List (List UInt8) :=
  [asciiBytes "usb", asciiBytes "fm", l.sub.name.bytes] ++ l.arg.toList

/-- The world after the line. -/
def FmLine.run {σ : Type} (lib : Libusb σ) (l : FmLine) (w : World σ) : World σ :=
  (execUsbCmd lib .fm l.argv w).2

/-- The subcommand on one setting: a read without argument changes nothing and prints
the setting, a write with an argument changes it to the masked argument. -/
def FmAccess (value : FmValue) (s : UsbFmSet) (mask : BitVec 16) (arg : Option (List UInt8))
    (w w' : World FmDevice) : Prop :=
  match arg with
  | none => w'.bus = w.bus ∧ w'.log.getLast? = some (.fm value (w.bus.setting s))
  | some a => w'.bus = w.bus.write s ((strtoul a).setWidth 16 &&& mask)

/-- What a line has to do to the device: `on` and `off` write the power, the others are
accesses to their setting. -/
def FmOk (l : FmLine) (w w' : World FmDevice) : Prop :=
  match l.sub with
  | .on => w'.bus = w.bus.write .power 1
  | .off => w'.bus = w.bus.write .power 0
  | .band => FmAccess .band .band 0x3 l.arg w w'
  | .channel => FmAccess .chan .tuningChan 0xFFFF l.arg w w'
  | .volume => FmAccess .vol .volume 0xF l.arg w w'
  | .mute => FmAccess .mute .mute 0x3 l.arg w w'

/-- Every line of the sequence does what it has to. -/
def FmRun (lib : Libusb FmDevice) : List FmLine → World FmDevice → Prop
  | [], _ => True
  | l :: rest, w => FmOk l w (l.run lib w) ∧ FmRun lib rest (l.run lib w)

/-- `usb fm band` and `usb fm mute` without argument. -/
def FmLine.misread (l : FmLine) : Bool :=
  l.arg.isNone && (l.sub == .band || l.sub == .mute)

/-- The id in `fm_sub_cmds`. -/
def FmSub.cmd : FmSub → FmCmd
  | .on => .powerOn
  | .off => .powerOff
  | .band => .band
  | .channel => .channel
  | .volume => .volume
  | .mute => .mute

/-- The argument of the line, as `usb_handle_cmd_fm` reads it. -/
def FmLine.value (l : FmLine) : Option (BitVec 16) :=
  l.arg.map fun s => (strtoul s).setWidth 16

/-- The table finds every subcommand under its own name. -/
theorem FmSub.findRev (sub : FmSub) :
    fmSubCmds.findRev? (fun c => c.1.bytes == sub.name.bytes) = some (sub.name, sub.cmd) := by
  cases sub <;> decide

/-- A known subcommand on a bound device. -/
theorem usbHandleCmdFm_eq {σ : Type} (lib : Libusb σ) {argv : List (List UInt8)}
    {subCmd : List UInt8} {name : CStr} {id : FmCmd} {w : World σ} (hbind : w.usbctrl.bind ≠ 0)
    (hsub : argv[usbIdxArgc1]? = some subCmd)
    (hid : fmSubCmds.findRev? (fun c => c.1.bytes == subCmd) = some (name, id)) :
    usbHandleCmdFm lib argv w =
      usbFmSwitch lib id (argv[usbIdxArgc2]?.map fun s => (strtoul s).setWidth 16) w := by
  simp only [usbHandleCmdFm, hsub, hid]
  exact congrFun (if_neg hbind) w

/-- A line runs its subcommand, once a device is bound. -/
theorem FmLine.run_eq {σ : Type} (lib : Libusb σ) (l : FmLine) {w : World σ}
    (hbind : w.usbctrl.bind ≠ 0) : l.run lib w = (usbFmSwitch lib l.sub.cmd l.value w).2 := by
  have hargs : l.argv[usbIdxArgc1]? = some l.sub.name.bytes ∧ l.argv[usbIdxArgc2]? = l.arg := by
    unfold FmLine.argv
    cases l.arg <;> exact ⟨rfl, rfl⟩
  have hrun := usbHandleCmdFm_eq lib hbind hargs.1 l.sub.findRev
  rw [hargs.2] at hrun
  exact congrArg Prod.snd hrun

/-- A request with a setting's code writes that setting. -/
theorem setRequest_code (d : FmDevice) (s : UsbFmSet) (v : BitVec 16) :
    d.setRequest s.code v = d.write s v := by
  cases s <;> rfl

section Run

variable (rest : Libusb FmDevice) (status : ControlSetup → FmDevice → List UInt8)

/-- The transfer of `usb_fm_raw_xfer` as it stands in the log. -/
def fmTransfer (w : World FmDevice) (request : BitVec 8) (wValue wIndex wLength : BitVec 16)
    (buf : List UInt8) : Event :=
  .transfer w.usbctrl.handle ⟨reqTypeDevRd, request, wValue, wIndex, wLength⟩ buf wLength.toNat

/-- A request that writes. -/
theorem usbFmSet_fmBus (s : UsbFmSet) (v : BitVec 16) (w : World FmDevice) :
    (usbFmSet (fmBus rest status) s.code v w).2 =
      { w with
        bus := w.bus.write s v,
        log := w.log ++ [fmTransfer w usbFmPrimitiveSet s.code v 1 [0]] } := by
  rw [← setRequest_code]
  rfl

/-- A getter that sends the request that reads. -/
theorem usbFmGet_fmBus (g : UsbFmGet) (w : World FmDevice) :
    usbFmGet (fmBus rest status) usbFmPrimitiveGet g.code w =
      (w.bus.read g, { w with
        log := w.log ++ [fmTransfer w usbFmPrimitiveGet g.code 0 2 [0, 0]] }) := by
  have hrun : usbFmGet (fmBus rest status) usbFmPrimitiveGet g.code w =
      ((leWord (le16 (w.bus.read g))).setWidth 16, { w with
        log := w.log ++ [fmTransfer w usbFmPrimitiveGet g.code 0 2 [0, 0]] }) := by
    cases g <;> rfl
  rw [hrun, leWord_le16]

/-- A getter that sends the request that writes: it writes 0 to whatever setting has
the number of the value. -/
theorem usbFmGet_fmBus_set (code : BitVec 16) (w : World FmDevice) :
    (usbFmGet (fmBus rest status) usbFmPrimitiveSet code w).2 =
      { w with
        bus := w.bus.setRequest code 0,
        log := w.log ++ [fmTransfer w usbFmPrimitiveSet code 0 2 [0, 0]] } :=
  rfl

/-- `fm on` and `fm off` write the power. -/
theorem usbFmCmdPower_fmBus (on : Int) (w : World FmDevice) :
    let v : BitVec 16 := if on ≠ 0 then 1 else 0
    (usbFmCmdPower (fmBus rest status) on w).2.bus = w.bus.write .power v :=
  congrArg World.bus (usbFmSet_fmBus rest status .power _ w)

/-- A register command with an argument. -/
theorem usbFmCmdReg_set (value : FmValue) (s : UsbFmSet) (mask : BitVec 16)
    (request : BitVec 8) (g : UsbFmGet) (x : BitVec 16) (w : World FmDevice) :
    (usbFmCmdReg (fmBus rest status) value s mask request g x true w).2.bus =
      w.bus.write s (x &&& mask) :=
  congrArg World.bus (usbFmSet_fmBus rest status s (x &&& mask) w)

/-- A register command without argument that sends the request that reads. -/
theorem usbFmCmdReg_get (value : FmValue) (s : UsbFmSet) (mask : BitVec 16) (g : UsbFmGet)
    (x : BitVec 16) (w : World FmDevice) :
    let w' := (usbFmCmdReg (fmBus rest status) value s mask usbFmPrimitiveGet g x false w).2
    w'.bus = w.bus ∧ w'.log.getLast? = some (.fm value (w.bus.read g)) := by
  have hget := usbFmGet_fmBus rest status g w
  have hrun : (usbFmCmdReg (fmBus rest status) value s mask usbFmPrimitiveGet g x false w).2 =
      (trace (.fm value (usbFmGet (fmBus rest status) usbFmPrimitiveGet g.code w).1)
        (usbFmGet (fmBus rest status) usbFmPrimitiveGet g.code w).2).2 := rfl
  rw [hget] at hrun
  simp only [hrun, trace]
  exact ⟨trivial, by simp⟩

/-- A register command without argument that sends the request that writes. -/
theorem usbFmCmdReg_misread (value : FmValue) (s : UsbFmSet) (mask : BitVec 16) (g : UsbFmGet)
    (x : BitVec 16) (w : World FmDevice) :
    (usbFmCmdReg (fmBus rest status) value s mask usbFmPrimitiveSet g x false w).2.bus =
      w.bus.setRequest g.code 0 :=
  congrArg World.bus (usbFmGet_fmBus_set rest status g.code w)

/-- The line leaves the binding alone. -/
theorem FmLine.run_usbctrl (l : FmLine) {w : World FmDevice} (hbind : w.usbctrl.bind ≠ 0) :
    (l.run (fmBus rest status) w).usbctrl = w.usbctrl := by
  rw [l.run_eq _ hbind]
  unfold FmLine.value
  cases l.sub <;> cases l.arg <;> rfl

/-- A line that is no misread does what it has to. -/
theorem FmLine.ok_of_not_misread (l : FmLine) {w : World FmDevice} (hbind : w.usbctrl.bind ≠ 0)
    (hl : l.misread = false) : FmOk l w (l.run (fmBus rest status) w) := by
  rw [l.run_eq _ hbind]
  obtain ⟨sub, arg⟩ := l
  cases sub with
  | on => exact usbFmCmdPower_fmBus rest status 1 w
  | off => exact usbFmCmdPower_fmBus rest status 0 w
  | band =>
      cases arg with
      | none => cases hl
      | some a =>
          exact usbFmCmdReg_set rest status .band .band 0x3 usbFmPrimitiveSet .band
            ((strtoul a).setWidth 16) w
  | channel =>
      cases arg with
      | none => exact usbFmCmdReg_get rest status .chan .tuningChan 0xFFFF .curChan 0 w
      | some a =>
          exact usbFmCmdReg_set rest status .chan .tuningChan 0xFFFF usbFmPrimitiveGet .curChan
            ((strtoul a).setWidth 16) w
  | volume =>
      cases arg with
      | none => exact usbFmCmdReg_get rest status .vol .volume 0xF .vol 0 w
      | some a =>
          exact usbFmCmdReg_set rest status .vol .volume 0xF usbFmPrimitiveGet .vol
            ((strtoul a).setWidth 16) w
  | mute =>
      cases arg with
      | none => cases hl
      | some a =>
          exact usbFmCmdReg_set rest status .mute .mute 0x3 usbFmPrimitiveSet .muteState
            ((strtoul a).setWidth 16) w

/-- The settings that no line has to change. -/
def UsbFmSet.untouched : UsbFmSet → Bool
  | .power | .band | .tuningChan | .volume | .mute => false
  | _ => true

/-- A line that does what it has to leaves the other settings alone. -/
theorem FmOk.frame {l : FmLine} {w w' : World FmDevice} (h : FmOk l w w') {s : UsbFmSet}
    (hs : s.untouched = true) : w'.bus.setting s = w.bus.setting s := by
  have hwrite : ∀ (s' : UsbFmSet) (v : BitVec 16), s'.untouched = false →
      w'.bus = w.bus.write s' v → w'.bus.setting s = w.bus.setting s := by
    intro s' v hs' hbus
    have hne : s ≠ s' := by
      rintro rfl
      simp [hs] at hs'
    rw [hbus]
    exact Function.update_of_ne hne v w.bus.setting
  have haccess : ∀ (value : FmValue) (s' : UsbFmSet) (mask : BitVec 16),
      s'.untouched = false → FmAccess value s' mask l.arg w w' →
        w'.bus.setting s = w.bus.setting s := by
    intro value s' mask hs' hacc
    unfold FmAccess at hacc
    split at hacc
    · rw [hacc.1]
    · exact hwrite s' _ hs' hacc
  unfold FmOk at h
  split at h
  · exact hwrite .power 1 rfl h
  · exact hwrite .power 0 rfl h
  · exact haccess _ .band _ rfl h
  · exact haccess _ .tuningChan _ rfl h
  · exact haccess _ .volume _ rfl h
  · exact haccess _ .mute _ rfl h

/-- A misread writes the setting that has the number of the value: the channel spacing
for the band, mono for the mute state. -/
theorem FmLine.not_ok_of_misread (l : FmLine) {w : World FmDevice}
    (hbind : w.usbctrl.bind ≠ 0) (hl : l.misread = true)
    (hset : ∀ s : UsbFmSet, s.untouched = true → w.bus.setting s ≠ 0) :
    ¬ FmOk l w (l.run (fmBus rest status) w) := by
  intro hok
  rw [l.run_eq _ hbind] at hok
  obtain ⟨sub, arg⟩ := l
  have harg : arg = none := by
    cases arg with
    | none => rfl
    | some a => cases hl
  subst harg
  cases sub with
  | on | off | channel | volume => cases hl
  | band =>
      have hbus := usbFmCmdReg_misread rest status .band .band 0x3 .band 0 w
      have hzero := congrArg (fun d => d.setting .chanSpacing) (hbus.symm.trans hok.1)
      exact hset .chanSpacing rfl hzero.symm
  | mute =>
      have hbus := usbFmCmdReg_misread rest status .mute .mute 0x3 .muteState 0 w
      have hzero := congrArg (fun d => d.setting .mono) (hbus.symm.trans hok.1)
      exact hset .mono rfl hzero.symm

/-- Without misreads every line of a sequence does what it has to. -/
theorem fmRun_of_no_misread (lines : List FmLine) (hlines : ∀ l ∈ lines, l.misread = false)
    {w : World FmDevice} (hbind : w.usbctrl.bind ≠ 0) : FmRun (fmBus rest status) lines w := by
  induction lines generalizing w with
  | nil => trivial
  | cons l lines ih =>
      refine ⟨l.ok_of_not_misread rest status hbind (hlines l (by simp)), ?_⟩
      refine ih (fun l' hl' => hlines l' (by simp [hl'])) ?_
      rw [l.run_usbctrl rest status hbind]
      exact hbind

/-- A misread anywhere in a sequence shows on a device whose settings are not 0. -/
theorem not_fmRun_of_misread (lines : List FmLine) (hlines : ∃ l ∈ lines, l.misread = true)
    {w : World FmDevice} (hbind : w.usbctrl.bind ≠ 0)
    (hset : ∀ s : UsbFmSet, s.untouched = true → w.bus.setting s ≠ 0) :
    ¬ FmRun (fmBus rest status) lines w := by
  induction lines generalizing w with
  | nil => simp at hlines
  | cons l lines ih =>
      rintro ⟨hok, hrun⟩
      cases hl : l.misread with
      | true => exact l.not_ok_of_misread rest status hbind hl hset hok
      | false =>
          have hrest : ∃ l' ∈ lines, l'.misread = true := by simpa [hl] using hlines
          refine ih hrest ?_ ?_ hrun
          · rw [l.run_usbctrl rest status hbind]
            exact hbind
          · intro s hs
            rw [hok.frame hs]
            exact hset s hs

end Run

/-- A bound world with all settings 1. -/
def allOnesWorld : World FmDevice where
  usbctrl := ⟨1, some 0, bindDefVid, bindDefPid⟩
  bus := ⟨fun _ => 1, fun _ => 1⟩
  opened := 1
  log := []

/-- **The FM settings.**  The lines of a sequence do what they have to from every bound
state of the device if and only if none of them is `usb fm band` or `usb fm mute`
without argument. -/
theorem fmRun_iff (rest : Libusb FmDevice) (status : ControlSetup → FmDevice → List UInt8)
    (lines : List FmLine) :
    (∀ w : World FmDevice, w.usbctrl.bind ≠ 0 → FmRun (fmBus rest status) lines w) ↔
      ∀ l ∈ lines, l.misread = false := by
  constructor
  · intro hrun l hl
    by_contra hmis
    rw [Bool.not_eq_false] at hmis
    exact not_fmRun_of_misread rest status lines ⟨l, hl, hmis⟩ (by decide)
      (fun _ _ => by simp [allOnesWorld]) (hrun allOnesWorld (by decide))
  · intro hlines w hbind
    exact fmRun_of_no_misread rest status lines hlines hbind

/-- `usb fm band` on a device whose channel spacing is 1 sets the spacing to 0. -/
theorem fm_band_misread :
    ¬ ∀ (lines : List FmLine) (w : World FmDevice), w.usbctrl.bind ≠ 0 →
      FmRun (fmBus (quietBus FmDevice) fun _ _ => [0]) lines w := by
  intro hclaim
  have hrun := (hclaim [⟨.band, none⟩] allOnesWorld (by decide)).1
  have hspacing : (FmLine.run (fmBus (quietBus FmDevice) fun _ _ => [0]) ⟨.band, none⟩
      allOnesWorld).bus.setting .chanSpacing = 0 := by decide +kernel
  rw [hrun.1] at hspacing
  exact absurd hspacing (by decide)

end Usb

import Alp.Hoare
import Alp.UsbCmd

/-!
# The control transfers of a command

`Libusb.recorded` is libusb with a record of the control transfers and what the device
answered to each; it changes nothing else (`execUsbCmd_recorded`).  `issued` are the
transfers of one command.

A read or write line asks for one thing (`rwPlan`): to be refused, to send one buffer,
or to read a burst.  A bound device is asked for the transfers of the plan, in its
order, and the result says how many of them failed (`issued_rw`).
-/

set_option autoImplicit false

namespace Usb

open CString Hoare

variable {σ : Type}

/-- A control transfer and what it was answered with. -/
structure Answer where
  setup : ControlSetup
  r : Int
  bytes : List UInt8
  deriving DecidableEq

/-- The whole length was transferred. -/
def Answer.full (a : Answer) : Bool :=
  a.r == a.setup.wLength.toNat

/-- libusb with a record of its control transfers. -/
def Libusb.recorded (lib : Libusb σ) : Libusb (σ × List Answer) where
  init := fun s => ((lib.init s.1).1, (lib.init s.1).2, s.2)
  exit := fun s => (lib.exit s.1, s.2)
  getDeviceList := fun s => ((lib.getDeviceList s.1).1, (lib.getDeviceList s.1).2, s.2)
  freeDeviceList := fun s => (lib.freeDeviceList s.1, s.2)
  getDeviceDescriptor := fun dev s =>
    ((lib.getDeviceDescriptor dev s.1).1, (lib.getDeviceDescriptor dev s.1).2, s.2)
  getActiveConfigDescriptor := fun dev s =>
    ((lib.getActiveConfigDescriptor dev s.1).1, (lib.getActiveConfigDescriptor dev s.1).2, s.2)
  openDeviceWithVidPid := fun vid pid s =>
    ((lib.openDeviceWithVidPid vid pid s.1).1, (lib.openDeviceWithVidPid vid pid s.1).2, s.2)
  close := fun h s => (lib.close h s.1, s.2)
  controlTransfer := fun h setup data s =>
    let res := lib.controlTransfer h setup data s.1
    (res.1, res.2, s.2 ++ [⟨setup, res.1.1, res.1.2⟩])

/-- The world without the record. -/
def World.plain (w : World (σ × List Answer)) : World σ where
  usbctrl := w.usbctrl
  bus := w.bus.1
  opened := w.opened
  log := w.log

/-- The world with an empty record. -/
def World.recording (w : World σ) : World (σ × List Answer) where
  usbctrl := w.usbctrl
  bus := (w.bus, [])
  opened := w.opened
  log := w.log

/-- A world just after a bind. -/
def boundWorld (bus : σ) : World σ where
  usbctrl := ⟨1, some 0, bindDefVid, bindDefPid⟩
  bus := bus
  opened := 1
  log := []

/-- The control transfers of a command, with their answers. -/
def issued (lib : Libusb σ) (id : UsbCmd) (argv : List (List UInt8)) (w : World σ) :
    List Answer :=
  (execUsbCmd lib.recorded id argv w.recording).2.bus.2

section Plain

variable (lib : Libusb σ)

/-- With and without the record the function does the same. -/
abbrev Plain {α : Type} (m : UsbM (σ × List Answer) α) (m' : UsbM σ α) : Prop :=
  Mirrors World.plain m m'

/-- Recording changes nothing else of opening a device by its ids. -/
theorem libusbOpenDeviceWithVidPid_plain (vid pid : BitVec 16) :
    Plain (libusbOpenDeviceWithVidPid lib.recorded vid pid)
      (libusbOpenDeviceWithVidPid lib vid pid) := by
  intro w
  simp only [libusbOpenDeviceWithVidPid]
  cases h : (lib.openDeviceWithVidPid vid pid w.bus.1).1 <;>
    simp [Libusb.recorded, World.plain, h]

/-- Recording changes nothing else of the loop of `list`, by induction on the devices. -/
theorem usbListLoop_plain (devs : List Nat) :
    Plain (usbListLoop lib.recorded devs) (usbListLoop lib devs) := by
  induction devs with
  | nil => exact Mirrors.pure _ _
  | cons dev rest ih =>
      refine Mirrors.bind (fun _ => rfl) fun res => Mirrors.ite (Mirrors.pure _ _) ?_
      exact Mirrors.bind (fun _ => rfl) fun _ => ih

/-- Recording changes nothing else of `usb list`. -/
theorem usbHandleCmdList_plain :
    Plain (usbHandleCmdList lib.recorded) (usbHandleCmdList lib) := by
  refine Mirrors.bind (fun _ => rfl) fun r => Mirrors.ite (Mirrors.pure _ _) ?_
  refine Mirrors.bind (fun _ => rfl) fun devs => Mirrors.ite (Mirrors.pure _ _) ?_
  refine Mirrors.bind (usbListLoop_plain lib devs.2) fun left => ?_
  cases left with
  | some r => exact Mirrors.pure _ _
  | none => exact fun _ => rfl

/-- Recording changes nothing else of the loop of `test`, by induction on the devices. -/
theorem usbTestLoop_plain (vid pid : BitVec 16) (devs : List Nat) (r : Int) :
    Plain (usbTestLoop lib.recorded vid pid r devs) (usbTestLoop lib vid pid r devs) := by
  induction devs generalizing r with
  | nil => exact Mirrors.pure _ _
  | cons dev rest ih =>
      exact Mirrors.bind (fun _ => rfl) fun res => Mirrors.ite (fun _ => rfl) (ih res.1)

/-- Recording changes nothing else of `usb test`. -/
theorem usbHandleCmdTest_plain (argv : List (List UInt8)) :
    Plain (usbHandleCmdTest lib.recorded argv) (usbHandleCmdTest lib argv) := by
  refine Mirrors.ite (Mirrors.pure _ _) ?_
  refine Mirrors.bind (fun _ => rfl) fun r => Mirrors.ite (Mirrors.pure _ _) ?_
  refine Mirrors.bind (fun _ => rfl) fun devs => Mirrors.ite (Mirrors.pure _ _) ?_
  exact Mirrors.bind (usbTestLoop_plain lib _ _ devs.2 r) fun r => fun _ => rfl

/-- Recording changes nothing else of `usb bind` and `usb unbind`. -/
theorem usbHandleCmdBind_plain (argv : List (List UInt8)) (bind : Int) :
    Plain (usbHandleCmdBind lib.recorded argv bind) (usbHandleCmdBind lib argv bind) := by
  refine Mirrors.get fun w => Mirrors.ite (Mirrors.pure _ _) ?_
  refine Mirrors.ite ?_ ?_
  · refine Mirrors.ite (Mirrors.pure _ _) ?_
    refine Mirrors.bind (fun _ => rfl) fun r => Mirrors.ite (Mirrors.pure _ _) ?_
    refine Mirrors.bind (libusbOpenDeviceWithVidPid_plain lib _ _) fun h => ?_
    exact Mirrors.ite (Mirrors.pure _ _) fun _ => rfl
  · exact Mirrors.ite (fun _ => rfl) fun _ => rfl

/-- Recording changes nothing else of one write transfer. -/
theorem usbRwSend_plain (cmd : RwCmd) (addr : BitVec 32) (buf : List UInt8)
    (len : BitVec 32) :
    Plain (usbRwSend lib.recorded cmd addr buf len) (usbRwSend lib cmd addr buf len) :=
  Mirrors.get fun _ => Mirrors.bind (fun _ => rfl) fun _ =>
    Mirrors.ite (Mirrors.pure _ _) (Mirrors.pure _ _)

/-- Recording changes nothing else of a write command. -/
theorem usbRwWrite_plain (argv : List (List UInt8)) (cmd : RwCmd) (addr data : BitVec 32) :
    Plain (usbRwWrite lib.recorded argv cmd addr data) (usbRwWrite lib argv cmd addr data) := by
  refine Mirrors.ite (Mirrors.pure _ _) ?_
  cases cmd with
  | ana | pmu | dig | mem => exact Mirrors.ite (Mirrors.pure _ _) (usbRwSend_plain lib _ _ _ _)
  | exec | reset | resetCdc => exact usbRwSend_plain lib _ _ _ _

/-- Recording changes nothing else of the read loop, by induction on the passes left. -/
theorem usbReadLoop_plain (cmd : RwCmd) (len inc : BitVec 32) (times : Nat)
    (addr : BitVec 32) (buf : List UInt8) (err : BitVec 32) :
    Plain (usbReadLoop lib.recorded cmd len inc times addr buf err)
      (usbReadLoop lib cmd len inc times addr buf err) := by
  induction times generalizing addr buf err with
  | zero => exact Mirrors.pure _ _
  | succ times ih =>
      refine Mirrors.get fun w => Mirrors.bind (fun _ => rfl) fun res => ?_
      exact Mirrors.ite (ih _ _ _) (Mirrors.bind (fun _ => rfl) fun _ => ih _ _ _)

/-- Recording changes nothing else of a read command. -/
theorem usbRwRead_plain (cmd : RwCmd) (addr argv3 : BitVec 32) :
    Plain (usbRwRead lib.recorded cmd addr argv3) (usbRwRead lib cmd addr argv3) := by
  cases cmd with
  | ana | pmu | dig | mem =>
      exact Mirrors.ite (Mirrors.pure _ _) (usbReadLoop_plain lib _ _ _ _ _ _ _)
  | exec | reset | resetCdc => exact Mirrors.pure _ _

/-- Recording changes nothing else of `usb read` and `usb write`. -/
theorem usbHandleCmdRw_plain (argv : List (List UInt8)) (read : Bool) :
    Plain (usbHandleCmdRw lib.recorded argv read) (usbHandleCmdRw lib argv read) := by
  refine Mirrors.get fun w => Mirrors.ite (Mirrors.pure _ _) ?_
  cases argv[usbIdxArgc1]? with
  | none => exact Mirrors.pure _ _
  | some cmdName =>
      simp only
      cases rwSubCmds.find? (fun c => c.1.bytes == cmdName) with
      | none => exact Mirrors.pure _ _
      | some cmd => exact Mirrors.ite (usbRwRead_plain lib _ _ _) (usbRwWrite_plain lib _ _ _ _)

/-- Recording changes nothing else of a radio setting. -/
theorem usbFmSet_plain (code value : BitVec 16) :
    Plain (usbFmSet lib.recorded code value) (usbFmSet lib code value) :=
  Mirrors.get fun _ => Mirrors.bind
    (Mirrors.bind (fun _ => rfl) fun _ => Mirrors.ite (Mirrors.pure _ _) (Mirrors.pure _ _))
    fun _ => Mirrors.pure _ _

/-- Recording changes nothing else of a radio query. -/
theorem usbFmGet_plain (request : BitVec 8) (code : BitVec 16) :
    Plain (usbFmGet lib.recorded request code) (usbFmGet lib request code) :=
  Mirrors.get fun _ => Mirrors.bind
    (Mirrors.bind (fun _ => rfl) fun _ => Mirrors.ite (Mirrors.pure _ _) (Mirrors.pure _ _))
    fun _ => Mirrors.pure _ _

/-- Recording changes nothing else of `fm on` and `fm off`. -/
theorem usbFmCmdPower_plain (on : Int) :
    Plain (usbFmCmdPower lib.recorded on) (usbFmCmdPower lib on) :=
  Mirrors.bind (usbFmSet_plain lib _ _) fun _ => fun _ => rfl

/-- Recording changes nothing else of the radio subcommands that set or get one value. -/
theorem usbFmCmdReg_plain (value : FmValue) (setCode : UsbFmSet) (mask : BitVec 16)
    (request : BitVec 8) (getCode : UsbFmGet) (x : BitVec 16) (set : Bool) :
    Plain (usbFmCmdReg lib.recorded value setCode mask request getCode x set)
      (usbFmCmdReg lib value setCode mask request getCode x set) :=
  Mirrors.ite (Mirrors.bind (usbFmSet_plain lib _ _) fun _ => fun _ => rfl)
    (Mirrors.bind (usbFmGet_plain lib _ _) fun _ => fun _ => rfl)

/-- Recording changes nothing else of `fm dev`. -/
theorem usbFmCmdGetDevice_plain :
    Plain (usbFmCmdGetDevice lib.recorded) (usbFmCmdGetDevice lib) :=
  Mirrors.bind (usbFmGet_plain lib _ _) fun _ => fun _ => rfl

/-- Recording changes nothing else of `fm test`. -/
theorem usbFmCmdTest_plain : Plain (usbFmCmdTest lib.recorded) (usbFmCmdTest lib) := by
  refine Mirrors.bind (usbFmCmdGetDevice_plain lib) fun _ => ?_
  refine Mirrors.bind (usbFmCmdPower_plain lib 1) fun _ => ?_
  refine Mirrors.bind (usbFmCmdReg_plain lib _ _ _ _ _ _ _) fun _ => ?_
  refine Mirrors.bind (usbFmCmdReg_plain lib _ _ _ _ _ _ _) fun _ => ?_
  exact Mirrors.bind (usbFmCmdReg_plain lib _ _ _ _ _ _ _) fun _ => Mirrors.pure _ _

/-- Recording changes nothing else of the switch over the radio subcommands. -/
theorem usbFmSwitch_plain (id : FmCmd) (arg : Option (BitVec 16)) :
    Plain (usbFmSwitch lib.recorded id arg) (usbFmSwitch lib id arg) := by
  cases id with
  | powerOn | powerOff =>
      exact Mirrors.bind (usbFmCmdPower_plain lib _) fun _ => Mirrors.pure _ _
  | volume | channel | band | mute =>
      exact Mirrors.bind (usbFmCmdReg_plain lib _ _ _ _ _ _ _) fun _ => Mirrors.pure _ _
  | device => exact Mirrors.bind (usbFmCmdGetDevice_plain lib) fun _ => Mirrors.pure _ _
  | test => exact Mirrors.bind (usbFmCmdTest_plain lib) fun _ => Mirrors.pure _ _

/-- Recording changes nothing else of `usb fm`. -/
theorem usbHandleCmdFm_plain (argv : List (List UInt8)) :
    Plain (usbHandleCmdFm lib.recorded argv) (usbHandleCmdFm lib argv) := by
  refine Mirrors.get fun w => Mirrors.ite (Mirrors.pure _ _) ?_
  cases argv[usbIdxArgc1]? with
  | none => exact Mirrors.pure _ _
  | some subCmd =>
      simp only
      cases fmSubCmds.findRev? (fun c => c.1.bytes == subCmd) with
      | none => exact Mirrors.pure _ _
      | some id => exact usbFmSwitch_plain lib _ _

/-- **The record changes nothing.**  With it a command returns the same and leaves the
same world. -/
theorem execUsbCmd_recorded (id : UsbCmd) (argv : List (List UInt8)) (w : World σ) :
    execUsbCmd lib id argv w =
      ((execUsbCmd lib.recorded id argv w.recording).1,
        (execUsbCmd lib.recorded id argv w.recording).2.plain) := by
  have hplain : Plain (execUsbCmd lib.recorded id argv) (execUsbCmd lib id argv) := by
    cases id with
    | list | list1 => exact usbHandleCmdList_plain lib
    | bind | unbind => exact usbHandleCmdBind_plain lib argv _
    | read | write => exact usbHandleCmdRw_plain lib argv _
    | test => exact usbHandleCmdTest_plain lib argv
    | fm => exact usbHandleCmdFm_plain lib argv
  exact hplain w.recording

end Plain

/-- What a read or write line asks a bound device for. -/
inductive RwPlan
  /-- Nothing. -/
  | answer (r : Int)
  | send (cmd : RwCmd) (addr : BitVec 32) (buf : List UInt8) (len : BitVec 8)
  | burst (cmd : RwCmd) (len : BitVec 8) (inc times addr : BitVec 32) (buf : List UInt8)

/-- What a write asks for. -/
def writePlan (argv : List (List UInt8)) (cmd : RwCmd) (addr data : BitVec 32) : RwPlan :=
  if cmd.isMod ∧ argv.length ≤ usbIdxArgc3 then .answer (-4)
  else
    match cmd with
    | .ana | .pmu =>
      if anaRegMaxAddr ≤ addr then .answer (-3)
      else .send cmd addr [byteAt data 0, byteAt data 8] 2
    | .dig | .mem =>
      if addr &&& 3 ≠ 0 then .answer (-3)
      else .send cmd addr [byteAt data 0, byteAt data 8, byteAt data 16, byteAt data 24] 4
    | .exec | .reset | .resetCdc => .send cmd addr [0, 0, 0, 0] 4

/-- An analog or PMU register is written with the two low bytes of the argument, below the last
address. -/
theorem writePlan_register {argv : List (List UInt8)} {cmd : RwCmd}
    (hcmd : cmd = .ana ∨ cmd = .pmu) (hargs : usbIdxArgc3 < argv.length) (addr data : BitVec 32) :
    writePlan argv cmd addr data =
      if anaRegMaxAddr ≤ addr then .answer (-3)
      else .send cmd addr [byteAt data 0, byteAt data 8] 2 := by
  unfold writePlan
  rw [if_neg fun h => by omega]
  rcases hcmd with rfl | rfl <;> rfl

/-- A digital register or a memory word is written with all four bytes, at an aligned address. -/
theorem writePlan_word {argv : List (List UInt8)} {cmd : RwCmd}
    (hcmd : cmd = .dig ∨ cmd = .mem) (hargs : usbIdxArgc3 < argv.length) (addr data : BitVec 32) :
    writePlan argv cmd addr data =
      if addr &&& 3 ≠ 0 then .answer (-3)
      else .send cmd addr [byteAt data 0, byteAt data 8, byteAt data 16, byteAt data 24] 4 := by
  unfold writePlan
  rw [if_neg fun h => by omega]
  rcases hcmd with rfl | rfl <;> rfl

/-- What a read asks for. -/
def readPlan (cmd : RwCmd) (addr argv3 : BitVec 32) : RwPlan :=
  match cmd with
  | .ana | .pmu =>
    if anaRegMaxAddr ≤ addr then .answer (-3)
    else .burst cmd 2 1 (argv3 * 4 / 2) addr [0, 0]
  | .dig | .mem =>
    if addr &&& 3 ≠ 0 then .answer (-3)
    else .burst cmd 4 4 (argv3 * 4 / 4) addr [0, 0, 0, 0]
  | .exec | .reset | .resetCdc => .answer 0

/-- An analog or PMU read takes two bytes a pass and goes one address further. -/
theorem readPlan_register {cmd : RwCmd} (hcmd : cmd = .ana ∨ cmd = .pmu)
    (addr argv3 : BitVec 32) :
    readPlan cmd addr argv3 =
      if anaRegMaxAddr ≤ addr then .answer (-3)
      else .burst cmd 2 1 (argv3 * 4 / 2) addr [0, 0] := by
  rcases hcmd with rfl | rfl <;> rfl

/-- A digital or memory read takes four bytes a pass and goes four addresses further. -/
theorem readPlan_word {cmd : RwCmd} (hcmd : cmd = .dig ∨ cmd = .mem) (addr argv3 : BitVec 32) :
    readPlan cmd addr argv3 =
      if addr &&& 3 ≠ 0 then .answer (-3)
      else .burst cmd 4 4 (argv3 * 4 / 4) addr [0, 0, 0, 0] := by
  rcases hcmd with rfl | rfl <;> rfl

/-- What a line asks for. -/
def rwPlan (argv : List (List UInt8)) (read : Bool) : RwPlan :=
  match argv[usbIdxArgc1]? with
  | none => .answer (-2)
  | some cmdName =>
    match rwSubCmds.find? (fun c => c.1.bytes == cmdName) with
    | none => .answer (-3)
    | some (_, cmd) =>
      if read then readPlan cmd (argOr argv usbIdxArgc2 0) (argOr argv usbIdxArgc3 1)
      else writePlan argv cmd (argOr argv usbIdxArgc2 0) (argOr argv usbIdxArgc3 1)

/-- Carrying out a plan. -/
def RwPlan.run (lib : Libusb σ) : RwPlan → UsbM σ Int
  | .answer r => pure r
  | .send cmd addr buf len => usbRwSend lib cmd addr buf (len.setWidth 32)
  | .burst cmd len inc times addr buf =>
    usbReadLoop lib cmd (len.setWidth 32) inc times.toNat addr buf 0

/-- A plan chosen by a test runs as the one the test picks. -/
theorem RwPlan.run_ite (lib : Libusb σ) (c : Prop) [Decidable c] (p q : RwPlan) :
    (if c then p else q).run lib = if c then p.run lib else q.run lib :=
  apply_ite (RwPlan.run lib) c p q

/-- A write command does what its plan says. -/
theorem usbRwWrite_eq (lib : Libusb σ) (argv : List (List UInt8)) (cmd : RwCmd)
    (addr data : BitVec 32) :
    usbRwWrite lib argv cmd addr data = (writePlan argv cmd addr data).run lib := by
  unfold writePlan
  rw [RwPlan.run_ite]
  cases cmd with
  | ana | pmu | dig | mem =>
      simp only
      rw [RwPlan.run_ite]
      rfl
  | exec | reset | resetCdc => rfl

/-- A read command does what its plan says. -/
theorem usbRwRead_eq (lib : Libusb σ) (cmd : RwCmd) (addr argv3 : BitVec 32) :
    usbRwRead lib cmd addr argv3 = (readPlan cmd addr argv3).run lib := by
  unfold readPlan
  cases cmd with
  | ana | pmu | dig | mem =>
      simp only
      rw [RwPlan.run_ite]
      rfl
  | exec | reset | resetCdc => rfl

/-- Unbound, nothing is done. -/
theorem usbHandleCmdRw_unbound (lib : Libusb σ) (argv : List (List UInt8)) (read : Bool)
    {w : World σ} (hbind : w.usbctrl.bind = 0) : usbHandleCmdRw lib argv read w = (-1, w) :=
  congrFun (if_pos hbind) w

/-- A bound device carries out the plan. -/
theorem usbHandleCmdRw_eq (lib : Libusb σ) (argv : List (List UInt8)) (read : Bool)
    {w : World σ} (hbind : w.usbctrl.bind ≠ 0) :
    usbHandleCmdRw lib argv read w = (rwPlan argv read).run lib w := by
  unfold rwPlan usbHandleCmdRw
  refine Eq.trans (congrFun (if_neg hbind) w) ?_
  cases argv[usbIdxArgc1]? with
  | none => rfl
  | some cmdName =>
      simp only
      cases rwSubCmds.find? (fun c => c.1.bytes == cmdName) with
      | none => rfl
      | some cmd =>
          cases read with
          | false => exact congrFun (usbRwWrite_eq lib argv cmd.2 _ _) w
          | true => exact congrFun (usbRwRead_eq lib cmd.2 _ _) w

/-- The request for `len` bytes at an address. -/
def accessSetup (request : BitVec 8) (cmd : RwCmd) (addr : BitVec 32) (len : BitVec 8) :
    ControlSetup :=
  ⟨request, cmd.opcode, (addr &&& 0xFFFF).setWidth 16, (addr >>> 16).setWidth 16,
    (len.setWidth 32).setWidth 16⟩

/-- The requests of a burst. -/
def burstSetups (cmd : RwCmd) (len : BitVec 8) (inc : BitVec 32) (times : Nat)
    (addr : BitVec 32) : List ControlSetup :=
  (List.range times).map fun i =>
    accessSetup reqTypeOthRd cmd (addr + inc * BitVec.ofNat 32 i) len

/-- The address after one step. -/
theorem burst_step (addr inc : BitVec 32) (i : Nat) :
    addr + inc * BitVec.ofNat 32 (i + 1) = addr + inc + inc * BitVec.ofNat 32 i := by
  rw [BitVec.ofNat_add, BitVec.mul_add, BitVec.add_assoc, BitVec.add_comm inc]
  simp

/-- A burst of one more pass begins with the request at the present address. -/
theorem burstSetups_succ (cmd : RwCmd) (len : BitVec 8) (inc : BitVec 32) (times : Nat)
    (addr : BitVec 32) :
    burstSetups cmd len inc (times + 1) addr =
      accessSetup reqTypeOthRd cmd addr len :: burstSetups cmd len inc times (addr + inc) := by
  unfold burstSetups
  rw [List.range_succ_eq_map, List.map_cons, List.map_map]
  congr 1
  · simp
  · exact List.map_congr_left fun i _ => by rw [Function.comp_apply, burst_step]

/-- The transfers a plan asks for, in order. -/
def RwPlan.setups : RwPlan → List ControlSetup
  | .answer _ => []
  | .send cmd addr _ len => [accessSetup reqTypeOthWr cmd addr len]
  | .burst cmd len inc times addr _ => burstSetups cmd len inc times.toNat addr

/-- How many transfers failed. -/
def failures (answers : List Answer) : Nat :=
  answers.countP fun a => !a.full

/-- What a plan returns. -/
def RwPlan.result : RwPlan → List Answer → Int
  | .answer r, _ => r
  | .send .., answers => failures answers
  | .burst .., answers => (BitVec.ofNat 32 (failures answers)).toInt

/-- What libusb answers to a transfer in this world. -/
def answerTo (lib : Libusb σ) (h : Handle) (setup : ControlSetup) (data : List UInt8)
    (w : World σ) : Answer :=
  ⟨setup, (lib.controlTransfer h setup data w.bus).1.1,
    (lib.controlTransfer h setup data w.bus).1.2⟩

/-- The test of the code is the one on the answer. -/
theorem answerTo_full (lib : Libusb σ) (h : Handle) (request : BitVec 8) (cmd : RwCmd)
    (addr : BitVec 32) (len : BitVec 8) (data : List UInt8) (w : World σ) :
    (answerTo lib h (accessSetup request cmd addr len) data w).full = true ↔
      (libusbControlTransfer lib h (accessSetup request cmd addr len) data w).1.1 =
        (len.setWidth 32).toNat := by
  have hlen : ((len.setWidth 32).setWidth 16).toNat = (len.setWidth 32).toNat := by
    rw [BitVec.toNat_setWidth, BitVec.toNat_setWidth]
    omega
  unfold Answer.full
  rw [beq_iff_eq, answerTo, accessSetup, hlen]
  rfl

/-- One round of the read loop. -/
theorem usbReadLoop_succ (lib : Libusb σ) (cmd : RwCmd) (len : BitVec 8) (inc : BitVec 32)
    (times : Nat) (addr : BitVec 32) (buf : List UInt8) (err : BitVec 32) (w : World σ) :
    let setup := accessSetup reqTypeOthRd cmd addr len
    let tr := libusbControlTransfer lib w.usbctrl.handle setup buf w
    usbReadLoop lib cmd (len.setWidth 32) inc (times + 1) addr buf err w =
      if (answerTo lib w.usbctrl.handle setup buf w).full then
        usbReadLoop lib cmd (len.setWidth 32) inc times (addr + inc) tr.1.2 err
          (trace (.data addr (leWord tr.1.2)) tr.2).2
      else
        usbReadLoop lib cmd (len.setWidth 32) inc times (addr + inc) tr.1.2 (err + 1) tr.2 := by
  intro setup tr
  have hfull := answerTo_full lib w.usbctrl.handle reqTypeOthRd cmd addr len buf w
  by_cases h : (answerTo lib w.usbctrl.handle setup buf w).full = true
  · rw [if_pos h]
    exact congrFun (if_neg (not_not_intro (hfull.mp h))) tr.2
  · rw [if_neg h]
    exact congrFun (if_pos fun heq => h (hfull.mpr heq)) tr.2

/-- A write is one transfer. -/
theorem usbRwSend_eq (lib : Libusb σ) (cmd : RwCmd) (addr : BitVec 32) (buf : List UInt8)
    (len : BitVec 8) (w : World σ) :
    let setup := accessSetup reqTypeOthWr cmd addr len
    usbRwSend lib cmd addr buf (len.setWidth 32) w =
      (if (answerTo lib w.usbctrl.handle setup buf w).full then 0 else 1,
        (libusbControlTransfer lib w.usbctrl.handle setup buf w).2) := by
  intro setup
  have hfull := answerTo_full lib w.usbctrl.handle reqTypeOthWr cmd addr len buf w
  let tr := libusbControlTransfer lib w.usbctrl.handle setup buf w
  by_cases h : (answerTo lib w.usbctrl.handle setup buf w).full = true
  · rw [if_pos h]
    exact congrFun (if_neg (not_not_intro (hfull.mp h))) tr.2
  · rw [if_neg h]
    exact congrFun (if_pos fun heq => h (hfull.mpr heq)) tr.2

/-- A burst issues its transfers one after the other and counts those that fail. -/
theorem usbReadLoop_issued (lib : Libusb σ) (cmd : RwCmd) (len : BitVec 8) (inc : BitVec 32)
    (times : Nat) (addr : BitVec 32) (buf : List UInt8) (err : BitVec 32)
    (w : World (σ × List Answer)) :
    let run := usbReadLoop lib.recorded cmd (len.setWidth 32) inc times addr buf err w
    ∃ answers, answers.map Answer.setup = burstSetups cmd len inc times addr ∧
      run.2.bus.2 = w.bus.2 ++ answers ∧
      run.1 = (err + BitVec.ofNat 32 (failures answers)).toInt := by
  induction times generalizing addr buf err w with
  | zero =>
      refine ⟨[], rfl, (List.append_nil _).symm, ?_⟩
      show err.toInt = (err + 0#32).toInt
      rw [BitVec.add_zero]
  | succ times ih =>
      intro run
      have hrun : run = _ := usbReadLoop_succ lib.recorded cmd len inc times addr buf err w
      rw [hrun, burstSetups_succ]
      generalize accessSetup reqTypeOthRd cmd addr len = setup
      let a := answerTo lib.recorded w.usbctrl.handle setup buf w
      by_cases h : a.full = true
      · rw [if_pos h]
        obtain ⟨rest, hsetups, hissued, hresult⟩ := ih (addr + inc) _ err _
        refine ⟨a :: rest, by rw [List.map_cons, hsetups]; rfl, ?_, ?_⟩
        · rw [hissued]
          exact List.append_assoc _ _ _
        · rw [hresult, failures, failures, List.countP_cons_of_neg (by simp [h])]
      · rw [if_neg h]
        obtain ⟨rest, hsetups, hissued, hresult⟩ := ih (addr + inc) _ (err + 1) _
        refine ⟨a :: rest, by rw [List.map_cons, hsetups]; rfl, ?_, ?_⟩
        · rw [hissued]
          exact List.append_assoc _ _ _
        · rw [hresult, failures, failures, List.countP_cons_of_pos (by simp [h]),
            BitVec.ofNat_add, BitVec.add_assoc, BitVec.add_comm (BitVec.ofNat 32 _)]
          rfl

/-- A plan issues its transfers, and its result is about their answers. -/
theorem RwPlan.run_issued (lib : Libusb σ) (p : RwPlan) (w : World (σ × List Answer)) :
    ∃ answers, answers.map Answer.setup = p.setups ∧
      (p.run lib.recorded w).2.bus.2 = w.bus.2 ++ answers ∧
      (p.run lib.recorded w).1 = p.result answers := by
  cases p with
  | answer r => exact ⟨[], rfl, (List.append_nil _).symm, rfl⟩
  | send cmd addr buf len =>
      let a := answerTo lib.recorded w.usbctrl.handle (accessSetup reqTypeOthWr cmd addr len)
        buf w
      refine ⟨[a], rfl, ?_, ?_⟩
      · rw [RwPlan.run, usbRwSend_eq]
        rfl
      · rw [RwPlan.run, usbRwSend_eq]
        show (if a.full then (0 : Int) else 1) = failures [a]
        cases h : a.full <;> simp [failures, h]
  | burst cmd len inc times addr buf =>
      obtain ⟨answers, hsetups, hissued, hresult⟩ :=
        usbReadLoop_issued lib cmd len inc times.toNat addr buf 0 w
      refine ⟨answers, hsetups, hissued, hresult.trans ?_⟩
      show (0#32 + _).toInt = _
      rw [BitVec.zero_add]
      rfl

/-- The command of a line. -/
def rwCmd : Bool → UsbCmd
  | true => .read
  | false => .write

/-- The table's entries `read` and `write` lead to one handler. -/
theorem execUsbCmd_rwCmd (lib : Libusb σ) (argv : List (List UInt8)) (read : Bool) :
    execUsbCmd lib (rwCmd read) argv = usbHandleCmdRw lib argv read := by
  cases read <;> rfl

/-- Unbound, a line issues nothing. -/
theorem issued_unbound (lib : Libusb σ) (argv : List (List UInt8)) (read : Bool) {w : World σ}
    (hbind : w.usbctrl.bind = 0) : issued lib (rwCmd read) argv w = [] := by
  unfold issued
  rw [execUsbCmd_rwCmd, usbHandleCmdRw_unbound lib.recorded argv read hbind]
  rfl

/-- **The transfers of a line.**  A bound device is asked for what the line's plan
says, and the result counts the transfers that failed. -/
theorem issued_rw (lib : Libusb σ) (argv : List (List UInt8)) (read : Bool) {w : World σ}
    (hbind : w.usbctrl.bind ≠ 0) :
    (issued lib (rwCmd read) argv w).map Answer.setup = (rwPlan argv read).setups ∧
      (execUsbCmd lib (rwCmd read) argv w).1 =
        (rwPlan argv read).result (issued lib (rwCmd read) argv w) := by
  obtain ⟨answers, hsetups, hissued, hresult⟩ :=
    (rwPlan argv read).run_issued lib w.recording
  have hrun : execUsbCmd lib.recorded (rwCmd read) argv w.recording =
      (rwPlan argv read).run lib.recorded w.recording := by
    rw [execUsbCmd_rwCmd]
    exact usbHandleCmdRw_eq lib.recorded argv read hbind
  have hanswers : issued lib (rwCmd read) argv w = answers := by
    rw [issued, hrun, hissued]
    rfl
  rw [hanswers, execUsbCmd_recorded, hrun]
  exact ⟨hsetups, hresult⟩

end Usb

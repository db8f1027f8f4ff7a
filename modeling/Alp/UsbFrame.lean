import Alp.Hoare
import Alp.UsbCmd

/-!
# What the commands leave alone

All commands but `bind` and `unbind` leave `usbctrl` alone.  Reads, writes and
`usb fm` add transfers to the bound handle and output to the log (`TransferFrame`);
`list` and `test` look at libusb's device list (`ListFrame`).  A property that
survives these events is kept by the commands: the theorems here go through each
function once, for every such property.
-/

set_option autoImplicit false

namespace Usb

open CString Hoare

variable {σ : Type}

/-- A value printed. -/
def Event.isOutput : Event → Bool
  | .data _ _ | .fm _ _ => true
  | _ => false

/-- A call of libusb around its device list. -/
def Event.isListCall : Event → Bool
  | .init _ | .exit | .getDeviceList _ | .freeDeviceList => true
  | _ => false

/-- A property of worlds with the given `usbctrl` that transfers and output keep. -/
structure TransferFrame (c : UsbCtrl) (inv : World σ → Prop) : Prop where
  usbctrl : ∀ w, inv w → w.usbctrl = c
  transfer : ∀ (w : World σ) (bus : σ) (setup : ControlSetup) (data : List UInt8) (r : Int),
    c.bind ≠ 0 → inv w →
      inv { w with bus := bus, log := w.log ++ [.transfer c.handle setup data r] }
  output : ∀ (w : World σ) (e : Event), e.isOutput = true → inv w →
    inv { w with log := w.log ++ [e] }

/-- A property that looking at the device list keeps. -/
structure ListFrame (inv : World σ → Prop) : Prop where
  call : ∀ (w : World σ) (bus : σ) (e : Event), e.isListCall = true → inv w →
    inv { w with bus := bus, log := w.log ++ [e] }
  bus : ∀ (w : World σ) (bus : σ), inv w → inv { w with bus := bus }

section Frames

variable (lib : Libusb σ) {c : UsbCtrl} {inv : World σ → Prop}

/-- The loop of `list` keeps what does not depend on the bus and the output. -/
theorem usbListLoop_frame (hbus : ∀ (w : World σ) (bus : σ), inv w → inv { w with bus := bus })
    (devs : List Nat) : Triple inv (usbListLoop lib devs) fun _ => inv := by
  induction devs with
  | nil => exact Triple.pure fun _ hw => hw
  | cons dev rest ih =>
      have hdesc : Triple inv (libusbGetDeviceDescriptor lib dev) fun _ => inv :=
        fun w hw => hbus w _ hw
      have hconf : Triple inv (libusbGetActiveConfigDescriptor lib dev) fun _ => inv :=
        fun w hw => hbus w _ hw
      refine Triple.bind hdesc fun res => ?_
      refine Triple.ite (fun _ => Triple.pure fun _ hw => hw) fun _ => ?_
      exact Triple.bind hconf fun _ => ih

/-- The loop of `test` keeps what does not depend on the bus and the output. -/
theorem usbTestLoop_frame (hbus : ∀ (w : World σ) (bus : σ), inv w → inv { w with bus := bus })
    (vid pid : BitVec 16) (devs : List Nat) (r : Int) :
    Triple inv (usbTestLoop lib vid pid r devs) fun _ => inv := by
  induction devs generalizing r with
  | nil => exact Triple.pure fun _ hw => hw
  | cons dev rest ih =>
      have hdesc : Triple inv (libusbGetDeviceDescriptor lib dev) fun _ => inv :=
        fun w hw => hbus w _ hw
      have hconf : Triple inv (libusbGetActiveConfigDescriptor lib dev) fun _ => inv :=
        fun w hw => hbus w _ hw
      exact Triple.bind hdesc fun res => Triple.ite (fun _ => hconf) fun _ => ih res.1

/-- `libusb_init` keeps an invariant of list commands. -/
theorem libusbInit_frame (hf : ListFrame inv) : Triple inv (libusbInit lib) fun _ => inv :=
  fun w hw => hf.call w _ _ rfl hw

/-- `libusb_exit` keeps an invariant of list commands. -/
theorem libusbExit_frame (hf : ListFrame inv) : Triple inv (libusbExit lib) fun _ => inv :=
  fun w hw => hf.call w _ _ rfl hw

/-- Fetching the device list keeps an invariant of list commands. -/
theorem libusbGetDeviceList_frame (hf : ListFrame inv) :
    Triple inv (libusbGetDeviceList lib) fun _ => inv :=
  fun w hw => hf.call w _ _ rfl hw

/-- Freeing the device list keeps an invariant of list commands. -/
theorem libusbFreeDeviceList_frame (hf : ListFrame inv) :
    Triple inv (libusbFreeDeviceList lib) fun _ => inv :=
  fun w hw => hf.call w _ _ rfl hw

/-- `usb list` keeps an invariant of list commands. -/
theorem usbHandleCmdList_frame (hf : ListFrame inv) :
    Triple inv (usbHandleCmdList lib) fun _ => inv := by
  refine Triple.bind (libusbInit_frame lib hf) fun r => ?_
  refine Triple.ite (fun _ => Triple.pure fun _ hw => hw) fun _ => ?_
  refine Triple.bind (libusbGetDeviceList_frame lib hf) fun devs => ?_
  refine Triple.ite (fun _ => Triple.pure fun _ hw => hw) fun _ => ?_
  refine Triple.bind (usbListLoop_frame lib hf.bus devs.2) fun left => ?_
  cases left with
  | some r => exact Triple.pure fun _ hw => hw
  | none =>
      refine Triple.bind (libusbFreeDeviceList_frame lib hf) fun _ => ?_
      exact Triple.bind (libusbExit_frame lib hf) fun _ => Triple.pure fun _ hw => hw

/-- `usb test` keeps an invariant of list commands. -/
theorem usbHandleCmdTest_frame (hf : ListFrame inv) (argv : List (List UInt8)) :
    Triple inv (usbHandleCmdTest lib argv) fun _ => inv := by
  refine Triple.ite (fun _ => Triple.pure fun _ hw => hw) fun _ => ?_
  refine Triple.bind (libusbInit_frame lib hf) fun r => ?_
  refine Triple.ite (fun _ => Triple.pure fun _ hw => hw) fun _ => ?_
  refine Triple.bind (libusbGetDeviceList_frame lib hf) fun devs => ?_
  refine Triple.ite (fun _ => Triple.pure fun _ hw => hw) fun _ => ?_
  refine Triple.bind (usbTestLoop_frame lib hf.bus _ _ devs.2 r) fun r => ?_
  refine Triple.bind (libusbFreeDeviceList_frame lib hf) fun _ => ?_
  exact Triple.bind (libusbExit_frame lib hf) fun _ => Triple.pure fun _ hw => hw

/-- The one libusb function that uses a handle. -/
theorem libusbControlTransfer_frame (hf : TransferFrame c inv) (hbind : c.bind ≠ 0)
    (setup : ControlSetup) (data : List UInt8) :
    Triple inv (libusbControlTransfer lib c.handle setup data) fun _ => inv :=
  fun w hw => hf.transfer w _ setup data _ hbind hw

/-- Printing keeps an invariant of transfers. -/
theorem trace_frame (hf : TransferFrame c inv) {e : Event} (he : e.isOutput = true) :
    Triple inv (trace (σ := σ) e) fun _ => inv :=
  fun w hw => hf.output w e he hw

/-- One write transfer on the bound device keeps an invariant of transfers. -/
theorem usbRwSend_frame (hf : TransferFrame c inv) (hbind : c.bind ≠ 0) (cmd : RwCmd)
    (addr : BitVec 32) (buf : List UInt8) (len : BitVec 32) :
    Triple inv (usbRwSend lib cmd addr buf len) fun _ => inv := by
  refine Triple.get fun w hw => ?_
  rw [hf.usbctrl w hw]
  have hraw : Triple inv (usbRawWrite lib c.handle reqTypeOthWr cmd.opcode addr buf len)
      fun _ => inv :=
    Triple.bind (libusbControlTransfer_frame lib hf hbind _ _) fun _ => Triple.pure fun _ h => h
  refine Triple.bind hraw fun rlen => ?_
  exact Triple.ite (fun _ => Triple.pure fun _ h => h) fun _ => Triple.pure fun _ h => h

/-- A write command on the bound device keeps an invariant of transfers. -/
theorem usbRwWrite_frame (hf : TransferFrame c inv) (hbind : c.bind ≠ 0)
    (argv : List (List UInt8)) (cmd : RwCmd) (addr data : BitVec 32) :
    Triple inv (usbRwWrite lib argv cmd addr data) fun _ => inv := by
  refine Triple.ite (fun _ => Triple.pure fun _ h => h) fun _ => ?_
  cases cmd with
  | ana | pmu | dig | mem =>
      exact Triple.ite (fun _ => Triple.pure fun _ h => h) fun _ =>
        usbRwSend_frame lib hf hbind _ _ _ _
  | exec | reset | resetCdc => exact usbRwSend_frame lib hf hbind _ _ _ _

/-- The read loop keeps an invariant of transfers, by induction on the passes left. -/
theorem usbReadLoop_frame (hf : TransferFrame c inv) (hbind : c.bind ≠ 0) (cmd : RwCmd)
    (len inc : BitVec 32) (times : Nat) (addr : BitVec 32) (buf : List UInt8)
    (err : BitVec 32) :
    Triple inv (usbReadLoop lib cmd len inc times addr buf err) fun _ => inv := by
  induction times generalizing addr buf err with
  | zero => exact Triple.pure fun _ h => h
  | succ times ih =>
      refine Triple.get fun w hw => ?_
      rw [hf.usbctrl w hw]
      refine Triple.bind (libusbControlTransfer_frame lib hf hbind _ _) fun res => ?_
      refine Triple.ite (fun _ => ih _ _ _) fun _ => ?_
      exact Triple.bind (trace_frame hf rfl) fun _ => ih _ _ _

/-- A read command on the bound device keeps an invariant of transfers. -/
theorem usbRwRead_frame (hf : TransferFrame c inv) (hbind : c.bind ≠ 0) (cmd : RwCmd)
    (addr argv3 : BitVec 32) : Triple inv (usbRwRead lib cmd addr argv3) fun _ => inv := by
  cases cmd with
  | ana | pmu | dig | mem =>
      exact Triple.ite (fun _ => Triple.pure fun _ h => h) fun _ =>
        usbReadLoop_frame lib hf hbind _ _ _ _ _ _ _
  | exec | reset | resetCdc => exact Triple.pure fun _ h => h

/-- `usb read` and `usb write` keep an invariant of transfers, whether a device is bound or not. -/
theorem usbHandleCmdRw_frame (hf : TransferFrame c inv) (argv : List (List UInt8))
    (read : Bool) : Triple inv (usbHandleCmdRw lib argv read) fun _ => inv := by
  refine Triple.get fun w hw => ?_
  rw [hf.usbctrl w hw]
  refine Triple.ite (fun _ => Triple.pure fun _ h => h) fun hbind => ?_
  cases argv[usbIdxArgc1]? with
  | none => exact Triple.pure fun _ h => h
  | some cmdName =>
      simp only
      cases rwSubCmds.find? (fun c => c.1.bytes == cmdName) with
      | none => exact Triple.pure fun _ h => h
      | some cmd =>
          exact Triple.ite (fun _ => usbRwRead_frame lib hf hbind _ _ _) fun _ =>
            usbRwWrite_frame lib hf hbind _ _ _ _

/-- A radio transfer on the bound handle keeps an invariant of transfers. -/
theorem usbFmRawXfer_frame (hf : TransferFrame c inv) (hbind : c.bind ≠ 0)
    (type request : BitVec 8) (wValue wIndex wLength : BitVec 16) (pbuf : List UInt8) :
    Triple inv (usbFmRawXfer lib c.handle type request wValue wIndex wLength pbuf)
      fun _ => inv := by
  refine Triple.bind (libusbControlTransfer_frame lib hf hbind _ _) fun res => ?_
  exact Triple.ite (fun _ => Triple.pure fun _ h => h) fun _ => Triple.pure fun _ h => h

/-- A radio setting keeps an invariant of transfers. -/
theorem usbFmSet_frame (hf : TransferFrame c inv) (hbind : c.bind ≠ 0)
    (code value : BitVec 16) : Triple inv (usbFmSet lib code value) fun _ => inv := by
  refine Triple.get fun w hw => ?_
  rw [hf.usbctrl w hw]
  exact Triple.bind (usbFmRawXfer_frame lib hf hbind _ _ _ _ _ _) fun _ =>
    Triple.pure fun _ h => h

/-- A radio query keeps an invariant of transfers. -/
theorem usbFmGet_frame (hf : TransferFrame c inv) (hbind : c.bind ≠ 0)
    (request : BitVec 8) (code : BitVec 16) :
    Triple inv (usbFmGet lib request code) fun _ => inv := by
  refine Triple.get fun w hw => ?_
  rw [hf.usbctrl w hw]
  exact Triple.bind (usbFmRawXfer_frame lib hf hbind _ _ _ _ _ _) fun _ =>
    Triple.pure fun _ h => h

/-- `fm on` and `fm off` keep an invariant of transfers. -/
theorem usbFmCmdPower_frame (hf : TransferFrame c inv) (hbind : c.bind ≠ 0) (on : Int) :
    Triple inv (usbFmCmdPower lib on) fun _ => inv := by
  refine Triple.bind (usbFmSet_frame lib hf hbind _ _) fun _ => ?_
  exact Triple.bind (trace_frame hf rfl) fun _ => Triple.pure fun _ h => h

/-- The radio subcommands of one value keep an invariant of transfers. -/
theorem usbFmCmdReg_frame (hf : TransferFrame c inv) (hbind : c.bind ≠ 0) (value : FmValue)
    (setCode : UsbFmSet) (mask : BitVec 16) (request : BitVec 8) (getCode : UsbFmGet)
    (x : BitVec 16) (set : Bool) :
    Triple inv (usbFmCmdReg lib value setCode mask request getCode x set) fun _ => inv := by
  refine Triple.ite (fun _ => ?_) fun _ => ?_
  · refine Triple.bind (usbFmSet_frame lib hf hbind _ _) fun _ => ?_
    exact Triple.bind (trace_frame hf rfl) fun _ => Triple.pure fun _ h => h
  · refine Triple.bind (usbFmGet_frame lib hf hbind _ _) fun _ => ?_
    exact Triple.bind (trace_frame hf rfl) fun _ => Triple.pure fun _ h => h

/-- `fm dev` keeps an invariant of transfers. -/
theorem usbFmCmdGetDevice_frame (hf : TransferFrame c inv) (hbind : c.bind ≠ 0) :
    Triple inv (usbFmCmdGetDevice lib) fun _ => inv := by
  refine Triple.bind (usbFmGet_frame lib hf hbind _ _) fun _ => ?_
  exact Triple.bind (trace_frame hf rfl) fun _ => Triple.pure fun _ h => h

/-- `fm test` keeps an invariant of transfers. -/
theorem usbFmCmdTest_frame (hf : TransferFrame c inv) (hbind : c.bind ≠ 0) :
    Triple inv (usbFmCmdTest lib) fun _ => inv := by
  refine Triple.bind (usbFmCmdGetDevice_frame lib hf hbind) fun _ => ?_
  refine Triple.bind (usbFmCmdPower_frame lib hf hbind 1) fun _ => ?_
  refine Triple.bind (usbFmCmdReg_frame lib hf hbind _ _ _ _ _ _ _) fun _ => ?_
  refine Triple.bind (usbFmCmdReg_frame lib hf hbind _ _ _ _ _ _ _) fun _ => ?_
  exact Triple.bind (usbFmCmdReg_frame lib hf hbind _ _ _ _ _ _ _) fun _ =>
    Triple.pure fun _ h => h

/-- The switch over the radio subcommands keeps an invariant of transfers. -/
theorem usbFmSwitch_frame (hf : TransferFrame c inv) (hbind : c.bind ≠ 0) (id : FmCmd)
    (arg : Option (BitVec 16)) : Triple inv (usbFmSwitch lib id arg) fun _ => inv := by
  cases id with
  | powerOn | powerOff =>
      exact Triple.bind (usbFmCmdPower_frame lib hf hbind _) fun _ => Triple.pure fun _ h => h
  | volume | channel | band | mute =>
      exact Triple.bind (usbFmCmdReg_frame lib hf hbind _ _ _ _ _ _ _) fun _ =>
        Triple.pure fun _ h => h
  | device =>
      exact Triple.bind (usbFmCmdGetDevice_frame lib hf hbind) fun _ => Triple.pure fun _ h => h
  | test => exact Triple.bind (usbFmCmdTest_frame lib hf hbind) fun _ => Triple.pure fun _ h => h

/-- `usb fm` keeps an invariant of transfers, whether a device is bound or not. -/
theorem usbHandleCmdFm_frame (hf : TransferFrame c inv) (argv : List (List UInt8)) :
    Triple inv (usbHandleCmdFm lib argv) fun _ => inv := by
  refine Triple.get fun w hw => ?_
  rw [hf.usbctrl w hw]
  refine Triple.ite (fun _ => Triple.pure fun _ h => h) fun hbind => ?_
  cases argv[usbIdxArgc1]? with
  | none => exact Triple.pure fun _ h => h
  | some subCmd =>
      simp only
      cases fmSubCmds.findRev? (fun c => c.1.bytes == subCmd) with
      | none => exact Triple.pure fun _ h => h
      | some id => exact usbFmSwitch_frame lib hf hbind _ _

end Frames

/-- What a `bind` of these ids does, with its result and the world after it. -/
inductive BindRun (lib : Libusb σ) (vid pid : BitVec 16) (w : World σ) : Int → World σ → Prop
  /-- A device is bound already. -/
  | already (hbind : w.usbctrl.bind = 1) : BindRun lib vid pid w 0 w
  | badIds (hbind : w.usbctrl.bind ≠ 1) (hids : vid = 0 ∨ pid = 0) : BindRun lib vid pid w (-1) w
  | noInit (hbind : w.usbctrl.bind ≠ 1) (hids : ¬ (vid = 0 ∨ pid = 0))
      (hinit : (libusbInit lib w).1 ≠ 0) : BindRun lib vid pid w (-1) (libusbInit lib w).2
  | noOpen (hbind : w.usbctrl.bind ≠ 1) (hids : ¬ (vid = 0 ∨ pid = 0))
      (hinit : (libusbInit lib w).1 = 0)
      (hopen : (libusbOpenDeviceWithVidPid lib vid pid (libusbInit lib w).2).1 = none) :
      BindRun lib vid pid w (-1) (libusbOpenDeviceWithVidPid lib vid pid (libusbInit lib w).2).2
  | opened (hbind : w.usbctrl.bind ≠ 1) (hids : ¬ (vid = 0 ∨ pid = 0))
      (hinit : (libusbInit lib w).1 = 0)
      (hopen : (libusbOpenDeviceWithVidPid lib vid pid (libusbInit lib w).2).1 = some w.opened) :
      BindRun lib vid pid w 0
        { (libusbOpenDeviceWithVidPid lib vid pid (libusbInit lib w).2).2 with
          usbctrl := ⟨1, some w.opened, vid, pid⟩ }

/-- What libusb does to open a device. -/
theorem libusbOpenDeviceWithVidPid_cases (lib : Libusb σ) (vid pid : BitVec 16) (w : World σ) :
    let res := lib.openDeviceWithVidPid vid pid w.bus
    res.1 = false ∧ libusbOpenDeviceWithVidPid lib vid pid w =
        (none, { w with bus := res.2, log := w.log ++ [.openDevice vid pid none] }) ∨
      res.1 = true ∧ libusbOpenDeviceWithVidPid lib vid pid w =
        (some w.opened, { w with
          bus := res.2, opened := w.opened + 1,
          log := w.log ++ [.openDevice vid pid (some w.opened)] }) := by
  simp only [libusbOpenDeviceWithVidPid]
  split
  · next h => exact Or.inr ⟨h, rfl⟩
  · next h => exact Or.inl ⟨Bool.eq_false_iff.mpr h, rfl⟩

/-- `usb bind` does one of the things `BindRun` lists. -/
theorem usbHandleCmdBind_run (lib : Libusb σ) (argv : List (List UInt8)) (w : World σ) :
    BindRun lib (argOr argv usbIdxArgc1 bindDefVid) (argOr argv usbIdxArgc2 bindDefPid) w
      (usbHandleCmdBind lib argv 1 w).1 (usbHandleCmdBind lib argv 1 w).2 := by
  let vid := argOr argv usbIdxArgc1 bindDefVid
  let pid := argOr argv usbIdxArgc2 bindDefPid
  by_cases hbind : w.usbctrl.bind = 1
  · have hrun : usbHandleCmdBind lib argv 1 w = (0, w) := congrFun (if_pos hbind) w
    rw [hrun]
    exact .already hbind
  have hone : (1 : Int) ≠ 0 := by decide
  by_cases hids : vid = 0 ∨ pid = 0
  · have hrun : usbHandleCmdBind lib argv 1 w = (-1, w) :=
      (congrFun (if_neg hbind) w).trans
        ((congrFun (if_pos hone) w).trans (congrFun (if_pos hids) w))
    rw [hrun]
    exact .badIds hbind hids
  let wi := (libusbInit lib w).2
  by_cases hinit : (libusbInit lib w).1 ≠ 0
  · have hrun : usbHandleCmdBind lib argv 1 w = (-1, wi) :=
      (congrFun (if_neg hbind) w).trans ((congrFun (if_pos hone) w).trans
        ((congrFun (if_neg hids) w).trans (congrFun (if_pos hinit) wi)))
    rw [hrun]
    exact .noInit hbind hids hinit
  let h := (libusbOpenDeviceWithVidPid lib vid pid wi).1
  let wo := (libusbOpenDeviceWithVidPid lib vid pid wi).2
  by_cases hnull : h = none
  · have hrun : usbHandleCmdBind lib argv 1 w = (-1, wo) :=
      (congrFun (if_neg hbind) w).trans ((congrFun (if_pos hone) w).trans
        ((congrFun (if_neg hids) w).trans
          ((congrFun (if_neg hinit) wi).trans (congrFun (if_pos hnull) wo))))
    rw [hrun]
    exact .noOpen hbind hids (not_not.mp hinit) hnull
  · have hrun : usbHandleCmdBind lib argv 1 w = (0, { wo with usbctrl := ⟨1, h, vid, pid⟩ }) :=
      (congrFun (if_neg hbind) w).trans ((congrFun (if_pos hone) w).trans
        ((congrFun (if_neg hids) w).trans
          ((congrFun (if_neg hinit) wi).trans (congrFun (if_neg hnull) wo))))
    have hopen : h = some w.opened := by
      rcases libusbOpenDeviceWithVidPid_cases lib vid pid wi with ⟨-, hfail⟩ | ⟨-, hopened⟩
      · exact absurd (congrArg Prod.fst hfail) hnull
      · exact congrArg Prod.fst hopened
    rw [hrun, hopen]
    exact .opened hbind hids (not_not.mp hinit) hopen

/-- What an `unbind` does, with the world after it; it returns 0. -/
inductive UnbindRun (lib : Libusb σ) (vid pid : BitVec 16) (w : World σ) : World σ → Prop
  /-- No device is bound. -/
  | already (hbind : w.usbctrl.bind = 0) : UnbindRun lib vid pid w w
  | closed (hbind : w.usbctrl.bind ≠ 0) (hhandle : w.usbctrl.handle ≠ none) :
      UnbindRun lib vid pid w
        { (libusbClose lib w.usbctrl.handle w).2 with usbctrl := ⟨0, none, vid, pid⟩ }
  | noHandle (hbind : w.usbctrl.bind ≠ 0) (hhandle : w.usbctrl.handle = none) :
      UnbindRun lib vid pid w { w with usbctrl := ⟨0, none, vid, pid⟩ }

/-- `usb unbind` answers 0 and does one of the things `UnbindRun` lists. -/
theorem usbHandleCmdUnbind_run (lib : Libusb σ) (argv : List (List UInt8)) (w : World σ) :
    (usbHandleCmdBind lib argv 0 w).1 = 0 ∧
      UnbindRun lib (argOr argv usbIdxArgc1 bindDefVid) (argOr argv usbIdxArgc2 bindDefPid) w
        (usbHandleCmdBind lib argv 0 w).2 := by
  let vid := argOr argv usbIdxArgc1 bindDefVid
  let pid := argOr argv usbIdxArgc2 bindDefPid
  by_cases hbind : w.usbctrl.bind = 0
  · have hrun : usbHandleCmdBind lib argv 0 w = (0, w) := congrFun (if_pos hbind) w
    rw [hrun]
    exact ⟨rfl, .already hbind⟩
  have hzero : ¬ (0 : Int) ≠ 0 := by decide
  by_cases hhandle : w.usbctrl.handle ≠ none
  · have hrun : usbHandleCmdBind lib argv 0 w = (0, { (libusbClose lib w.usbctrl.handle w).2 with
        usbctrl := ⟨0, none, vid, pid⟩ }) :=
      (congrFun (if_neg hbind) w).trans
        ((congrFun (if_neg hzero) w).trans (congrFun (if_pos hhandle) w))
    rw [hrun]
    exact ⟨rfl, .closed hbind hhandle⟩
  · have hrun : usbHandleCmdBind lib argv 0 w =
        (0, { w with usbctrl := ⟨0, none, vid, pid⟩ }) :=
      (congrFun (if_neg hbind) w).trans
        ((congrFun (if_neg hzero) w).trans (congrFun (if_neg hhandle) w))
    rw [hrun]
    exact ⟨rfl, .noHandle hbind (not_not.mp hhandle)⟩

end Usb

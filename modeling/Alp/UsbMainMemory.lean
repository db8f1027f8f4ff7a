import Alp.UsbConsole
import Alp.UsbMain

/-!
# The program on a device that is a memory

`IsMemory lib mem` says that libusb reaches a device that is a memory, seen through `mem`:
transfers go to it as in `memBus`, and nothing else that libusb does changes it.  What its
other calls answer, and when, is left open.

Commands other than `usb read` and `usb write` go aside of such a memory: `usb fm` also
sets with requests that ask for data (`execUsbCmd_aside`).  Reads and writes do on the
world what they do on `memBus` (`execUsbCmd_mirrors`).  So everything that a session of the
program prints of the device can be read off its lines and off what its binds return
(`commMainUsb_prints`).
-/

set_option autoImplicit false

namespace Usb

open CString Hoare

variable {σ : Type}

/-- A property that libusb's calls keep, but for a transfer that sends data, and that the
output of `usb fm` keeps. -/
structure Aside (lib : Libusb σ) (inv : World σ → Prop) : Prop where
  init : Triple inv (libusbInit lib) fun _ => inv
  exit : Triple inv (libusbExit lib) fun _ => inv
  getDeviceList : Triple inv (libusbGetDeviceList lib) fun _ => inv
  freeDeviceList : Triple inv (libusbFreeDeviceList lib) fun _ => inv
  getDeviceDescriptor : ∀ dev, Triple inv (libusbGetDeviceDescriptor lib dev) fun _ => inv
  getActiveConfigDescriptor : ∀ dev,
    Triple inv (libusbGetActiveConfigDescriptor lib dev) fun _ => inv
  openDevice : ∀ vid pid, Triple inv (libusbOpenDeviceWithVidPid lib vid pid) fun _ => inv
  close : ∀ h, Triple inv (libusbClose lib h) fun _ => inv
  transfer : ∀ h (setup : ControlSetup) data, setup.bmRequestType = reqTypeDevRd →
    Triple inv (libusbControlTransfer lib h setup data) fun _ => inv
  setUsbctrl : ∀ c, Triple inv (setUsbctrl c) fun _ => inv
  fm : ∀ value v, Triple inv (trace (.fm value v)) fun _ => inv

section Aside

variable {lib : Libusb σ} {inv : World σ → Prop} (h : Aside lib inv)
include h

/-- The loop of `list` goes aside, by induction on the devices. -/
theorem usbListLoop_aside (devs : List Nat) :
    Triple inv (usbListLoop lib devs) fun _ => inv := by
  induction devs with
  | nil => exact Triple.pure fun _ hw => hw
  | cons dev rest ih =>
      refine Triple.bind (h.getDeviceDescriptor dev) fun res => ?_
      refine Triple.ite (fun _ => Triple.pure fun _ hw => hw) fun _ => ?_
      exact Triple.bind (h.getActiveConfigDescriptor dev) fun _ => ih

/-- `usb list` goes aside. -/
theorem usbHandleCmdList_aside : Triple inv (usbHandleCmdList lib) fun _ => inv := by
  refine Triple.bind h.init fun r => ?_
  refine Triple.ite (fun _ => Triple.pure fun _ hw => hw) fun _ => ?_
  refine Triple.bind h.getDeviceList fun devs => ?_
  refine Triple.ite (fun _ => Triple.pure fun _ hw => hw) fun _ => ?_
  refine Triple.bind (usbListLoop_aside h devs.2) fun left => ?_
  cases left with
  | some r => exact Triple.pure fun _ hw => hw
  | none =>
      refine Triple.bind h.freeDeviceList fun _ => ?_
      exact Triple.bind h.exit fun _ => Triple.pure fun _ hw => hw

/-- The loop of `test` goes aside, by induction on the devices. -/
theorem usbTestLoop_aside (vid pid : BitVec 16) (r : Int) (devs : List Nat) :
    Triple inv (usbTestLoop lib vid pid r devs) fun _ => inv := by
  induction devs generalizing r with
  | nil => exact Triple.pure fun _ hw => hw
  | cons dev rest ih =>
      refine Triple.bind (h.getDeviceDescriptor dev) fun res => ?_
      exact Triple.ite (fun _ => h.getActiveConfigDescriptor dev) fun _ => ih res.1

/-- `usb test` goes aside. -/
theorem usbHandleCmdTest_aside (argv : List (List UInt8)) :
    Triple inv (usbHandleCmdTest lib argv) fun _ => inv := by
  refine Triple.ite (fun _ => Triple.pure fun _ hw => hw) fun _ => ?_
  refine Triple.bind h.init fun r => ?_
  refine Triple.ite (fun _ => Triple.pure fun _ hw => hw) fun _ => ?_
  refine Triple.bind h.getDeviceList fun devs => ?_
  refine Triple.ite (fun _ => Triple.pure fun _ hw => hw) fun _ => ?_
  refine Triple.bind (usbTestLoop_aside h _ _ r devs.2) fun r => ?_
  refine Triple.bind h.freeDeviceList fun _ => ?_
  exact Triple.bind h.exit fun _ => Triple.pure fun _ hw => hw

/-- `usb bind` and `usb unbind` go aside. -/
theorem usbHandleCmdBind_aside (argv : List (List UInt8)) (bind : Int) :
    Triple inv (usbHandleCmdBind lib argv bind) fun _ => inv := by
  refine Triple.get fun w _ => ?_
  refine Triple.ite (fun _ => Triple.pure fun _ hw => hw) fun _ => ?_
  refine Triple.ite (fun _ => ?_) fun _ => ?_
  · refine Triple.ite (fun _ => Triple.pure fun _ hw => hw) fun _ => ?_
    refine Triple.bind h.init fun r => ?_
    refine Triple.ite (fun _ => Triple.pure fun _ hw => hw) fun _ => ?_
    refine Triple.bind (h.openDevice _ _) fun handle => ?_
    refine Triple.ite (fun _ => Triple.pure fun _ hw => hw) fun _ => ?_
    exact Triple.bind (h.setUsbctrl _) fun _ => Triple.pure fun _ hw => hw
  · have hunset : ∀ c, Triple inv (setUsbctrl c >>= fun _ => pure 0 : UsbM σ Int) fun _ => inv :=
      fun c => Triple.bind (h.setUsbctrl c) fun _ => Triple.pure fun _ hw => hw
    exact Triple.ite (fun _ => Triple.bind (h.close _) fun _ => hunset _) fun _ => hunset _

/-- A radio transfer that asks for data goes aside. -/
theorem usbFmRawXfer_aside (handle : Handle) (request : BitVec 8)
    (wValue wIndex wLength : BitVec 16) (pbuf : List UInt8) :
    Triple inv (usbFmRawXfer lib handle reqTypeDevRd request wValue wIndex wLength pbuf)
      fun _ => inv := by
  refine Triple.bind (h.transfer handle _ pbuf rfl) fun res => ?_
  exact Triple.ite (fun _ => Triple.pure fun _ hw => hw) fun _ => Triple.pure fun _ hw => hw

/-- A radio setting goes aside: it asks for data too. -/
theorem usbFmSet_aside (code value : BitVec 16) :
    Triple inv (usbFmSet lib code value) fun _ => inv := by
  refine Triple.get fun w _ => ?_
  exact Triple.bind (usbFmRawXfer_aside h _ _ _ _ _ _) fun _ => Triple.pure fun _ hw => hw

/-- A radio query goes aside. -/
theorem usbFmGet_aside (request : BitVec 8) (code : BitVec 16) :
    Triple inv (usbFmGet lib request code) fun _ => inv := by
  refine Triple.get fun w _ => ?_
  exact Triple.bind (usbFmRawXfer_aside h _ _ _ _ _ _) fun _ => Triple.pure fun _ hw => hw

/-- `fm on` and `fm off` go aside. -/
theorem usbFmCmdPower_aside (on : Int) : Triple inv (usbFmCmdPower lib on) fun _ => inv := by
  refine Triple.bind (usbFmSet_aside h _ _) fun _ => ?_
  exact Triple.bind (h.fm _ _) fun _ => Triple.pure fun _ hw => hw

/-- The radio subcommands of one value go aside. -/
theorem usbFmCmdReg_aside (value : FmValue) (setCode : UsbFmSet) (mask : BitVec 16)
    (request : BitVec 8) (getCode : UsbFmGet) (x : BitVec 16) (set : Bool) :
    Triple inv (usbFmCmdReg lib value setCode mask request getCode x set) fun _ => inv := by
  refine Triple.ite (fun _ => ?_) fun _ => ?_
  · refine Triple.bind (usbFmSet_aside h _ _) fun _ => ?_
    exact Triple.bind (h.fm _ _) fun _ => Triple.pure fun _ hw => hw
  · refine Triple.bind (usbFmGet_aside h _ _) fun _ => ?_
    exact Triple.bind (h.fm _ _) fun _ => Triple.pure fun _ hw => hw

/-- `fm dev` goes aside. -/
theorem usbFmCmdGetDevice_aside : Triple inv (usbFmCmdGetDevice lib) fun _ => inv := by
  refine Triple.bind (usbFmGet_aside h _ _) fun _ => ?_
  exact Triple.bind (h.fm _ _) fun _ => Triple.pure fun _ hw => hw

/-- `fm test` goes aside. -/
theorem usbFmCmdTest_aside : Triple inv (usbFmCmdTest lib) fun _ => inv := by
  refine Triple.bind (usbFmCmdGetDevice_aside h) fun _ => ?_
  refine Triple.bind (usbFmCmdPower_aside h 1) fun _ => ?_
  refine Triple.bind (usbFmCmdReg_aside h _ _ _ _ _ _ _) fun _ => ?_
  refine Triple.bind (usbFmCmdReg_aside h _ _ _ _ _ _ _) fun _ => ?_
  exact Triple.bind (usbFmCmdReg_aside h _ _ _ _ _ _ _) fun _ => Triple.pure fun _ hw => hw

/-- The switch over the radio subcommands goes aside. -/
theorem usbFmSwitch_aside (id : FmCmd) (arg : Option (BitVec 16)) :
    Triple inv (usbFmSwitch lib id arg) fun _ => inv := by
  cases id with
  | powerOn | powerOff =>
      exact Triple.bind (usbFmCmdPower_aside h _) fun _ => Triple.pure fun _ hw => hw
  | volume | channel | band | mute =>
      exact Triple.bind (usbFmCmdReg_aside h _ _ _ _ _ _ _) fun _ => Triple.pure fun _ hw => hw
  | device => exact Triple.bind (usbFmCmdGetDevice_aside h) fun _ => Triple.pure fun _ hw => hw
  | test => exact Triple.bind (usbFmCmdTest_aside h) fun _ => Triple.pure fun _ hw => hw

/-- `usb fm` goes aside. -/
theorem usbHandleCmdFm_aside (argv : List (List UInt8)) :
    Triple inv (usbHandleCmdFm lib argv) fun _ => inv := by
  refine Triple.get fun w _ => ?_
  refine Triple.ite (fun _ => Triple.pure fun _ hw => hw) fun _ => ?_
  cases argv[usbIdxArgc1]? with
  | none => exact Triple.pure fun _ hw => hw
  | some subCmd =>
      simp only
      cases fmSubCmds.findRev? (fun c => c.1.bytes == subCmd) with
      | none => exact Triple.pure fun _ hw => hw
      | some id => exact usbFmSwitch_aside h _ _

/-- **Commands that go aside**: all but `usb read` and `usb write`. -/
theorem execUsbCmd_aside {c : UsbCmd} (hread : c ≠ .read) (hwrite : c ≠ .write)
    (argv : List (List UInt8)) : Triple inv (execUsbCmd lib c argv) fun _ => inv := by
  cases c with
  | list | list1 => exact usbHandleCmdList_aside h
  | bind | unbind => exact usbHandleCmdBind_aside h argv _
  | read => exact absurd rfl hread
  | write => exact absurd rfl hwrite
  | test => exact usbHandleCmdTest_aside h argv
  | fm => exact usbHandleCmdFm_aside h argv

end Aside

/-- A bus that is the memory and nothing else. -/
def memory : Libusb MemDevice :=
  memBus (quietBus MemDevice)

/-- libusb reaches a memory, and only transfers go to it. -/
structure IsMemory (lib : Libusb σ) (mem : σ → MemDevice) : Prop where
  transfer : ∀ h setup data s, memory.controlTransfer h setup data (mem s) =
    ((lib.controlTransfer h setup data s).1, mem (lib.controlTransfer h setup data s).2)
  init : ∀ s, mem (lib.init s).2 = mem s
  exit : ∀ s, mem (lib.exit s) = mem s
  getDeviceList : ∀ s, mem (lib.getDeviceList s).2 = mem s
  freeDeviceList : ∀ s, mem (lib.freeDeviceList s) = mem s
  getDeviceDescriptor : ∀ dev s, mem (lib.getDeviceDescriptor dev s).2 = mem s
  getActiveConfigDescriptor : ∀ dev s, mem (lib.getActiveConfigDescriptor dev s).2 = mem s
  openDevice : ∀ vid pid s, mem (lib.openDeviceWithVidPid vid pid s).2 = mem s
  close : ∀ h s, mem (lib.close h s) = mem s

/-- The world with the memory for a bus. -/
def World.seen (mem : σ → MemDevice) (w : World σ) : World MemDevice where
  usbctrl := w.usbctrl
  bus := mem w.bus
  opened := w.opened
  log := w.log

section Memory

variable {lib : Libusb σ} {mem : σ → MemDevice} (h : IsMemory lib mem)
include h

/-- What goes aside leaves the memory alone and prints no word of it. -/
theorem IsMemory.aside (d : MemDevice) (out : List (BitVec 32 × BitVec 32)) :
    Aside lib fun w => mem w.bus = d ∧ w.printed = out := by
  have hlog : ∀ (w : World σ) (e : Event), e.data? = none →
      (w.log ++ [e]).filterMap Event.data? = w.printed := by
    intro w e he
    rw [List.filterMap_append, List.filterMap_cons_none he]
    exact List.append_nil _
  constructor
  · exact fun w hw => ⟨(h.init w.bus).trans hw.1, (hlog w _ rfl).trans hw.2⟩
  · exact fun w hw => ⟨(h.exit w.bus).trans hw.1, (hlog w _ rfl).trans hw.2⟩
  · exact fun w hw => ⟨(h.getDeviceList w.bus).trans hw.1, (hlog w _ rfl).trans hw.2⟩
  · exact fun w hw => ⟨(h.freeDeviceList w.bus).trans hw.1, (hlog w _ rfl).trans hw.2⟩
  · exact fun dev w hw => ⟨(h.getDeviceDescriptor dev w.bus).trans hw.1, hw.2⟩
  · exact fun dev w hw => ⟨(h.getActiveConfigDescriptor dev w.bus).trans hw.1, hw.2⟩
  · intro vid pid w hw
    have hbus := (h.openDevice vid pid w.bus).trans hw.1
    rcases libusbOpenDeviceWithVidPid_cases lib vid pid w with ⟨-, hopen⟩ | ⟨-, hopen⟩
    · rw [hopen]
      exact ⟨hbus, (hlog w _ rfl).trans hw.2⟩
    · rw [hopen]
      exact ⟨hbus, (hlog w _ rfl).trans hw.2⟩
  · exact fun handle w hw => ⟨(h.close handle w.bus).trans hw.1, (hlog w _ rfl).trans hw.2⟩
  · intro handle setup data hsetup w hw
    have hin : ¬ setup.bmRequestType &&& 0x80 = 0 := by rw [hsetup]; decide
    have hbus : memory.controlTransfer handle setup data (mem w.bus) =
        (_, mem w.bus) := if_neg hin
    rw [h.transfer] at hbus
    exact ⟨(congrArg Prod.snd hbus).trans hw.1, (hlog w _ rfl).trans hw.2⟩
  · exact fun c w hw => hw
  · exact fun value v w hw => ⟨hw.1, (hlog w _ rfl).trans hw.2⟩

/-- A transfer does to the world what it does to the memory. -/
theorem libusbControlTransfer_mirrors (handle : Handle) (setup : ControlSetup)
    (data : List UInt8) :
    Mirrors (World.seen mem) (libusbControlTransfer lib handle setup data)
      (libusbControlTransfer memory handle setup data) := by
  intro w
  have hbus := h.transfer handle setup data w.bus
  simp only [libusbControlTransfer, World.seen, hbus]

/-- One write transfer does to the world what it does to the memory. -/
theorem usbRwSend_mirrors (cmd : RwCmd) (addr : BitVec 32) (buf : List UInt8) (len : BitVec 32) :
    Mirrors (World.seen mem) (usbRwSend lib cmd addr buf len) (usbRwSend memory cmd addr buf len) :=
  Mirrors.get fun _ => Mirrors.bind
    (Mirrors.bind (libusbControlTransfer_mirrors h _ _ _) fun _ => Mirrors.pure _ _) fun _ =>
      Mirrors.ite (Mirrors.pure _ _) (Mirrors.pure _ _)

/-- A write command does to the world what it does to the memory. -/
theorem usbRwWrite_mirrors (argv : List (List UInt8)) (cmd : RwCmd) (addr data : BitVec 32) :
    Mirrors (World.seen mem) (usbRwWrite lib argv cmd addr data)
      (usbRwWrite memory argv cmd addr data) := by
  refine Mirrors.ite (Mirrors.pure _ _) ?_
  cases cmd with
  | ana | pmu | dig | mem => exact Mirrors.ite (Mirrors.pure _ _) (usbRwSend_mirrors h _ _ _ _)
  | exec | reset | resetCdc => exact usbRwSend_mirrors h _ _ _ _

/-- The read loop does to the world what it does to the memory, by induction on the passes left. -/
theorem usbReadLoop_mirrors (cmd : RwCmd) (len inc : BitVec 32) (times : Nat)
    (addr : BitVec 32) (buf : List UInt8) (err : BitVec 32) :
    Mirrors (World.seen mem) (usbReadLoop lib cmd len inc times addr buf err)
      (usbReadLoop memory cmd len inc times addr buf err) := by
  induction times generalizing addr buf err with
  | zero => exact Mirrors.pure _ _
  | succ times ih =>
      refine Mirrors.get fun w => ?_
      refine Mirrors.bind (libusbControlTransfer_mirrors h _ _ _) fun res => ?_
      exact Mirrors.ite (ih _ _ _) (Mirrors.bind (fun _ => rfl) fun _ => ih _ _ _)

/-- A read command does to the world what it does to the memory. -/
theorem usbRwRead_mirrors (cmd : RwCmd) (addr argv3 : BitVec 32) :
    Mirrors (World.seen mem) (usbRwRead lib cmd addr argv3) (usbRwRead memory cmd addr argv3) := by
  cases cmd with
  | ana | pmu | dig | mem =>
      exact Mirrors.ite (Mirrors.pure _ _) (usbReadLoop_mirrors h _ _ _ _ _ _ _)
  | exec | reset | resetCdc => exact Mirrors.pure _ _

/-- **Reads and writes** do what they do on the memory alone. -/
theorem execUsbCmd_mirrors (read : Bool) (argv : List (List UInt8)) :
    Mirrors (World.seen mem) (execUsbCmd lib (rwCmd read) argv)
      (execUsbCmd memory (rwCmd read) argv) := by
  rw [execUsbCmd_rwCmd, execUsbCmd_rwCmd]
  refine Mirrors.get fun w => Mirrors.ite (Mirrors.pure _ _) ?_
  cases argv[usbIdxArgc1]? with
  | none => exact Mirrors.pure _ _
  | some cmdName =>
      simp only
      cases rwSubCmds.find? (fun c => c.1.bytes == cmdName) with
      | none => exact Mirrors.pure _ _
      | some cmd => exact Mirrors.ite (usbRwRead_mirrors h _ _ _) (usbRwWrite_mirrors h _ _ _ _)

end Memory

/-- What a command asks a bound device for. -/
def UsbCmd.plan : UsbCmd → List (List UInt8) → RwPlan
  | .read, argv => rwPlan argv true
  | .write, argv => rwPlan argv false
  | _, _ => .answer 0

/-- Whether a device is bound after a command that returned `r`. -/
def UsbCmd.binds (bound : Bool) (r : Int) : UsbCmd → Bool
  | .bind => bound || r == 0
  | .unbind => false
  | _ => bound

/-- What a command does on the store. -/
def UsbCmd.planIf (bound : Bool) (c : UsbCmd) (argv : List (List UInt8)) : RwPlan :=
  if bound then c.plan argv else .answer (-1)

/-- What commands print, with what they returned, from the words of a store on. -/
def consoleOut (s : Store) (bound : Bool) :
    List ((UsbCmd × List (List UInt8)) × Int) → List (BitVec 32 × BitVec 32)
  | [] => []
  | ((c, argv), r) :: rest =>
    ((c.planIf bound argv).report s).2 ++
      consoleOut (s.after (c.planIf bound argv).writes) (c.binds bound r) rest

/-- What the commands of a run return. -/
def usbResults (lib : Libusb σ) : List (UsbCmd × List (List UInt8)) → World σ → List Int
  | [], _ => []
  | a :: rest, w => (execUsbCmd lib a.1 a.2 w).1 :: usbResults lib rest (execUsbCmd lib a.1 a.2 w).2

/-- `bind` is a flag. -/
def World.Flag (w : World σ) : Prop :=
  w.usbctrl.bind = 0 ∨ w.usbctrl.bind = 1

def World.bound (w : World σ) : Bool :=
  w.usbctrl.bind == 1

/-- Where nothing is bound, the flag is 0. -/
theorem World.Flag.zero {w : World σ} (h : w.Flag) (hbound : w.bound = false) :
    w.usbctrl.bind = 0 :=
  h.resolve_right (by simpa [World.bound] using hbound)

/-- A bind sets the flag as it returns. -/
theorem BindRun.flag {lib : Libusb σ} {vid pid : BitVec 16} {w w' : World σ} {r : Int}
    (hrun : BindRun lib vid pid w r w') (hw : w.Flag) :
    w'.Flag ∧ w'.bound = (w.bound || r == 0) := by
  cases hrun with
  | already hbind => exact ⟨hw, by simp [World.bound, hbind]⟩
  | badIds hbind hids => exact ⟨hw, by simp⟩
  | noInit hbind hids hinit => exact ⟨hw, by simp [World.bound, libusbInit]⟩
  | noOpen hbind hids hinit hopen =>
      rcases libusbOpenDeviceWithVidPid_cases lib vid pid (libusbInit lib w).2 with
        ⟨-, heq⟩ | ⟨-, heq⟩
      · rw [heq]
        exact ⟨hw, by simp [World.bound, libusbInit]⟩
      · rw [heq] at hopen
        cases hopen
  | opened hbind hids hinit hopen => exact ⟨Or.inr rfl, by simp [World.bound]⟩

/-- After an unbind the flag is 0. -/
theorem UnbindRun.flag {lib : Libusb σ} {vid pid : BitVec 16} {w w' : World σ}
    (hrun : UnbindRun lib vid pid w w') : w'.usbctrl.bind = 0 := by
  cases hrun with
  | already hbind => exact hbind
  | closed hbind hhandle => rfl
  | noHandle hbind hhandle => rfl

/-- The other commands leave `usbctrl` alone. -/
theorem execUsbCmd_usbctrl (lib : Libusb σ) {c : UsbCmd} (hbind : c ≠ .bind)
    (hunbind : c ≠ .unbind) (argv : List (List UInt8)) (w : World σ) :
    (execUsbCmd lib c argv w).2.usbctrl = w.usbctrl := by
  have hlist : ListFrame fun u : World σ => u.usbctrl = w.usbctrl :=
    ⟨fun _ _ _ _ h => h, fun _ _ h => h⟩
  have htransfer : TransferFrame w.usbctrl fun u : World σ => u.usbctrl = w.usbctrl :=
    ⟨fun _ h => h, fun _ _ _ _ _ _ h => h, fun _ _ _ h => h⟩
  cases c with
  | list | list1 => exact usbHandleCmdList_frame lib hlist w rfl
  | bind => exact absurd rfl hbind
  | unbind => exact absurd rfl hunbind
  | read | write => exact usbHandleCmdRw_frame lib htransfer argv _ w rfl
  | test => exact usbHandleCmdTest_frame lib hlist argv w rfl
  | fm => exact usbHandleCmdFm_frame lib htransfer argv w rfl

/-- **The flag** after a command. -/
theorem execUsbCmd_flag (lib : Libusb σ) (c : UsbCmd) (argv : List (List UInt8)) {w : World σ}
    (hw : w.Flag) :
    (execUsbCmd lib c argv w).2.Flag ∧
      (execUsbCmd lib c argv w).2.bound = c.binds w.bound (execUsbCmd lib c argv w).1 := by
  by_cases hbind : c = .bind
  · subst hbind
    exact (usbHandleCmdBind_run lib argv w).flag hw
  by_cases hunbind : c = .unbind
  · subst hunbind
    have hzero : (execUsbCmd lib .unbind argv w).2.usbctrl.bind = 0 :=
      (usbHandleCmdUnbind_run lib argv w).2.flag
    exact ⟨Or.inl hzero, by rw [World.bound, hzero]; rfl⟩
  have hctrl := execUsbCmd_usbctrl lib hbind hunbind argv w
  have hbinds : ∀ r, c.binds w.bound r = w.bound := by
    cases c <;> first | exact fun _ => rfl | contradiction
  rw [hbinds, World.Flag, World.bound, hctrl]
  exact ⟨hw, rfl⟩

section Memory

variable {lib : Libusb σ} {mem : σ → MemDevice} (h : IsMemory lib mem)
include h

/-- **One command** prints what it asks of the store and writes what it says. -/
theorem execUsbCmd_store (c : UsbCmd) (argv : List (List UInt8)) {w : World σ} (hw : w.Flag) :
    let out := execUsbCmd lib c argv w
    let plan := c.planIf w.bound argv
    out.2.printed = w.printed ++ (plan.report (view (mem w.bus))).2 ∧
      view (mem out.2.bus) = (view (mem w.bus)).after plan.writes := by
  have hrw : ∀ read : Bool,
      let out := execUsbCmd lib (rwCmd read) argv w
      let plan := if w.bound then rwPlan argv read else .answer (-1)
      out.2.printed = w.printed ++ (plan.report (view (mem w.bus))).2 ∧
        view (mem out.2.bus) = (view (mem w.bus)).after plan.writes := by
    intro read out plan
    have hmirror := execUsbCmd_mirrors h read argv w
    have hbus : mem out.2.bus = (execUsbCmd memory (rwCmd read) argv (w.seen mem)).2.bus :=
      congrArg (fun r => r.2.bus) hmirror.symm
    have hprinted : out.2.printed =
        (execUsbCmd memory (rwCmd read) argv (w.seen mem)).2.printed :=
      congrArg (fun r => r.2.printed) hmirror.symm
    cases hbound : w.bound with
    | true =>
        have hplan : plan = rwPlan argv read := if_pos hbound
        have hbind : (w.seen mem).usbctrl.bind ≠ 0 := by
          have hone : w.usbctrl.bind = 1 := by simpa [World.bound] using hbound
          show w.usbctrl.bind ≠ 0
          omega
        obtain ⟨⟨-, hout⟩, hview, -⟩ :=
          RwLine.run_report (quietBus MemDevice) ⟨read, argv⟩ hbind
        rw [hprinted, hbus, hplan]
        exact ⟨hout, hview⟩
    | false =>
        have hplan : plan = .answer (-1) := if_neg (by rw [hbound]; exact Bool.false_ne_true)
        have hunbound : (w.seen mem).usbctrl.bind = 0 := hw.zero hbound
        have hrun := usbHandleCmdRw_unbound memory argv read hunbound
        rw [hprinted, hbus, hplan, execUsbCmd_rwCmd, hrun]
        exact ⟨(List.append_nil _).symm, rfl⟩
  by_cases hread : c = .read
  · subst hread
    exact hrw true
  by_cases hwrite : c = .write
  · subst hwrite
    exact hrw false
  intro out plan
  obtain ⟨hbus, hprinted⟩ :=
    execUsbCmd_aside (h.aside (mem w.bus) w.printed) hread hwrite argv w ⟨rfl, rfl⟩
  have hplan : ∃ r, plan = .answer r := by
    by_cases hbound : w.bound = true
    · refine ⟨0, (if_pos hbound).trans ?_⟩
      cases c <;> first | rfl | contradiction
    · exact ⟨-1, if_neg hbound⟩
  obtain ⟨r, hplan⟩ := hplan
  rw [hplan]
  exact ⟨hprinted.trans (List.append_nil _).symm, congrArg view hbus⟩

/-- **A run** prints what its commands ask of the store, as the commands before leave it. -/
theorem usbRun_prints (cmds : List (UsbCmd × List (List UInt8))) {w : World σ} (hw : w.Flag) :
    (usbRun lib cmds w).printed = w.printed ++
      consoleOut (view (mem w.bus)) w.bound (cmds.zip (usbResults lib cmds w)) := by
  induction cmds generalizing w with
  | nil => exact (List.append_nil _).symm
  | cons a cmds ih =>
      obtain ⟨hprinted, hview⟩ := execUsbCmd_store h a.1 a.2 hw
      obtain ⟨hflag, hbound⟩ := execUsbCmd_flag lib a.1 a.2 hw
      have hrun : usbRun lib (a :: cmds) w = usbRun lib cmds (execUsbCmd lib a.1 a.2 w).2 := rfl
      rw [hrun, ih hflag, hprinted, hview, hbound, List.append_assoc]
      rfl

end Memory

/-- The memory itself is a device that is a memory. -/
theorem memory_isMemory : IsMemory memory id where
  transfer := fun _ _ _ _ => rfl
  init := fun _ => rfl
  exit := fun _ => rfl
  getDeviceList := fun _ => rfl
  freeDeviceList := fun _ => rfl
  getDeviceDescriptor := fun _ _ => rfl
  getActiveConfigDescriptor := fun _ _ => rfl
  openDevice := fun _ _ _ => rfl
  close := fun _ _ => rfl

/-- A read before the bind, two writes, and reads of both words and of one that is not
there. -/
def readSession : List Comm.Line :=
  [.lit "usb read mem 0x20", .lit "usb bind 0xBE57", .lit "usb write mem 0x20 5", .lit "help me",
    .lit "usb write mem 0x20 7", .lit "usb write ana 0x60 0x12345", .lit "usb read mem 0x20 2",
    .lit "usb read ana 0x60", .lit "exit"]

end Usb

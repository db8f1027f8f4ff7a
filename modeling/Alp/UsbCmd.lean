import Alp.CNumber
import Alp.CommBox

/-!
# The usb commands

This file embeds `common/usb_cmd.c` with the numbers of `usb_cmd.h` and
`usb_fm_ctrl.h`.  The functions work on the global `usbctrl` and on libusb, which is
a parameter: `Libusb σ` says what each of its functions may answer, from any state
`σ` of the bus, so that running the commands for every `Libusb σ` covers every
outcome of every call.  A handle is named by the number of the
`libusb_open_device_with_vid_pid` that returned it.

`argv` is the list of the argument strings and `argc` its length.  The `log` of the
world records the libusb calls and the values printed; no function reads it.
-/

set_option autoImplicit false

namespace Usb

open CString

/-- A `libusb_device_handle *`; `none` is `NULL`. -/
abbrev Handle := Option Nat

/-- `struct libusb_control_setup`. -/
structure ControlSetup where
  bmRequestType : BitVec 8
  bRequest : BitVec 8
  wValue : BitVec 16
  wIndex : BitVec 16
  wLength : BitVec 16
  deriving DecidableEq

/-- The fields of `struct libusb_device_descriptor` that are tested. -/
structure DeviceDescriptor where
  idVendor : BitVec 16
  idProduct : BitVec 16

/-- libusb over the states `σ` of the bus. -/
structure Libusb (σ : Type) where
  init : σ → Int × σ
  exit : σ → σ
  /-- The number of devices or an error, and the devices of the list. -/
  getDeviceList : σ → (Int × List Nat) × σ
  freeDeviceList : σ → σ
  /-- The result, and the descriptor's buffer after the call. -/
  getDeviceDescriptor : Nat → σ → (Int × DeviceDescriptor) × σ
  getActiveConfigDescriptor : Nat → σ → Int × σ
  /-- Whether a handle is returned. -/
  openDeviceWithVidPid : BitVec 16 → BitVec 16 → σ → Bool × σ
  close : Handle → σ → σ
  /-- The result, and the bytes the device put into the buffer. -/
  controlTransfer : Handle → ControlSetup → List UInt8 → σ → (Int × List UInt8) × σ

/-- What `usb fm` prints. -/
inductive FmValue
  | on
  | mute
  | band
  | chan
  | vol
  | id
  deriving DecidableEq

/-- A libusb call with its outcome, or a value printed. -/
inductive Event
  | init (r : Int)
  | exit
  | getDeviceList (r : Int)
  | freeDeviceList
  | openDevice (vid pid : BitVec 16) (h : Handle)
  | close (h : Handle)
  | transfer (h : Handle) (setup : ControlSetup) (data : List UInt8) (r : Int)
  /-- `DATA: [addr] = d` -/
  | data (addr d : BitVec 32)
  | fm (value : FmValue) (v : BitVec 16)
  deriving DecidableEq

/-- `struct usb_ctrl_t`. -/
structure UsbCtrl where
  bind : Int
  handle : Handle
  vid : BitVec 16
  pid : BitVec 16
  deriving DecidableEq

/-- The globals, the bus, and the record of what was done. -/
structure World (σ : Type) where
  usbctrl : UsbCtrl
  bus : σ
  /-- The handles returned so far. -/
  opened : Nat
  log : List Event

/-- A function of `usb_cmd.c`. -/
abbrev UsbM (σ : Type) := StateM (World σ)

variable {σ : Type} (lib : Libusb σ)

def libusbInit : UsbM σ Int := fun w =>
  let res := lib.init w.bus
  (res.1, { w with bus := res.2, log := w.log ++ [.init res.1] })

def libusbExit : UsbM σ Unit := fun w =>
  ((), { w with bus := lib.exit w.bus, log := w.log ++ [.exit] })

def libusbGetDeviceList : UsbM σ (Int × List Nat) := fun w =>
  let res := lib.getDeviceList w.bus
  (res.1, { w with bus := res.2, log := w.log ++ [.getDeviceList res.1.1] })

def libusbFreeDeviceList : UsbM σ Unit := fun w =>
  ((), { w with bus := lib.freeDeviceList w.bus, log := w.log ++ [.freeDeviceList] })

def libusbGetDeviceDescriptor (dev : Nat) : UsbM σ (Int × DeviceDescriptor) := fun w =>
  let res := lib.getDeviceDescriptor dev w.bus
  (res.1, { w with bus := res.2 })

def libusbGetActiveConfigDescriptor (dev : Nat) : UsbM σ Int := fun w =>
  let res := lib.getActiveConfigDescriptor dev w.bus
  (res.1, { w with bus := res.2 })

def libusbOpenDeviceWithVidPid (vid pid : BitVec 16) : UsbM σ Handle := fun w =>
  let res := lib.openDeviceWithVidPid vid pid w.bus
  if res.1 then
    (some w.opened, { w with
      bus := res.2, opened := w.opened + 1,
      log := w.log ++ [.openDevice vid pid (some w.opened)] })
  else (none, { w with bus := res.2, log := w.log ++ [.openDevice vid pid none] })

def libusbClose (h : Handle) : UsbM σ Unit := fun w =>
  ((), { w with bus := lib.close h w.bus, log := w.log ++ [.close h] })

/-- `libusb_control_transfer`; the buffer after it starts with the bytes the device
put there, at most `wLength` of them. -/
def libusbControlTransfer (h : Handle) (setup : ControlSetup) (data : List UInt8) :
    UsbM σ (Int × List UInt8) := fun w =>
  let res := lib.controlTransfer h setup data w.bus
  let put := res.1.2.take setup.wLength.toNat
  ((res.1.1, put ++ data.drop put.length),
    { w with bus := res.2, log := w.log ++ [.transfer h setup data res.1.1] })

/-- `usbctrl.vid = vid; usbctrl.pid = pid; usbctrl.handle = handle; usbctrl.bind = bind`. -/
def setUsbctrl (ctrl : UsbCtrl) : UsbM σ Unit := fun w =>
  ((), { w with usbctrl := ctrl })

/-- A line of output. -/
def trace (e : Event) : UsbM σ Unit := fun w =>
  ((), { w with log := w.log ++ [e] })

def usbIdxArgc1 : Nat := 2
def usbIdxArgc2 : Nat := 3
def usbIdxArgc3 : Nat := 4

/-- `if (argc > i) x = strtoul(argv[i], NULL, 0)` for an `x` of `n` bits with the
value `dflt`. -/
def argOr {n : Nat} (argv : List (List UInt8)) (i : Nat) (dflt : BitVec n) : BitVec n :=
  match argv[i]? with
  | some s => (strtoul s).setWidth n
  | none => dflt

/-- `usb_raw_write`. -/
def usbRawWrite (h : Handle) (request opcode : BitVec 8) (addr : BitVec 32)
    (pbuf : List UInt8) (len : BitVec 32) : UsbM σ Int := do
  let res ← libusbControlTransfer lib h
    ⟨request, opcode, (addr &&& 0xFFFF).setWidth 16, (addr >>> 16).setWidth 16,
      len.setWidth 16⟩ pbuf
  return res.1

/-- `usb_raw_read`: the result and the buffer after it. -/
def usbRawRead (h : Handle) (request opcode : BitVec 8) (addr : BitVec 32)
    (pbuf : List UInt8) (len : BitVec 32) : UsbM σ (Int × List UInt8) :=
  libusbControlTransfer lib h
    ⟨request, opcode, (addr &&& 0xFFFF).setWidth 16, (addr >>> 16).setWidth 16,
      len.setWidth 16⟩ pbuf

/-- `REQ_TYPE_OTH_WR`. -/
def reqTypeOthWr : BitVec 8 := 0x43

/-- `REQ_TYPE_OTH_RD`. -/
def reqTypeOthRd : BitVec 8 := 0xC3

/-- `REQ_TYPE_DEV_RD`. -/
def reqTypeDevRd : BitVec 8 := 0xC0

/-- The loop of `usb_handle_cmd_list`: what it returns if it leaves the function. -/
def usbListLoop : List Nat → UsbM σ (Option Int)
  | [] => return none
  | dev :: rest => do
    let res ← libusbGetDeviceDescriptor lib dev
    if res.1 < 0 then return some (-1)
    let _ ← libusbGetActiveConfigDescriptor lib dev
    usbListLoop rest

/-- `usb_handle_cmd_list`; its `level` only says how much is printed. -/
def usbHandleCmdList : UsbM σ Int := do
  let r ← libusbInit lib
  if r ≠ 0 then return r
  let devs ← libusbGetDeviceList lib
  if devs.1 < 0 then return -1
  match ← usbListLoop lib devs.2 with
  | some r => return r
  | none =>
    libusbFreeDeviceList lib
    libusbExit lib
    return 0

/-- The loop of `usb_handle_cmd_test`: the value of `r` at its end. -/
def usbTestLoop (vid pid : BitVec 16) : Int → List Nat → UsbM σ Int
  | r, [] => return r
  | _, dev :: rest => do
    let res ← libusbGetDeviceDescriptor lib dev
    if res.2.idVendor = vid ∧ res.2.idProduct = pid then
      libusbGetActiveConfigDescriptor lib dev
    else usbTestLoop vid pid res.1 rest

/-- `usb_handle_cmd_test`. -/
def usbHandleCmdTest (argv : List (List UInt8)) : UsbM σ Int := do
  let vid : BitVec 16 := argOr argv usbIdxArgc1 0
  let pid : BitVec 16 := argOr argv usbIdxArgc2 0
  if vid = 0 ∨ pid = 0 then return -1
  let r ← libusbInit lib
  if r ≠ 0 then return r
  let devs ← libusbGetDeviceList lib
  if devs.1 < 0 then return -1
  let r ← usbTestLoop lib vid pid r devs.2
  libusbFreeDeviceList lib
  libusbExit lib
  return r

def bindDefVid : BitVec 16 := 0xBE57
def bindDefPid : BitVec 16 := 0x0238

/-- `usb_handle_cmd_bind`. -/
def usbHandleCmdBind (argv : List (List UInt8)) (bind : Int) : UsbM σ Int := do
  let vid := argOr argv usbIdxArgc1 bindDefVid
  let pid := argOr argv usbIdxArgc2 bindDefPid
  let w ← get
  if w.usbctrl.bind = bind then return 0
  if bind ≠ 0 then
    if vid = 0 ∨ pid = 0 then return -1
    let r ← libusbInit lib
    if r ≠ 0 then return -1
    let handle ← libusbOpenDeviceWithVidPid lib vid pid
    if handle = none then return -1
    setUsbctrl ⟨bind, handle, vid, pid⟩
    return 0
  else
    if w.usbctrl.handle ≠ none then libusbClose lib w.usbctrl.handle
    setUsbctrl ⟨bind, none, vid, pid⟩
    return 0

/-- The ids of `rw_sub_cmds`. -/
inductive RwCmd
  | ana
  | pmu
  | dig
  | mem
  | exec
  | reset
  | resetCdc
  deriving DecidableEq

/-- `cmd_id` as an opcode. -/
def RwCmd.opcode : RwCmd → BitVec 8
  | .ana => 1
  | .pmu => 2
  | .dig => 3
  | .mem => 4
  | .exec => 5
  | .reset => 6
  | .resetCdc => 7

/-- The modules with an address. -/
def RwCmd.isMod : RwCmd → Bool
  | .ana | .pmu | .dig | .mem => true
  | .exec | .reset | .resetCdc => false

/-- `rw_sub_cmds`. -/
def rwSubCmds : List (CStr × RwCmd) :=
  [(lit "ana", .ana), (lit "pmu", .pmu), (lit "dig", .dig), (lit "mem", .mem),
    (lit "exec", .exec), (lit "rst", .reset), (lit "rstcdc", .resetCdc)]

/-- `ANA_REG_MAX_ADDR`. -/
def anaRegMaxAddr : BitVec 32 := 0x400

/-- `(x >> shift) & 0xff`. -/
def byteAt (x : BitVec 32) (shift : Nat) : UInt8 :=
  UInt8.ofBitVec (((x >>> shift) &&& 0xFF).setWidth 8)

/-- The end of a write: one transfer. -/
def usbRwSend (cmd : RwCmd) (addr : BitVec 32) (buf : List UInt8) (len : BitVec 32) :
    UsbM σ Int := do
  let w ← get
  let rlen ← usbRawWrite lib w.usbctrl.handle reqTypeOthWr cmd.opcode addr buf len
  if rlen ≠ len.toNat then return 1
  return 0

/-- The write half of `usb_handle_cmd_rw`. -/
def usbRwWrite (argv : List (List UInt8)) (cmd : RwCmd) (addr data : BitVec 32) :
    UsbM σ Int := do
  if cmd.isMod ∧ argv.length ≤ usbIdxArgc3 then return -4
  match cmd with
  | .ana | .pmu =>
    if anaRegMaxAddr ≤ addr then return -3
    usbRwSend lib cmd addr [byteAt data 0, byteAt data 8] 2
  | .dig | .mem =>
    if addr &&& 3 ≠ 0 then return -3
    usbRwSend lib cmd addr [byteAt data 0, byteAt data 8, byteAt data 16, byteAt data 24] 4
  | .exec | .reset | .resetCdc => usbRwSend lib cmd addr [0, 0, 0, 0] 4

/-- `buf[0] | (buf[1] << 8) | ...`. -/
def leWord : List UInt8 → BitVec 32
  | [] => 0
  | b :: rest => b.toBitVec.setWidth 32 ||| (leWord rest <<< 8)

/-- The loop of a read, `n` times from now; the result is `err`. -/
def usbReadLoop (cmd : RwCmd) (len inc : BitVec 32) :
    Nat → BitVec 32 → List UInt8 → BitVec 32 → UsbM σ Int
  | 0, _, _, err => return err.toInt
  | n + 1, addr, buf, err => do
    let w ← get
    let res ← usbRawRead lib w.usbctrl.handle reqTypeOthRd cmd.opcode addr buf len
    if res.1 ≠ len.toNat then usbReadLoop cmd len inc n (addr + inc) res.2 (err + 1)
    else
      trace (.data addr (leWord res.2))
      usbReadLoop cmd len inc n (addr + inc) res.2 err

/-- The read half of `usb_handle_cmd_rw`; only modules are read, `argv3 * 4 / len`
times. -/
def usbRwRead (cmd : RwCmd) (addr argv3 : BitVec 32) : UsbM σ Int := do
  match cmd with
  | .ana | .pmu =>
    if anaRegMaxAddr ≤ addr then return -3
    usbReadLoop lib cmd 2 1 (argv3 * 4 / 2).toNat addr [0, 0] 0
  | .dig | .mem =>
    if addr &&& 3 ≠ 0 then return -3
    usbReadLoop lib cmd 4 4 (argv3 * 4 / 4).toNat addr [0, 0, 0, 0] 0
  | .exec | .reset | .resetCdc => return 0

/-- `usb_handle_cmd_rw`. -/
def usbHandleCmdRw (argv : List (List UInt8)) (read : Bool) : UsbM σ Int := do
  let w ← get
  if w.usbctrl.bind = 0 then return -1
  let addr : BitVec 32 := argOr argv usbIdxArgc2 0
  let argv3 : BitVec 32 := argOr argv usbIdxArgc3 1
  match argv[usbIdxArgc1]? with
  | none => return -2
  | some cmdName =>
    match rwSubCmds.find? (fun c => c.1.bytes == cmdName) with
    | none => return -3
    | some (_, cmd) =>
      if read then usbRwRead lib cmd addr argv3 else usbRwWrite lib argv cmd addr argv3

/-- `USB_FM_SET_CMD_E`. -/
inductive UsbFmSet
  | power
  | band
  | chanRssiTh
  | chanSpacing
  | mute
  | volume
  | mono
  | seekStart
  | seekStop
  | tuningChan
  | rds
  | dcThres
  | spikeThres
  deriving DecidableEq

/-- The numbers of `USB_FM_SET_CMD_E`. -/
def UsbFmSet.code : UsbFmSet → BitVec 16
  | .power => 0
  | .band => 1
  | .chanRssiTh => 2
  | .chanSpacing => 3
  | .mute => 4
  | .volume => 5
  | .mono => 6
  | .seekStart => 7
  | .seekStop => 8
  | .tuningChan => 9
  | .rds => 10
  | .dcThres => 11
  | .spikeThres => 12

/-- `USB_FM_GET_CMD_E`. -/
inductive UsbFmGet
  | fmIc
  | fmPowerState
  | band
  | seekChanRssiTh
  | seekChanSpacing
  | muteState
  | monoState
  | vol
  | seekState
  | rdsState
  | dnsState
  | afState
  | curChan
  | dcThres
  | spikeThres
  deriving DecidableEq

/-- The numbers of `USB_FM_GET_CMD_E`. -/
def UsbFmGet.code : UsbFmGet → BitVec 16
  | .fmIc => 1
  | .fmPowerState => 2
  | .band => 3
  | .seekChanRssiTh => 4
  | .seekChanSpacing => 5
  | .muteState => 6
  | .monoState => 7
  | .vol => 8
  | .seekState => 9
  | .rdsState => 10
  | .dnsState => 11
  | .afState => 12
  | .curChan => 13
  | .dcThres => 14
  | .spikeThres => 15

/-- `USB_FM_PRIMITIVE_SET`. -/
def usbFmPrimitiveSet : BitVec 8 := 0xA1

/-- `USB_FM_PRIMITIVE_GET`. -/
def usbFmPrimitiveGet : BitVec 8 := 0xA2

/-- `usb_fm_raw_xfer`: the result and the buffer after it. -/
def usbFmRawXfer (h : Handle) (type request : BitVec 8) (wValue wIndex wLength : BitVec 16)
    (pbuf : List UInt8) : UsbM σ (Int × List UInt8) := do
  let res ← libusbControlTransfer lib h ⟨type, request, wValue, wIndex, wLength⟩ pbuf
  if res.1 < 0 then return (0, res.2)
  return res

/-- `USB_FM_PRIMITIVE_SET` with one byte of status: the setters of `usb_fm_cmd_*`.
The value is the status byte. -/
def usbFmSet (code value : BitVec 16) : UsbM σ Int := do
  let w ← get
  let res ← usbFmRawXfer lib w.usbctrl.handle reqTypeDevRd usbFmPrimitiveSet code value 1 [0]
  return (leWord (res.2.take 1)).toInt

/-- A request for two bytes: the getters of `usb_fm_cmd_*`. -/
def usbFmGet (request : BitVec 8) (code : BitVec 16) : UsbM σ (BitVec 16) := do
  let w ← get
  let res ← usbFmRawXfer lib w.usbctrl.handle reqTypeDevRd request code 0 2 [0, 0]
  return (leWord (res.2.take 2)).setWidth 16

/-- `usb_fm_cmd_power`. -/
def usbFmCmdPower (on : Int) : UsbM σ Int := do
  let on : BitVec 16 := if on ≠ 0 then 1 else 0
  let err ← usbFmSet lib UsbFmSet.power.code on
  trace (.fm .on on)
  return err

/-- The shape of `usb_fm_cmd_mute`, `_band`, `_channel` and `_volume`: the status and
the value behind the pointer afterwards. -/
def usbFmCmdReg (value : FmValue) (setCode : UsbFmSet) (mask : BitVec 16) (request : BitVec 8)
    (getCode : UsbFmGet) (x : BitVec 16) (set : Bool) : UsbM σ (Int × BitVec 16) := do
  if set then
    let v := x &&& mask
    let err ← usbFmSet lib setCode.code v
    trace (.fm value v)
    return (err, x)
  else
    let v ← usbFmGet lib request getCode.code
    trace (.fm value v)
    return (0, v)

/-- `usb_fm_cmd_mute`. -/
def usbFmCmdMute (mute : BitVec 16) (set : Bool) : UsbM σ (Int × BitVec 16) :=
  usbFmCmdReg lib .mute .mute 0x03 usbFmPrimitiveSet .muteState mute set

/-- `usb_fm_cmd_band`. -/
def usbFmCmdBand (band : BitVec 16) (set : Bool) : UsbM σ (Int × BitVec 16) :=
  usbFmCmdReg lib .band .band 0x03 usbFmPrimitiveSet .band band set

/-- `usb_fm_cmd_channel`; it sets the channel unmasked. -/
def usbFmCmdChannel (chan : BitVec 16) (set : Bool) : UsbM σ (Int × BitVec 16) :=
  usbFmCmdReg lib .chan .tuningChan 0xFFFF usbFmPrimitiveGet .curChan chan set

/-- `usb_fm_cmd_volume`. -/
def usbFmCmdVolume (vol : BitVec 16) (set : Bool) : UsbM σ (Int × BitVec 16) :=
  usbFmCmdReg lib .vol .volume 0xF usbFmPrimitiveGet .vol vol set

/-- `usb_fm_cmd_get_device`. -/
def usbFmCmdGetDevice : UsbM σ (Int × BitVec 16) := do
  let v ← usbFmGet lib usbFmPrimitiveGet UsbFmGet.fmIc.code
  trace (.fm .id v)
  return (0, v)

/-- `usb_fm_cmd_test`. -/
def usbFmCmdTest : UsbM σ Int := do
  let _ ← usbFmCmdGetDevice lib
  let _ ← usbFmCmdPower lib 1
  let _ ← usbFmCmdBand lib 0 true
  let _ ← usbFmCmdChannel lib 9740 true
  let _ ← usbFmCmdVolume lib 8 true
  return 0

/-- The ids of `fm_sub_cmds`. -/
inductive FmCmd
  | powerOn
  | powerOff
  | volume
  | channel
  | band
  | device
  | test
  | mute
  deriving DecidableEq

/-- `fm_sub_cmds`. -/
def fmSubCmds : List (CStr × FmCmd) :=
  [(lit "on", .powerOn), (lit "off", .powerOff), (lit "volume", .volume),
    (lit "channel", .channel), (lit "band", .band), (lit "device", .device),
    (lit "test", .test), (lit "mute", .mute)]

/-- The switch of `usb_handle_cmd_fm`; `arg` is there if the command sets. -/
def usbFmSwitch (id : FmCmd) (arg : Option (BitVec 16)) : UsbM σ Int := do
  let isSet := arg.isSome
  let x := arg.getD 0
  match id with
  | .powerOn =>
    let _ ← usbFmCmdPower lib 1
    return 0
  | .powerOff =>
    let _ ← usbFmCmdPower lib 0
    return 0
  | .volume =>
    let _ ← usbFmCmdVolume lib x isSet
    return 0
  | .channel =>
    let _ ← usbFmCmdChannel lib x isSet
    return 0
  | .band =>
    let _ ← usbFmCmdBand lib x isSet
    return 0
  | .mute =>
    let _ ← usbFmCmdMute lib x isSet
    return 0
  | .device =>
    let _ ← usbFmCmdGetDevice lib
    return 0
  | .test =>
    -- the case has no `break` and runs into the default
    let _ ← usbFmCmdTest lib
    return -4

/-- `usb_handle_cmd_fm`; the lookup runs on to the last match. -/
def usbHandleCmdFm (argv : List (List UInt8)) : UsbM σ Int := do
  let w ← get
  if w.usbctrl.bind = 0 then return -1
  let arg := argv[usbIdxArgc2]?.map fun s => (strtoul s).setWidth 16
  match argv[usbIdxArgc1]? with
  | none => return -2
  | some subCmd =>
    match fmSubCmds.findRev? (fun c => c.1.bytes == subCmd) with
    | none => return -3
    | some (_, id) => usbFmSwitch lib id arg

/-- `enum usb_cmd`. -/
inductive UsbCmd
  | list
  | list1
  | bind
  | unbind
  | read
  | write
  | test
  | fm
  deriving DecidableEq

/-- `exec_usb_cmd`. -/
def execUsbCmd (id : UsbCmd) (argv : List (List UInt8)) : UsbM σ Int :=
  match id with
  | .list | .list1 => usbHandleCmdList lib
  | .bind => usbHandleCmdBind lib argv 1
  | .unbind => usbHandleCmdBind lib argv 0
  | .read => usbHandleCmdRw lib argv true
  | .write => usbHandleCmdRw lib argv false
  | .test => usbHandleCmdTest lib argv
  | .fm => usbHandleCmdFm lib argv

/-- `usb_data_init`. -/
def usbDataInit : UsbM σ Unit :=
  setUsbctrl ⟨0, none, 0, 0⟩

/-- `usb_cmd_register`, on the commands and on the world. -/
def usbCmdRegister (s : Comm.CmdState) : UsbM σ (Int × Comm.CmdState) := do
  usbDataInit
  return Comm.usbRegisterLoop s

/-- `usb_cmd_unregister`. -/
def usbCmdUnregister (s : Comm.CmdState) : UsbM σ (Int × Comm.CmdState) := do
  let w ← get
  if w.usbctrl.bind ≠ 0 then
    let _ ← usbHandleCmdBind lib [] 0
    return Comm.unregisterLoop Comm.usbCmds s
  else return Comm.unregisterLoop Comm.usbCmds s

/-- A bus where everything succeeds and no device does anything. -/
def quietBus (σ : Type) : Libusb σ where
  init := fun s => (0, s)
  exit := id
  getDeviceList := fun s => ((0, []), s)
  freeDeviceList := id
  getDeviceDescriptor := fun _ s => ((0, ⟨0, 0⟩), s)
  getActiveConfigDescriptor := fun _ s => (0, s)
  openDeviceWithVidPid := fun _ _ s => (true, s)
  close := fun _ s => s
  controlTransfer := fun _ setup _ s => ((setup.wLength.toNat, []), s)

end Usb

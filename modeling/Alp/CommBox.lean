import Alp.CommCmd

/-!
# The commands of the program

The static commands of `comm_main.c`, `usb_cmd.c` and `sock_cmd.c`, the memory
they live in, and the two loops by which a command module registers and
unregisters its list.  The usb commands get their names only when they are
registered, from `cmds_info`.
-/

set_option autoImplicit false

namespace Comm

open CString

def cmdExit : Addr := 0
def cmdQuit : Addr := 1
def cmdHelp : Addr := 2
def usbCmdList : Addr := 3
def usbCmdList1 : Addr := 4
def usbCmdBind : Addr := 5
def usbCmdUnbind : Addr := 6
def usbCmdRead : Addr := 7
def usbCmdWrite : Addr := 8
def usbCmdTest : Addr := 9
def usbCmdFm : Addr := 10
def cmdEcho : Addr := 11
def cmdMd32 : Addr := 12
def cmdMw32 : Addr := 13
def cmdMr32 : Addr := 14

def cmdQuitHandler : Addr := 0
def cmdHelpHandler : Addr := 1
def usbCmdHandler : Addr := 2
def sockCmdHandler : Addr := 3

def cdataUsb : Addr := 0
def cdataSock : Addr := 1
def usbctrlAddr : Addr := 0
def spdataAddr : Addr := 1

/-- A command of `comm_main.c`: no group, no data. -/
def trivialCmd (id : Int) (name : CStr) (handler : Addr) : CommCmd where
  id := id
  name := some name
  group := none
  priv := none
  cdata := none
  handler := some handler
  nogroup := 1

/-- A command of `usb_cmd.c` as initialised: grouped, not named yet. -/
def usbCmd (id : Int) : CommCmd where
  id := id
  name := none
  group := some (lit "usb")
  priv := some usbctrlAddr
  cdata := some cdataUsb
  handler := some usbCmdHandler
  nogroup := 0

/-- A command of `sock_cmd.c`. -/
def sockCmd (id : Int) (name : CStr) : CommCmd where
  id := id
  name := some name
  group := none
  priv := some spdataAddr
  cdata := some cdataSock
  handler := some sockCmdHandler
  nogroup := 1

/-- The static commands in memory; `usb_cmds` and `sock_cmds` carry the ids of
`enum usb_cmd` and `enum SOCK_CMD_ID`. -/
def staticCmds : CmdMem
  | 0 => trivialCmd 98 (lit "exit") cmdQuitHandler
  | 1 => trivialCmd 99 (lit "quit") cmdQuitHandler
  | 2 => trivialCmd 100 (lit "help") cmdHelpHandler
  | 11 => sockCmd 1 (lit "echo")
  | 12 => sockCmd 2 (lit "md32")
  | 13 => sockCmd 3 (lit "mw32")
  | 14 => sockCmd 4 (lit "mr32")
  | a => usbCmd ((a : Int) - 3)

/-- `cmds_info`. -/
def cmdsInfo : List (CStr × Int) :=
  [(lit "list", 0), (lit "list1", 1), (lit "bind", 2), (lit "unbind", 3),
    (lit "read", 4), (lit "write", 5), (lit "test", 6), (lit "fm", 7)]

/-- `usb_cmds`. -/
def usbCmds : List Addr :=
  [usbCmdList, usbCmdList1, usbCmdBind, usbCmdUnbind, usbCmdRead, usbCmdWrite, usbCmdTest,
    usbCmdFm]

/-- `sock_cmds`. -/
def sockCmds : List Addr :=
  [cmdEcho, cmdMd32, cmdMw32, cmdMr32]

/-- The state the registration loops work on. -/
structure CmdState where
  cmds : CmdMem
  tbl : CmdTable
  cdatas : Addr → CommData

/-- `comm_data_init(cmd->cdata)`. -/
def CmdState.initData (s : CmdState) (a : Addr) : CmdState :=
  match (s.cmds a).cdata with
  | none => s
  | some p =>
    match (commDataInit (some (s.cdatas p))).2 with
    | none => s
    | some d => { s with cdatas := fun q => if q = p then d else s.cdatas q }

/-- `cmd->name = cmds_info[cmd->id].name`. -/
def CmdState.nameUsb (s : CmdState) (a : Addr) : CmdState :=
  { s with
    cmds := fun b =>
      if b = a then { s.cmds a with name := (cmdsInfo[(s.cmds a).id.toNat]?).map Prod.fst }
      else s.cmds b }

/-- The loop of `usb_cmd_register` and `sock_cmd_register`: it stops at the first
command that is refused. -/
def registerLoop (prepare : CmdState → Addr → CmdState) : List Addr → CmdState → Int × CmdState
  | [], s => (0, s)
  | a :: rest, s =>
    let s := prepare s a
    let res := commCmdRegister s.cmds s.tbl (some a)
    let s := { s with tbl := res.2 }
    if res.1 ≠ 0 then (res.1, s) else registerLoop prepare rest s

/-- The loop of `usb_cmd_unregister` and `sock_cmd_unregister`. -/
def unregisterLoop : List Addr → CmdState → Int × CmdState
  | [], s => (0, s)
  | a :: rest, s =>
    let res := commCmdUnregister s.cmds s.tbl (some a)
    let s := { s with tbl := res.2 }
    if res.1 ≠ 0 then (res.1, s) else unregisterLoop rest s

/-- The loop of `usb_cmd_register`. -/
def usbRegisterLoop (s : CmdState) : Int × CmdState :=
  registerLoop (fun s a => (s.nameUsb a).initData a) usbCmds s

/-- `sock_cmd_register`; the `sock_pdata` it also clears belongs to no command
that reads it. -/
def sockCmdRegister (s : CmdState) : Int × CmdState :=
  registerLoop CmdState.initData sockCmds s

/-- `sock_cmd_unregister`. -/
def sockCmdUnregister (s : CmdState) : Int × CmdState :=
  unregisterLoop sockCmds s

/-- The state at program start, on any command table. -/
def CmdState.start (tbl : CmdTable) : CmdState where
  cmds := staticCmds
  tbl := tbl
  cdatas := fun _ => CommData.zeroed

end Comm

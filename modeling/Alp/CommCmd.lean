import Alp.CString
import Alp.SlotTable

/-!
# The demo-dh command driver

This file embeds `common/comm_cmd.h` and `common/comm_cmd.c`: the command data
that one input line is read into, the line reader, the tokenizer, the dispatcher
and the command registry.

Pointers are kept as far as the code compares or follows them.  An `argv` entry
is a `CharPtr`: NULL, a position in `temp`, or an address no object is known at.
Commands, handlers and the two opaque pointers of a command are addresses, and
the memory holding the commands is a function from addresses.

The trace macro prints only at levels 0 and 2 of `COM_TR_LEVEL`, so the level 1
traces, `argv[1]` in `comm_exec_command` among them, evaluate nothing.
-/

set_option autoImplicit false

namespace Comm

open CString

/-- `COMM_TEMP_BUF_SIZE`. -/
def commTempBufSize : Nat := 4096

/-- `COMM_ARGV_BUF_SIZE`. -/
def commArgvBufSize : Nat := 2048

/-- `COMM_MAX_CMDS`. -/
def commMaxCmds : Nat := 100

/-- `COMM_ASCII_SPACE`. -/
def commAsciiSpace : UInt8 := 0x20

/-- `COMM_ASCII_TAB`. -/
def commAsciiTab : UInt8 := 0x09

/-- `COMM_ASCII_EOF`. -/
def commAsciiEof : UInt8 := 0

/-- Address of an object other than a `comm_data`. -/
abbrev Addr := Nat

/-- A `char *` stored in `argv`. -/
inductive CharPtr
  | null
  /-- `&temp[off]`. -/
  | temp (off : Nat)
  /-- An address at which no object is known. -/
  | wild
  deriving DecidableEq

/-- `struct comm_data`.  The array `temp` has `commTempBufSize` bytes and is
followed by `argv`. -/
structure CommData where
  temp : Mem
  argv : Nat → CharPtr
  argc : Nat
  tmpc : Nat
  tmpsize : Nat
  argsize : Nat

/-- A `comm_data` after `memset(d, 0, sizeof *d)`. -/
def CommData.zeroed : CommData where
  temp := fun _ => 0
  argv := fun _ => .null
  argc := 0
  tmpc := 0
  tmpsize := 0
  argsize := 0

/-- `temp[i] = b`.  A store past the array hits the bytes of `argv` and leaves a
pointer there that points nowhere known. -/
def CommData.store (d : CommData) (i : Nat) (b : UInt8) : CommData :=
  if i < commTempBufSize then { d with temp := d.temp.set i b }
  else
    { d with
      argv := fun j => if j = (i - commTempBufSize) / 8 then .wild else d.argv j }

/-- `argv[i] = &temp[off]`. -/
def CommData.storeArg (d : CommData) (i off : Nat) : CommData :=
  { d with argv := fun j => if j = i then .temp off else d.argv j }

/-- `comm_data_init`. -/
def commDataInit : Option CommData → Int × Option CommData
  | none => (-1, none)
  | some d =>
    (0, some { d with
      argsize := commArgvBufSize, tmpsize := commTempBufSize, tmpc := 0, argc := 0 })

/-- The `char` an `int` is truncated to. -/
def charByte (c : Int) : UInt8 :=
  UInt8.ofNat (c % 256).toNat

/-- The loop of `comm_get_command` on the characters `comm_fgetc` will return;
`none` while it still waits for a line feed. -/
def commGetLoop (size : Nat) : CommData → Nat → List Int → Option (CommData × List Int)
  | _, _, [] => none
  | d, cnt, c :: rest =>
    if c = 10 then
      let cnt := if 0 < cnt ∧ d.temp (cnt - 1) = 13 then cnt - 1 else cnt
      some ({ d.store cnt commAsciiEof with tmpc := cnt }, rest)
    else
      let cnt := if size ≤ cnt then 0 else cnt
      commGetLoop size (d.store cnt (charByte c)) (cnt + 1) rest

/-- `comm_get_command`: the characters left over, when a line was read. -/
def commGetCommand (d : CommData) (input : List Int) : Option (CommData × List Int) :=
  commGetLoop d.tmpsize d 0 input

/-- The bytes that separate arguments. -/
def isSep (b : UInt8) : Bool :=
  b == commAsciiSpace || b == commAsciiTab

/-- The two nested loops of `comm_parse_command` with `left = tmpc - tmpi` bytes
to go.  `inArg` says which loop runs: the outer one skips separators and stores
the start of an argument, the inner one walks to the separator after it and
overwrites it.  The first test of the inner loop is on the byte the outer loop
just found to be no separator, so it steps over it. -/
def commParseLoop : CommData → Bool → Nat → Nat → Nat → CommData
  | d, _, _, argi, 0 => { d with argc := argi }
  | d, false, tmpi, argi, left + 1 =>
    if d.temp tmpi = commAsciiEof then { d with argc := argi }
    else if isSep (d.temp tmpi) then commParseLoop d false (tmpi + 1) argi left
    else commParseLoop (d.storeArg argi tmpi) true (tmpi + 1) (argi + 1) left
  | d, true, tmpi, argi, left + 1 =>
    if isSep (d.temp tmpi) then
      commParseLoop (d.store tmpi commAsciiEof) false (tmpi + 1) argi left
    else commParseLoop d true (tmpi + 1) argi left

/-- `comm_parse_command`; it always returns 0. -/
def commParseCommand (d : CommData) : CommData :=
  commParseLoop d false 0 0 d.tmpc

/-- `struct comm_cmd`, without the help text. -/
structure CommCmd where
  id : Int
  name : Option CStr
  group : Option CStr
  priv : Option Addr
  cdata : Option Addr
  handler : Option Addr
  nogroup : Int

/-- `comm_cmds`: pointers to the registered commands. -/
abbrev CmdTable := SlotTable Addr commMaxCmds

/-- The memory the commands live in. -/
abbrev CmdMem := Addr → CommCmd

/-- The zero test of `strcmp(argv[i], s)`; `none` where the comparison is
undefined. -/
def CommData.strcmpArg (d : CommData) (i : Nat) (s : Option CStr) : Option Bool :=
  match d.argv i, s with
  | .temp off, some s => strEq d.temp (commTempBufSize - off) off s.bytes
  | _, _ => none

/-- How the search of `comm_exec_command` ends. -/
inductive ScanEnd
  | undefined
  | noMatch
  | found (slot : Nat) (cmd : Addr)
  deriving DecidableEq

/-- The search of `comm_exec_command` with the indices of the `argv` entries it
handed to `strcmp`. -/
structure Scan where
  used : List Nat
  result : ScanEnd
  deriving DecidableEq

/-- Prepend the indices used for one slot. -/
def Scan.after (s : Scan) (used : List Nat) : Scan :=
  { s with used := used ++ s.used }

/-- The test that a slot takes part in dispatch: `id >= 0` and a name. -/
def CommCmd.live (c : CommCmd) : Option CStr :=
  if c.id < 0 then none else c.name

/-- The test `comm_exec_command` makes for one command: the `argv` entries it
hands to `strcmp` and whether the command matches (`none`: undefined). -/
def CommData.matchCmd (d : CommData) (c : CommCmd) (name : CStr) : List Nat × Option Bool :=
  if c.nogroup = 1 then ([0], d.strcmpArg 0 (some name))
  else if c.nogroup = 0 then
    match d.strcmpArg 0 c.group with
    | none => ([0], none)
    | some false => ([0], some false)
    | some true => ([0, 1], d.strcmpArg 1 (some name))
  else ([1], d.strcmpArg 1 (some name))

/-- The loop of `comm_exec_command` from slot `i` on. -/
def commExecScan (cmds : CmdMem) (d : CommData) : Nat → List (Option Addr) → Scan
  | _, [] => ⟨[], .noMatch⟩
  | i, none :: rest => commExecScan cmds d (i + 1) rest
  | i, some a :: rest =>
    match (cmds a).live with
    | none => commExecScan cmds d (i + 1) rest
    | some name =>
      let test := d.matchCmd (cmds a) name
      match test.2 with
      | none => ⟨test.1, .undefined⟩
      | some true => ⟨test.1, .found i a⟩
      | some false => (commExecScan cmds d (i + 1) rest).after test.1

/-- A call `handler(id, cdata, priv)`. -/
structure HandlerCall where
  handler : Addr
  id : Int
  cdata : Option Addr
  priv : Option Addr
  deriving DecidableEq

/-- What `comm_exec_command` did. -/
structure ExecResult where
  ret : Int
  call : Option HandlerCall
  cdatas : Addr → CommData

/-- The call made for a matching command. -/
def CommCmd.call (c : CommCmd) : Option HandlerCall :=
  c.handler.map (fun h => ⟨h, c.id, c.cdata, c.priv⟩)

/-- The `memcpy` of the command data into the command's own. -/
def CommCmd.copyData (c : CommCmd) (d : CommData) (cdatas : Addr → CommData) :
    Addr → CommData :=
  match c.cdata with
  | none => cdatas
  | some p => fun q => if q = p then d else cdatas q

/-- `comm_exec_command`; `none` where it is undefined. -/
def commExecCommand (cmds : CmdMem) (tbl : CmdTable) (d : CommData)
    (cdatas : Addr → CommData) : Option ExecResult :=
  if d.argc = 0 then some ⟨-1, none, cdatas⟩
  else
    match (commExecScan cmds d 0 tbl.slots).result with
    | .undefined => none
    | .noMatch => some ⟨0, none, cdatas⟩
    | .found _ a => some ⟨0, (cmds a).call, (cmds a).copyData d cdatas⟩

/-- `comm_init_command`. -/
def commInitCommand : CmdTable :=
  SlotTable.empty commMaxCmds

/-- `comm_check_command`: 0 or `-COMM_ERR_CMD`, `-COMM_ERR_ID`,
`-COMM_ERR_NAME`. -/
def commCheckCommand (cmds : CmdMem) : Option Addr → Int
  | none => -2
  | some a =>
    if (cmds a).id < 0 then -3
    else if (cmds a).name = none then -4
    else 0

/-- The loop of `comm_match_command` from slot `i` on. -/
def commMatchLoop (cmds : CmdMem) (c : Option Addr) : Nat → List (Option Addr) → Option Nat
  | _, [] => none
  | i, cmd :: rest =>
    if cmd = c then
      match cmd, c with
      | some a, some b =>
        if (cmds a).name = (cmds b).name then some i
        else commMatchLoop cmds c (i + 1) rest
      | _, _ => some i
    else commMatchLoop cmds c (i + 1) rest

/-- `comm_match_command`; `none` is the result -1. -/
def commMatchCommand (cmds : CmdMem) (tbl : CmdTable) (c : Option Addr) : Option Nat :=
  commMatchLoop cmds c 0 tbl.slots

/-- `comm_find_empty_command()`. -/
def commFindEmptyCommand (cmds : CmdMem) (tbl : CmdTable) : Option Nat :=
  commMatchCommand cmds tbl none

/-- `comm_set_command`: 0 or `-COMM_ERR_POS`. -/
def commSetCommand (tbl : CmdTable) (cmd : Option Addr) (pos : Nat) : Int × CmdTable :=
  if commMaxCmds ≤ pos then (-5, tbl) else (0, tbl.set pos cmd)

/-- `comm_cmd_register`. -/
def commCmdRegister (cmds : CmdMem) (tbl : CmdTable) (cmd : Option Addr) : Int × CmdTable :=
  if commCheckCommand cmds cmd ≠ 0 then (commCheckCommand cmds cmd, tbl)
  else
    match commFindEmptyCommand cmds tbl with
    | none => (-1, tbl)
    | some pos => commSetCommand tbl cmd pos

/-- `comm_cmd_unregister`. -/
def commCmdUnregister (cmds : CmdMem) (tbl : CmdTable) (cmd : Option Addr) : Int × CmdTable :=
  if commCheckCommand cmds cmd ≠ 0 then (commCheckCommand cmds cmd, tbl)
  else
    match commMatchCommand cmds tbl cmd with
    | none => (-1, tbl)
    | some pos => commSetCommand tbl none pos

end Comm

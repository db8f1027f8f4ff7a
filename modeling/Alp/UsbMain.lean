import Alp.CommSession
import Alp.UsbHandle

/-!
# The program with the usb commands

This file embeds `comm_main` of a program with the usb module, where a line reaches
`usb_cmd_handler` and through it libusb: next to the box of `CommMain` stands the world of
`UsbCmd`.  The handlers of the other modules are a parameter.

Without the world it is the program of `CommMain` (`commMainUsb_commMain`).  With it, a
session does to libusb what the usb commands do that its lines name, in order
(`commMainUsb_session`), and whatever the lines are, the handle is in order all the way and
closed at the end (`commMainUsb_handles`).
-/

set_option autoImplicit false

namespace Usb

open CString Ownership

/-- The cases of `exec_usb_cmd`. -/
def usbCmdOf : Int → Option UsbCmd
  | 0 => some .list
  | 1 => some .list1
  | 2 => some .bind
  | 3 => some .unbind
  | 4 => some .read
  | 5 => some .write
  | 6 => some .test
  | 7 => some .fm
  | _ => none

/-- The strings that `argc` and `argv` give; `none` where an entry is no string. -/
def argvOf (d : Comm.CommData) : Option (List (List UInt8)) :=
  (List.range d.argc).mapM d.argStr

/-- The strings of the data of a call. -/
def callArgv (call : Comm.HandlerCall) (cdatas : Comm.Addr → Comm.CommData) :
    Option (List (List UInt8)) :=
  call.cdata.bind fun p => argvOf (cdatas p)

variable {σ : Type}

section Program

variable (lib : Libusb σ) (others : Comm.ModuleHandlers)

/-- `usb_cmd_handler`. -/
def usbCmdHandler (call : Comm.HandlerCall) (cdatas : Comm.Addr → Comm.CommData) (w : World σ) :
    Option (World σ) :=
  (callArgv call cdatas).map fun argv =>
    match usbCmdOf call.id with
    | some c => (execUsbCmd lib c argv w).2
    | none => w

/-- `handler(id, cdata, priv)`. -/
def handleUsb (b : Comm.Box) (call : Comm.HandlerCall) (w : World σ) :
    Option (Comm.Box × World σ) :=
  if call.handler = Comm.usbCmdHandler then
    (usbCmdHandler lib call b.state.cdatas w).map fun w => (b, w)
  else (b.handle others call).map fun b => (b, w)

/-- One pass of the loop on a line. -/
def runLineUsb (b : Comm.Box) (l : Comm.Line) (w : World σ) : Option (Comm.Box × World σ) :=
  let data := Comm.commRunLine b.data l
  match Comm.commExecCommand b.state.cmds b.state.tbl data b.state.cdatas with
  | none => none
  | some res =>
    let b := { b with data := data, state := { b.state with cdatas := res.cdatas } }
    match res.call with
    | none => some (b, w)
    | some call => handleUsb lib others b call w

/-- The loop of `comm_main`. -/
def commLoopUsb : List Comm.Line → Comm.Box → World σ → Option (Comm.Box × World σ)
  | [], _, _ => none
  | l :: session, b, w =>
    match runLineUsb lib others b l w with
    | none => none
    | some (b, w) => if b.quit then some (b, w) else commLoopUsb session b w

/-- `comm_user_cmd_register`; the usb module comes first. -/
def commUserCmdRegisterUsb (sock : Bool) (s : Comm.CmdState) : UsbM σ (Int × Comm.CmdState) := do
  let usb ← usbCmdRegister s
  if usb.1 ≠ 0 then return usb
  return Comm.commModuleLoop Comm.CmdModule.init (Comm.commCmdModules false sock) usb.2

/-- `comm_user_cmd_unregister`. -/
def commUserCmdUnregisterUsb (sock : Bool) (s : Comm.CmdState) :
    UsbM σ (Int × Comm.CmdState) := do
  let usb ← usbCmdUnregister lib s
  if usb.1 ≠ 0 then return usb
  return Comm.commModuleLoop Comm.CmdModule.exit (Comm.commCmdModules false sock) usb.2

/-- The two registrations of `comm_main`. -/
def commStartUpUsb (sock : Bool) (tbl : Comm.CmdTable) : UsbM σ (Int × Comm.CmdState) := do
  let trivials := Comm.trivialCmdRegister
    { Comm.CmdState.start tbl with tbl := Comm.commInitCommand }
  let user ← commUserCmdRegisterUsb sock trivials.2
  return (trivials.1 + user.1, user.2)

/-- The two unregistrations. -/
def commShutDownUsb (sock : Bool) (s : Comm.CmdState) : UsbM σ (Int × Comm.CmdState) := do
  let user ← commUserCmdUnregisterUsb lib sock s
  let trivials := Comm.trivialCmdUnregister user.2
  return (user.1 + trivials.1, trivials.2)

/-- `comm_main` on a session: its result, the commands and the world afterwards. -/
def commMainUsb (sock : Bool) (tbl : Comm.CmdTable) (session : List Comm.Line) (w : World σ) :
    Option ((Int × Comm.CmdState) × World σ) :=
  let started := commStartUpUsb sock tbl w
  if started.1.1 ≠ 0 then some started
  else (commLoopUsb lib others session (Comm.Box.start started.1.2) started.2).map fun r =>
    commShutDownUsb lib sock r.1.state r.2

end Program

/-- What the handlers do to the data of the commands: those of the usb commands nothing. -/
def usbModules (others : Comm.ModuleHandlers) : Comm.ModuleHandlers := fun call cdatas =>
  if call.handler = Comm.usbCmdHandler then (callArgv call cdatas).map fun _ => cdatas
  else others call cdatas

section Plain

variable (lib : Libusb σ) (others : Comm.ModuleHandlers)

/-- With the world left out a call of a handler is one of the shell's. -/
theorem handleUsb_handle (b : Comm.Box) (call : Comm.HandlerCall) (w : World σ) :
    (handleUsb lib others b call w).map Prod.fst = b.handle (usbModules others) call := by
  unfold handleUsb Comm.Box.handle usbModules usbCmdHandler
  by_cases husb : call.handler = Comm.usbCmdHandler
  · have hquit : call.handler ≠ Comm.cmdQuitHandler := by rw [husb]; decide
    have hhelp : call.handler ≠ Comm.cmdHelpHandler := by rw [husb]; decide
    rw [if_pos husb, if_neg hquit, if_neg hhelp, if_pos husb]
    cases callArgv call b.state.cdatas <;> rfl
  · rw [if_neg husb, if_neg husb, Option.map_map]
    exact congrFun Option.map_id _

/-- With the world left out a line is run as the shell runs it. -/
theorem runLineUsb_runLine (b : Comm.Box) (l : Comm.Line) (w : World σ) :
    (runLineUsb lib others b l w).map Prod.fst = b.runLine (usbModules others) l := by
  simp only [runLineUsb, Comm.Box.runLine]
  cases Comm.commExecCommand b.state.cmds b.state.tbl (Comm.commRunLine b.data l)
      b.state.cdatas with
  | none => rfl
  | some res =>
      cases hcall : res.call with
      | none => simp only [hcall, Option.map_some]
      | some call =>
          simp only [hcall]
          exact handleUsb_handle lib others _ call w

/-- With the world left out the loop is the shell's. -/
theorem commLoopUsb_commLoop (session : List Comm.Line) (b : Comm.Box) (w : World σ) :
    (commLoopUsb lib others session b w).map Prod.fst =
      Comm.commLoop (usbModules others) session b := by
  induction session generalizing b w with
  | nil => rfl
  | cons l session ih =>
      have hline := runLineUsb_runLine lib others b l w
      rw [commLoopUsb, Comm.commLoop, ← hline]
      cases runLineUsb lib others b l w with
      | none => rfl
      | some r =>
          simp only [Option.map_some]
          split
          · rfl
          · exact ih r.1 r.2

/-- A function of `usb_cmd.c` and what goes on with its result, from one world. -/
theorem bind_world {α β : Type} (m : UsbM σ α) (k : α → UsbM σ β) (w : World σ) :
    (m >>= k) w = k (m w).1 (m w).2 := rfl

/-- Registering registers as the shell does and clears the USB data. -/
theorem commUserCmdRegisterUsb_eq (sock : Bool) (s : Comm.CmdState) (w : World σ) :
    commUserCmdRegisterUsb sock s w =
      (Comm.commUserCmdRegister true sock s, (usbDataInit w).2) := by
  have huser : Comm.commUserCmdRegister true sock s =
      if (Comm.usbRegisterLoop s).1 ≠ 0 then Comm.usbRegisterLoop s
      else Comm.commModuleLoop Comm.CmdModule.init (Comm.commCmdModules false sock)
        (Comm.usbRegisterLoop s).2 := rfl
  rw [huser]
  by_cases hret : (Comm.usbRegisterLoop s).1 ≠ 0
  · rw [if_pos hret]
    exact congrFun (if_pos hret) (usbDataInit w).2
  · rw [if_neg hret]
    exact congrFun (if_neg hret) (usbDataInit w).2

/-- Starting up does what the shell does and clears the USB data. -/
theorem commStartUpUsb_eq (sock : Bool) (tbl : Comm.CmdTable) (w : World σ) :
    commStartUpUsb sock tbl w = (Comm.commStartUp true sock tbl, (usbDataInit w).2) := by
  rw [commStartUpUsb, bind_world, commUserCmdRegisterUsb_eq, Comm.commStartUp]
  rfl

/-- What `usb_cmd_unregister` does to libusb. -/
def usbShutDown (w : World σ) : World σ :=
  if w.usbctrl.bind ≠ 0 then (usbHandleCmdBind lib [] 0 w).2 else w

/-- Unregistering takes the USB commands out and shuts the device down. -/
theorem usbCmdUnregister_eq (s : Comm.CmdState) (w : World σ) :
    usbCmdUnregister lib s w = (Comm.unregisterLoop Comm.usbCmds s, usbShutDown lib w) := by
  unfold usbShutDown
  by_cases hbind : w.usbctrl.bind ≠ 0
  · rw [if_pos hbind]
    exact congrFun (if_pos hbind) w
  · rw [if_neg hbind]
    exact congrFun (if_neg hbind) w

/-- Unregistering all modules does what the shell does and shuts the device down. -/
theorem commUserCmdUnregisterUsb_eq (sock : Bool) (s : Comm.CmdState) (w : World σ) :
    commUserCmdUnregisterUsb lib sock s w =
      (Comm.commUserCmdUnregister true sock s, usbShutDown lib w) := by
  have hmodules : Comm.commUserCmdUnregister true sock s =
      if (Comm.unregisterLoop Comm.usbCmds s).1 ≠ 0 then Comm.unregisterLoop Comm.usbCmds s
      else Comm.commModuleLoop Comm.CmdModule.exit (Comm.commCmdModules false sock)
        (Comm.unregisterLoop Comm.usbCmds s).2 := rfl
  rw [commUserCmdUnregisterUsb, bind_world, usbCmdUnregister_eq, hmodules]
  by_cases hret : (Comm.unregisterLoop Comm.usbCmds s).1 ≠ 0
  · rw [if_pos hret, if_pos hret]
    rfl
  · rw [if_neg hret, if_neg hret]
    rfl

/-- Shutting down does what the shell does and shuts the device down. -/
theorem commShutDownUsb_eq (sock : Bool) (s : Comm.CmdState) (w : World σ) :
    commShutDownUsb lib sock s w = (Comm.commShutDown true sock s, usbShutDown lib w) := by
  rw [commShutDownUsb, bind_world, commUserCmdUnregisterUsb_eq, Comm.commShutDown]
  rfl

/-- **Without the world** the program is that of `CommMain`. -/
theorem commMainUsb_commMain (sock : Bool) (tbl : Comm.CmdTable) (session : List Comm.Line)
    (w : World σ) :
    (commMainUsb lib others sock tbl session w).map Prod.fst =
      Comm.commMain true sock (usbModules others) tbl session := by
  have hloop := commLoopUsb_commLoop lib others session
    (Comm.Box.start (Comm.commStartUp true sock tbl).2) (usbDataInit w).2
  simp only [commMainUsb, Comm.commMain, commStartUpUsb_eq]
  split
  · rfl
  · rw [← hloop]
    cases commLoopUsb lib others session (Comm.Box.start (Comm.commStartUp true sock tbl).2)
        (usbDataInit w).2 with
    | none => rfl
    | some r => exact congrArg some (congrArg Prod.fst (commShutDownUsb_eq lib sock r.1.state r.2))

end Plain

/-- `cmds_info` by name. -/
def usbCmdNamed (name : List UInt8) : Option UsbCmd :=
  (Comm.cmdsInfo.find? fun e => e.1.bytes == name).bind fun e => usbCmdOf e.2

/-- The usb command that a line of these words names, with the words. -/
def usbCall : List (List UInt8) → Option (UsbCmd × List (List UInt8))
  | group :: name :: rest =>
    if group = (lit "usb").bytes then
      (usbCmdNamed name).map fun c => (c, group :: name :: rest)
    else none
  | _ => none

/-- The words end the session. -/
def Leaves (ts : List (List UInt8)) : Prop :=
  ts.head? = some (lit "quit").bytes ∨ ts.head? = some (lit "exit").bytes

instance (ts : List (List UInt8)) : Decidable (Leaves ts) :=
  inferInstanceAs (Decidable (_ ∨ _))

/-- The usb commands of a session, up to its end. -/
def usbSession : List (List (List UInt8)) → List (UsbCmd × List (List UInt8))
  | [] => []
  | ts :: rest => (usbCall ts).toList ++ if Leaves ts then [] else usbSession rest

/-- Commands one after another. -/
def usbRun (lib : Libusb σ) (cmds : List (UsbCmd × List (List UInt8))) (w : World σ) : World σ :=
  cmds.foldl (fun w a => (execUsbCmd lib a.1 a.2 w).2) w

/-- Running two sequences of commands joined is running one after the other. -/
theorem usbRun_append (lib : Libusb σ) (as bs : List (UsbCmd × List (List UInt8)))
    (w : World σ) : usbRun lib (as ++ bs) w = usbRun lib bs (usbRun lib as w) :=
  List.foldl_append

/-- The command is one of the usb commands, named and numbered as in `cmds_info`. -/
def IsUsb (c : Comm.CommCmd) : Prop :=
  c.nogroup ≠ 1 ∧ c.group.map CStr.bytes = some (lit "usb").bytes ∧
    c.call = some ⟨Comm.usbCmdHandler, c.id, some Comm.cdataUsb, c.priv⟩ ∧
    ∃ e ∈ Comm.cmdsInfo, c.live = some e.1 ∧ c.id = e.2

instance (c : Comm.CommCmd) : Decidable (IsUsb c) :=
  inferInstanceAs (Decidable (_ ∧ _ ∧ _ ∧ _))

/-- The commands registered are the usb commands and others that are not looked up by
`usb`. -/
theorem started_usb (sock : Bool) {a : Comm.Addr}
    (ha : some a ∈ (Comm.started true sock).tbl.slots) :
    let c := (Comm.started true sock).cmds a
    IsUsb c ∨ c.nogroup = 1 ∧ c.live.map CStr.bytes ≠ some (lit "usb").bytes ∧
      c.handler ≠ some Comm.usbCmdHandler := by
  have hall : ((Comm.started true sock).tbl.slots.all fun o => o.all fun a =>
      let c := (Comm.started true sock).cmds a
      decide (IsUsb c ∨ c.nogroup = 1 ∧ c.live.map CStr.bytes ≠ some (lit "usb").bytes ∧
        c.handler ≠ some Comm.usbCmdHandler)) = true := by
    cases sock <;> decide +kernel
  exact of_decide_eq_true (List.all_eq_true.mp hall (some a) ha)

/-- Each of `cmds_info` is registered. -/
theorem started_cmdsInfo (sock : Bool) {e : CStr × Int} (he : e ∈ Comm.cmdsInfo) :
    ∃ a, some a ∈ (Comm.started true sock).tbl.slots ∧
      ((Comm.started true sock).cmds a).nogroup ≠ 1 ∧
      ((Comm.started true sock).cmds a).group.map CStr.bytes = some (lit "usb").bytes ∧
      ((Comm.started true sock).cmds a).live = some e.1 := by
  have hall : (Comm.cmdsInfo.all fun e =>
      (Comm.started true sock).tbl.slots.any fun o => o.any fun a =>
        let c := (Comm.started true sock).cmds a
        decide (c.nogroup ≠ 1 ∧ c.group.map CStr.bytes = some (lit "usb").bytes ∧
          c.live = some e.1)) = true := by
    cases sock <;> decide +kernel
  obtain ⟨o, ho, hany⟩ := List.any_eq_true.mp (List.all_eq_true.mp hall e he)
  obtain ⟨a, rfl, hslot⟩ := (Option.any_eq_true _ _).mp hany
  exact ⟨a, ho, of_decide_eq_true hslot⟩

/-- Every name of the table names a command, the one of its identifier. -/
theorem usbCmdNamed_cmdsInfo {e : CStr × Int} (he : e ∈ Comm.cmdsInfo) :
    (usbCmdNamed e.1.bytes).isSome = true ∧ usbCmdNamed e.1.bytes = usbCmdOf e.2 := by
  have hall : ∀ e ∈ Comm.cmdsInfo, (usbCmdNamed e.1.bytes).isSome = true ∧
      usbCmdNamed e.1.bytes = usbCmdOf e.2 := by decide +kernel
  exact hall e he

/-- A command with a group is looked up by two words. -/
theorem answers_grouped {c : Comm.CommCmd} (hone : c.nogroup ≠ 1) {group : List UInt8}
    (hgroup : c.group.map CStr.bytes = some group) {name : CStr} (hlive : c.live = some name)
    (ts : List (List UInt8)) :
    c.answers ts = true ↔ ts[0]? = some group ∧ ts[1]? = some name.bytes := by
  rw [Comm.CommCmd.answers, if_neg hone, hgroup, hlive, eq_comm (a := ts[0]?),
    eq_comm (a := ts[1]?)]
  simp

/-- Where a command answers, one is found. -/
theorem shellCmd_isSome {cmds : Comm.CmdMem} {slots : List (Option Comm.Addr)}
    {ts : List (List UInt8)} {a : Comm.Addr} (ha : some a ∈ slots)
    (hans : (cmds a).answers ts = true) : ∃ a', Comm.shellCmd cmds slots ts = some a' := by
  induction slots with
  | nil => cases ha
  | cons o slots ih =>
      rcases List.mem_cons.mp ha with rfl | hrest
      · exact ⟨a, by rw [Comm.shellCmd, if_pos hans]⟩
      cases o with
      | none => exact ih hrest
      | some b =>
          rw [Comm.shellCmd]
          by_cases hb : (cmds b).answers ts = true
          · exact ⟨b, if_pos hb⟩
          · rw [if_neg hb]
            exact ih hrest

/-- A line calls a USB command exactly when its first two words name one. -/
theorem usbCall_eq_some {ts ws : List (List UInt8)} {c : UsbCmd} :
    usbCall ts = some (c, ws) ↔
      ws = ts ∧ ts[0]? = some (lit "usb").bytes ∧ ts[1]?.bind usbCmdNamed = some c := by
  match ts with
  | [] => simp [usbCall]
  | [_] => simp [usbCall]
  | group :: name :: rest =>
      by_cases hgroup : group = (lit "usb").bytes
      · rw [usbCall, if_pos hgroup, Option.map_eq_some_iff, hgroup]
        constructor
        · rintro ⟨c', hc', hpair⟩
          cases hpair
          exact ⟨rfl, rfl, hc'⟩
        · rintro ⟨rfl, -, hc⟩
          exact ⟨c, hc, rfl⟩
      · simp [usbCall, hgroup]

/-- A line that names a usb command is a call of its handler, with its number. -/
theorem shellCall_usb (sock : Bool) {ts ws : List (List UInt8)} {c : UsbCmd}
    (h : usbCall ts = some (c, ws)) :
    ∃ call, Comm.shellCall (Comm.started true sock).cmds (Comm.started true sock).tbl.slots ts =
        some call ∧ call.handler = Comm.usbCmdHandler ∧ call.cdata = some Comm.cdataUsb ∧
      usbCmdOf call.id = some c := by
  obtain ⟨-, hfirst, hsecond⟩ := usbCall_eq_some.mp h
  obtain ⟨name, hname, hnamed⟩ := Option.bind_eq_some_iff.mp hsecond
  obtain ⟨e, hfind, -⟩ := Option.bind_eq_some_iff.mp hnamed
  have he := List.mem_of_find?_eq_some hfind
  have hbytes : e.1.bytes = name := by simpa using List.find?_some hfind
  have hne : ts ≠ [] := by
    rintro rfl
    cases hfirst
  obtain ⟨a, ha, hone, hgroup, hlive⟩ := started_cmdsInfo sock he
  have hans := (answers_grouped hone hgroup hlive ts).mpr ⟨hfirst, hname.trans (by rw [hbytes])⟩
  obtain ⟨b, hb⟩ := shellCmd_isSome ha hans
  have hbans := Comm.shellCmd_answers hb
  rw [Comm.shellCall, if_neg hne, hb, Option.bind_some]
  rcases started_usb sock (Comm.shellCmd_mem hb) with
    ⟨hone', hgroup', hcall, e', he', hlive', hid⟩ | ⟨hone', hlive', -⟩
  · have hname' := ((answers_grouped hone' hgroup' hlive' ts).mp hbans).2
    have hsame : e'.1.bytes = name := Option.some.inj (hname'.symm.trans hname)
    refine ⟨_, hcall, rfl, rfl, ?_⟩
    show usbCmdOf ((Comm.started true sock).cmds b).id = some c
    rw [hid, ← (usbCmdNamed_cmdsInfo he').2, hsame, hnamed]
  · rw [Comm.CommCmd.answers, if_pos hone', hfirst] at hbans
    simp [hlive'] at hbans

/-- Another line is no call of it. -/
theorem shellCall_notUsb (sock : Bool) {ts : List (List UInt8)} (h : usbCall ts = none)
    {call : Comm.HandlerCall}
    (hcall : Comm.shellCall (Comm.started true sock).cmds (Comm.started true sock).tbl.slots ts =
      some call) : call.handler ≠ Comm.usbCmdHandler := by
  unfold Comm.shellCall at hcall
  split at hcall
  · cases hcall
  obtain ⟨a, hshell, hcall⟩ := Option.bind_eq_some_iff.mp hcall
  have hans := Comm.shellCmd_answers hshell
  rcases started_usb sock (Comm.shellCmd_mem hshell) with ⟨hone, hgroup, -, e, he, hlive, -⟩ |
    ⟨-, -, hhandler⟩
  · obtain ⟨hfirst, hsecond⟩ := (answers_grouped hone hgroup hlive ts).mp hans
    obtain ⟨c, hc⟩ := Option.isSome_iff_exists.mp (usbCmdNamed_cmdsInfo he).1
    have hnone : usbCall ts = some (c, ts) :=
      usbCall_eq_some.mpr ⟨rfl, hfirst, by rw [hsecond]; exact hc⟩
    rw [h] at hnone
    cases hnone
  · obtain ⟨handler, hh, rfl⟩ := Option.map_eq_some_iff.mp hcall
    intro heq
    exact hhandler (hh.trans (congrArg some heq))

/-- Where every image is there, they are there together. -/
theorem mapM_eq_some {α β : Type} {f : α → Option β} {as : List α} {bs : List β}
    (h : as.map f = bs.map some) : as.mapM f = some bs := by
  induction as generalizing bs with
  | nil =>
      cases bs with
      | nil => rfl
      | cons b bs => cases h
  | cons a as ih =>
      cases bs with
      | nil => cases h
      | cons b bs =>
          obtain ⟨ha, has⟩ := List.cons.inj h
          rw [List.mapM_cons, ha, ih has]
          rfl

/-- Data that hold the words of a line hand them to the handler. -/
theorem argvOf_argsAt {d : Comm.CommData} {ts : List (List UInt8)} (hargc : d.argc = ts.length)
    (hargs : Comm.ArgsAt d 0 ts) (hnul : ∀ t ∈ ts, nul ∉ t) : argvOf d = some ts := by
  apply mapM_eq_some
  rw [hargc]
  apply List.ext_getElem
  · simp
  · intro j hj hj'
    have hlt : j < ts.length := by simpa using hj
    simp [hargs.argStr hlt (hnul _ (List.getElem_mem hlt))]

section Session

variable (lib : Libusb σ) {others : Comm.ModuleHandlers} {sock : Bool}

/-- The commands of the program are set up. -/
abbrev Ready (sock : Bool) (b : Comm.Box) : Prop :=
  b.Ready (Comm.started true sock).cmds (Comm.started true sock).tbl

/-- A line is run on its own words. -/
abbrev Shell (sock : Bool) (l : Comm.Line) : Prop :=
  l.Shell (Comm.started true sock).cmds (Comm.started true sock).tbl.slots

/-- **One line** does to libusb what the usb command does that it names, and ends the
session where it says so. -/
theorem runLineUsb_shell {b : Comm.Box} (hb : Ready sock b)
    (hreturn : ∀ call cdatas, (others call cdatas).isSome = true) {l : Comm.Line}
    (hl : Shell sock l) (w : World σ) :
    ∃ b', runLineUsb lib others b l w =
        some (b', usbRun lib (usbCall l.tokens).toList w) ∧ Ready sock b' ∧
      (b.quit = false → (b'.quit = true ↔ Leaves l.tokens)) := by
  obtain ⟨hargc, hargs⟩ := Comm.argsAt_commRunLine hb.size hl.fits
  have hnul : ∀ t ∈ l.tokens, nul ∉ t :=
    fun t ht => Comm.nul_notMem_of_tokens (l.nul_notMem_text hl.fits.2) ht
  obtain ⟨res, hres, hcall, hcopied⟩ := Comm.commExecCommand_shell hargc hargs hnul
    (fun a ha => Comm.started_named true sock ha) hl.second b.state.cdatas
  have hsize : (Comm.commRunLine b.data l).tmpsize = Comm.commTempBufSize := by
    rw [Comm.commRunLine_tmpsize, hb.size]
  have hquits := Comm.started_quits true sock l.tokens
  simp only [runLineUsb, hb.cmds, hb.tbl, hres, hcall]
  rw [Comm.quits] at hquits
  cases husb : usbCall l.tokens with
  | some a =>
      obtain ⟨call, hshell, hhandler, hdata, hid⟩ := shellCall_usb sock husb
      have hargv : callArgv call res.cdatas = some l.tokens := by
        rw [callArgv, hdata, Option.bind_some, hcopied call _ (hcall.trans hshell) hdata]
        exact argvOf_argsAt hargc hargs hnul
      have hquit : call.handler ≠ Comm.cmdQuitHandler := by rw [hhandler]; decide
      have hws : a.2 = l.tokens := (usbCall_eq_some.mp husb).1
      rw [hshell, Option.any_some, decide_eq_true_iff] at hquits
      simp only [hshell, handleUsb, if_pos hhandler, usbCmdHandler, hargv, hid, Option.map_some]
      refine ⟨_, by rw [← hws]; rfl, ⟨hsize, rfl, rfl⟩, fun hno => ?_⟩
      exact iff_of_false (by simp [hno]) fun hleave => hquit (hquits.mpr hleave)
  | none =>
      cases hshell : Comm.shellCall (Comm.started true sock).cmds
          (Comm.started true sock).tbl.slots l.tokens with
      | none =>
          rw [hshell, Option.any_none] at hquits
          refine ⟨_, rfl, ⟨hsize, rfl, rfl⟩, fun hno => ?_⟩
          exact iff_of_false (by simp [hno]) fun hleave => Bool.false_ne_true (hquits.mpr hleave)
      | some call =>
          have hhandler := shellCall_notUsb sock husb hshell
          rw [hshell, Option.any_some, decide_eq_true_iff] at hquits
          simp only [handleUsb, if_neg hhandler, Comm.Box.handle]
          by_cases hquit : call.handler = Comm.cmdQuitHandler
          · rw [if_pos hquit]
            exact ⟨_, rfl, ⟨hsize, rfl, rfl⟩, fun _ => iff_of_true rfl (hquits.mp hquit)⟩
          · have hstay : ¬ Leaves l.tokens := fun hleave => hquit (hquits.mpr hleave)
            rw [if_neg hquit]
            by_cases hhelp : call.handler = Comm.cmdHelpHandler
            · rw [if_pos hhelp]
              exact ⟨_, rfl, ⟨hsize, rfl, rfl⟩, fun hno => iff_of_false (by simp [hno]) hstay⟩
            · obtain ⟨cdatas, hcdatas⟩ := Option.isSome_iff_exists.mp (hreturn call res.cdatas)
              rw [if_neg hhelp, hcdatas]
              exact ⟨_, rfl, ⟨hsize, rfl, rfl⟩, fun hno => iff_of_false (by simp [hno]) hstay⟩

/-- Behind a line that leaves the shell no command is called. -/
theorem usbSession_leaves {ts : List (List UInt8)} (h : Leaves ts)
    (rest : List (List (List UInt8))) : usbSession (ts :: rest) = (usbCall ts).toList := by
  rw [usbSession, if_pos h, List.append_nil]

/-- A line that stays in the shell is followed by the others. -/
theorem usbSession_stays {ts : List (List UInt8)} (h : ¬ Leaves ts)
    (rest : List (List (List UInt8))) :
    usbSession (ts :: rest) = (usbCall ts).toList ++ usbSession rest := by
  rw [usbSession, if_neg h]

/-- The loop ends where a line says so, and has run the usb commands up to there. -/
theorem commLoopUsb_shell {b : Comm.Box} (hb : Ready sock b) (hquit : b.quit = false)
    (hreturn : ∀ call cdatas, (others call cdatas).isSome = true) {session : List Comm.Line}
    (hsession : ∀ l ∈ session, Shell sock l) (w : World σ) :
    ((∃ l ∈ session, Leaves l.tokens) →
        ∃ b', commLoopUsb lib others session b w =
          some (b', usbRun lib (usbSession (session.map Comm.Line.tokens)) w)) ∧
      (¬ (∃ l ∈ session, Leaves l.tokens) → commLoopUsb lib others session b w = none) := by
  induction session generalizing b w with
  | nil => simp [commLoopUsb]
  | cons l session ih =>
      obtain ⟨hl, hrest⟩ := List.forall_mem_cons.mp hsession
      obtain ⟨b', hline, hb', hends⟩ := runLineUsb_shell lib hb hreturn hl w
      have hends := hends hquit
      rw [commLoopUsb, hline, List.map_cons]
      dsimp only
      by_cases hleave : Leaves l.tokens
      · rw [if_pos (hends.mpr hleave), usbSession_leaves hleave]
        exact ⟨fun _ => ⟨b', rfl⟩, fun hno => absurd ⟨l, List.mem_cons_self, hleave⟩ hno⟩
      · have hstay : b'.quit = false := Bool.eq_false_iff.mpr fun hq => hleave (hends.mp hq)
        obtain ⟨hsome, hnone⟩ := ih hb' hstay hrest (usbRun lib (usbCall l.tokens).toList w)
        have hmem : (∃ v ∈ l :: session, Leaves v.tokens) ↔ ∃ v ∈ session, Leaves v.tokens := by
          simp [hleave]
        rw [hstay, if_neg Bool.false_ne_true, usbSession_stays hleave, usbRun_append, hmem]
        exact ⟨hsome, hnone⟩

variable (sock)

/-- The program returns where a line says so, with the world that the loop has left and
the device unbound. -/
theorem commMainUsb_shell (hreturn : ∀ call cdatas, (others call cdatas).isSome = true)
    (tbl : Comm.CmdTable) {session : List Comm.Line}
    (hsession : ∀ l ∈ session, l.Fits ∧ l.tokens ≠ [(lit "usb").bytes]) (w : World σ) :
    ((∃ l ∈ session, Leaves l.tokens) →
        ∃ s, commMainUsb lib others sock tbl session w = some ((0, s), usbShutDown lib
          (usbRun lib (usbSession (session.map Comm.Line.tokens)) (usbDataInit w).2))) ∧
      (¬ (∃ l ∈ session, Leaves l.tokens) →
        commMainUsb lib others sock tbl session w = none) := by
  have hready : Ready sock (Comm.Box.start (Comm.started true sock)) := ⟨rfl, rfl, rfl⟩
  obtain ⟨hsome, hnone⟩ := commLoopUsb_shell lib hready rfl hreturn
    (fun l hl => Comm.started_shell true sock (hsession l hl).1 fun _ => (hsession l hl).2)
    (usbDataInit w).2
  have hmain : commMainUsb lib others sock tbl session w =
      (commLoopUsb lib others session (Comm.Box.start (Comm.started true sock))
        (usbDataInit w).2).map fun r => commShutDownUsb lib sock r.1.state r.2 := by
    have hret := Comm.commStartUp_ret true sock
    simp only [commMainUsb, commStartUpUsb_eq, Comm.commStartUp_prior true sock tbl, hret, ne_eq,
      not_true_eq_false, if_false, Comm.started]
  constructor
  · intro hleave
    obtain ⟨b', hloop⟩ := hsome hleave
    rw [hloop, Option.map_some, commShutDownUsb_eq] at hmain
    have hplain := commMainUsb_commMain lib others sock tbl session w
    rw [hmain] at hplain
    obtain ⟨hzero, -⟩ := Comm.commMain_leaves_exit hplain.symm
    exact ⟨_, hmain.trans (congrArg some (Prod.ext (Prod.ext hzero rfl) rfl))⟩
  · intro hstay
    rw [hmain, hnone hstay]
    rfl

/-- **The program with the usb commands.**  On lines that fit the buffer and are not the
word `usb` alone, it returns exactly where a line begins with `quit` or `exit`; it then
returns 0, has run one after another the usb commands that the lines up to there name, with
their words, and has unbound the device. -/
theorem commMainUsb_session (hreturn : ∀ call cdatas, (others call cdatas).isSome = true)
    (tbl : Comm.CmdTable) {session : List Comm.Line}
    (hsession : ∀ l ∈ session, l.Fits ∧ l.tokens ≠ [(lit "usb").bytes]) (w : World σ) :
    ((commMainUsb lib others sock tbl session w).isSome = true ↔
        ∃ l ∈ session, Leaves l.tokens) ∧
      ∀ r s w', commMainUsb lib others sock tbl session w = some ((r, s), w') →
        r = 0 ∧ w' = usbShutDown lib
          (usbRun lib (usbSession (session.map Comm.Line.tokens)) (usbDataInit w).2) := by
  obtain ⟨hsome, hnone⟩ := commMainUsb_shell lib sock hreturn tbl hsession w
  by_cases hleave : ∃ l ∈ session, Leaves l.tokens
  · obtain ⟨s, hmain⟩ := hsome hleave
    rw [hmain]
    refine ⟨iff_of_true rfl hleave, fun r s' w' hrun => ?_⟩
    cases hrun
    exact ⟨rfl, rfl⟩
  · rw [hnone hleave]
    exact ⟨iff_of_false Bool.false_ne_true hleave, nofun⟩

end Session

/-- A line of help, a bind, a write, an unknown command, and `quit`; the unbind after it is
not run. -/
def bindSession : List Comm.Line :=
  [.lit "help", .lit "usb bind", .lit "usb write ana 0x60 1", .lit "usb hallo", .lit "quit",
    .lit "usb unbind"]

/-- A session that binds a device, writes to it and quits. -/
theorem commMainUsb_bindSession :
    let w := (⟨⟨7, some 5, 1, 1⟩, (), 0, []⟩ : World Unit)
    (∃ s w', commMainUsb (quietBus Unit) (fun _ cdatas => some cdatas) false
        Comm.commInitCommand bindSession w = some ((0, s), w') ∧
      w' = usbShutDown (quietBus Unit) (usbRun (quietBus Unit) bindWrite (usbDataInit w).2)) := by
  intro w
  have hsession : ∀ l ∈ bindSession, l.Fits ∧ l.tokens ≠ [(lit "usb").bytes] := by
    decide +kernel
  have hcmds : usbSession (bindSession.map Comm.Line.tokens) = bindWrite := by decide +kernel
  have hleave : ∃ l ∈ bindSession, Leaves l.tokens := by decide +kernel
  have hreturn : ∀ (call : Comm.HandlerCall) (cdatas : Comm.Addr → Comm.CommData),
      ((fun _ cdatas => some cdatas : Comm.ModuleHandlers) call cdatas).isSome = true :=
    fun _ _ => rfl
  obtain ⟨hreturns, hworld⟩ :=
    commMainUsb_session (quietBus Unit) false hreturn Comm.commInitCommand hsession w
  obtain ⟨⟨⟨r, s⟩, w'⟩, hrun⟩ := Option.isSome_iff_exists.mp (hreturns.mpr hleave)
  obtain ⟨rfl, hw'⟩ := hworld r s w' hrun
  exact ⟨s, w', hrun, by rw [hw', hcmds]⟩

section Handle

variable {lib : Libusb σ} {others : Comm.ModuleHandlers}

/-- A line keeps the ownership of the handle. -/
theorem runLineUsb_owned {b b' : Comm.Box} {l : Comm.Line} {w w' : World σ} (hw : Owned w)
    (h : runLineUsb lib others b l w = some (b', w')) : Owned w' := by
  simp only [runLineUsb] at h
  split at h
  · cases h
  split at h
  · cases h
    exact hw
  unfold handleUsb at h
  split at h
  · obtain ⟨u, hu, hpair⟩ := Option.map_eq_some_iff.mp h
    cases hpair
    obtain ⟨argv, -, rfl⟩ := Option.map_eq_some_iff.mp hu
    split
    · next c _ => exact execUsbCmd_owned lib c argv w ⟨hw, rfl⟩
    · exact hw
  · obtain ⟨u, -, hpair⟩ := Option.map_eq_some_iff.mp h
    cases hpair
    exact hw

/-- The loop keeps the ownership of the handle, by induction on the session. -/
theorem commLoopUsb_owned {session : List Comm.Line} {b b' : Comm.Box} {w w' : World σ}
    (hw : Owned w) (h : commLoopUsb lib others session b w = some (b', w')) : Owned w' := by
  induction session generalizing b w with
  | nil => cases h
  | cons l session ih =>
      rw [commLoopUsb] at h
      split at h
      · cases h
      next mid u hline =>
      have hu := runLineUsb_owned hw hline
      split at h
      · cases h
        exact hu
      · exact ih hu h

/-- **The handle of a whole run.**  Whatever the lines are and whatever libusb answers:
when the program returns, the handles were opened, used and closed in order, each closed
once and none used without being open, and none is open. -/
theorem commMainUsb_handles {sock : Bool} {tbl : Comm.CmdTable} {session : List Comm.Line}
    {w w' : World σ} {r : Int × Comm.CmdState} (hlog : w.log = [])
    (h : commMainUsb lib others sock tbl session w = some (r, w')) :
    OneHandle w' ∧ live w'.ops = [] := by
  have hstart : Owned (usbDataInit w).2 :=
    Registered.owned ⟨w, Comm.CmdState.start tbl, hlog, rfl⟩
  have hret := Comm.commStartUp_ret true sock
  simp only [commMainUsb, commStartUpUsb_eq, Comm.commStartUp_prior true sock tbl, hret, ne_eq,
    not_true_eq_false, if_false] at h
  obtain ⟨⟨b, u⟩, hloop, hpair⟩ := Option.map_eq_some_iff.mp h
  rw [commShutDownUsb_eq] at hpair
  cases hpair
  obtain ⟨hfinal, hnone⟩ :=
    usbCmdUnregister_owned lib b.state u ⟨commLoopUsb_owned hstart hloop, rfl⟩
  rw [usbCmdUnregister_eq] at hfinal hnone
  refine ⟨hfinal.oneHandle, ?_⟩
  rw [hfinal.history.accepted.live_eq, hnone]
  rfl

end Handle

/-- In the same session the handle is opened once and closed once. -/
theorem commMainUsb_handles_bindSession :
    let w := (⟨⟨7, some 5, 1, 1⟩, (), 0, []⟩ : World Unit)
    ∃ r w', commMainUsb (quietBus Unit) (fun _ cdatas => some cdatas) false
        Comm.commInitCommand bindSession w = some (r, w') ∧ OneHandle w' ∧ live w'.ops = [] ∧
      acquired w'.ops = [some 0] := by
  intro w
  have hsome : ((commMainUsb (quietBus Unit) (fun _ cdatas => some cdatas) false
      Comm.commInitCommand bindSession w).map fun r => acquired r.2.ops) = some [some 0] := by
    decide +kernel
  obtain ⟨⟨r, w'⟩, hrun, hops⟩ := Option.map_eq_some_iff.mp hsome
  obtain ⟨hone, hlive⟩ := commMainUsb_handles rfl hrun
  exact ⟨r, w', hrun, hone, hlive, hops⟩

end Usb

import Alp.CommBox
import Alp.CommTokens

/-!
# A whole session of `comm_main`

This file embeds `comm_main.c` and the module loops of `comm_io.c`: start-up
registration, the command loop on the lines of a session, and the two shutdown
routines.

The command loop never touches the table (`commLoop_tables`), so after any session
the shutdown works on what the start-up registered.  `trivial_cmd_unregister` calls
`comm_cmd_register(&cmd_exit)` where it should unregister, so `exit` ends in the
table twice and nothing says so: every call still returns 0.
-/

set_option autoImplicit false

namespace Comm

open CString

/-- `trivial_cmd_register`. -/
def trivialCmdRegister (s : CmdState) : Int × CmdState :=
  let quit := commCmdRegister s.cmds s.tbl (some cmdQuit)
  let exit := commCmdRegister s.cmds quit.2 (some cmdExit)
  let help := commCmdRegister s.cmds exit.2 (some cmdHelp)
  (quit.1 + exit.1 + help.1, { s with tbl := help.2 })

/-- `trivial_cmd_unregister`: the second call registers. -/
def trivialCmdUnregister (s : CmdState) : Int × CmdState :=
  let quit := commCmdUnregister s.cmds s.tbl (some cmdQuit)
  let exit := commCmdRegister s.cmds quit.2 (some cmdExit)
  let help := commCmdUnregister s.cmds exit.2 (some cmdHelp)
  (quit.1 + exit.1 + help.1, { s with tbl := help.2 })

/-- `struct comm_cmd_module`. -/
structure CmdModule where
  init : CmdState → Int × CmdState
  exit : CmdState → Int × CmdState

/-- `comm_cmd_modules` as compiled; of the usb module what it does to commands. -/
def commCmdModules (usb sock : Bool) : List CmdModule :=
  (if usb then [⟨usbRegisterLoop, unregisterLoop usbCmds⟩] else []) ++
    (if sock then [⟨sockCmdRegister, sockCmdUnregister⟩] else [])

/-- The loop of `comm_user_cmd_register` and `comm_user_cmd_unregister`. -/
def commModuleLoop (f : CmdModule → CmdState → Int × CmdState) :
    List CmdModule → CmdState → Int × CmdState
  | [], s => (0, s)
  | h :: rest, s =>
    let res := f h s
    if res.1 ≠ 0 then res else commModuleLoop f rest res.2

/-- `comm_user_cmd_register`. -/
def commUserCmdRegister (usb sock : Bool) (s : CmdState) : Int × CmdState :=
  commModuleLoop CmdModule.init (commCmdModules usb sock) s

/-- `comm_user_cmd_unregister`. -/
def commUserCmdUnregister (usb sock : Bool) (s : CmdState) : Int × CmdState :=
  commModuleLoop CmdModule.exit (commCmdModules usb sock) s

/-- What the handlers of the modules do to the data of the commands, `none` where they
do not return.  They reach neither the table nor the commands. -/
abbrev ModuleHandlers :=
  HandlerCall → (Addr → CommData) → Option (Addr → CommData)

/-- `box_cdata` and `box_quit` next to the commands. -/
structure Box where
  data : CommData
  state : CmdState
  quit : Bool

/-- `handler(id, cdata, priv)`. -/
def Box.handle (modules : ModuleHandlers) (b : Box) (call : HandlerCall) : Option Box :=
  if call.handler = cmdQuitHandler then some { b with quit := true }
  else if call.handler = cmdHelpHandler then some b
  else (modules call b.state.cdatas).map fun cdatas =>
    { b with state := { b.state with cdatas := cdatas } }

/-- One pass of the loop on a line; `none` where it is undefined or does not end. -/
def Box.runLine (modules : ModuleHandlers) (b : Box) (l : Line) : Option Box :=
  let data := commRunLine b.data l
  match commExecCommand b.state.cmds b.state.tbl data b.state.cdatas with
  | none => none
  | some res =>
    let b := { b with data := data, state := { b.state with cdatas := res.cdatas } }
    match res.call with
    | none => some b
    | some call => b.handle modules call

/-- `do { ... } while (!box_quit)` on the lines of a session; `none` while it still
waits for a line. -/
def commLoop (modules : ModuleHandlers) : List Line → Box → Option Box
  | [], _ => none
  | l :: session, b =>
    match b.runLine modules l with
    | none => none
    | some b => if b.quit then some b else commLoop modules session b

/-- The box `comm_main` starts with. -/
def Box.start (s : CmdState) : Box where
  data := ((commDataInit (some CommData.zeroed)).2).getD CommData.zeroed
  state := s
  quit := false

/-- Start-up: `comm_init_command` and the two registrations. -/
def commStartUp (usb sock : Bool) (tbl : CmdTable) : Int × CmdState :=
  let s := { CmdState.start tbl with tbl := commInitCommand }
  let trivials := trivialCmdRegister s
  let user := commUserCmdRegister usb sock trivials.2
  (trivials.1 + user.1, user.2)

/-- Shutdown: the two unregistrations. -/
def commShutDown (usb sock : Bool) (s : CmdState) : Int × CmdState :=
  let user := commUserCmdUnregister usb sock s
  let trivials := trivialCmdUnregister user.2
  (user.1 + trivials.1, trivials.2)

/-- `comm_main` on a session: its result and the commands afterwards. -/
def commMain (usb sock : Bool) (modules : ModuleHandlers) (tbl : CmdTable)
    (session : List Line) : Option (Int × CmdState) :=
  let started := commStartUp usb sock tbl
  if started.1 ≠ 0 then some started
  else
    match commLoop modules session (Box.start started.2) with
    | none => none
    | some b => some (commShutDown usb sock b.state)

/-- The same commands and table. -/
def CmdState.SameTables (s t : CmdState) : Prop :=
  t.cmds = s.cmds ∧ t.tbl = s.tbl

/-- A handler leaves commands and table alone. -/
theorem Box.handle_tables {modules : ModuleHandlers} {b b' : Box} {call : HandlerCall}
    (h : b.handle modules call = some b') : b.state.SameTables b'.state := by
  unfold Box.handle at h
  split at h
  · cases h
    exact ⟨rfl, rfl⟩
  · split at h
    · cases h
      exact ⟨rfl, rfl⟩
    · obtain ⟨cdatas, -, rfl⟩ := Option.map_eq_some_iff.mp h
      exact ⟨rfl, rfl⟩

/-- A line leaves commands and table alone. -/
theorem Box.runLine_tables {modules : ModuleHandlers} {b b' : Box} {l : Line}
    (h : b.runLine modules l = some b') : b.state.SameTables b'.state := by
  simp only [Box.runLine] at h
  split at h
  · cases h
  · split at h
    · cases h
      exact ⟨rfl, rfl⟩
    · obtain ⟨hcmds, htbl⟩ := Box.handle_tables h
      exact ⟨hcmds, htbl⟩

/-- The command loop leaves the commands and the table as they were. -/
theorem commLoop_tables {modules : ModuleHandlers} {session : List Line} {b b' : Box}
    (h : commLoop modules session b = some b') : b.state.SameTables b'.state := by
  induction session generalizing b with
  | nil => cases h
  | cons l session ih =>
      simp only [commLoop] at h
      split at h
      · cases h
      · next mid hmid =>
          obtain ⟨hcmds, htbl⟩ := Box.runLine_tables hmid
          split at h
          · cases h
            exact ⟨hcmds, htbl⟩
          · obtain ⟨hcmds', htbl'⟩ := ih h
            exact ⟨hcmds'.trans hcmds, htbl'.trans htbl⟩

/-- Unregistering depends on commands and table only. -/
theorem unregisterLoop_tables (as : List Addr) {s t : CmdState} (h : s.SameTables t) :
    (unregisterLoop as t).1 = (unregisterLoop as s).1 ∧
      (unregisterLoop as s).2.SameTables (unregisterLoop as t).2 := by
  induction as generalizing s t with
  | nil => exact ⟨rfl, h⟩
  | cons a rest ih =>
      obtain ⟨hcmds, htbl⟩ := h
      simp only [unregisterLoop, hcmds, htbl]
      split
      · exact ⟨rfl, rfl, rfl⟩
      · exact ih ⟨rfl, rfl⟩

/-- Unregistering all modules depends on commands and table only. -/
theorem commUserCmdUnregister_tables (usb sock : Bool) {s t : CmdState} (h : s.SameTables t) :
    (commUserCmdUnregister usb sock t).1 = (commUserCmdUnregister usb sock s).1 ∧
      (commUserCmdUnregister usb sock s).2.SameTables (commUserCmdUnregister usb sock t).2 := by
  have hexit : ∀ m ∈ commCmdModules usb sock, ∀ s t : CmdState, s.SameTables t →
      (m.exit t).1 = (m.exit s).1 ∧ (m.exit s).2.SameTables (m.exit t).2 := by
    intro m hm s t hst
    have hloop : m.exit = unregisterLoop usbCmds ∨ m.exit = unregisterLoop sockCmds := by
      cases usb <;> cases sock <;> simp [commCmdModules] at hm
      · exact Or.inr (by rw [hm]; rfl)
      · exact Or.inl (by rw [hm])
      · rcases hm with rfl | rfl
        · exact Or.inl rfl
        · exact Or.inr rfl
    rcases hloop with hloop | hloop <;> rw [hloop] <;> exact unregisterLoop_tables _ hst
  unfold commUserCmdUnregister
  revert hexit
  induction commCmdModules usb sock generalizing s t with
  | nil => exact fun _ => ⟨rfl, h⟩
  | cons m rest ih =>
      intro hexit
      obtain ⟨hret, htables⟩ := hexit m (by simp) s t h
      simp only [commModuleLoop, hret]
      split
      · exact ⟨hret, htables⟩
      · exact ih htables fun m' hm' => hexit m' (by simp [hm'])

/-- Shutting down depends on commands and table only. -/
theorem commShutDown_tables (usb sock : Bool) {s t : CmdState} (h : s.SameTables t) :
    (commShutDown usb sock t).1 = (commShutDown usb sock s).1 ∧
      (commShutDown usb sock t).2.tbl = (commShutDown usb sock s).2.tbl := by
  obtain ⟨hret, hcmds, htbl⟩ := commUserCmdUnregister_tables usb sock h
  simp only [commShutDown, trivialCmdUnregister, hret, hcmds, htbl]
  exact ⟨trivial, trivial⟩

/-- The prior table does not matter. -/
theorem commStartUp_prior (usb sock : Bool) (tbl : CmdTable) :
    commStartUp usb sock tbl = commStartUp usb sock commInitCommand :=
  rfl

/-- Starting up from the initial table succeeds. -/
theorem commStartUp_ret (usb sock : Bool) : (commStartUp usb sock commInitCommand).1 = 0 := by
  cases usb <;> cases sock <;> decide +kernel

/-- Start-up and shutdown with nothing in between leave `exit` twice. -/
theorem commShutDown_startUp (usb sock : Bool) :
    let left := commShutDown usb sock (commStartUp usb sock commInitCommand).2
    left.1 = 0 ∧ left.2.tbl.slot 0 = some cmdExit ∧ left.2.tbl.slot 1 = some cmdExit := by
  cases usb <;> cases sock <;> decide +kernel

/-- **What `comm_main` leaves behind.**  Whatever the table was before, whatever
modules are compiled in and whatever the session: if `comm_main` returns, it returns 0
and `exit` stands in two slots of the table. -/
theorem commMain_leaves_exit {usb sock : Bool} {modules : ModuleHandlers} {tbl : CmdTable}
    {session : List Line} {ret : Int} {s : CmdState}
    (h : commMain usb sock modules tbl session = some (ret, s)) :
    ret = 0 ∧ s.tbl.slot 0 = some cmdExit ∧ s.tbl.slot 1 = some cmdExit := by
  have hret := commStartUp_ret usb sock
  simp only [commMain, commStartUp_prior usb sock tbl, hret, ne_eq, not_true_eq_false,
    if_false] at h
  split at h
  · cases h
  · next b hb =>
      obtain ⟨hshutRet, hshutTbl⟩ := commShutDown_tables usb sock (commLoop_tables hb)
      have hleft := commShutDown_startUp usb sock
      simp only [Option.some.injEq] at h
      rw [h] at hshutRet hshutTbl
      simp only at hshutRet hshutTbl
      rw [hshutRet, hshutTbl]
      exact hleft

/-- **`comm_main` never leaves the table empty.**  Whenever `comm_main` returns, it
returns 0 with a command still registered. -/
theorem commMain_never_clean {usb sock : Bool} {modules : ModuleHandlers} {tbl : CmdTable}
    {session : List Line} {ret : Int} {s : CmdState}
    (h : commMain usb sock modules tbl session = some (ret, s)) :
    ¬ (ret = 0 → ∀ i, s.tbl.slot i = none) := by
  obtain ⟨hret, hexit, -⟩ := commMain_leaves_exit h
  intro hclean
  have hnone := hclean hret 0
  rw [hexit] at hnone
  cases hnone

/-- The session `quit`, with the usb module compiled in. -/
theorem commMain_never_clean_quit :
    ∃ s : CmdState, commMain true false (fun _ cdatas => some cdatas) commInitCommand
        [Line.lit "quit"] = some (0, s) ∧ ¬ ((0 : Int) = 0 → ∀ i, s.tbl.slot i = none) := by
  have hsome : ((commMain true false (fun _ cdatas => some cdatas) commInitCommand
      [Line.lit "quit"]).map Prod.fst) = some 0 := by decide +kernel
  obtain ⟨⟨ret, s⟩, hrun, hret⟩ := Option.map_eq_some_iff.mp hsome
  simp only at hret
  rw [hret] at hrun
  exact ⟨s, hrun, commMain_never_clean hrun⟩

/-- After the session `quit` the table is not empty although `comm_main` returned 0. -/
theorem commMain_not_clean :
    ¬ ∀ (usb sock : Bool) (modules : ModuleHandlers) (tbl : CmdTable) (session : List Line)
        (ret : Int) (s : CmdState), commMain usb sock modules tbl session = some (ret, s) →
      ret = 0 → ∀ i, s.tbl.slot i = none := by
  intro hclaim
  have hslot : ((commMain false false (fun _ cdatas => some cdatas) commInitCommand
      [Line.lit "quit"]).map fun r => (r.1, r.2.tbl.slot 0)) = some (0, some cmdExit) := by
    decide +kernel
  obtain ⟨⟨ret, s⟩, hrun, hleft⟩ := Option.map_eq_some_iff.mp hslot
  simp only [Prod.mk.injEq] at hleft
  have hnone := hclaim _ _ _ _ _ ret s hrun hleft.1 0
  rw [hleft.2] at hnone
  cases hnone

end Comm

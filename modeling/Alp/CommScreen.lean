import Alp.CommSession

/-!
# What a session prints

This file adds the output of `comm_main` and of the socket commands: `comm_puts`,
`comm_show_screen`, `comm_clear_screen` and `comm_show_command` of `comm_cmd.c`, and
`do_cmd_echo` and `sock_cmd_handler` of `sock_cmd.c`.  All of it goes to the standard
output; `comm_puts` asks for `USB_SOCKET` where the rest of the program says
`USE_SOCKET`.

`commMainOut` is `comm_main` with its output (`commMainOut_commMain`).  For a program
without the usb module the output is a function of the words of the lines
(`commMainOut_screen`): a prompt for each line up to the one that ends the session, and
behind it what `help` and `echo` print.
-/

set_option autoImplicit false

namespace Comm

open CString

def lineFeed : UInt8 := 10

/-- What `comm_clear_screen` prints. -/
def commClearScreen : List UInt8 :=
  [lineFeed]

/-- What `comm_show_screen` prints. -/
def commShowScreen : List UInt8 :=
  asciiBytes "CMD>"

/-- `See you again.`, at the end of `comm_main`. -/
def seeYouAgain : List UInt8 :=
  asciiBytes "See you again." ++ [lineFeed]

/-- The help texts `desc` of the commands. -/
abbrev CmdDescs := Addr → Option CStr

/-- What `comm_show_command` prints for a live command; `none` where it prints a NULL. -/
def CommCmd.helpLine (c : CommCmd) (name : CStr) (desc : Option CStr) : Option (List UInt8) :=
  let rest := name.bytes ++ asciiBytes " - " ++ (desc.map CStr.bytes).getD [] ++ [lineFeed]
  if c.nogroup = 0 then c.group.map fun g => g.bytes ++ asciiBytes " " ++ rest
  else some rest

/-- The loop of `comm_show_command`. -/
def commShowCommand (cmds : CmdMem) (descs : CmdDescs) :
    List (Option Addr) → Option (List UInt8)
  | [] => some []
  | none :: slots => commShowCommand cmds descs slots
  | some a :: slots =>
    match (cmds a).live with
    | none => commShowCommand cmds descs slots
    | some name =>
      ((cmds a).helpLine name (descs a)).bind fun line =>
        (commShowCommand cmds descs slots).map (line ++ ·)

/-- `SOCK_CMD_ECHO`. -/
def sockCmdEcho : Int := 1

/-- `do_cmd_echo`: what it prints, `none` where `argv[1]` is no string. -/
def doCmdEcho (d : CommData) : Option (List UInt8) :=
  (d.argStr 1).map fun ps => [lineFeed] ++ ps ++ [lineFeed]

/-- `sock_cmd_handler`: what it prints, and the data afterwards.  For the other ids it
tests a result that was never set. -/
def sockCmdHandlerOut (call : HandlerCall) (cdatas : Addr → CommData) :
    Option (List UInt8 × (Addr → CommData)) :=
  match call.cdata with
  | none => none
  | some p =>
    let out :=
      if call.id = sockCmdEcho then doCmdEcho (cdatas p)
      else if call.id = 2 ∨ call.id = 3 ∨ call.id = 4 then some [] else none
    out.bind fun out =>
      (commDataInit (some (cdatas p))).2.map fun d =>
        (out, fun q => if q = p then d else cdatas q)

/-- What the handlers of the modules print, and what they do to the data. -/
abbrev ModuleOutputs :=
  HandlerCall → (Addr → CommData) → Option (List UInt8 × (Addr → CommData))

/-- What the handlers do, without their output. -/
def ModuleOutputs.silent (modules : ModuleOutputs) : ModuleHandlers :=
  fun call cdatas => (modules call cdatas).map Prod.snd

/-- `handler(id, cdata, priv)` with its output. -/
def Box.handleOut (modules : ModuleOutputs) (descs : CmdDescs) (b : Box) (call : HandlerCall) :
    Option (List UInt8 × Box) :=
  if call.handler = cmdQuitHandler then some ([], { b with quit := true })
  else if call.handler = cmdHelpHandler then
    (commShowCommand b.state.cmds descs b.state.tbl.slots).map fun out => (out, b)
  else (modules call b.state.cdatas).map fun r =>
    (r.1, { b with state := { b.state with cdatas := r.2 } })

/-- One pass of the loop on a line, with its output. -/
def Box.runLineOut (modules : ModuleOutputs) (descs : CmdDescs) (b : Box) (l : Line) :
    Option (List UInt8 × Box) :=
  let data := commRunLine b.data l
  match commExecCommand b.state.cmds b.state.tbl data b.state.cdatas with
  | none => none
  | some res =>
    let b := { b with data := data, state := { b.state with cdatas := res.cdatas } }
    match res.call with
    | none => some (commShowScreen, b)
    | some call => (b.handleOut modules descs call).map fun r => (commShowScreen ++ r.1, r.2)

/-- The loop with its output. -/
def commLoopOut (modules : ModuleOutputs) (descs : CmdDescs) :
    List Line → Box → Option (List UInt8 × Box)
  | [], _ => none
  | l :: session, b =>
    match b.runLineOut modules descs l with
    | none => none
    | some (out, b) =>
      if b.quit then some (out, b)
      else (commLoopOut modules descs session b).map fun r => (out ++ r.1, r.2)

/-- `comm_main` with what it prints where the registrations succeed. -/
def commMainOut (usb sock : Bool) (modules : ModuleOutputs) (descs : CmdDescs) (tbl : CmdTable)
    (session : List Line) : Option (List UInt8 × Int × CmdState) :=
  (commLoopOut modules descs session (Box.start (commStartUp usb sock tbl).2)).map fun r =>
    (commClearScreen ++ r.1 ++ commClearScreen ++ seeYouAgain, commShutDown usb sock r.2.state)

/-- With the output left out a call of a handler is one of the shell's. -/
theorem Box.handleOut_handle {modules : ModuleOutputs} {descs : CmdDescs} {b b' : Box}
    {call : HandlerCall} {out : List UInt8} (h : b.handleOut modules descs call = some (out, b')) :
    b.handle modules.silent call = some b' := by
  unfold Box.handleOut at h
  unfold Box.handle
  split at h
  · next hquit =>
      cases h
      exact if_pos hquit
  next hother =>
  rw [if_neg hother]
  split at h
  · next hhelp =>
      obtain ⟨text, -, hpair⟩ := Option.map_eq_some_iff.mp h
      cases hpair
      exact if_pos hhelp
  · next hmodule =>
      obtain ⟨r, hr, hpair⟩ := Option.map_eq_some_iff.mp h
      cases hpair
      rw [if_neg hmodule, ModuleOutputs.silent, hr]
      rfl

/-- With the output left out a line is run as the shell runs it. -/
theorem Box.runLineOut_runLine {modules : ModuleOutputs} {descs : CmdDescs} {b b' : Box}
    {l : Line} {out : List UInt8} (h : b.runLineOut modules descs l = some (out, b')) :
    b.runLine modules.silent l = some b' := by
  simp only [Box.runLineOut] at h
  simp only [Box.runLine]
  cases hexec : commExecCommand b.state.cmds b.state.tbl (commRunLine b.data l)
      b.state.cdatas with
  | none =>
      rw [hexec] at h
      cases h
  | some res =>
      rw [hexec] at h
      cases hcall : res.call with
      | none =>
          simp only [hcall] at h ⊢
          cases h
          rfl
      | some call =>
          simp only [hcall] at h ⊢
          obtain ⟨r, hr, hpair⟩ := Option.map_eq_some_iff.mp h
          cases hpair
          exact Box.handleOut_handle hr

/-- With the output left out the loop is the shell's. -/
theorem commLoopOut_commLoop {modules : ModuleOutputs} {descs : CmdDescs} {session : List Line}
    {b b' : Box} {out : List UInt8} (h : commLoopOut modules descs session b = some (out, b')) :
    commLoop modules.silent session b = some b' := by
  induction session generalizing b out with
  | nil => cases h
  | cons l session ih =>
      simp only [commLoopOut] at h
      split at h
      · cases h
      next out' mid hmid =>
      rw [commLoop, Box.runLineOut_runLine hmid]
      split at h
      · next hquit =>
          cases h
          exact if_pos hquit
      · next hquit =>
          obtain ⟨r, hr, hpair⟩ := Option.map_eq_some_iff.mp h
          cases hpair
          exact (if_neg hquit).trans (ih hr)

/-- The output changes nothing. -/
theorem commMainOut_commMain {usb sock : Bool} {modules : ModuleOutputs} {descs : CmdDescs}
    {tbl : CmdTable} {session : List Line} {out : List UInt8} {r : Int × CmdState}
    (h : commMainOut usb sock modules descs tbl session = some (out, r)) :
    commMain usb sock modules.silent tbl session = some r := by
  obtain ⟨⟨out', b⟩, hloop, hpair⟩ := Option.map_eq_some_iff.mp h
  cases hpair
  have hret := commStartUp_ret usb sock
  rw [← commStartUp_prior usb sock tbl] at hret
  simp only [commMain, hret, ne_eq, not_true_eq_false, if_false, commLoopOut_commLoop hloop]

/-- What a line of these words prints, in a program without the usb module. -/
def shellReply (cmds : CmdMem) (descs : CmdDescs) (slots : List (Option Addr))
    (ts : List (List UInt8)) : List UInt8 :=
  match shellCall cmds slots ts with
  | none => []
  | some call =>
    if call.handler = cmdQuitHandler then []
    else if call.handler = cmdHelpHandler then (commShowCommand cmds descs slots).getD []
    else if call.id = sockCmdEcho then [lineFeed] ++ ts.getD 1 [] ++ [lineFeed]
    else []

/-- What a session prints: a prompt and a reply for each line. -/
def shellScreen (cmds : CmdMem) (descs : CmdDescs) (slots : List (Option Addr)) :
    List (List (List UInt8)) → List UInt8
  | [] => []
  | ts :: rest =>
    commShowScreen ++ shellReply cmds descs slots ts ++
      if quits cmds slots ts then [] else shellScreen cmds descs slots rest

/-- Where the groups have names, the help is printed. -/
theorem commShowCommand_isSome {cmds : CmdMem} {slots : List (Option Addr)}
    (hgroup : ∀ a, some a ∈ slots → (cmds a).Grouped) (descs : CmdDescs) :
    (commShowCommand cmds descs slots).isSome = true := by
  induction slots with
  | nil => rfl
  | cons o slots ih =>
      have hrest := ih fun a ha => hgroup a (List.mem_cons_of_mem o ha)
      cases o with
      | none => exact hrest
      | some a =>
          rw [commShowCommand]
          split
          · exact hrest
          next name _ =>
          have hline : ((cmds a).helpLine name (descs a)).isSome = true := by
            unfold CommCmd.helpLine
            rcases hgroup a List.mem_cons_self with hone | ⟨hzero, hnamed⟩
            · rw [if_neg (by omega)]
              rfl
            · rw [if_pos hzero, Option.isSome_map]
              exact Option.isSome_iff_ne_none.mpr hnamed
          obtain ⟨line, hline⟩ := Option.isSome_iff_exists.mp hline
          rw [hline, Option.bind_some, Option.isSome_map]
          exact hrest

/-- What a call of a program without the usb module is. -/
def HandlerCall.Plain (call : HandlerCall) (ts : List (List UInt8)) : Prop :=
  call.handler = cmdQuitHandler ∨ call.handler = cmdHelpHandler ∨
    ∃ p, call.cdata = some p ∧ (call.id = 2 ∨ call.id = 3 ∨ call.id = 4 ∨
      call.id = sockCmdEcho ∧ ts.head? = some (lit "echo").bytes)

/-- Without the USB module every call is plain. -/
theorem started_plain {sock : Bool} {ts : List (List UInt8)} {call : HandlerCall}
    (h : shellCall (started false sock).cmds (started false sock).tbl.slots ts = some call) :
    call.Plain ts := by
  have hall : ((started false sock).tbl.slots.all fun o => o.all fun a =>
      let c := (started false sock).cmds a
      decide (c.handler = some cmdQuitHandler ∨ c.handler = some cmdHelpHandler ∨
        c.cdata = some cdataSock ∧ (c.id = 2 ∨ c.id = 3 ∨ c.id = 4 ∨
          c.id = sockCmdEcho ∧ c.nogroup = 1 ∧ c.live = some (lit "echo")))) = true := by
    cases sock <;> decide +kernel
  unfold shellCall at h
  split at h
  · cases h
  next hne =>
  obtain ⟨a, hshell, hcall⟩ := Option.bind_eq_some_iff.mp h
  obtain ⟨handler, hhandler, rfl⟩ := Option.map_eq_some_iff.mp hcall
  rcases of_decide_eq_true (List.all_eq_true.mp hall (some a) (shellCmd_mem hshell)) with
    hquit | hhelp | ⟨hdata, hid⟩
  · rw [hhandler, Option.some.injEq] at hquit
    exact Or.inl hquit
  · rw [hhandler, Option.some.injEq] at hhelp
    exact Or.inr (Or.inl hhelp)
  · refine Or.inr (Or.inr ⟨cdataSock, hdata, ?_⟩)
    rcases hid with hid | hid | hid | ⟨hid, hone, hname⟩
    · exact Or.inl hid
    · exact Or.inr (Or.inl hid)
    · exact Or.inr (Or.inr (Or.inl hid))
    · refine Or.inr (Or.inr (Or.inr ⟨hid, ?_⟩))
      have hans := shellCmd_answers hshell
      rw [CommCmd.answers, if_pos hone, hname] at hans
      have hword : some (lit "echo").bytes = ts[0]? := by simpa using hans
      rw [List.head?_eq_getElem?, hword]

section Screen

variable {cmds : CmdMem} {tbl : CmdTable} {descs : CmdDescs}

/-- The socket commands print the second word or nothing. -/
theorem sockCmdHandlerOut_words {call : HandlerCall} {cdatas : Addr → CommData} {p : Addr}
    {ts : List (List UInt8)} (hdata : call.cdata = some p) (hargs : ArgsAt (cdatas p) 0 ts)
    (hnul : ∀ t ∈ ts, nul ∉ t) (hecho : ts ≠ [(lit "echo").bytes])
    (hid : call.id = 2 ∨ call.id = 3 ∨ call.id = 4 ∨
      call.id = sockCmdEcho ∧ ts.head? = some (lit "echo").bytes) :
    ∃ after, sockCmdHandlerOut call cdatas = some
      (if call.id = sockCmdEcho then [lineFeed] ++ ts.getD 1 [] ++ [lineFeed] else [], after) := by
  unfold sockCmdHandlerOut
  rw [hdata]
  by_cases hone : call.id = sockCmdEcho
  · have hhead : ts.head? = some (lit "echo").bytes := by
      rcases hid with hid | hid | hid | ⟨-, hhead⟩
      · exact absurd (hone.symm.trans hid) (by decide)
      · exact absurd (hone.symm.trans hid) (by decide)
      · exact absurd (hone.symm.trans hid) (by decide)
      · exact hhead
    match ts, hhead, hecho, hargs, hnul with
    | [_], rfl, hecho, _, _ => exact absurd rfl hecho
    | t :: u :: ts, _, _, hargs, hnul =>
        have hsecond : (cdatas p).argStr 1 = some u :=
          hargs.argStr (j := 1) (by simp) (hnul u (by simp))
        simp only [hone, if_true, doCmdEcho, hsecond]
        exact ⟨_, rfl⟩
  · have hother : call.id = 2 ∨ call.id = 3 ∨ call.id = 4 := by
      rcases hid with hid | hid | hid | ⟨hid, -⟩
      · exact Or.inl hid
      · exact Or.inr (Or.inl hid)
      · exact Or.inr (Or.inr hid)
      · exact absurd hid hone
    simp only [hone, hother, if_false, if_true]
    exact ⟨_, rfl⟩

/-- The reply to a line. -/
theorem Box.Ready.runLineOut {b : Box} (hb : b.Ready cmds tbl)
    (hgroup : ∀ a, some a ∈ tbl.slots → (cmds a).Grouped) {l : Line}
    (hl : l.Shell cmds tbl.slots) (hecho : l.tokens ≠ [(lit "echo").bytes])
    (hplain : ∀ call, shellCall cmds tbl.slots l.tokens = some call → call.Plain l.tokens) :
    ∃ b', b.runLineOut sockCmdHandlerOut descs l =
        some (commShowScreen ++ shellReply cmds descs tbl.slots l.tokens, b') ∧
      b'.Ready cmds tbl ∧ (b.quit = false → b'.quit = quits cmds tbl.slots l.tokens) := by
  obtain ⟨hargc, hargs⟩ := argsAt_commRunLine hb.size hl.fits
  have hnul : ∀ t ∈ l.tokens, nul ∉ t :=
    fun t ht => nul_notMem_of_tokens (l.nul_notMem_text hl.fits.2) ht
  obtain ⟨res, hres, hcall, hcopied⟩ := commExecCommand_shell hargc hargs hnul hgroup hl.second
    b.state.cdatas
  have hsize : (commRunLine b.data l).tmpsize = commTempBufSize := by
    rw [commRunLine_tmpsize, hb.size]
  simp only [Box.runLineOut, hb.cmds, hb.tbl, hres, hcall, quits, shellReply]
  cases hshell : shellCall cmds tbl.slots l.tokens with
  | none =>
      rw [List.append_nil]
      exact ⟨_, rfl, ⟨hsize, rfl, rfl⟩, fun hquit => hquit⟩
  | some call =>
      simp only [Option.any_some, Box.handleOut]
      by_cases hquit : call.handler = cmdQuitHandler
      · simp only [hquit, if_true, decide_true, Option.map_some]
        exact ⟨_, rfl, ⟨hsize, rfl, rfl⟩, fun _ => rfl⟩
      by_cases hhelp : call.handler = cmdHelpHandler
      · obtain ⟨text, htext⟩ := Option.isSome_iff_exists.mp (commShowCommand_isSome hgroup descs)
        rw [if_neg hquit, if_neg hquit, if_pos hhelp, if_pos hhelp, htext, decide_eq_false hquit,
          Option.map_some, Option.map_some, Option.getD_some]
        exact ⟨_, rfl, ⟨hsize, rfl, rfl⟩, fun hquit => hquit⟩
      have hplain := (hplain call hshell).resolve_left hquit
      obtain ⟨p, hdata, hid⟩ := hplain.resolve_left hhelp
      have hcopy : res.cdatas p = commRunLine b.data l := hcopied call p (hcall.trans hshell) hdata
      rw [← hcopy] at hargs
      obtain ⟨after, hout⟩ := sockCmdHandlerOut_words hdata hargs hnul hecho hid
      simp only [hquit, hhelp, if_false, decide_false, hout, Option.map_some]
      exact ⟨_, rfl, ⟨hsize, rfl, rfl⟩, fun hquit => hquit⟩

/-- The screen of a session that ends. -/
theorem commLoopOut_screen {b : Box} (hb : b.Ready cmds tbl) (hquit : b.quit = false)
    (hgroup : ∀ a, some a ∈ tbl.slots → (cmds a).Grouped)
    (hplain : ∀ ts call, shellCall cmds tbl.slots ts = some call → call.Plain ts)
    {session : List Line} (hsession : ∀ l ∈ session, l.Shell cmds tbl.slots)
    (hecho : ∀ l ∈ session, l.tokens ≠ [(lit "echo").bytes])
    (hends : ∃ l ∈ session, quits cmds tbl.slots l.tokens = true) :
    ∃ b', commLoopOut sockCmdHandlerOut descs session b =
      some (shellScreen cmds descs tbl.slots (session.map Line.tokens), b') := by
  induction session generalizing b with
  | nil =>
      obtain ⟨l, hl, -⟩ := hends
      cases hl
  | cons l session ih =>
      obtain ⟨b', hrun, hready, hquits⟩ := hb.runLineOut hgroup (hsession l List.mem_cons_self)
        (hecho l List.mem_cons_self) (hplain l.tokens)
      have hquits := hquits hquit
      rw [commLoopOut, hrun, List.map_cons, shellScreen]
      simp only [hquits]
      by_cases hend : quits cmds tbl.slots l.tokens = true
      · rw [if_pos hend, if_pos hend, List.append_nil]
        exact ⟨b', rfl⟩
      · obtain ⟨b'', hloop⟩ := ih hready (hquits.trans (Bool.eq_false_iff.mpr hend))
          (fun l' hl' => hsession l' (List.mem_cons_of_mem l hl'))
          (fun l' hl' => hecho l' (List.mem_cons_of_mem l hl')) (by
            obtain ⟨l', hl', hend'⟩ := hends
            rcases List.mem_cons.mp hl' with rfl | hl'
            · exact absurd hend' hend
            · exact ⟨l', hl', hend'⟩)
        rw [if_neg hend, if_neg hend, hloop]
        exact ⟨b'', rfl⟩

end Screen

/-- **The screen.**  In a program without the usb module, on lines that fit the buffer, one of
which begins with `quit` or `exit` and none of which is `echo` alone, `comm_main` returns
0 and prints for each line up to the end a prompt and the reply to its words. -/
theorem commMainOut_screen (sock : Bool) (descs : CmdDescs) (tbl : CmdTable)
    {session : List Line}
    (hsession : ∀ l ∈ session, l.Fits ∧ l.tokens ≠ [(lit "echo").bytes])
    (hends : ∃ l ∈ session, l.tokens.head? = some (lit "quit").bytes ∨
      l.tokens.head? = some (lit "exit").bytes) :
    ∃ s, commMainOut false sock sockCmdHandlerOut descs tbl session = some
      (commClearScreen ++
          shellScreen (started false sock).cmds descs (started false sock).tbl.slots
            (session.map Line.tokens) ++
        commClearScreen ++ seeYouAgain, 0, s) := by
  have hshell := fun l hl => started_shell false sock (hsession l hl).1
    (fun husb => absurd husb Bool.false_ne_true)
  have hends' : ∃ l ∈ session, quits (started false sock).cmds (started false sock).tbl.slots
      l.tokens = true := by
    obtain ⟨l, hl, hword⟩ := hends
    exact ⟨l, hl, (started_quits false sock l.tokens).mpr hword⟩
  have hready : (Box.start (started false sock)).Ready (started false sock).cmds
      (started false sock).tbl := ⟨rfl, rfl, rfl⟩
  obtain ⟨b, hloop⟩ : ∃ b, commLoopOut sockCmdHandlerOut descs session
      (Box.start (started false sock)) = some (shellScreen (started false sock).cmds descs
        (started false sock).tbl.slots (session.map Line.tokens), b) :=
    commLoopOut_screen hready rfl (fun a ha => started_named false sock ha)
      (fun ts call h => started_plain h) hshell (fun l hl => (hsession l hl).2) hends'
  have hmain : commMainOut false sock sockCmdHandlerOut descs tbl session = some
      (commClearScreen ++
          shellScreen (started false sock).cmds descs (started false sock).tbl.slots
            (session.map Line.tokens) ++
        commClearScreen ++ seeYouAgain, commShutDown false sock b.state) := by
    rw [commMainOut, commStartUp_prior false sock tbl]
    change (commLoopOut _ descs session (Box.start (started false sock))).map _ = _
    rw [hloop, Option.map_some]
  obtain ⟨hzero, -⟩ := commMain_leaves_exit (commMainOut_commMain hmain)
  refine ⟨(commShutDown false sock b.state).2, ?_⟩
  rw [hmain]
  exact congrArg (fun r : Int × CmdState => some (_, r)) (Prod.ext hzero rfl)

/-- `echo` with a word, an unknown command, and `quit`. -/
theorem commMainOut_screen_hallo :
    ∃ s, commMainOut false true sockCmdHandlerOut (fun _ => none) commInitCommand
        [Line.lit "echo hallo", Line.lit "bye", Line.lit "quit"] =
      some (asciiBytes "\nCMD>\nhallo\nCMD>CMD>\nSee you again.\n", 0, s) := by
  have hsession : ∀ l ∈ [Line.lit "echo hallo", Line.lit "bye", Line.lit "quit"],
      l.Fits ∧ l.tokens ≠ [(lit "echo").bytes] := by decide +kernel
  obtain ⟨s, hs⟩ := commMainOut_screen true (fun _ => none) commInitCommand hsession
    ⟨Line.lit "quit", by simp, Or.inl (by decide +kernel)⟩
  refine ⟨s, hs.trans ?_⟩
  have hscreen : commClearScreen ++
        shellScreen (started false true).cmds (fun _ => none) (started false true).tbl.slots
          ([Line.lit "echo hallo", Line.lit "bye", Line.lit "quit"].map Line.tokens) ++
      commClearScreen ++ seeYouAgain =
      asciiBytes "\nCMD>\nhallo\nCMD>CMD>\nSee you again.\n" := by decide +kernel
  rw [hscreen]

end Comm

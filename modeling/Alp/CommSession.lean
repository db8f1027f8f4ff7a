import Alp.CommFirstMatch
import Alp.CommMain

/-!
# A session as it reads

What a line does can be read off its words: the first command that answers to them is
run on them, and `quit` and `exit` end the session (`shellSession`).  The command loop
does this with one `comm_data` for all lines, whose old contents stay behind the new
ones, with pointers into it, and with a table of pointers.

`commTrace_shell` says that nothing of it shows: on lines that fit the buffer the loop
runs, line by line, what the words say.  The exception is known from
`nextLineFixed_iff`, a line of one word that is looked up by two.  In the table of the
program that is the line `usb` only (`commMain_shell`).
-/

set_option autoImplicit false

namespace Comm

open CString

/-- The command is the one these words name. -/
def CommCmd.answers (c : CommCmd) (ts : List (List UInt8)) : Bool :=
  c.live.isSome &&
    if c.nogroup = 1 then c.live.map CStr.bytes = ts[0]?
    else c.group.map CStr.bytes = ts[0]? && c.live.map CStr.bytes = ts[1]?

/-- The first command that answers. -/
def shellCmd (cmds : CmdMem) : List (Option Addr) → List (List UInt8) → Option Addr
  | [], _ => none
  | none :: slots, ts => shellCmd cmds slots ts
  | some a :: slots, ts => if (cmds a).answers ts then some a else shellCmd cmds slots ts

/-- The call for a line of these words. -/
def shellCall (cmds : CmdMem) (slots : List (Option Addr)) (ts : List (List UInt8)) :
    Option HandlerCall :=
  if ts = [] then none else (shellCmd cmds slots ts).bind fun a => (cmds a).call

/-- The words end the session. -/
def quits (cmds : CmdMem) (slots : List (Option Addr)) (ts : List (List UInt8)) : Bool :=
  (shellCall cmds slots ts).any fun call => call.handler = cmdQuitHandler

/-- What a session runs, line by line, up to the end of the session. -/
def shellSession (cmds : CmdMem) (slots : List (Option Addr)) :
    List (List (List UInt8)) → List Observed
  | [] => []
  | ts :: rest =>
    ⟨shellCall cmds slots ts, ts.map some⟩ ::
      if quits cmds slots ts then [] else shellSession cmds slots rest

/-- What the command loop runs, line by line. -/
def commTrace (modules : ModuleHandlers) : List Line → Box → List (Option Observed)
  | [], _ => []
  | l :: session, b =>
    commObserve b.state.cmds b.state.tbl b.state.cdatas (commRunLine b.data l) ::
      match b.runLine modules l with
      | none => []
      | some b => if b.quit then [] else commTrace modules session b

/-- A command without a group, or with a name for it. -/
def CommCmd.Grouped (c : CommCmd) : Prop :=
  c.nogroup = 1 ∨ c.nogroup = 0 ∧ c.group ≠ none

/-- Comparing the first argument compares the first word. -/
theorem argsAt_head {d : CommData} {t : List UInt8} {ts : List (List UInt8)}
    (h : ArgsAt d 0 (t :: ts)) (hnul : nul ∉ t) (s : Option CStr) :
    d.strcmpArg 0 s = s.map fun s => decide (t = s.bytes) :=
  h.strcmpArg (j := 0) (Nat.succ_pos _) hnul s

/-- Comparing the second argument compares the second word. -/
theorem argsAt_second {d : CommData} {t u : List UInt8} {ts : List (List UInt8)}
    (h : ArgsAt d 0 (t :: u :: ts)) (hnul : nul ∉ u) (s : Option CStr) :
    d.strcmpArg 1 s = s.map fun s => decide (u = s.bytes) :=
  h.strcmpArg (j := 1) (by simp) hnul s

/-- The test of a command is whether it answers, if it does not want a second word that
is not there. -/
theorem matchCmd_answers {d : CommData} {t : List UInt8} {ts : List (List UInt8)}
    (hargs : ArgsAt d 0 (t :: ts)) (hnul : ∀ u ∈ t :: ts, nul ∉ u) {c : CommCmd}
    (hgroup : c.Grouped) {name : CStr} (hlive : c.live = some name)
    (hsecond : ts = [] → ¬ c.TakesSecond t) :
    (d.matchCmd c name).2 = some (c.answers (t :: ts)) := by
  have hfirst := argsAt_head hargs (hnul t List.mem_cons_self)
  rcases hgroup with hone | ⟨hzero, hnamed⟩
  · simp [CommData.matchCmd, CommCmd.answers, hone, hfirst, hlive, eq_comm]
  obtain ⟨g, hg⟩ := Option.ne_none_iff_exists'.mp hnamed
  by_cases hcmp : t = g.bytes
  · cases ts with
    | nil =>
        refine absurd ⟨by simp [hlive], by omega, fun _ => ?_⟩ (hsecond rfl)
        rw [hg, hcmp]
        rfl
    | cons u ts =>
        have hnext := argsAt_second hargs (hnul u (by simp))
        simp [CommData.matchCmd, CommCmd.answers, hzero, hfirst, hnext, hlive, hg, hcmp, eq_comm]
  · simp [CommData.matchCmd, CommCmd.answers, hzero, hfirst, hlive, hg, hcmp, Ne.symm hcmp]

/-- A search ends at the first command that answers. -/
theorem commExecScan_shell {cmds : CmdMem} {d : CommData} {t : List UInt8}
    {ts : List (List UInt8)} (hargs : ArgsAt d 0 (t :: ts)) (hnul : ∀ u ∈ t :: ts, nul ∉ u)
    {slots : List (Option Addr)} (hgroup : ∀ a, some a ∈ slots → (cmds a).Grouped)
    (hsecond : ts = [] → ¬ WantsSecondWord cmds t slots) (i : Nat) :
    (∃ k a, (commExecScan cmds d i slots).result = .found k a ∧
        shellCmd cmds slots (t :: ts) = some a) ∨
      (commExecScan cmds d i slots).result = .noMatch ∧
        shellCmd cmds slots (t :: ts) = none := by
  induction slots generalizing i with
  | nil => exact Or.inr ⟨rfl, rfl⟩
  | cons o slots ih =>
      have hrest := fun a ha => hgroup a (List.mem_cons_of_mem o ha)
      have hwants : ts = [] → (∀ b, o = some b → ¬ (cmds b).Ends t) →
          ¬ WantsSecondWord cmds t slots := by
        intro hts hends hwant
        exact hsecond hts (wantsSecondWord_cons.mpr (Or.inr ⟨hends, hwant⟩))
      cases o with
      | none => exact ih hrest (fun hts => hwants hts fun _ hb => by cases hb) (i + 1)
      | some a =>
          have hone := hgroup a List.mem_cons_self
          cases hlive : (cmds a).live with
          | none =>
              have hdead : (cmds a).answers (t :: ts) = false := by simp [CommCmd.answers, hlive]
              have hends : ¬ (cmds a).Ends t := by simp [CommCmd.Ends, hlive]
              simp only [commExecScan, hlive, shellCmd, hdead]
              refine ih hrest (fun hts => hwants hts fun b hb => ?_) (i + 1)
              cases hb
              exact hends
          | some name =>
              have hnot : ts = [] → ¬ (cmds a).TakesSecond t := fun hts htake =>
                hsecond hts (wantsSecondWord_cons.mpr (Or.inl ⟨a, rfl, htake⟩))
              have htest := matchCmd_answers hargs hnul hone hlive hnot
              simp only [commExecScan, hlive, shellCmd, htest]
              cases hans : (cmds a).answers (t :: ts) with
              | true => exact Or.inl ⟨i, a, rfl, rfl⟩
              | false =>
                  refine ih hrest (fun hts => hwants hts fun b hb => ?_) (i + 1)
                  cases hb
                  subst hts
                  rintro (⟨hng, hname⟩ | ⟨-, hng, hnone⟩)
                  · rw [hlive] at hname
                    simp [CommCmd.answers, hlive, hng, hname] at hans
                  · rcases hone with hng' | ⟨-, hsome⟩
                    · omega
                    · exact hsome hnone

/-- **One line.**  Where the data hold the words, the first command that answers to them is
called on them. -/
theorem commExecCommand_shell {cmds : CmdMem} {tbl : CmdTable} {d : CommData}
    {ts : List (List UInt8)} (hargc : d.argc = ts.length) (hargs : ArgsAt d 0 ts)
    (hnul : ∀ u ∈ ts, nul ∉ u) (hgroup : ∀ a, some a ∈ tbl.slots → (cmds a).Grouped)
    (hsecond : ∀ t, ts = [t] → ¬ WantsSecondWord cmds t tbl.slots) (cdatas : Addr → CommData) :
    ∃ res, commExecCommand cmds tbl d cdatas = some res ∧
      res.call = shellCall cmds tbl.slots ts ∧
      ∀ call p, res.call = some call → call.cdata = some p → res.cdatas p = d := by
  cases ts with
  | nil => exact ⟨⟨-1, none, cdatas⟩, if_pos hargc, rfl, fun _ _ hcall => by cases hcall⟩
  | cons t ts =>
      have hpos : d.argc ≠ 0 := by
        rw [hargc]
        exact Nat.succ_ne_zero _
      have hcall : shellCall cmds tbl.slots (t :: ts) =
          (shellCmd cmds tbl.slots (t :: ts)).bind fun a => (cmds a).call :=
        if_neg (List.cons_ne_nil t ts)
      unfold commExecCommand
      rw [if_neg hpos, hcall]
      rcases commExecScan_shell hargs hnul hgroup (fun hts => hsecond t (by rw [hts])) 0 with
        ⟨k, a, hscan, hshell⟩ | ⟨hscan, hshell⟩
      · rw [hscan, hshell]
        refine ⟨_, rfl, rfl, fun call p hres hdata => ?_⟩
        obtain ⟨handler, -, rfl⟩ := Option.map_eq_some_iff.mp hres
        have hcopy : (cmds a).cdata = some p := hdata
        simp [CommCmd.copyData, hcopy]
      · rw [hscan, hshell]
        exact ⟨_, rfl, rfl, fun _ _ hcall => by cases hcall⟩

/-- The data of the box are set up, and the commands are those looked up. -/
structure Box.Ready (cmds : CmdMem) (tbl : CmdTable) (b : Box) : Prop where
  size : b.data.tmpsize = commTempBufSize
  cmds : b.state.cmds = cmds
  tbl : b.state.tbl = tbl

/-- A line that is run on its own words. -/
structure Line.Shell (cmds : CmdMem) (slots : List (Option Addr)) (l : Line) : Prop where
  fits : l.Fits
  second : ∀ t, l.tokens = [t] → ¬ WantsSecondWord cmds t slots

section Loop

variable {cmds : CmdMem} {tbl : CmdTable} {modules : ModuleHandlers}

/-- One pass of the loop. -/
theorem Box.Ready.runLine {b : Box} (hb : b.Ready cmds tbl)
    (hgroup : ∀ a, some a ∈ tbl.slots → (cmds a).Grouped)
    (hreturn : ∀ call cdatas, (modules call cdatas).isSome = true) {l : Line}
    (hl : l.Shell cmds tbl.slots) :
    commObserve b.state.cmds b.state.tbl b.state.cdatas (commRunLine b.data l) =
        some ⟨shellCall cmds tbl.slots l.tokens, l.tokens.map some⟩ ∧
      ∃ b', b.runLine modules l = some b' ∧ b'.Ready cmds tbl ∧
        (b.quit = false → b'.quit = quits cmds tbl.slots l.tokens) := by
  obtain ⟨hargc, hargs⟩ := argsAt_commRunLine hb.size hl.fits
  have hnul : ∀ t ∈ l.tokens, nul ∉ t :=
    fun t ht => nul_notMem_of_tokens (l.nul_notMem_text hl.fits.2) ht
  obtain ⟨res, hres, hcall, -⟩ := commExecCommand_shell hargc hargs hnul hgroup hl.second
    b.state.cdatas
  have hstrs : (List.range l.tokens.length).map (commRunLine b.data l).argStr =
      l.tokens.map some := by
    apply List.ext_getElem
    · simp
    · intro j hj hj'
      have hlt : j < l.tokens.length := by simpa using hj
      simp [hargs.argStr hlt (hnul _ (List.getElem_mem hlt))]
  constructor
  · rw [commObserve, hb.cmds, hb.tbl, hres, Option.map_some, hargc, hstrs, hcall]
  · have hsize : (commRunLine b.data l).tmpsize = commTempBufSize := by
      rw [commRunLine_tmpsize, hb.size]
    simp only [Box.runLine, hb.cmds, hb.tbl, hres, hcall, quits]
    cases hshell : shellCall cmds tbl.slots l.tokens with
    | none => exact ⟨_, rfl, ⟨hsize, rfl, rfl⟩, fun hquit => hquit⟩
    | some call =>
        simp only [Box.handle, Option.any_some]
        split
        · next hquit => exact ⟨_, rfl, ⟨hsize, rfl, rfl⟩, fun _ => (decide_eq_true hquit).symm⟩
        next hother =>
        rw [decide_eq_false hother]
        split
        · exact ⟨_, rfl, ⟨hsize, rfl, rfl⟩, fun hquit => hquit⟩
        · obtain ⟨cdatas, hcdatas⟩ := Option.isSome_iff_exists.mp (hreturn call res.cdatas)
          rw [hcdatas]
          exact ⟨_, rfl, ⟨hsize, rfl, rfl⟩, fun hquit => hquit⟩

/-- **A session.**  The loop runs, line by line, what the words of the lines say, and it
ends where they say so. -/
theorem commTrace_shell {b : Box} (hb : b.Ready cmds tbl) (hquit : b.quit = false)
    (hgroup : ∀ a, some a ∈ tbl.slots → (cmds a).Grouped)
    (hreturn : ∀ call cdatas, (modules call cdatas).isSome = true) {session : List Line}
    (hsession : ∀ l ∈ session, l.Shell cmds tbl.slots) :
    commTrace modules session b =
        (shellSession cmds tbl.slots (session.map Line.tokens)).map some ∧
      ((commLoop modules session b).isSome = true ↔
        ∃ l ∈ session, quits cmds tbl.slots l.tokens = true) := by
  induction session generalizing b with
  | nil => simp [commTrace, shellSession, commLoop]
  | cons l session ih =>
      obtain ⟨hobserve, b', hrun, hready, hends⟩ :=
        hb.runLine hgroup hreturn (hsession l List.mem_cons_self)
      have hends := hends hquit
      rw [commTrace, hobserve, commLoop, hrun, List.map_cons, shellSession]
      simp only [hends]
      by_cases hend : quits cmds tbl.slots l.tokens = true
      · simp only [hend, if_true, List.map_cons, List.map_nil, Option.isSome_some, true_iff]
        exact ⟨trivial, l, List.mem_cons_self, hend⟩
      · have hrest := ih hready (hends.trans (Bool.eq_false_iff.mpr hend))
          fun l' hl' => hsession l' (List.mem_cons_of_mem l hl')
        rw [if_neg hend, if_neg hend, if_neg hend, List.map_cons, hrest.1, hrest.2]
        simp [hend]

end Loop

/-- The commands and the table after start-up. -/
def started (usb sock : Bool) : CmdState :=
  (commStartUp usb sock commInitCommand).2

/-- Every command is for one word, or for two of which the first is `usb`. -/
theorem started_grouped (usb sock : Bool) {a : Addr} (ha : some a ∈ (started usb sock).tbl.slots) :
    ((started usb sock).cmds a).nogroup = 1 ∨
      usb = true ∧ ((started usb sock).cmds a).nogroup = 0 ∧
        ((started usb sock).cmds a).group = some (lit "usb") := by
  have hall : ((started usb sock).tbl.slots.all fun o => o.all fun a =>
      decide (((started usb sock).cmds a).nogroup = 1 ∨
        usb = true ∧ ((started usb sock).cmds a).nogroup = 0 ∧
          ((started usb sock).cmds a).group = some (lit "usb"))) = true := by
    cases usb <;> cases sock <;> decide +kernel
  have hone := List.all_eq_true.mp hall (some a) ha
  exact of_decide_eq_true hone

/-- The command is named by one word and ends the session. -/
def CommCmd.EndsSession (c : CommCmd) (name : CStr) : Prop :=
  c.live = some name ∧ c.nogroup = 1 ∧ c.handler = some cmdQuitHandler

instance (c : CommCmd) (name : CStr) : Decidable (c.EndsSession name) :=
  inferInstanceAs (Decidable (_ ∧ _ ∧ _))

/-- `quit` and `exit` are in front, and no other command ends a session. -/
theorem started_slots (usb sock : Bool) :
    ((started usb sock).cmds cmdQuit).EndsSession (lit "quit") ∧
      ((started usb sock).cmds cmdExit).EndsSession (lit "exit") ∧
      ∃ slots, (started usb sock).tbl.slots = some cmdQuit :: some cmdExit :: slots ∧
        ∀ a, some a ∈ slots → ((started usb sock).cmds a).handler ≠ some cmdQuitHandler := by
  have hall : (((started usb sock).tbl.slots.drop 2).all fun o => o.all fun a =>
      decide (((started usb sock).cmds a).handler ≠ some cmdQuitHandler)) = true := by
    cases usb <;> cases sock <;> decide +kernel
  refine ⟨?_, ?_, (started usb sock).tbl.slots.drop 2, ?_, ?_⟩
  · cases usb <;> cases sock <;> decide +kernel
  · cases usb <;> cases sock <;> decide +kernel
  · cases usb <;> cases sock <;> decide +kernel
  · intro a ha
    exact of_decide_eq_true (List.all_eq_true.mp hall (some a) ha)

/-- A command that ends the session answers its own name. -/
theorem CommCmd.EndsSession.answers {c : CommCmd} {name : CStr} (h : c.EndsSession name)
    (t : List UInt8) (ts : List (List UInt8)) :
    c.answers (t :: ts) = decide (name.bytes = t) := by
  obtain ⟨hlive, hone, -⟩ := h
  simp [CommCmd.answers, hlive, hone]

/-- A command that ends the session calls the handler of `quit`. -/
theorem CommCmd.EndsSession.call {c : CommCmd} {name : CStr} (h : c.EndsSession name) :
    c.call.any (fun call => call.handler = cmdQuitHandler) = true := by
  obtain ⟨-, -, hhandler⟩ := h
  simp [CommCmd.call, hhandler]

/-- The command that answers is in the table. -/
theorem shellCmd_mem {cmds : CmdMem} {slots : List (Option Addr)} {ts : List (List UInt8)}
    {a : Addr} (h : shellCmd cmds slots ts = some a) : some a ∈ slots := by
  induction slots with
  | nil => cases h
  | cons o slots ih =>
      cases o with
      | none => exact List.mem_cons_of_mem _ (ih h)
      | some b =>
          rw [shellCmd] at h
          split at h
          · cases h
            exact List.mem_cons_self
          · exact List.mem_cons_of_mem _ (ih h)

/-- The command that answers matches the words. -/
theorem shellCmd_answers {cmds : CmdMem} {slots : List (Option Addr)} {ts : List (List UInt8)}
    {a : Addr} (h : shellCmd cmds slots ts = some a) : (cmds a).answers ts = true := by
  induction slots with
  | nil => cases h
  | cons o slots ih =>
      cases o with
      | none => exact ih h
      | some b =>
          rw [shellCmd] at h
          split at h
          · next hans =>
              cases h
              exact hans
          · exact ih h

/-- The lines that end a session: whatever stands behind their first word. -/
theorem started_quits (usb sock : Bool) (ts : List (List UInt8)) :
    quits (started usb sock).cmds (started usb sock).tbl.slots ts = true ↔
      ts.head? = some (lit "quit").bytes ∨ ts.head? = some (lit "exit").bytes := by
  obtain ⟨hquit, hexit, slots, hslots, hothers⟩ := started_slots usb sock
  cases ts with
  | nil => simp [quits, shellCall]
  | cons t ts =>
      rw [quits, shellCall, if_neg (List.cons_ne_nil t ts), hslots, shellCmd, shellCmd,
        hquit.answers, hexit.answers, List.head?_cons, Option.some.injEq, Option.some.injEq,
        eq_comm (a := t), eq_comm (a := t)]
      by_cases hq : (lit "quit").bytes = t
      · simp only [hq, decide_true, if_true, Option.bind_some, hquit.call, true_or]
      by_cases he : (lit "exit").bytes = t
      · simp only [hq, he, decide_false, decide_true, if_true, Bool.false_eq_true, if_false,
          Option.bind_some, hexit.call, or_true]
      · simp only [hq, he, decide_false, Bool.false_eq_true, if_false, or_false, iff_false]
        cases hshell : shellCmd (started usb sock).cmds slots (t :: ts) with
        | none => simp
        | some a =>
            have hne := hothers a (shellCmd_mem hshell)
            rw [Option.bind_some, CommCmd.call]
            cases hhandler : ((started usb sock).cmds a).handler with
            | none => simp
            | some handler =>
                rw [hhandler] at hne
                simpa using fun heq => hne (congrArg some heq)

/-- Every command of a started shell needs no group or has one. -/
theorem started_named (usb sock : Bool) {a : Addr} (ha : some a ∈ (started usb sock).tbl.slots) :
    ((started usb sock).cmds a).Grouped := by
  rcases started_grouped usb sock ha with hone | ⟨-, hzero, hname⟩
  · exact Or.inl hone
  · exact Or.inr ⟨hzero, by rw [hname]; exact Option.some_ne_none _⟩

/-- A line that fits is run on its own words, but for `usb` alone. -/
theorem started_shell (usb sock : Bool) {l : Line} (hfits : l.Fits)
    (hone : usb = true → l.tokens ≠ [(lit "usb").bytes]) :
    l.Shell (started usb sock).cmds (started usb sock).tbl.slots := by
  refine ⟨hfits, fun t ht hwant => ?_⟩
  obtain ⟨k, a, hslot, ⟨-, hne, htake⟩, -⟩ := hwant
  rcases started_grouped usb sock (List.mem_of_getElem? hslot) with hng | ⟨husb, hzero, hname⟩
  · exact hne hng
  · have hword := htake hzero
    rw [hname, Option.map_some, Option.some.injEq] at hword
    exact hone husb (by rw [ht, hword])

/-- **`comm_main`.**  With any modules whose handlers return, on lines that fit the buffer
and are not the word `usb` alone, the program runs line by line what the words say; it
returns, and returns 0, exactly where a line begins with `quit` or `exit`. -/
theorem commMain_shell {usb sock : Bool} {modules : ModuleHandlers}
    (hreturn : ∀ call cdatas, (modules call cdatas).isSome = true) (tbl : CmdTable)
    {session : List Line}
    (hsession : ∀ l ∈ session, l.Fits ∧ (usb = true → l.tokens ≠ [(lit "usb").bytes])) :
    commTrace modules session (Box.start (started usb sock)) =
        (shellSession (started usb sock).cmds (started usb sock).tbl.slots
          (session.map Line.tokens)).map some ∧
      ((∃ s, commMain usb sock modules tbl session = some (0, s)) ↔
        ∃ l ∈ session, l.tokens.head? = some (lit "quit").bytes ∨
          l.tokens.head? = some (lit "exit").bytes) := by
  have hready : (Box.start (started usb sock)).Ready (started usb sock).cmds
      (started usb sock).tbl := ⟨rfl, rfl, rfl⟩
  obtain ⟨htrace, hloop⟩ := commTrace_shell hready rfl (fun a ha => started_named usb sock ha)
    hreturn fun l hl => started_shell usb sock (hsession l hl).1 (hsession l hl).2
  refine ⟨htrace, ?_⟩
  simp only [started_quits] at hloop
  rw [← hloop]
  have hmain : commMain usb sock modules tbl session =
      (commLoop modules session (Box.start (started usb sock))).map fun b =>
        commShutDown usb sock b.state := by
    have hret := commStartUp_ret usb sock
    simp only [commMain, commStartUp_prior usb sock tbl, hret, ne_eq, not_true_eq_false, if_false,
      started]
    cases commLoop modules session (Box.start (commStartUp usb sock commInitCommand).2) <;> rfl
  rw [Option.isSome_iff_exists]
  constructor
  · rintro ⟨s, hs⟩
    rw [hmain] at hs
    obtain ⟨b, hb, -⟩ := Option.map_eq_some_iff.mp hs
    exact ⟨b, hb⟩
  · rintro ⟨b, hb⟩
    rw [hb, Option.map_some] at hmain
    obtain ⟨hzero, -⟩ := commMain_leaves_exit hmain
    refine ⟨(commShutDown usb sock b.state).2, ?_⟩
    rw [hmain]
    exact congrArg some (Prod.ext hzero rfl)

instance (l : Line) : Decidable l.Fits :=
  inferInstanceAs (Decidable (_ ∧ _))

/-- With both modules and handlers that do nothing: `usb list`, an unknown command, and
`quit` with a word behind it; the line after that is not run. -/
theorem commMain_shell_quit :
    let session := [Line.lit "usb list", Line.lit " \thallo", Line.lit "quit now", Line.lit "help"]
    commTrace (fun _ cdatas => some cdatas) session (Box.start (started true true)) =
        (shellSession (started true true).cmds (started true true).tbl.slots
          (session.map Line.tokens)).map some ∧
      (shellSession (started true true).cmds (started true true).tbl.slots
          (session.map Line.tokens)).map (fun o => o.call.map HandlerCall.id) =
        [some 0, none, some 99] ∧
      ∃ s, commMain true true (fun _ cdatas => some cdatas) commInitCommand session = some (0, s) := by
  intro session
  have hsession : ∀ l ∈ session, l.Fits ∧ (true = true → l.tokens ≠ [(lit "usb").bytes]) := by
    decide +kernel
  have hreturn : ∀ (call : HandlerCall) (cdatas : Addr → CommData),
      ((fun _ cdatas => some cdatas : ModuleHandlers) call cdatas).isSome = true :=
    fun _ _ => rfl
  obtain ⟨htrace, hret⟩ := commMain_shell hreturn commInitCommand hsession
  refine ⟨htrace, by decide +kernel, hret.mpr ?_⟩
  exact ⟨Line.lit "quit now", by simp [session], Or.inl (by decide +kernel)⟩

end Comm

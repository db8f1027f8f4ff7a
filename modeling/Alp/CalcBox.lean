import Alp.Calc
import Alp.CommBounds

/-!
# The driver of demo-calc

`main` reads a line, splits it and runs the command of its first word, until `quit`.  The
one `struct comm_data` that it uses is never cleared.  A command gets a copy of it, and
`getopt_long` moves the words in the copy, so that what one line leaves behind for the
next is what reading and splitting leave (`commRunLine`).

`holdsWords_commRunLine` says that this is the words of the line (`Line.words`), whatever
the command data held before.
-/

set_option autoImplicit false

namespace Calc

open CString Getopt RestartBuffer
open Comm hiding Scan Line CommCmd commGetLoop commGetCommand commGetWrites endsLine
  commReadLine commRunLine commExecCommand

/-- A line as `comm_fgetc` returns it, with the character that ends it. -/
structure Line where
  body : List Int
  noEnd : ∀ c ∈ body, endsLine c = false
  ender : Int
  ends : endsLine ender = true

/-- The characters of a line. -/
def Line.chars (l : Line) : List Int :=
  l.body ++ [l.ender]

/-- The line is read inside the buffer: it does not end when the buffer is just full. -/
def Line.Fits (l : Line) : Prop :=
  ¬ EndsFull endsLine l.chars

/-- The words of some bytes, when the bytes `t` of a word were seen before them.  Words
are separated by spaces and tabs, and a NUL in the place of a word ends them. -/
def splitWords : Option (List UInt8) → List UInt8 → List (List UInt8)
  | none, [] => []
  | some t, [] => [t]
  | none, b :: w =>
    if b = nul then [] else if isSep b then splitWords none w else splitWords (some [b]) w
  | some t, b :: w =>
    if isSep b then t :: splitWords none w else splitWords (some (t ++ [b])) w

/-- The string in a word, which ends at its first NUL. -/
def cstr (t : List UInt8) : Word :=
  t.takeWhile (· != nul)

/-- The words of a line: those of the bytes that the buffer keeps of it. -/
def Line.words (l : Line) : List Word :=
  (splitWords none (keptBytes l.body ++ [nul])).map cstr

/-- `comm_get_command` on a line. -/
def commReadLine (d : CommData) (l : Line) : CommData :=
  ((commGetCommand d l.chars).map Prod.fst).getD d

/-- `comm_get_command` and `comm_parse_command` on a line. -/
def commRunLine (d : CommData) (l : Line) : CommData :=
  commParseCommand (commReadLine d l)

/-- The handlers of the commands. -/
inductive Handler
  | cmdQuitHandler
  | cmdHelpHandler
  | cmdCalcHandler
  deriving DecidableEq

/-- `struct comm_cmd`; `priv` is NULL throughout, and `cdata` is set for `calc`. -/
structure CommCmd where
  id : Int
  name : Option CStr
  desc : Option String
  handler : Option Handler

def cmdQuit : CommCmd where
  id := 99
  name := some (lit "quit")
  desc := some "exit the program"
  handler := some .cmdQuitHandler

def cmdHelp : CommCmd where
  id := 100
  name := some (lit "help")
  desc := some "show help info"
  handler := some .cmdHelpHandler

def cmdCalc : CommCmd where
  id := 1
  name := some (lit "calc")
  desc := some ("a calculator\nusage:\n -h --help\t\tDisplay usage information\n" ++
    " -v --version\t\tDisplay version\n -a --add [d1] [d2]\td1 + d2\n" ++
    " -s --sub [d1] [d2]\td1 - d2\n -m --mul [d1] [d2]\td1 * d2\n" ++
    " -d --div [d1] [d2]\td1 / d2\n")
  handler := some .cmdCalcHandler

/-- `comm_cmds` after `main` has registered its commands. -/
def commCmds : List (Option CommCmd) :=
  [some cmdQuit, some cmdHelp, some cmdCalc] ++ List.replicate (commMaxCmds - 3) none

/-- The text of a C string. -/
def textOf (s : CStr) : String :=
  String.ofList (s.bytes.map fun b => Char.ofNat b.toNat)

/-- `comm_show_command`. -/
def commShowCommand : List (Option CommCmd) → List Act
  | [] => []
  | none :: rest => commShowCommand rest
  | some c :: rest =>
    match c.name with
    | none => commShowCommand rest
    | some name =>
      if c.id < 0 then commShowCommand rest
      else .text .stdout (textOf name ++ " - ") ::
        .text .stdout (c.desc.getD "" ++ "\n") :: commShowCommand rest

/-- The static data of the program: `box_cdata` and `box_quit`. -/
structure Box where
  pcd : CommData
  quit : Bool

/-- A handler, on the command data.  `start_calc` works on the copy in `calc_cdata`. -/
def Handler.call (b : Box) : Handler → Option (Box × List Act)
  | .cmdQuitHandler => some ({ b with quit := true }, [])
  | .cmdHelpHandler => some (b, commShowCommand commCmds)
  | .cmdCalcHandler => (startCalc b.pcd).map fun acts => (b, acts)

/-- A matching command is run. -/
def CommCmd.call (c : CommCmd) (b : Box) : Option (Box × List Act) :=
  match c.handler with
  | none => some (b, [])
  | some h => h.call b

/-- The loop of `comm_exec_command`, which goes on after a command that matches; `none` if
a handler does not return. -/
def commExecLoop : List (Option CommCmd) → Box → Option (Box × List Act)
  | [], b => some (b, [])
  | none :: rest, b => commExecLoop rest b
  | some c :: rest, b =>
    match c.name with
    | none => commExecLoop rest b
    | some name =>
      if c.id < 0 then commExecLoop rest b
      else
        match b.pcd.strcmpArg 0 (some name) with
        | none => some (b, [.undefined])
        | some false => commExecLoop rest b
        | some true =>
          (c.call b).bind fun (b, acts) =>
            (commExecLoop rest b).map fun (b, acts') => (b, acts ++ acts')

/-- `comm_exec_command`. -/
def commExecCommand (b : Box) : Option (Box × List Act) :=
  if b.pcd.argc = 0 then some (b, [])
  else commExecLoop commCmds b

/-- `main` before its loop. -/
def boxStart : Box where
  pcd := commInitData
  quit := false

/-- A pass of the loop of `main`; `none` where it stores outside `temp`, after which
nothing is known, or does not return. -/
def boxLine (b : Box) (l : Line) : Option (Box × List Act) :=
  if ∀ i ∈ commGetWrites b.pcd.tmpsize 0 l.chars, i < commTempBufSize then
    commExecCommand { b with pcd := commRunLine b.pcd l }
  else none

/-- The next line, unless the loop has ended. -/
def boxStep (b : Box) (l : Line) : Option Box :=
  if b.quit then none else (boxLine b l).map Prod.fst

/-- The state after some lines.  An undefined operation of the calculator does not end the
history: it leaves the command data alone, and where a machine goes on after it, so does
the history. -/
def history (lines : List Line) : Option Box :=
  lines.foldlM boxStep boxStart

/-- A string ends at its first NUL. -/
theorem holdsStr_cstr {m : Mem} {p : Nat} {t : List UInt8} (h : HoldsStr m p t) :
    HoldsStr m p (cstr t) := by
  induction t generalizing p with
  | nil => exact h
  | cons b t ih =>
      have hb : m p = b := h.1
      unfold Calc.cstr
      by_cases hnul : b = nul
      · rw [List.takeWhile_cons_of_neg (by simp [hnul])]
        exact ⟨hb.trans hnul, trivial⟩
      · rw [List.takeWhile_cons_of_pos (by simpa using hnul)]
        exact ⟨hb, ih h.2⟩

/-- A word with a NUL in it holds its string. -/
theorem holdsStr_of_nul_mem {m : Mem} {p : Nat} {t : List UInt8} (h : Holds m p t)
    (hnul : nul ∈ t) : HoldsStr m p (cstr t) ∧ (cstr t).length < t.length := by
  induction t generalizing p with
  | nil => cases hnul
  | cons b t ih =>
      unfold Calc.cstr
      by_cases hb : b = nul
      · rw [List.takeWhile_cons_of_neg (by simp [hb])]
        exact ⟨⟨h.1.trans hb, trivial⟩, Nat.succ_pos _⟩
      · have hmem : nul ∈ t := by simpa [Ne.symm hb] using hnul
        obtain ⟨hstr, hlen⟩ := ih h.2 hmem
        rw [List.takeWhile_cons_of_pos (by simpa using hb)]
        exact ⟨⟨h.1, hstr⟩, Nat.succ_lt_succ hlen⟩

/-- What is parsed as a first word is also parsed as its text up to a NUL. -/
theorem parsed_cut {d d' : CommData} {k tmpi stop : Nat} {t : List UInt8} {ts : List Word}
    (h : Parsed d d' k tmpi stop (t :: ts)) : Parsed d d' k tmpi stop (cstr t :: ts) := by
  obtain ⟨⟨q, hptr, hstr, hroom⟩, hargs⟩ := h.args
  have hlen : (cstr t).length ≤ t.length := (List.takeWhile_prefix _).length_le
  exact ⟨h.argc, ⟨⟨q, hptr, holdsStr_cstr hstr, by omega⟩, hargs⟩, h.earlier, h.outside⟩

/-- **The tokenizer on any bytes.**  `mode` holds the bytes of the word being walked over, if
there is one, and `v` the bytes left, of which the last is a NUL. -/
theorem commParseLoop_words (v : List UInt8) (d : CommData) (mode : Option (List UInt8))
    (q k tmpi : Nat) (hv : Holds d.temp tmpi v) (hroom : tmpi + v.length ≤ commTempBufSize)
    (hlast : v ≠ [] → v.getLast? = some nul) (hnul : v = [] → ∀ t ∈ mode, nul ∈ t)
    (hmode : ∀ t ∈ mode, d.argv k = .temp q ∧ Holds d.temp q t ∧ q + t.length = tmpi) :
    Parsed d (commParseLoop d mode.isSome tmpi (k + mode.isSome.toNat) v.length) k tmpi
      (tmpi + v.length) ((splitWords mode v).map cstr) := by
  induction v generalizing d mode q k tmpi with
  | nil =>
      cases mode with
      | none => exact ⟨rfl, trivial, fun _ _ => rfl, fun _ _ => rfl⟩
      | some t =>
          obtain ⟨hptr, hq, hlen⟩ := hmode t rfl
          obtain ⟨hstr, hshort⟩ := holdsStr_of_nul_mem hq (hnul rfl t rfl)
          rw [List.length_nil] at hroom
          exact ⟨rfl, ⟨⟨q, hptr, hstr, by omega⟩, trivial⟩, fun _ _ => rfl, fun _ _ => rfl⟩
  | cons b w ih =>
      have hb : d.temp tmpi = b := hv.1
      have harith : tmpi + 1 + w.length = tmpi + (w.length + 1) := by omega
      rw [List.length_cons] at hroom ⊢
      have hinside : tmpi < commTempBufSize := by omega
      have hroom' : tmpi + 1 + w.length ≤ commTempBufSize := by omega
      have hlast' : w ≠ [] → w.getLast? = some nul := by
        intro hw
        rw [← hlast (List.cons_ne_nil b w), List.getLast?_cons_of_ne_nil hw]
      have hone : w = [] → b = nul := by
        rintro rfl
        simpa using hlast (List.cons_ne_nil b [])
      cases mode with
      | none =>
          by_cases hend : b = nul
          · simp only [commParseLoop, splitWords, Option.isSome_none, hb, hend, commAsciiEof,
              if_true]
            exact ⟨rfl, trivial, fun _ _ => rfl, fun _ _ => rfl⟩
          · by_cases hsep : isSep b = true
            · have hstep := ih d none q k (tmpi + 1) hv.2 hroom' hlast' (by simp) (by simp)
              simp only [commParseLoop, splitWords, Option.isSome_none, hb, hend, hsep,
                commAsciiEof, if_true, if_false, harith, Bool.toNat_false, Nat.add_zero] at hstep ⊢
              exact hstep.pass
            · have hstep := ih (d.storeArg k tmpi) (some [b]) tmpi k (tmpi + 1) hv.2 hroom' hlast'
                (by rintro hw t ⟨⟩; simp [hone hw])
                (by rintro t ⟨⟩; exact ⟨by simp [CommData.storeArg], ⟨hb, trivial⟩, rfl⟩)
              simp only [commParseLoop, splitWords, Option.isSome_none, Option.isSome_some, hb,
                hend, hsep, commAsciiEof, Bool.false_eq_true, if_false, harith, Bool.toNat_false,
                Bool.toNat_true, Nat.add_zero] at hstep ⊢
              exact hstep.begin
      | some t =>
          obtain ⟨hptr, hq, hlen⟩ := hmode t rfl
          by_cases hsep : isSep b = true
          · have hmem : ∀ i, tmpi < i → (d.store tmpi commAsciiEof).temp i = d.temp i := by
              intro i hi
              rw [store_inside _ _ hinside]
              exact Mem.set_other d.temp nul (by omega)
            have hstep := ih (d.store tmpi commAsciiEof) none q (k + 1) (tmpi + 1)
              (hv.2.congr fun j hj _ => hmem j (by omega)) hroom' hlast' (by simp) (by simp)
            simp only [commParseLoop, splitWords, Option.isSome_none, Option.isSome_some, hb,
              hsep, if_true, harith, Bool.toNat_false, Bool.toNat_true, Nat.add_zero,
              List.map_cons] at hstep ⊢
            exact parsed_cut (hstep.finish hinside (by omega) hptr hq hlen)
          · have hgrow : Holds d.temp q (t ++ [b]) := by
              rw [holds_append, hlen]
              exact ⟨hq, hb, trivial⟩
            have hstep := ih d (some (t ++ [b])) q k (tmpi + 1) hv.2 hroom' hlast'
              (by rintro hw u ⟨⟩; simp [hone hw])
              (by rintro u ⟨⟩; exact ⟨hptr, hgrow, by simp; omega⟩)
            simp only [commParseLoop, splitWords, Option.isSome_some, hb, hsep,
              Bool.false_eq_true, if_false, harith, Bool.toNat_true] at hstep ⊢
            exact hstep.pass

/-- A line fits when what is kept of it fits the buffer. -/
theorem Line.fits_iff (l : Line) : l.Fits ↔ (keptBytes l.body).length < commTempBufSize := by
  have hle := keptBytes_length_le l.body
  rw [Line.Fits, Line.chars, endsFull_append l.noEnd l.ends]
  omega

/-- What reading a line leaves in `temp`. -/
structure LineKept (d d' : CommData) (l : Line) : Prop where
  text : Holds d'.temp 0 (keptBytes l.body ++ [nul])
  tmpc : d'.tmpc = (keptBytes l.body).length + 1
  tmpsize : d'.tmpsize = d.tmpsize

/-- A line that fits is kept. -/
theorem commReadLine_kept {d : CommData} (hd : d.tmpsize = commTempBufSize) {l : Line}
    (hl : l.Fits) : LineKept d (commReadLine d l) l := by
  obtain ⟨hcnt, hholds, -⟩ := commFill_holds d l.body
  have hroom := l.fits_iff.mp hl
  have hend : l.ender = 10 ∨ l.ender = 13 := by simpa [endsLine] using l.ends
  have hread : commReadLine d l =
      { (commFill commTempBufSize d 0 l.body).1.store (keptBytes l.body).length commAsciiEof with
        tmpc := (keptBytes l.body).length + 1 } := by
    rw [commReadLine, commGetCommand, hd, Line.chars, commGetLoop_chars _ _ l.noEnd,
      commGetLoop, if_pos hend, hcnt]
    rfl
  rw [hread, store_inside _ _ hroom]
  refine ⟨?_, rfl, commFill_tmpsize _ _ _ _⟩
  rw [holds_append, Nat.zero_add]
  exact ⟨hholds.set commAsciiEof (.inr (by omega)), Mem.set_same _ _ _, trivial⟩

/-- Reading a line leaves the size of the buffer alone. -/
theorem commReadLine_tmpsize (d : CommData) (l : Line) :
    (commReadLine d l).tmpsize = d.tmpsize := by
  have hend : l.ender = 10 ∨ l.ender = 13 := by simpa [endsLine] using l.ends
  rw [commReadLine, commGetCommand, Line.chars, commGetLoop_chars _ _ l.noEnd, commGetLoop,
    if_pos hend]
  simp

@[simp] theorem commRunLine_tmpsize (d : CommData) (l : Line) :
    (commRunLine d l).tmpsize = d.tmpsize := by
  rw [commRunLine, commParseCommand, commParseLoop_tmpsize, commReadLine_tmpsize]

/-- **One line.**  Reading and splitting a line leave its words, whatever was there. -/
theorem argsAt_commRunLine {d : CommData} (hd : d.tmpsize = commTempBufSize) {l : Line}
    (hl : l.Fits) :
    (commRunLine d l).argc = l.words.length ∧ ArgsAt (commRunLine d l) 0 l.words := by
  obtain ⟨htext, htmpc, -⟩ := commReadLine_kept hd hl
  have hroom := l.fits_iff.mp hl
  have hparse := commParseLoop_words (keptBytes l.body ++ [nul]) (commReadLine d l) none 0 0 0
    htext (by simp; omega) (by simp) (by simp) (by simp)
  have hleft : (keptBytes l.body ++ [nul]).length = (commReadLine d l).tmpc := by simp [htmpc]
  rw [hleft] at hparse
  exact ⟨hparse.argc.trans (Nat.zero_add _), hparse.args⟩

/-- The words of a line have no NUL. -/
theorem nul_notMem_words {l : Line} {w : Word} (h : w ∈ l.words) : nul ∉ w := by
  obtain ⟨t, -, rfl⟩ := List.mem_map.mp h
  intro hnul
  simpa using List.mem_takeWhile_imp hnul

/-- Running a line that fits holds its words. -/
theorem holdsWords_commRunLine {d : CommData} (hd : d.tmpsize = commTempBufSize) {l : Line}
    (hl : l.Fits) : HoldsWords (commRunLine d l) l.words := by
  obtain ⟨hargc, hargs⟩ := argsAt_commRunLine hd hl
  exact ⟨hargc, fun i hi => hargs.argStr hi (nul_notMem_words (List.getElem_mem hi))⟩

/-- A line of the calculator. -/
def Line.IsCalc (l : Line) : Prop :=
  l.words.head? = some (asciiBytes "calc")

/-- The stores of the reader. -/
theorem commGetWrites_inside_iff (l : Line) :
    (∀ i ∈ commGetWrites commTempBufSize 0 l.chars, i < commTempBufSize) ↔ l.Fits := by
  obtain ⟨ws, hws, hwrites⟩ := commGetWrites_chars l.body l.noEnd [l.ender] commInitData 0
  obtain ⟨hcnt, -, -⟩ := commFill_holds commInitData l.body
  have hend : l.ender = 10 ∨ l.ender = 13 := by simpa [endsLine] using l.ends
  rw [hcnt, commGetWrites, if_pos hend] at hwrites
  rw [Line.chars, hwrites, l.fits_iff, List.forall_mem_append]
  constructor
  · exact fun h => h.2 _ List.mem_cons_self
  · exact fun h => ⟨hws, by simpa using h⟩

/-- Empty slots run nothing. -/
theorem commExecLoop_none (n : Nat) (b : Box) :
    commExecLoop (List.replicate n none) b = some (b, []) := by
  induction n with
  | zero => rfl
  | succ n ih => exact ih

/-- The command of the first word is run, and no other. -/
theorem commExecCommand_calc {b : Box} (hargc : b.pcd.argc ≠ 0)
    (hname : ∀ s : CStr, b.pcd.strcmpArg 0 (some s) =
      some (decide (asciiBytes "calc" = s.bytes))) :
    commExecCommand b = (startCalc b.pcd).map fun acts => (b, acts) := by
  have hquit : b.pcd.strcmpArg 0 (some (lit "quit")) = some false := by
    rw [hname]
    decide
  have hhelp : b.pcd.strcmpArg 0 (some (lit "help")) = some false := by
    rw [hname]
    decide
  have hcalc : b.pcd.strcmpArg 0 (some (lit "calc")) = some true := by
    rw [hname]
    decide
  rw [commExecCommand, if_neg hargc, commCmds]
  cases hstart : startCalc b.pcd with
  | none =>
      simp [commExecLoop, cmdQuit, cmdHelp, cmdCalc, hquit, hhelp, hcalc, CommCmd.call,
        Handler.call, hstart]
  | some acts =>
      simp [commExecLoop, cmdQuit, cmdHelp, cmdCalc, hquit, hhelp, hcalc, CommCmd.call,
        Handler.call, hstart, commExecLoop_none]

/-- A pass of the loop on a line of the calculator. -/
theorem boxLine_calc {b : Box} (hb : b.pcd.tmpsize = commTempBufSize) {l : Line}
    (hl : l.Fits) (hcalc : l.IsCalc) :
    boxLine b l = (startCalc (commRunLine b.pcd l)).map fun acts =>
      ({ b with pcd := commRunLine b.pcd l }, acts) := by
  obtain ⟨hargc, hargs⟩ := argsAt_commRunLine hb hl
  obtain ⟨rest, hwords⟩ := List.head?_eq_some_iff.mp hcalc
  rw [boxLine, hb, if_pos ((commGetWrites_inside_iff l).mpr hl)]
  apply commExecCommand_calc
  · rw [hargc, hwords]
    nofun
  · intro s
    have hpos : 0 < l.words.length := by simp [hwords]
    have hfirst : l.words[0] = asciiBytes "calc" := by simp [hwords]
    rw [hargs.strcmpArg hpos (nul_notMem_words (List.getElem_mem hpos)), hfirst]
    rfl

/-- A pass of the loop is defined on a line of the calculator only if it fits. -/
theorem boxLine_none {b : Box} (hb : b.pcd.tmpsize = commTempBufSize) {l : Line}
    (hl : ¬ l.Fits) : boxLine b l = none := by
  rw [boxLine, hb, if_neg (fun h => hl ((commGetWrites_inside_iff l).mp h))]

/-- No command changes the command data. -/
theorem call_pcd {c : CommCmd} {b b' : Box} {acts : List Act} (h : c.call b = some (b', acts)) :
    b'.pcd = b.pcd := by
  unfold CommCmd.call at h
  split at h
  · cases h
    rfl
  · next handler _ =>
      cases handler with
      | cmdQuitHandler =>
          cases h
          rfl
      | cmdHelpHandler =>
          cases h
          rfl
      | cmdCalcHandler =>
          obtain ⟨acts, -, heq⟩ := Option.map_eq_some_iff.mp h
          cases heq
          rfl

/-- Running a line's command leaves the command data alone. -/
theorem commExecLoop_pcd {cmds : List (Option CommCmd)} {b b' : Box} {acts : List Act}
    (h : commExecLoop cmds b = some (b', acts)) : b'.pcd = b.pcd := by
  induction cmds generalizing b acts with
  | nil =>
      cases h
      rfl
  | cons slot rest ih =>
      cases slot with
      | none => exact ih h
      | some c =>
          rw [commExecLoop] at h
          split at h
          · exact ih h
          · split at h
            · exact ih h
            · split at h
              · cases h
                rfl
              · exact ih h
              · obtain ⟨⟨b₁, acts₁⟩, hcall, hloop⟩ := Option.bind_eq_some_iff.mp h
                obtain ⟨⟨b₂, acts₂⟩, hrest, heq⟩ := Option.map_eq_some_iff.mp hloop
                cases heq
                rw [ih hrest, call_pcd hcall]

/-- A line leaves the size of the buffer alone. -/
theorem boxLine_tmpsize {b b' : Box} {l : Line} {acts : List Act}
    (h : boxLine b l = some (b', acts)) : b'.pcd.tmpsize = b.pcd.tmpsize := by
  unfold boxLine at h
  split at h
  · unfold commExecCommand at h
    split at h
    · cases h
      exact commRunLine_tmpsize _ _
    · rw [commExecLoop_pcd h]
      exact commRunLine_tmpsize _ _
  · cases h

/-- A step leaves the size of the buffer alone. -/
theorem boxStep_tmpsize {b b' : Box} {l : Line} (h : boxStep b l = some b') :
    b'.pcd.tmpsize = b.pcd.tmpsize := by
  unfold boxStep at h
  split at h
  · cases h
  · obtain ⟨⟨b₁, acts⟩, hbox, rfl⟩ := Option.map_eq_some_iff.mp h
    exact boxLine_tmpsize hbox

/-- A session leaves the size of the buffer alone, by induction on the lines. -/
theorem foldlM_tmpsize {lines : List Line} {b b' : Box}
    (h : lines.foldlM boxStep b = some b') : b'.pcd.tmpsize = b.pcd.tmpsize := by
  induction lines generalizing b with
  | nil =>
      cases h
      rfl
  | cons l lines ih =>
      rw [List.foldlM_cons] at h
      obtain ⟨b₁, hstep, hrest⟩ := Option.bind_eq_some_iff.mp h
      rw [ih hrest, boxStep_tmpsize hstep]

/-- The size of the buffer is that of `comm_data_init` throughout. -/
theorem history_tmpsize {lines : List Line} {b : Box} (h : history lines = some b) :
    b.pcd.tmpsize = commTempBufSize :=
  foldlM_tmpsize h

end Calc

import Alp.CalcResults
import Alp.CalcHistory

/-!
# The calculator on its input

This file embeds `main` of `demo-calc/box.c` on the characters of its input: the loop reads
a line, prints the prompt before it, and ends behind the line whose command is `quit`.

A line ends at an LF or at a CR, so that CR LF ends a line and an empty one.  The loop on
the characters is the loop on these lines (`boxLoopChars_lines`), and `calcMain_exact` is
the program: where the lines of the calculator can be computed, it prints their exact
results in order.  Each line begins a new scan, as `getopt_long` is documented for
`optind = 1`; an implementation that keeps its place inside a word beyond that is not
embedded.
-/

set_option autoImplicit false

namespace Calc

open CString Getopt
open Comm hiding Scan Line commRunLine

/-- `comm_clear_screen`. -/
def commClearScreen : Act :=
  .text .stdout "\n"

/-- `comm_show_screen`. -/
def commShowScreen : Act :=
  .text .stdout "CMD>"

/-- A line that was finished took at least one character. -/
theorem commGetLoop_shorter {size cnt : Nat} {d d' : CommData} {input rest : List Int}
    (h : commGetLoop size d cnt input = some (d', rest)) : rest.length < input.length := by
  induction input generalizing d cnt with
  | nil => cases h
  | cons c input ih =>
      rw [commGetLoop] at h
      rw [List.length_cons]
      split at h
      · cases h
        exact Nat.lt_succ_self _
      · exact Nat.lt_succ_of_lt (ih h)

/-- `comm_parse_command` and `comm_exec_command` when the reader has left `pcd`; `none` where
it stored outside `temp`. -/
def boxPass (b : Box) (input : List Int) (pcd : CommData) : Option (Box × List Act) :=
  if ∀ i ∈ commGetWrites b.pcd.tmpsize 0 input, i < commTempBufSize then
    commExecCommand { b with pcd := commParseCommand pcd }
  else none

/-- The loop of `main`: what it does until `quit`; `none` while it waits for a line, and
where a pass is undefined. -/
def boxLoopChars (input : List Int) (b : Box) : Option (List Act) :=
  match _h : commGetCommand b.pcd input with
  | none => none
  | some (pcd, rest) =>
    match boxPass b input pcd with
    | none => none
    | some (b, acts) =>
      if b.quit then some (commShowScreen :: acts)
      else (boxLoopChars rest b).map fun more => commShowScreen :: acts ++ more
termination_by input.length
decreasing_by exact commGetLoop_shorter _h

/-- `main`, with the commands registered. -/
def calcMain (input : List Int) : Option (List Act) :=
  (boxLoopChars input boxStart).map fun acts =>
    commClearScreen :: acts ++ [commClearScreen, .text .stdout "See you again.\n"]

/-- The beginning of a line. -/
structure Begun where
  body : List Int
  noEnd : ∀ c ∈ body, endsLine c = false

def Begun.fresh : Begun :=
  ⟨[], List.forall_mem_nil _⟩

def Begun.push (l : Begun) (c : Int) (h : endsLine c = false) : Begun :=
  ⟨l.body ++ [c], List.forall_mem_append.mpr ⟨l.noEnd, by simpa using h⟩⟩

def Begun.finish (l : Begun) (c : Int) (h : endsLine c = true) : Line :=
  ⟨l.body, l.noEnd, c, h⟩

/-- The lines that end in the input, the first of them begun. -/
def linesFrom : Begun → List Int → List Line
  | _, [] => []
  | l, c :: input =>
    if h : endsLine c = true then l.finish c h :: linesFrom .fresh input
    else linesFrom (l.push c (Bool.eq_false_iff.mpr h)) input

def linesOf (input : List Int) : List Line :=
  linesFrom .fresh input

/-- The input behind the first line. -/
def afterLine : List Int → List Int
  | [] => []
  | c :: input => if endsLine c = true then input else afterLine input

/-- The lines behind the first are those of the input behind it. -/
theorem linesFrom_tail (l : Begun) (input : List Int) :
    (linesFrom l input).tail = linesOf (afterLine input) := by
  induction input generalizing l with
  | nil => rfl
  | cons c input ih =>
      rw [linesFrom, afterLine]
      by_cases h : endsLine c = true
      · rw [dif_pos h, if_pos h]
        rfl
      · rw [dif_neg h, if_neg h]
        exact ih _

/-- Reading on from the beginning of a line is reading the line that it becomes. -/
theorem linesFrom_head (l : Begun) (input : List Int) :
    (linesFrom l input = [] ∧ ∀ c ∈ l.body ++ input, endsLine c = false) ∨
      ∃ v lines, linesFrom l input = v :: lines ∧
        l.body ++ input = v.chars ++ afterLine input := by
  induction input generalizing l with
  | nil => exact Or.inl ⟨rfl, by simpa using l.noEnd⟩
  | cons c input ih =>
      rw [linesFrom, afterLine]
      by_cases h : endsLine c = true
      · rw [dif_pos h, if_pos h]
        exact Or.inr ⟨_, _, rfl, by simp [Line.chars, Begun.finish]⟩
      · rw [dif_neg h, if_neg h]
        have hpush : l.body ++ c :: input =
            (l.push c (Bool.eq_false_iff.mpr h)).body ++ input := by simp [Begun.push]
        rw [hpush]
        exact ih _

/-- The first line of the input is the one read. -/
theorem commGetCommand_line (d : CommData) (l : Line) (rest : List Int) :
    commGetCommand d (l.chars ++ rest) = some (commReadLine d l, rest) := by
  have hend : l.ender = 10 ∨ l.ender = 13 := by simpa [endsLine] using l.ends
  have hread : ∀ rest, commGetCommand d (l.chars ++ rest) =
      some ((commGetCommand d l.chars).map Prod.fst |>.getD d, rest) := by
    intro rest
    simp only [commGetCommand, Line.chars, List.append_assoc, List.singleton_append,
      commGetLoop_chars _ _ l.noEnd, commGetLoop, if_pos hend, Option.map_some, Option.getD_some]
  exact hread rest

/-- Where no character ends a line, none is read. -/
theorem commGetCommand_begun (d : CommData) {input : List Int}
    (h : ∀ c ∈ input, endsLine c = false) : commGetCommand d input = none := by
  have hchars := commGetLoop_chars d.tmpsize input h [] d 0
  rwa [List.append_nil] at hchars

/-- The stores of the reader are those of the first line. -/
theorem commGetWrites_line (size cnt : Nat) (l : Line) (rest : List Int) :
    commGetWrites size cnt (l.chars ++ rest) = commGetWrites size cnt l.chars := by
  obtain ⟨body, hbody, c, hc⟩ := l
  have hend : c = 10 ∨ c = 13 := by simpa [endsLine] using hc
  simp only [Line.chars]
  clear hc
  induction body generalizing cnt with
  | nil => simp [commGetWrites, hend]
  | cons x body ih =>
      obtain ⟨hx, hrest⟩ := List.forall_mem_cons.mp hbody
      simp only [List.cons_append, commGetWrites, if_neg (endsLine_eq_false.mp hx), ih _ hrest]

def boxLoop : List Line → Box → Option (List Act)
  | [], _ => none
  | l :: lines, b =>
    match boxLine b l with
    | none => none
    | some (b, acts) =>
      if b.quit then some (commShowScreen :: acts)
      else (boxLoop lines b).map fun more => commShowScreen :: acts ++ more

/-- The loop on the characters is the loop on the lines. -/
theorem boxLoopChars_lines (input : List Int) (b : Box) :
    boxLoopChars input b = boxLoop (linesOf input) b := by
  generalize hlines : linesOf input = lines
  induction lines generalizing input b with
  | nil =>
      rcases linesFrom_head .fresh input with ⟨-, hnone⟩ | ⟨v, vs, hcons, -⟩
      · have hget : commGetCommand b.pcd input = none := commGetCommand_begun b.pcd hnone
        rw [boxLoopChars]
        split
        · rfl
        · next heq =>
            rw [hget] at heq
            cases heq
      · rw [linesOf, hcons] at hlines
        cases hlines
  | cons l lines ih =>
      rcases linesFrom_head .fresh input with ⟨hnil, -⟩ | ⟨v, vs, hcons, hinput⟩
      · rw [linesOf, hnil] at hlines
        cases hlines
      have hrest : linesOf (afterLine input) = lines := by
        rw [← linesFrom_tail .fresh input]
        exact congrArg List.tail hlines
      obtain ⟨rfl, rfl⟩ : v = l ∧ vs = lines := List.cons.inj (hcons.symm.trans hlines)
      have hinput : input = v.chars ++ afterLine input := hinput
      have hget : commGetCommand b.pcd input = some (commReadLine b.pcd v, afterLine input) := by
        conv_lhs => rw [hinput]
        exact commGetCommand_line b.pcd v _
      have hpass : boxPass b input (commReadLine b.pcd v) = boxLine b v := by
        rw [boxPass, hinput, commGetWrites_line]
        rfl
      rw [boxLoopChars, boxLoop]
      split
      · next heq =>
          rw [hget] at heq
          cases heq
      next heq =>
      rw [hget] at heq
      cases heq
      rw [hpass]
      split
      · rfl
      split
      · rfl
      · rw [ih _ _ hrest]

/-- The line ends the program. -/
def Line.IsQuit (l : Line) : Prop :=
  l.words.head? = some (asciiBytes "quit")

instance (l : Line) : Decidable l.IsQuit :=
  inferInstanceAs (Decidable (_ = _))

instance (l : Line) : Decidable l.IsCalc :=
  inferInstanceAs (Decidable (_ = _))

instance (l : Line) : Decidable l.Fits :=
  decidable_of_iff _ l.fits_iff.symm

/-- The command of the first word is run, if there is one of its name. -/
theorem commExecCommand_word {b : Box} {w : Word} (hargc : b.pcd.argc ≠ 0)
    (hname : ∀ s : CStr, b.pcd.strcmpArg 0 (some s) = some (decide (w = s.bytes))) :
    commExecCommand b =
      if w = asciiBytes "quit" then some ({ b with quit := true }, [])
      else if w = asciiBytes "help" then some (b, commShowCommand commCmds)
      else if w = asciiBytes "calc" then (startCalc b.pcd).map fun acts => (b, acts)
      else some (b, []) := by
  by_cases hcalc : w = asciiBytes "calc"
  · rw [if_neg (by rw [hcalc]; decide), if_neg (by rw [hcalc]; decide), if_pos hcalc]
    exact commExecCommand_calc hargc (hcalc ▸ hname)
  have hcalc' : b.pcd.strcmpArg 0 (some (lit "calc")) = some false := by
    rw [hname]
    exact congrArg some (decide_eq_false hcalc)
  rw [commExecCommand, if_neg hargc, commCmds]
  by_cases hquit : w = asciiBytes "quit"
  · have hquit' : b.pcd.strcmpArg 0 (some (lit "quit")) = some true := by
      rw [hname]
      exact congrArg some (decide_eq_true hquit)
    have hhelp : b.pcd.strcmpArg 0 (some (lit "help")) = some false := by
      rw [hname, hquit]
      decide
    rw [if_pos hquit]
    simp [commExecLoop, cmdQuit, cmdHelp, cmdCalc, hquit', hhelp, hcalc', CommCmd.call,
      Handler.call, commExecLoop_none]
  have hquit' : b.pcd.strcmpArg 0 (some (lit "quit")) = some false := by
    rw [hname]
    exact congrArg some (decide_eq_false hquit)
  rw [if_neg hquit]
  by_cases hhelp : w = asciiBytes "help"
  · have hhelp' : b.pcd.strcmpArg 0 (some (lit "help")) = some true := by
      rw [hname]
      exact congrArg some (decide_eq_true hhelp)
    rw [if_pos hhelp]
    simp [commExecLoop, cmdQuit, cmdHelp, cmdCalc, hquit', hhelp', hcalc', CommCmd.call,
      Handler.call, commExecLoop_none, commCmds]
  · have hhelp' : b.pcd.strcmpArg 0 (some (lit "help")) = some false := by
      rw [hname]
      exact congrArg some (decide_eq_false hhelp)
    rw [if_neg hhelp, if_neg hcalc]
    simp [commExecLoop, cmdQuit, cmdHelp, cmdCalc, hquit', hhelp', hcalc', commExecLoop_none]

/-- The help prints no numbers. -/
theorem results_commShowCommand (cmds : List (Option CommCmd)) :
    results (commShowCommand cmds) = some [] := by
  apply results_text
  intro act hact
  left
  induction cmds with
  | nil => cases hact
  | cons o cmds ih =>
      cases o with
      | none => exact ih hact
      | some c =>
          rw [commShowCommand] at hact
          split at hact
          · exact ih hact
          split at hact
          · exact ih hact
          · rcases List.mem_cons.mp hact with rfl | hact
            · exact ⟨_, _, rfl⟩
            rcases List.mem_cons.mp hact with rfl | hact
            · exact ⟨_, _, rfl⟩
            · exact ih hact

/-- A line whose results can be computed. -/
structure Line.Computes (l : Line) (items : List Item) : Prop where
  fits : l.Fits
  calculable : l.IsCalc → l.words = calcLine items ∧ Calculable none items

/-- What a line prints. -/
def lineNumbers (l : Line) (items : List Item) : List Int :=
  if l.IsCalc then expected items else []

/-- The numbers of a line of the calculator. -/
theorem startCalc_results {d : CommData} {items : List Item} (h : HoldsWords d (calcLine items))
    (hitems : Calculable none items) :
    ∃ acts, startCalc d = some acts ∧ results acts = some (expected items) := by
  refine ⟨_, startCalc_eq h (List.cons_ne_nil _ _), ?_⟩
  have hevents : scan options (calcLine items).tail = itemEvents none items := rfl
  rw [results_play _ _ (fun e => legal_of_mem_scan) 0, hevents, tally_iff]
  exact hitems

/-- A pass of the loop. -/
theorem Line.Computes.boxLine {b : Box} (hb : b.pcd.tmpsize = commTempBufSize)
    (hquit : b.quit = false) {l : Line} {items : List Item} (h : l.Computes items) :
    ∃ b' acts, Calc.boxLine b l = some (b', acts) ∧ b'.pcd.tmpsize = commTempBufSize ∧
      (b'.quit = true ↔ l.IsQuit) ∧ results acts = some (lineNumbers l items) := by
  have hholds := holdsWords_commRunLine hb h.fits
  obtain ⟨hargc, hargs⟩ := argsAt_commRunLine hb h.fits
  have hrun : Calc.boxLine b l = commExecCommand { b with pcd := commRunLine b.pcd l } := by
    rw [Calc.boxLine, hb, if_pos ((commGetWrites_inside_iff l).mpr h.fits)]
  have hsize : (commRunLine b.pcd l).tmpsize = commTempBufSize := by
    rw [commRunLine_tmpsize, hb]
  rw [hrun]
  cases hwords : l.words with
  | nil =>
      rw [hwords] at hargc
      refine ⟨_, [], if_pos hargc, hsize, ?_, ?_⟩
      · simp [hquit, Line.IsQuit, hwords]
      · simp [lineNumbers, Line.IsCalc, hwords, results, numbers]
  | cons w ws =>
      have hpos : 0 < l.words.length := by simp [hwords]
      have hfirst : l.words[0] = w := by simp [hwords]
      have hname : ∀ s : CStr, (commRunLine b.pcd l).strcmpArg 0 (some s) =
          some (decide (w = s.bytes)) := by
        intro s
        rw [hargs.strcmpArg hpos (nul_notMem_words (List.getElem_mem hpos)), hfirst]
        rfl
      have hexec := commExecCommand_word (b := { b with pcd := commRunLine b.pcd l })
        (by rw [hargc, hwords]; exact Nat.succ_ne_zero _) hname
      have hisQuit : l.IsQuit ↔ w = asciiBytes "quit" := by simp [Line.IsQuit, hwords]
      have hisCalc : l.IsCalc ↔ w = asciiBytes "calc" := by simp [Line.IsCalc, hwords]
      rw [hexec, hisQuit, lineNumbers]
      simp only [hisCalc]
      by_cases hq : w = asciiBytes "quit"
      · have hnot : w ≠ asciiBytes "calc" := by rw [hq]; decide
        rw [if_pos hq, if_neg hnot]
        exact ⟨_, [], rfl, hsize, iff_of_true rfl hq, rfl⟩
      rw [if_neg hq]
      by_cases hh : w = asciiBytes "help"
      · have hnot : w ≠ asciiBytes "calc" := by rw [hh]; decide
        rw [if_pos hh, if_neg hnot]
        exact ⟨_, _, rfl, hsize, by simp [hquit, hq], results_commShowCommand commCmds⟩
      rw [if_neg hh]
      by_cases hc : w = asciiBytes "calc"
      · obtain ⟨hline, hitems⟩ := h.calculable (hisCalc.mpr hc)
        rw [hline] at hholds
        obtain ⟨acts, hacts, hresults⟩ := startCalc_results hholds hitems
        rw [if_pos hc, if_pos hc, hacts]
        exact ⟨_, acts, rfl, hsize, by simp [hquit, hq], hresults⟩
      · rw [if_neg hc, if_neg hc]
        exact ⟨_, [], rfl, hsize, by simp [hquit, hq], rfl⟩

/-- The lines up to `quit`. -/
def ranLines : List Line → List Line
  | [] => []
  | l :: lines => l :: if l.IsQuit then [] else ranLines lines

/-- What a session prints: the results of its lines up to `quit`. -/
def sessionNumbers (items : Line → List Item) (lines : List Line) : List Int :=
  (ranLines lines).flatMap fun l => lineNumbers l (items l)

/-- Behind `quit` no line is run. -/
theorem ranLines_quit {l : Line} (h : l.IsQuit) (lines : List Line) :
    ranLines (l :: lines) = [l] := by
  rw [ranLines, if_pos h]

/-- A line that is not `quit` is followed by the others. -/
theorem ranLines_go {l : Line} (h : ¬ l.IsQuit) (lines : List Line) :
    ranLines (l :: lines) = l :: ranLines lines := by
  rw [ranLines, if_neg h]

/-- A text in front leaves the results alone. -/
theorem results_cons_text {s : String} {stream : Stream} {acts : List Act} {ns : List Int}
    (h : results acts = some ns) : results (.text stream s :: acts) = some ns := by
  have happend := results_append [.text stream s] acts
  rw [h] at happend
  exact happend

/-- The results of acts joined follow one another. -/
theorem results_append_some {acts more : List Act} {ns ms : List Int}
    (h : results acts = some ns) (hmore : results more = some ms) :
    results (acts ++ more) = some (ns ++ ms) := by
  rw [results_append, h, hmore]
  rfl

/-- **The loop** ends at `quit` and nowhere else, and its results are those of the lines. -/
theorem boxLoop_numbers {items : Line → List Item} {lines : List Line}
    (h : ∀ l ∈ ranLines lines, l.Computes (items l)) {b : Box}
    (hb : b.pcd.tmpsize = commTempBufSize) (hquit : b.quit = false) :
    ((∃ l ∈ lines, l.IsQuit) →
        ∃ acts, boxLoop lines b = some acts ∧ results acts = some (sessionNumbers items lines)) ∧
      (¬ (∃ l ∈ lines, l.IsQuit) → boxLoop lines b = none) := by
  induction lines generalizing b with
  | nil => simp [boxLoop]
  | cons l lines ih =>
      have hl : l.Computes (items l) := h l List.mem_cons_self
      obtain ⟨b', acts, hline, hb', hends, hnumbers⟩ := hl.boxLine hb hquit
      rw [boxLoop, hline, sessionNumbers]
      dsimp only
      by_cases hq : l.IsQuit
      · rw [ranLines_quit hq, List.flatMap_singleton, if_pos (hends.mpr hq)]
        exact ⟨fun _ => ⟨_, rfl, results_cons_text hnumbers⟩, fun hno => by simp [hq] at hno⟩
      · have hgo : b'.quit = false := Bool.eq_false_iff.mpr fun hb => hq (hends.mp hb)
        rw [ranLines_go hq] at h
        obtain ⟨hsome, hnone⟩ := ih (List.forall_mem_cons.mp h).2 hb' hgo
        rw [ranLines_go hq, List.flatMap_cons, if_neg (fun hb => hq (hends.mp hb))]
        constructor
        · rintro ⟨v, hv, hvq⟩
          rcases List.mem_cons.mp hv with rfl | hv
          · exact absurd hvq hq
          · obtain ⟨more, hmore, hmoreNumbers⟩ := hsome ⟨v, hv, hvq⟩
            rw [hmore]
            exact ⟨_, rfl, results_cons_text (results_append_some hnumbers hmoreNumbers)⟩
        · intro hno
          rw [hnone fun ⟨v, hv, hvq⟩ => hno ⟨v, List.mem_cons_of_mem l hv, hvq⟩]
          rfl

/-- **The program** on all the characters of its input: where every line up to `quit` fits
the buffer and the calculator's lines can be computed, it ends if and only if one of its
lines is `quit`, and then it has printed the exact results of the lines before, in order. -/
theorem calcMain_exact (items : Line → List Item) {input : List Int}
    (h : ∀ l ∈ ranLines (linesOf input), l.Computes (items l)) :
    ((calcMain input).isSome = true ↔ ∃ l ∈ linesOf input, l.IsQuit) ∧
      ∀ acts, calcMain input = some acts →
        PrintsExactly acts (sessionNumbers items (linesOf input)) := by
  obtain ⟨hsome, hnone⟩ := boxLoop_numbers h (b := boxStart) rfl rfl
  rw [calcMain, boxLoopChars_lines, Option.isSome_map]
  by_cases hq : ∃ l ∈ linesOf input, l.IsQuit
  · obtain ⟨acts, hacts, hnumbers⟩ := hsome hq
    have hout : results (commClearScreen :: acts ++
        [commClearScreen, .text .stdout "See you again.\n"]) =
        some (sessionNumbers items (linesOf input) ++ []) :=
      results_append_some (results_cons_text hnumbers) rfl
    rw [hacts]
    refine ⟨iff_of_true rfl hq, fun out hmain => ?_⟩
    cases hmain
    rw [printsExactly_iff, hout, List.append_nil]
  · rw [hnone hq]
    exact ⟨iff_of_false Bool.false_ne_true hq, nofun⟩

/-- The characters of a text. -/
def inputOf (s : String) : List Int :=
  (asciiBytes s).map fun b => (b.toNat : Int)

/-- The calculator's lines are `quotientProduct`. -/
def quotientProducts (l : Line) : List Item :=
  if l.IsCalc then quotientProduct else []

/-- Four lines, of which the third is `quit`. -/
theorem calcMain_quotientProduct :
    ((calcMain (inputOf "calc -d 7 -2 --mul 7 7\r\nhelp\nquit\ncalc -d 1 0\n")).isSome = true ↔
        ∃ l ∈ linesOf (inputOf "calc -d 7 -2 --mul 7 7\r\nhelp\nquit\ncalc -d 1 0\n"),
          l.IsQuit) ∧
      ∀ acts, calcMain (inputOf "calc -d 7 -2 --mul 7 7\r\nhelp\nquit\ncalc -d 1 0\n") =
          some acts → PrintsExactly acts (sessionNumbers quotientProducts
            (linesOf (inputOf "calc -d 7 -2 --mul 7 7\r\nhelp\nquit\ncalc -d 1 0\n"))) := by
  apply calcMain_exact
  have hcalculable : Calculable none quotientProduct :=
    ⟨by decide, nofun, none, rfl, by decide, nofun, none, rfl, trivial⟩
  have hlines : ∀ l ∈ ranLines
      (linesOf (inputOf "calc -d 7 -2 --mul 7 7\r\nhelp\nquit\ncalc -d 1 0\n")),
      l.Fits ∧ (l.IsCalc → l.words = calcLine quotientProduct) := by decide +kernel
  intro l hl
  refine ⟨(hlines l hl).1, fun hcalc => ?_⟩
  rw [quotientProducts, if_pos hcalc]
  exact ⟨(hlines l hl).2 hcalc, hcalculable⟩

end Calc

import Alp.CalcBox

/-!
# Do the operands come from the line?

The calculator takes the second operand of an option from the entry of `argv` at `optind`
and does not ask whether there is one.  After the last word of a line that entry is what an
earlier line left there: NULL, or a pointer into a buffer that has been filled anew.

`OperandsOwn` says that a line does not show the lines before it: every index is one of the
line's words after the first, and the acts are those of the same line on a program just
started.  `operandsOwn_iff` is the exact condition, on the words alone (`OwnOperands`).
-/

set_option autoImplicit false

namespace Calc

open CString Getopt
open Comm hiding Scan Line commRunLine

/-- What a line does. -/
def lineActs (b : Box) (l : Line) : Option (List Act) :=
  (boxLine b l).map Prod.snd

/-- The indices at which operands are read are between 1 and `argc - 1`. -/
def ReadsWithin (argc : Nat) (acts : List Act) : Prop :=
  ∀ i, .read i ∈ acts → 1 ≤ i ∧ i < argc

/-- The line does the same as on a program just started, and reads only its own words. -/
def OperandsOwn (b : Box) (l : Line) : Prop :=
  ∃ acts, lineActs b l = some acts ∧ ReadsWithin (commRunLine b.pcd l).argc acts ∧
    lineActs boxStart l = some acts

/-- Every option of the words that takes operands has a word left after its argument, up to
an option whose operation is undefined. -/
def OwnOperands : List Word → Prop
  | [] => True
  | w :: ws =>
    match options.role w with
    | .nonoption => OwnOperands ws
    | .stop => True
    | .options _ ending =>
      match ending with
      | .plain => OwnOperands ws
      | .inline c _ => ws ≠ [] ∧ (eventResult none c w ws ≠ none → OwnOperands ws)
      | .wants c _ =>
        match ws with
        | [] => True
        | x :: ws => ws ≠ [] ∧ (eventResult none c x ws ≠ none → OwnOperands ws)

/-- The same of the events that the words give. -/
def EventsOwn : List Event → Prop
  | [] => True
  | .plain _ :: es => EventsOwn es
  | .taken c _ before rest :: es =>
    rest ≠ [] ∧ (eventResult none c before rest ≠ none → EventsOwn es)

/-- Plain answers take no operand. -/
theorem eventsOwn_plain (answers : List Answer) (es : List Event) :
    EventsOwn (answers.map .plain ++ es) ↔ EventsOwn es := by
  induction answers with
  | nil => rfl
  | cons a answers ih => exact ih

/-- The options of a scan own their operands exactly when the words do. -/
theorem eventsOwn_scan (ws : List Word) : EventsOwn (scan options ws) ↔ OwnOperands ws := by
  fun_induction scan options ws with
  | case1 => rfl
  | case2 w ws hrole ih => rw [ih, OwnOperands, hrole]
  | case3 w ws hrole => simp [OwnOperands, hrole, EventsOwn]
  | case4 w ws answers ending hrole ih ihnext =>
      rw [eventsOwn_plain, OwnOperands, hrole]
      cases ending with
      | plain => exact ih
      | inline c arg => simp only [EventsOwn, ih]
      | wants c e =>
          cases ws with
          | nil => rfl
          | cons x ws => simp only [EventsOwn, ihnext]

/-- With a word left the number printed does not depend on what is past the line. -/
theorem eventResult_own {rest : List Word} (h : rest ≠ []) (past : Option Word) (c : UInt8)
    (before : Word) : eventResult past c before rest = eventResult none c before rest := by
  cases rest with
  | nil => exact absurd rfl h
  | cons w ws => rfl

/-- **The acts** do not depend on what is past the line. -/
theorem play_own {events : List Event} (hlegal : ∀ e ∈ events, e.Legal options)
    (hown : EventsOwn events) (argc : Nat) (past : Option Word) (res : Int) :
    play argc past events res = play argc none events res := by
  induction events generalizing res with
  | nil => rfl
  | cons e es ih =>
      obtain ⟨he, hes⟩ := List.forall_mem_cons.mp hlegal
      cases e with
      | plain a => rw [play_plain argc past he, play_plain argc none he, ih hes hown]
      | taken c arg before rest =>
          rw [play_taken argc past he, play_taken argc none he, eventResult_own hown.1 past]
          cases hres : eventResult none c before rest with
          | none => rfl
          | some n =>
              have hrest := hown.2 (by simp [hres])
              simp only [Option.elim_some, ih hes hrest]

/-- A read in front has to be of an argument of the line. -/
theorem readsWithin_read {argc i : Nat} {acts : List Act} :
    ReadsWithin argc (.read i :: acts) ↔ (1 ≤ i ∧ i < argc) ∧ ReadsWithin argc acts := by
  simp [ReadsWithin]

/-- Other acts are not looked at. -/
theorem readsWithin_other {argc : Nat} {act : Act} (h : ∀ i, act ≠ .read i) {acts : List Act} :
    ReadsWithin argc (act :: acts) ↔ ReadsWithin argc acts := by
  unfold ReadsWithin
  constructor
  · exact fun hall i hi => hall i (List.mem_cons_of_mem _ hi)
  · intro hall i hi
    rcases List.mem_cons.mp hi with heq | hi
    · exact absurd heq.symm (h i)
    · exact hall i hi

/-- Texts in front read nothing. -/
theorem readsWithin_text {argc : Nat} {acts acts' : List Act}
    (h : ∀ act ∈ acts, (∃ stream s, act = .text stream s) ∨ ∃ e, act = .diagnostic e) :
    ReadsWithin argc (acts ++ acts') ↔ ReadsWithin argc acts' := by
  induction acts with
  | nil => rfl
  | cons act acts ih =>
      obtain ⟨hact, hacts⟩ := List.forall_mem_cons.mp h
      rw [List.cons_append, readsWithin_other, ih hacts]
      intro i hread
      rcases hact with ⟨stream, s, rfl⟩ | ⟨e, rfl⟩ <;> cases hread

/-- **The indices** are within the line if and only if every option has its operands. -/
theorem readsWithin_play {argc : Nat} (past : Option Word) {events : List Event}
    (hlegal : ∀ e ∈ events, e.Legal options)
    (hrest : ∀ c arg before rest, .taken c arg before rest ∈ events → rest.length + 2 ≤ argc)
    (res : Int) : ReadsWithin argc (play argc past events res) ↔ EventsOwn events := by
  induction events generalizing res with
  | nil => exact iff_of_true nofun trivial
  | cons e es ih =>
      obtain ⟨he, hes⟩ := List.forall_mem_cons.mp hlegal
      have hrest' : ∀ c arg before rest, .taken c arg before rest ∈ es → rest.length + 2 ≤ argc :=
        fun c arg before rest hmem => hrest c arg before rest (List.mem_cons_of_mem _ hmem)
      cases e with
      | plain a =>
          rw [play_plain argc past he, readsWithin_text (calcSwitch_text he res).2, ih hes hrest']
          rfl
      | taken c arg before rest =>
          have hlen := hrest c arg before rest List.mem_cons_self
          rw [play_taken argc past he, EventsOwn, readsWithin_read, readsWithin_read]
          cases rest with
          | nil =>
              -- the entry read is `argv[argc]`
              refine iff_of_false (fun h => ?_) (fun h => h.1 rfl)
              exact Nat.lt_irrefl argc h.2.1.2
          | cons w ws =>
              rw [List.length_cons] at hlen ⊢
              rw [eventResult_own (List.cons_ne_nil w ws) past, and_iff_right (by omega),
                and_iff_right (by omega), and_iff_right (List.cons_ne_nil w ws)]
              cases hres : eventResult none c before (w :: ws) with
              | none =>
                  refine iff_of_true ?_ (fun h => absurd rfl h)
                  rw [Option.elim_none, readsWithin_other (by simp)]
                  nofun
              | some n =>
                  rw [Option.elim_some, readsWithin_other (by simp), ih hes hrest']
                  simp

/-- The acts of a line that fits. -/
theorem lineActs_eq {b : Box} (hb : b.pcd.tmpsize = commTempBufSize) {l : Line} (hl : l.Fits)
    (hcalc : l.IsCalc) :
    lineActs b l = some (play l.words.length ((commRunLine b.pcd l).argStr l.words.length)
      (scan options l.words.tail) 0) := by
  have hholds := holdsWords_commRunLine hb hl
  have hne : l.words ≠ [] := by
    intro hnil
    rw [Line.IsCalc, hnil] at hcalc
    cases hcalc
  rw [lineActs, boxLine_calc hb hl hcalc, startCalc_eq hholds hne, hholds.argc]
  rfl

/-- **When the operands come from the line.**  After every history, for every line of the
calculator. -/
theorem operandsOwn_iff {lines : List Line} {b : Box} (h : history lines = some b) {l : Line}
    (hcalc : l.IsCalc) : OperandsOwn b l ↔ l.Fits ∧ OwnOperands l.words.tail := by
  have hb := history_tmpsize h
  by_cases hl : l.Fits
  · have hlegal : ∀ e ∈ scan options l.words.tail, e.Legal options :=
      fun e => legal_of_mem_scan
    have hrest : ∀ c arg before rest, .taken c arg before rest ∈ scan options l.words.tail →
        rest.length + 2 ≤ l.words.length := by
      intro c arg before rest hmem
      have hlt := length_rest_lt hmem
      rw [List.length_tail] at hlt
      omega
    have hreads := fun past => readsWithin_play past hlegal hrest 0
    have hargc := (holdsWords_commRunLine hb hl).argc
    unfold OperandsOwn
    rw [lineActs_eq hb hl hcalc, lineActs_eq rfl hl hcalc, hargc, and_iff_right hl,
      ← eventsOwn_scan]
    constructor
    · rintro ⟨acts, hacts, hwithin, -⟩
      cases hacts
      exact (hreads _).mp hwithin
    · intro hown
      refine ⟨_, rfl, (hreads _).mpr hown, ?_⟩
      rw [play_own hlegal hown, play_own hlegal hown _ ((commRunLine b.pcd l).argStr _)]
  · refine iff_of_false ?_ (fun hcond => hl hcond.1)
    rintro ⟨acts, hacts, -⟩
    rw [lineActs, boxLine_none hb hl] at hacts
    cases hacts

/-- The line made of a literal, which ends at an LF. -/
def Line.lit (s : String) (h : ∀ c ∈ (asciiBytes s).map (fun b => (b.toNat : Int)),
    endsLine c = false := by decide +kernel) : Line where
  body := (asciiBytes s).map (fun b => (b.toNat : Int))
  noEnd := h
  ender := 10
  ends := rfl

def subLine : Line := .lit "calc -s 5 6"

def addLine : Line := .lit "calc -a 1 2"

/-- A line without a second operand. -/
def shortLine : Line := .lit "calc -a 1"

/-- A history of one line. -/
theorem history_subLine : ∃ b, history [subLine] = some b := by
  apply Option.isSome_iff_exists.mp
  decide +kernel

/-- Both lines are calculations. -/
theorem isCalc_addLine : addLine.IsCalc ∧ shortLine.IsCalc := by
  unfold Line.IsCalc
  decide +kernel

/-- A line with its operands, after one with others. -/
theorem operandsOwn_addLine : ∃ b, history [subLine] = some b ∧ OperandsOwn b addLine := by
  obtain ⟨b, hb⟩ := history_subLine
  refine ⟨b, hb, (operandsOwn_iff hb isCalc_addLine.1).mpr ⟨?_, ?_⟩⟩
  · rw [Line.fits_iff]
    decide +kernel
  · have hwords : addLine.words.tail = [asciiBytes "-a", asciiBytes "1", asciiBytes "2"] := by
      decide +kernel
    rw [hwords]
    exact ⟨nofun, fun _ => trivial⟩

/-- `calc -a 1` adds the 6 of the line before it. -/
theorem shortLine_takes_earlier :
    ¬ ∀ (lines : List Line) (b : Box) (l : Line), history lines = some b → l.IsCalc →
      OperandsOwn b l := by
  intro hall
  obtain ⟨b, hb⟩ := history_subLine
  have hacts : (history [subLine]).bind (fun b => lineActs b shortLine) =
      some [.read 2, .read 3, .number .stdout 7] := by decide +kernel
  have hstart : lineActs boxStart shortLine = some [.read 2, .read 3, .undefined] := by
    decide +kernel
  obtain ⟨acts, hthis, -, hfirst⟩ := hall [subLine] b shortLine hb isCalc_addLine.2
  rw [hb, Option.bind_some, hthis] at hacts
  rw [hstart] at hfirst
  rw [← hfirst] at hacts
  cases hacts

end Calc

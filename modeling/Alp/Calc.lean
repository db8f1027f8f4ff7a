import Alp.CNumber
import Alp.CommDispatch
import Alp.Getopt

/-!
# The calculator of demo-calc

`start_calc` runs `getopt_long` over the words of a line and calculates at every option
that it answers.  The operands of an option are taken from `argv` by position: the entry
before `optind`, where the argument of the option stands when it is a word of its own,
and the entry at `optind`.  Nothing compares `optind` with `argc`.

What a call does is the list of its acts (`startCalc`): what it writes, the entries of
`argv` it hands to `strtol`, and where it comes to an operation that C leaves undefined,
after which there is nothing.  `startCalc_eq` reads the acts off the words of the line
(`play`).  Only the word at `optind` may come from elsewhere, when the line has none left.
-/

set_option autoImplicit false

namespace Calc

open CString Getopt
open Comm hiding Scan

/-- `long_options`. -/
def longOptions : List LongOption :=
  [⟨asciiBytes "help", false, 0x68⟩, ⟨asciiBytes "version", false, 0x76⟩,
    ⟨asciiBytes "add", true, 0x61⟩, ⟨asciiBytes "sub", true, 0x73⟩,
    ⟨asciiBytes "mul", true, 0x6D⟩, ⟨asciiBytes "div", true, 0x64⟩]

/-- `short_options`. -/
def shortOptions : List UInt8 :=
  asciiBytes "hva:s:m:d:"

def options : Options where
  short := shortOptions
  long := longOptions

inductive Stream
  | stdout
  | stderr
  deriving DecidableEq

/-- What the calculator does. -/
inductive Act
  | text (stream : Stream) (s : String)
  /-- `fprintf(stream, "%d\n", n)` -/
  | number (stream : Stream) (n : Int)
  /-- `getopt_long` writes its message on stderr. -/
  | diagnostic (e : Error)
  /-- `strtol(argv[i], NULL, 0)` -/
  | read (i : Nat)
  /-- An operation without a meaning in C. -/
  | undefined
  /-- `abort()` -/
  | abort
  deriving DecidableEq

/-- `calc_print_version`. -/
def calcPrintVersion (stream : Stream) : List Act :=
  [.text stream "calc version 1.0\n"]

/-- `calc_print_usage`; the exit code is not used. -/
def calcPrintUsage (stream : Stream) : List Act :=
  [.text stream "calc usage:\n",
    .text stream (" -h --help\t\tDisplay usage information.\n" ++
      " -v --version\t\tDisplay version.\n" ++
      " -a --add [d1] [d2]\td1 + d2 \n" ++
      " -s --sub [d1] [d2]\td1 - d2 \n" ++
      " -m --mul [d1] [d2]\td1 * d2 \n" ++
      " -d --div [d1] [d2]\td1 / d2 \n")]

/-- `calc_print_result`. -/
def calcPrintResult (stream : Stream) (res : Int) : List Act :=
  [.number stream res]

/-- `enum CALC_CMD`. -/
inductive CalcCmd
  | add
  | sub
  | div
  | mul
  deriving DecidableEq

/-- The values of `int`. -/
def IsInt (n : Int) : Prop :=
  -2 ^ 31 ≤ n ∧ n < 2 ^ 31

instance (n : Int) : Decidable (IsInt n) :=
  inferInstanceAs (Decidable (_ ∧ _))

/-- The result of an operation on integers; C rounds a quotient towards zero. -/
def CalcCmd.exact : CalcCmd → Int → Int → Int
  | .add, a, b => a + b
  | .sub, a, b => a - b
  | .div, a, b => a.tdiv b
  | .mul, a, b => a * b

/-- The result of an operation on `int`, where it is defined. -/
def CalcCmd.result (op : CalcCmd) (a b : Int) : Option Int :=
  if op = .div ∧ b = 0 then none
  else if IsInt (op.exact a b) then some (op.exact a b)
  else none

/-- `calc_do_calculate`: what it returns and what it leaves in `*res`; `none` where it
evaluates something undefined.  On a zero divisor it divides after it has set `r`. -/
def calcDoCalculate (a b : Int) (op : CalcCmd) (res : Int) : Option (Int × Int) :=
  let r := if op = .div ∧ b = 0 then -1 else 0
  (op.result a b).map (fun s => (r, if r = 0 then s else res))

/-- A `long` stored in an `int`. -/
def intOfLong (n : Int) : Int :=
  n.bmod (2 ^ 32)

/-- The values `strtol` gives for two strings; `none` if one of them is not a string. -/
def operands (a b : Option Word) : Option (Int × Int) :=
  a.bind fun a => b.map fun b => (intOfLong (strtol a), intOfLong (strtol b))

/-- The string behind `argv[i]` in the course of a scan, which moves the entries below
`argc`. -/
def argAt (d : CommData) (s : Scan) (i : Nat) : Option Word :=
  if i < d.argc then s.argv[i]? else d.argStr i

/-- `calc_get_param`. -/
def calcGetParam (d : CommData) (s : Scan) : Option (Int × Int) :=
  operands (argAt d s (s.optind - 1)) (argAt d s s.optind)

/-- The operation of an option. -/
def calcCmdOf (c : UInt8) : Option CalcCmd :=
  if c = 0x61 then some .add
  else if c = 0x73 then some .sub
  else if c = 0x6D then some .mul
  else if c = 0x64 then some .div
  else none

/-- The case of an option that calculates, with the operands `calc_get_param` finds: the
acts, and the new value of `res` if the call goes on. -/
def calcCase (optind : Nat) (params : Option (Int × Int)) (op : CalcCmd) (res : Int) :
    List Act × Option Int :=
  let reads := [.read (optind - 1), .read optind]
  match params.bind (fun p => calcDoCalculate p.1 p.2 op res) with
  | none => (reads ++ [.undefined], none)
  | some (err, res) =>
    (reads ++ (if err ≠ 0 then calcPrintUsage .stderr else []) ++ calcPrintResult .stdout res,
      some res)

/-- The `switch` of `start_calc`. -/
def calcSwitch (optind : Nat) (params : Option (Int × Int)) (res : Int) :
    Answer → List Act × Option Int
  | .done => ([], some res)
  | .error e => (.diagnostic e :: calcPrintUsage .stderr, some res)
  | .option c _ =>
    match calcCmdOf c with
    | some op => calcCase optind params op res
    | none =>
      if c = 0x68 then (calcPrintUsage .stdout, some res)
      else if c = 0x76 then (calcPrintVersion .stdout, some res)
      else ([.abort], none)

/-- The loop of `start_calc`; `none` if it goes on for more than the given rounds. -/
def calcLoop (d : CommData) : Nat → Scan → Int → Option (List Act)
  | 0, _, _ => none
  | n + 1, s, res =>
    let (a, s) := getoptLong options s
    if a = .done then some []
    else
      match calcSwitch s.optind (calcGetParam d s) res a with
      | (acts, none) => some acts
      | (acts, some res) => (calcLoop d n s res).map (acts ++ ·)

/-- The strings of `argv`; `none` if one of them is not a string. -/
def argStrs (d : CommData) : Option (List Word) :=
  (List.range d.argc).mapM d.argStr

/-- `start_calc(d->argc, d->argv)`. -/
def startCalc (d : CommData) : Option (List Act) :=
  match argStrs d with
  | none => some [.undefined]
  | some argv => calcLoop d (argv.flatten.length + 1) (Scan.start argv) 0

/-- The command data hold the words. -/
structure HoldsWords (d : CommData) (words : List Word) : Prop where
  argc : d.argc = words.length
  strs : ∀ (i : Nat) (hi : i < words.length), d.argStr i = some words[i]

/-- The `switch` for an event; `past` is the string behind `argv[argc]`. -/
def playEvent (argc : Nat) (past : Option Word) (res : Int) : Event → List Act × Option Int
  | .plain a => calcSwitch 0 none res a
  | .taken c arg before rest =>
    calcSwitch (argc - rest.length) (operands (some before) (rest.head?.or past)) res
      (.option c (some arg))

/-- The acts that come of the events of a line. -/
def play (argc : Nat) (past : Option Word) : List Event → Int → List Act
  | [], _ => []
  | e :: es, res =>
    match playEvent argc past res e with
    | (acts, none) => acts
    | (acts, some res) => acts ++ play argc past es res

/-- The words that are held are the arguments. -/
theorem HoldsWords.argStrs {d : CommData} {words : List Word} (h : HoldsWords d words) :
    argStrs d = some words := by
  have hmap : ∀ ws : List Word, (∀ (i : Nat) (hi : i < ws.length), d.argStr i = some ws[i]) →
      (List.range ws.length).mapM d.argStr = some ws := by
    intro ws
    induction ws using List.reverseRecOn with
    | nil => intro _; rfl
    | append_singleton ws w ih =>
        intro hstr
        have hinit : (List.range ws.length).mapM d.argStr = some ws := by
          refine ih fun i hi => ?_
          have hi' := hstr i (by rw [List.length_append]; omega)
          rwa [List.getElem_append_left hi] at hi'
        have hlast : d.argStr ws.length = some w := by
          have hi' := hstr ws.length (by simp)
          rwa [List.getElem_concat_length rfl] at hi'
        rw [List.length_append, List.length_singleton, List.range_succ, List.mapM_append, hinit]
        simp [hlast]
  rw [Calc.argStrs, h.argc]
  exact hmap words h.strs

/-- The letters that `short_options` has without and with a colon. -/
theorem findShort_options (c : UInt8) :
    (options.findShort c = some false → c = 0x68 ∨ c = 0x76) ∧
      (options.findShort c = some true → calcCmdOf c ≠ none) := by
  have hall : ∀ n < 256,
      (options.findShort (UInt8.ofNat n) = some false →
        UInt8.ofNat n = 0x68 ∨ UInt8.ofNat n = 0x76) ∧
      (options.findShort (UInt8.ofNat n) = some true → calcCmdOf (UInt8.ofNat n) ≠ none) := by
    decide +kernel
  have hc := hall c.toNat c.toNat_lt
  rwa [UInt8.ofNat_toNat] at hc

/-- An option without an argument prints the usage or the version. -/
theorem flag_options {c : UInt8} (h : options.Flag c) : c = 0x68 ∨ c = 0x76 := by
  rcases h with hshort | ⟨p, hp, harg, rfl⟩
  · exact (findShort_options c).1 hshort
  · revert harg
    revert p
    decide

/-- An option with an argument calculates. -/
theorem taking_options {c : UInt8} (h : options.Taking c) : calcCmdOf c ≠ none := by
  rcases h with hshort | ⟨p, hp, harg, rfl⟩
  · exact (findShort_options c).2 hshort
  · revert harg
    revert p
    decide

/-- The switch looks at operands only after an option that has taken an argument. -/
theorem calcSwitch_plain {a : Answer} (h : a.Plain options) (optind : Nat)
    (params : Option (Int × Int)) (res : Int) :
    calcSwitch optind params res a = calcSwitch 0 none res a := by
  rcases h with ⟨e, rfl⟩ | ⟨c, rfl, hflag⟩
  · rfl
  · rcases flag_options hflag with rfl | rfl <;> rfl

/-- What `calc_get_param` finds when an option has just taken its argument. -/
theorem calcGetParam_finds {d : CommData} {s : Scan} {before : Word} {rest : List Word}
    (h : Finds d.argc s before rest) :
    calcGetParam d s = operands (some before) (rest.head?.or (d.argStr d.argc)) := by
  obtain ⟨hwords, hoptind, hsecond, hbefore, hrest⟩ := h
  have hfirst : argAt d s (s.optind - 1) = some before := by
    rw [argAt, if_pos (by omega), hbefore]
  have hnext : argAt d s s.optind = rest.head?.or (d.argStr d.argc) := by
    rw [← hrest, Getopt.Scan.left, List.head?_drop]
    by_cases hin : s.optind < d.argc
    · rw [argAt, if_pos hin, List.getElem?_eq_getElem (by omega)]
      rfl
    · have hend : s.optind = d.argc := by omega
      rw [argAt, if_neg hin, List.getElem?_eq_none (by omega), hend]
      rfl
  rw [calcGetParam, hfirst, hnext]

/-- The loop plays the events of its calls. -/
theorem calcLoop_play {d : CommData} {s : Scan} {l : List (Answer × Scan)} {events : List Event}
    (hrun : Run options s l) (hall : List.Forall₂ (Matches d.argc) l events)
    (hlegal : ∀ e ∈ events, e.Legal options) {n : Nat} (hn : events.length < n) (res : Int) :
    calcLoop d n s res = some (play d.argc (d.argStr d.argc) events res) := by
  induction hrun generalizing events n res with
  | done h =>
      cases hall
      obtain ⟨n, rfl⟩ : ∃ k, n = k + 1 := ⟨n - 1, by simp at hn; omega⟩
      simp [calcLoop, h, play]
  | @call s s' a l h ha hrest ih =>
      cases hall with
      | @cons _ e _ es hmatch hall =>
          obtain ⟨he, hes⟩ := List.forall_mem_cons.mp hlegal
          rw [List.length_cons] at hn
          obtain ⟨n, rfl⟩ : ∃ k, n = k + 1 := ⟨n - 1, by omega⟩
          have hswitch : calcSwitch s'.optind (calcGetParam d s') res a =
              playEvent d.argc (d.argStr d.argc) res e := by
            cases e with
            | plain a' =>
                obtain rfl : a = a' := hmatch
                exact calcSwitch_plain he _ _ _
            | taken c arg before rest =>
                obtain ⟨rfl, hfinds⟩ := hmatch
                have hoptind : s'.optind = d.argc - rest.length := by
                  have hsum : s'.optind + rest.length = d.argc := hfinds.optind
                  omega
                rw [calcGetParam_finds hfinds, hoptind]
                rfl
          simp only [calcLoop, h, if_neg ha, hswitch, play]
          cases hplay : playEvent d.argc (d.argStr d.argc) res e with
          | mk acts next =>
              cases next with
              | none => rfl
              | some res' =>
                  have hloop := ih hall hes (Nat.lt_of_succ_lt_succ hn) res'
                  simp only [hloop, Option.map_some]

/-- **A call of the calculator.**  It ends, and its acts come of the words after the first
from left to right. -/
theorem startCalc_eq {d : CommData} {words : List Word} (h : HoldsWords d words)
    (hne : words ≠ []) :
    startCalc d = some (play d.argc (d.argStr d.argc) (scan options words.tail) 0) := by
  obtain ⟨l, hrun, hall⟩ := exists_run options hne
  have hcount := length_scan_le options words.tail
  have htail : words.tail.flatten.length ≤ words.flatten.length := by
    cases words with
    | nil => exact absurd rfl hne
    | cons w ws => simp
  rw [← h.argc] at hall
  rw [startCalc, h.argStrs]
  exact calcLoop_play hrun hall (fun e => legal_of_mem_scan) (by omega) 0

/-- The number that an option prints; `none` if the operation on what it finds is
undefined. -/
def eventResult (past : Option Word) (c : UInt8) (before : Word) (rest : List Word) :
    Option Int :=
  (operands (some before) (rest.head?.or past)).bind fun p =>
    (calcCmdOf c).bind fun op => op.result p.1 p.2

/-- Where the operation is defined, it leaves no error. -/
theorem calcDoCalculate_eq (a b : Int) (op : CalcCmd) (res : Int) :
    calcDoCalculate a b op res = (op.result a b).map fun s => (0, s) := by
  unfold calcDoCalculate CalcCmd.result
  by_cases h : op = .div ∧ b = 0
  · simp [h]
  · simp [h]

/-- An answer without an argument has text printed. -/
theorem calcSwitch_text {a : Answer} (h : a.Plain options) (res : Int) :
    (calcSwitch 0 none res a).2 = some res ∧
      ∀ act ∈ (calcSwitch 0 none res a).1,
        (∃ stream s, act = .text stream s) ∨ ∃ e, act = .diagnostic e := by
  rcases h with ⟨e, rfl⟩ | ⟨c, rfl, hflag⟩
  · refine ⟨rfl, List.forall_mem_cons.mpr ⟨.inr ⟨e, rfl⟩, ?_⟩⟩
    simp [calcPrintUsage]
  · rcases flag_options hflag with rfl | rfl
    · exact ⟨rfl, by simp [calcSwitch, calcCmdOf, calcPrintUsage]⟩
    · exact ⟨rfl, by simp [calcSwitch, calcCmdOf, calcPrintVersion]⟩

/-- A plain answer says its text and goes on. -/
theorem play_plain (argc : Nat) (past : Option Word) {a : Answer} (h : a.Plain options)
    (es : List Event) (res : Int) :
    play argc past (.plain a :: es) res =
      (calcSwitch 0 none res a).1 ++ play argc past es res := by
  have hnext := (calcSwitch_text h res).1
  rw [play, playEvent]
  generalize calcSwitch 0 none res a = p at hnext ⊢
  obtain ⟨acts, next⟩ := p
  cases hnext
  rfl

/-- An option that has taken its argument. -/
theorem play_taken (argc : Nat) (past : Option Word) {c : UInt8} (h : options.Taking c)
    (arg before : Word) (rest : List Word) (es : List Event) (res : Int) :
    play argc past (.taken c arg before rest :: es) res =
      .read (argc - rest.length - 1) :: .read (argc - rest.length) ::
        (eventResult past c before rest).elim [.undefined]
          (fun n => .number .stdout n :: play argc past es n) := by
  obtain ⟨op, hop⟩ := Option.ne_none_iff_exists'.mp (taking_options h)
  rw [play, playEvent, calcSwitch, hop]
  simp only [calcCase, calcDoCalculate_eq, eventResult, hop, Option.bind_some]
  cases operands (some before) (rest.head?.or past) with
  | none => rfl
  | some p => cases hres : op.result p.1 p.2 <;> simp [hres, calcPrintResult]

end Calc

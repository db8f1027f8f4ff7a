import Mathlib.Data.List.Forall2
import Mathlib.Data.List.TakeWhile

/-!
# `getopt_long`

The option parser of the C library, one call at a time, for an option string whose
letters take no argument or one they require.  A scan stands at a word (`optind`) or
inside a word of short options (`nextchar`).  Words that are no options are passed over
and, with the next call, moved behind the options read since (`Scan.exchange`); `--` ends
the options; the name of a long option may be shortened as long as it says which is meant.
A fault makes the call answer `'?'`, with a message on stderr that `Error` stands for.

A program calls it until it answers -1 (`Run`).  `exists_run` says what such a run finds:
the answers are read off the words from left to right (`scan`) and, since words are only
moved about behind `optind`, a caller that looks around `optind` when an option has just
taken its argument sees the words as they were given.
-/

set_option autoImplicit false

namespace Getopt

/-- A word of the command line, without its NUL. -/
abbrev Word := List UInt8

/-- `'-'`. -/
def dash : UInt8 := 0x2D

/-- `'='`. -/
def equals : UInt8 := 0x3D

/-- `':'`. -/
def colon : UInt8 := 0x3A

/-- `struct option`, with `flag` NULL and `has_arg` 0 or 1. -/
structure LongOption where
  name : Word
  hasArg : Bool
  val : UInt8
  deriving DecidableEq

/-- The options of a program: `optstring` and the table of long options. -/
structure Options where
  short : List UInt8
  long : List LongOption

/-- The faults of a command line. -/
inductive Error
  /-- invalid option -/
  | invalid (c : UInt8)
  /-- option requires an argument -/
  | missing (c : UInt8)
  /-- unrecognized option -/
  | unrecognized (w : Word)
  /-- option is ambiguous -/
  | ambiguous (w : Word)
  /-- option doesn't allow an argument -/
  | extraneous (name : Word)
  /-- long option requires an argument -/
  | missingLong (name : Word)
  deriving DecidableEq

/-- What a call returns. -/
inductive Answer
  | option (c : UInt8) (optarg : Option Word)
  /-- `'?'` -/
  | error (e : Error)
  /-- `-1` -/
  | done
  deriving DecidableEq

/-- Where a scan stands. -/
structure Scan where
  /-- `argv[0]`, …, `argv[argc - 1]` -/
  argv : List Word
  optind : Nat
  /-- What is left of the word of short options at `optind`. -/
  nextchar : List UInt8
  /-- The words skipped and not yet moved stand from `firstNonopt` to `lastNonopt`. -/
  firstNonopt : Nat
  lastNonopt : Nat
  deriving DecidableEq

/-- A scan begins, with `optind` set to 1. -/
def Scan.start (argv : List Word) : Scan where
  argv := argv
  optind := 1
  nextchar := []
  firstNonopt := 1
  lastNonopt := 1

/-- The words from `optind` on. -/
def Scan.left (s : Scan) : List Word :=
  s.argv.drop s.optind

/-- The word is no option: it does not start with a dash, or is only a dash. -/
def isNonoption (w : Word) : Bool :=
  w[0]? != some dash || w[1]? == none

/-- The words skipped change places with the options after them. -/
def Scan.exchange (s : Scan) : Scan :=
  { s with
    argv := s.argv.take s.firstNonopt ++
      ((s.argv.take s.optind).drop s.lastNonopt ++
        ((s.argv.take s.lastNonopt).drop s.firstNonopt ++ s.argv.drop s.optind))
    firstNonopt := s.firstNonopt + (s.optind - s.lastNonopt)
    lastNonopt := s.optind }

/-- Before the next word is looked at. -/
def Scan.permute (s : Scan) : Scan :=
  if s.lastNonopt = s.optind then s
  else if s.firstNonopt = s.lastNonopt then { s with firstNonopt := s.optind }
  else s.exchange

/-- Skip the words that are no options. -/
def Scan.skip (s : Scan) : Scan :=
  { s with
    optind := s.optind + (s.left.takeWhile isNonoption).length
    lastNonopt := s.optind + (s.left.takeWhile isNonoption).length }

/-- The scan is over: `optind` goes back to the words skipped. -/
def Scan.finish (s : Scan) : Scan :=
  if s.firstNonopt = s.lastNonopt then s else { s with optind := s.firstNonopt }

/-- At `--` the scan is over, and every word after it counts as skipped. -/
def Scan.stop (s : Scan) : Scan :=
  let s := { s with optind := s.optind + 1 }
  let s := if s.firstNonopt = s.lastNonopt then { s with firstNonopt := s.optind } else s.exchange
  Scan.finish { s with lastNonopt := s.argv.length, optind := s.argv.length }

/-- The word at `optind` is done with. -/
def Scan.pass (s : Scan) : Scan :=
  { s with optind := s.optind + 1, nextchar := [] }

/-- An option takes the word at `optind` as its argument. -/
def Scan.takeArg (s : Scan) (c : UInt8) (e : Error) : Answer × Scan :=
  match s.left with
  | [] => (.error e, { s with nextchar := [] })
  | x :: _ => (.option c (some x), s.pass)

/-- Whether the letter is in an option string, and if so whether a colon follows it. -/
def findLetter (c : UInt8) : List UInt8 → Option Bool
  | [] => none
  | b :: rest => if b = c then some (rest.head? == some colon) else findLetter c rest

/-- Whether a letter is an option, and if so whether it requires an argument. -/
def Options.findShort (o : Options) (c : UInt8) : Option Bool :=
  if c = colon then none else findLetter c o.short

/-- The result of looking up the name of a long option. -/
inductive Lookup
  | found (p : LongOption)
  | ambiguous
  | unknown

/-- The long option that has the name or, if there is none, the one that is meant when a
name may be shortened. -/
def Options.findLong (o : Options) (name : Word) : Lookup :=
  match o.long.find? (fun p => p.name == name) with
  | some p => .found p
  | none =>
    match o.long.filter (fun p => name.isPrefixOf p.name) with
    | [] => .unknown
    | p :: others =>
      if others.all (fun q => q.hasArg == p.hasArg && q.val == p.val) then .found p
      else .ambiguous

/-- The name in a long option without its dashes. -/
def nameOf (body : Word) : Word :=
  body.takeWhile (· != equals)

/-- The argument in a long option without its dashes. -/
def valueOf (body : Word) : Option Word :=
  (body.dropWhile (· != equals)).tail?

/-- A long option `w`; `body` is what follows its dashes. -/
def longOption (o : Options) (w body : Word) (s : Scan) : Answer × Scan :=
  match o.findLong (nameOf body) with
  | .ambiguous => (.error (.ambiguous w), s.pass)
  | .unknown => (.error (.unrecognized w), s.pass)
  | .found p =>
    match valueOf body, p.hasArg with
    | some v, true => (.option p.val (some v), s.pass)
    | some _, false => (.error (.extraneous p.name), s.pass)
    | none, true => s.pass.takeArg p.val (.missingLong p.name)
    | none, false => (.option p.val none, s.pass)

/-- The next letter of a word of short options. -/
def shortOption (o : Options) (s : Scan) : Answer × Scan :=
  match s.nextchar with
  | [] => (.done, s)
  | c :: rest =>
    let next := if rest = [] then s.pass else { s with nextchar := rest }
    match o.findShort c with
    | none => (.error (.invalid c), next)
    | some false => (.option c none, next)
    | some true =>
      if rest = [] then next.takeArg c (.missing c) else (.option c (some rest), s.pass)

/-- `getopt_long`. -/
def getoptLong (o : Options) (s : Scan) : Answer × Scan :=
  if s.nextchar = [] then
    let s := s.permute.skip
    match s.left with
    | [] => (.done, s.finish)
    | w :: _ =>
      if w = [dash, dash] then (.done, s.stop)
      else if w[1]? = some dash then longOption o w (w.drop 2) s
      else shortOption o { s with nextchar := w.drop 1 }
  else shortOption o s

/-- The calls from a state on until one answers -1: the answers, each with the state it
leaves. -/
inductive Run (o : Options) : Scan → List (Answer × Scan) → Prop
  | done {s s' : Scan} (h : getoptLong o s = (.done, s')) : Run o s []
  | call {s s' : Scan} {a : Answer} {l : List (Answer × Scan)} (h : getoptLong o s = (a, s'))
      (ha : a ≠ .done) (hrest : Run o s' l) : Run o s ((a, s') :: l)

/-- How a word of options ends. -/
inductive Ending
  | plain
  /-- With an option and its argument. -/
  | inline (c : UInt8) (arg : Word)
  /-- With an option whose argument is the next word; the fault if there is none. -/
  | wants (c : UInt8) (e : Error)

/-- A word that no option has taken. -/
inductive Role
  | nonoption
  /-- `--` -/
  | stop
  | options (answers : List Answer) (ending : Ending)

/-- A word of short options. -/
def Options.cluster (o : Options) : List UInt8 → List Answer × Ending
  | [] => ([], .plain)
  | c :: rest =>
    match o.findShort c with
    | none => (.error (.invalid c) :: (cluster o rest).1, (cluster o rest).2)
    | some false => (.option c none :: (cluster o rest).1, (cluster o rest).2)
    | some true => ([], if rest = [] then .wants c (.missing c) else .inline c rest)

/-- A long option `w`; `body` is what follows its dashes. -/
def Options.longWord (o : Options) (w body : Word) : List Answer × Ending :=
  match o.findLong (nameOf body) with
  | .ambiguous => ([.error (.ambiguous w)], .plain)
  | .unknown => ([.error (.unrecognized w)], .plain)
  | .found p =>
    match valueOf body, p.hasArg with
    | some v, true => ([], .inline p.val v)
    | some _, false => ([.error (.extraneous p.name)], .plain)
    | none, true => ([], .wants p.val (.missingLong p.name))
    | none, false => ([.option p.val none], .plain)

/-- What a word is, if no option has taken it. -/
def Options.role (o : Options) (w : Word) : Role :=
  if isNonoption w then .nonoption
  else if w = [dash, dash] then .stop
  else if w[1]? = some dash then .options (o.longWord w (w.drop 2)).1 (o.longWord w (w.drop 2)).2
  else .options (o.cluster (w.drop 1)).1 (o.cluster (w.drop 1)).2

/-- An answer of a run.  An option that has taken an argument comes with the word that
is now before `optind` and the words from `optind` on. -/
inductive Event
  | plain (a : Answer)
  | taken (c : UInt8) (optarg before : Word) (rest : List Word)

/-- The answers that the words give. -/
def scan (o : Options) : List Word → List Event
  | [] => []
  | w :: ws =>
    match o.role w with
    | .nonoption => scan o ws
    | .stop => []
    | .options answers ending =>
      answers.map .plain ++
        match ending with
        | .plain => scan o ws
        | .inline c arg => .taken c arg w ws :: scan o ws
        | .wants c e =>
          match ws with
          | [] => [.plain (.error e)]
          | x :: ws => .taken c x x ws :: scan o ws

/-- What follows the answers of a word of options. -/
def Ending.events (o : Options) (w : Word) (ws : List Word) : Ending → List Event
  | .plain => scan o ws
  | .inline c arg => .taken c arg w ws :: scan o ws
  | .wants c e =>
    match ws with
    | [] => [.plain (.error e)]
    | x :: ws => .taken c x x ws :: scan o ws

/-- A word that is no option gives no event. -/
theorem scan_nonoption {o : Options} {w : Word} (h : o.role w = .nonoption) (ws : List Word) :
    scan o (w :: ws) = scan o ws := by
  rw [scan, h]

/-- A word of options gives their events, and the last one may take the next word. -/
theorem scan_options {o : Options} {w : Word} {answers : List Answer} {ending : Ending}
    (h : o.role w = .options answers ending) (ws : List Word) :
    scan o (w :: ws) = answers.map .plain ++ ending.events o w ws := by
  rw [scan, h]
  cases ending <;> rfl

/-- Skipped words give no answer. -/
theorem scan_dropWhile (o : Options) (ws : List Word) :
    scan o (ws.dropWhile isNonoption) = scan o ws := by
  induction ws with
  | nil => rfl
  | cons w ws ih =>
      by_cases h : isNonoption w = true
      · have hrole : o.role w = .nonoption := by rw [Options.role, if_pos h]
        rw [List.dropWhile_cons_of_pos h, scan_nonoption hrole, ih]
      · rw [List.dropWhile_cons_of_neg h]

/-- The bounds every state of a scan over `argc` words keeps. -/
structure Ordered (argc : Nat) (s : Scan) : Prop where
  words : s.argv.length = argc
  first : s.firstNonopt ≤ s.lastNonopt
  last : s.lastNonopt ≤ s.optind
  pos : 1 ≤ s.optind
  bound : s.optind ≤ argc

/-- The words left are those from `optind` on. -/
theorem Ordered.length_left {argc : Nat} {s : Scan} (h : Ordered argc s) :
    s.optind + s.left.length = argc := by
  have hbound := h.bound
  rw [Scan.left, List.length_drop, h.words]
  omega

/-- Moving words does not touch those from `optind` on. -/
theorem Ordered.exchange {argc : Nat} {s : Scan} (h : Ordered argc s) :
    Ordered argc s.exchange ∧ s.exchange.left = s.left := by
  obtain ⟨hwords, hfirst, hlast, hpos, hbound⟩ := h
  have hlens : (s.argv.take s.firstNonopt ++ ((s.argv.take s.optind).drop s.lastNonopt ++
      (s.argv.take s.lastNonopt).drop s.firstNonopt)).length = s.optind := by
    simp only [List.length_append, List.length_take, List.length_drop]
    omega
  have hargv : s.exchange.argv = (s.argv.take s.firstNonopt ++
      ((s.argv.take s.optind).drop s.lastNonopt ++
        (s.argv.take s.lastNonopt).drop s.firstNonopt)) ++ s.left := by
    simp only [Scan.exchange, Scan.left, List.append_assoc]
  constructor
  · refine ⟨?_, ?_, Nat.le_refl _, hpos, hbound⟩
    · rw [hargv, List.length_append, hlens, Scan.left, List.length_drop, hwords]
      omega
    · simp only [Scan.exchange]
      omega
  · rw [Scan.left, hargv]
    exact List.drop_left' hlens

/-- Skipping passes over the words that are no options and keeps them in front. -/
theorem Ordered.skip {argc : Nat} {s : Scan} (hwords : s.argv.length = argc)
    (hfirst : s.firstNonopt ≤ s.optind) (hpos : 1 ≤ s.optind) (hbound : s.optind ≤ argc) :
    Ordered argc s.skip ∧ s.skip.left = s.left.dropWhile isNonoption := by
  have hle : (s.left.takeWhile isNonoption).length ≤ s.left.length :=
    (List.takeWhile_prefix _).length_le
  have hleft : s.left.length = argc - s.optind := by
    rw [Scan.left, List.length_drop, hwords]
  constructor
  · constructor
    · exact hwords
    · exact Nat.le_trans hfirst (Nat.le_add_right _ _)
    · exact Nat.le_refl _
    · exact Nat.le_trans hpos (Nat.le_add_right _ _)
    · simp only [Scan.skip]
      omega
  · calc s.skip.left = s.left.drop (s.left.takeWhile isNonoption).length := by
          simp only [Scan.skip, Scan.left, List.drop_drop]
      _ = (s.left.takeWhile isNonoption ++ s.left.dropWhile isNonoption).drop
            (s.left.takeWhile isNonoption).length := by rw [List.takeWhile_append_dropWhile]
      _ = s.left.dropWhile isNonoption := List.drop_left

/-- Before the next word that is an option. -/
theorem Ordered.advance {argc : Nat} {s : Scan} (h : Ordered argc s) :
    Ordered argc s.permute.skip ∧ s.permute.skip.left = s.left.dropWhile isNonoption ∧
      s.permute.skip.nextchar = s.nextchar := by
  have hlast := Nat.le_trans h.first h.last
  unfold Scan.permute
  split
  · have hskip := Ordered.skip h.words hlast h.pos h.bound
    exact ⟨hskip.1, hskip.2, rfl⟩
  · split
    · have hskip := Ordered.skip (s := { s with firstNonopt := s.optind }) h.words
        (Nat.le_refl _) h.pos h.bound
      exact ⟨hskip.1, hskip.2, rfl⟩
    · obtain ⟨hex, hleft⟩ := h.exchange
      have hskip := Ordered.skip hex.words (Nat.le_trans hex.first hex.last) hex.pos hex.bound
      rw [hleft] at hskip
      exact ⟨hskip.1, hskip.2, rfl⟩

/-- The word at `optind` is passed. -/
theorem Ordered.pass {argc : Nat} {s : Scan} (h : Ordered argc s) {w : Word} {ws : List Word}
    (hleft : s.left = w :: ws) :
    Ordered argc s.pass ∧ s.pass.left = ws ∧ s.pass.argv[s.pass.optind - 1]? = some w := by
  have hlen := h.length_left
  rw [hleft, List.length_cons] at hlen
  refine ⟨⟨h.words, h.first, Nat.le_succ_of_le h.last, Nat.le_succ_of_le h.pos, ?_⟩, ?_, ?_⟩
  · simp only [Scan.pass]
    omega
  · have hdrop : s.left.drop 1 = ws := by rw [hleft]; rfl
    rw [Scan.left, List.drop_drop] at hdrop
    exact hdrop
  · have hhead : s.left[0]? = some w := by rw [hleft]; rfl
    rw [Scan.left, List.getElem?_drop] at hhead
    exact hhead

/-- A caller at `s` finds the word `before` before `optind` and `rest` from `optind` on. -/
structure Finds (argc : Nat) (s : Scan) (before : Word) (rest : List Word) : Prop where
  words : s.argv.length = argc
  optind : s.optind + rest.length = argc
  second : 2 ≤ s.optind
  before : s.argv[s.optind - 1]? = some before
  rest : s.left = rest

/-- What a call answers, and the state it leaves, fit the event. -/
def Matches (argc : Nat) (p : Answer × Scan) : Event → Prop
  | .plain a => p.1 = a
  | .taken c arg before rest => p.1 = .option c (some arg) ∧ Finds argc p.2 before rest

/-- From `s` on the calls give the events. -/
def Gives (o : Options) (argc : Nat) (s : Scan) (events : List Event) : Prop :=
  ∃ l, Run o s l ∧ List.Forall₂ (Matches argc) l events

/-- From every state between two words the calls give what the words left give. -/
def GivesWords (o : Options) (argc : Nat) (ws : List Word) : Prop :=
  ∀ s, Ordered argc s → s.nextchar = [] → s.left = ws → Gives o argc s (scan o ws)

/-- A call that answers is followed by those that the rest gives. -/
theorem Gives.call {o : Options} {argc : Nat} {s s' : Scan} {a : Answer} {event : Event}
    {events : List Event} (h : getoptLong o s = (a, s')) (ha : a ≠ .done)
    (hmatch : Matches argc (a, s') event) (hrest : Gives o argc s' events) :
    Gives o argc s (event :: events) := by
  obtain ⟨l, hrun, hall⟩ := hrest
  exact ⟨(a, s') :: l, .call h ha hrun, .cons hmatch hall⟩

/-- A call that answers -1 is the last one. -/
theorem Gives.done {o : Options} {argc : Nat} {s s' : Scan}
    (h : getoptLong o s = (.done, s')) : Gives o argc s [] :=
  ⟨[], .done h, .nil⟩

/-- Only the answer to the next call counts. -/
theorem Gives.congr {o : Options} {argc : Nat} {s s' : Scan} {events : List Event}
    (h : getoptLong o s = getoptLong o s') (hs' : Gives o argc s' events) :
    Gives o argc s events := by
  obtain ⟨l, hrun, hall⟩ := hs'
  refine ⟨l, ?_, hall⟩
  cases hrun with
  | done h' => exact .done (h.trans h')
  | call h' ha hrest => exact .call (h.trans h') ha hrest

/-- The word at `optind` has been passed by an option that it brought its argument to, or
that takes it as its argument. -/
theorem Ordered.finds {argc : Nat} {s : Scan} (h : Ordered argc s) {w : Word} {ws : List Word}
    (hleft : s.left = w :: ws) : Finds argc s.pass w ws := by
  obtain ⟨hord, hrest, hbefore⟩ := h.pass hleft
  have hlen := hord.length_left
  rw [hrest] at hlen
  exact ⟨hord.words, hlen, Nat.succ_le_succ h.pos, hbefore, hrest⟩

/-- An option that wants the next word. -/
theorem Gives.takeArg {o : Options} {argc : Nat} {s s' : Scan} {c : UInt8} {e : Error}
    {w : Word} {ws : List Word} (hord : Ordered argc s') (hleft : s'.left = ws)
    (h : getoptLong o s = s'.takeArg c e)
    (hwords : ∀ us, us.length < ws.length → GivesWords o argc us)
    (hnil : GivesWords o argc []) :
    Gives o argc s ((Ending.wants c e).events o w ws) := by
  unfold Scan.takeArg at h
  cases ws with
  | nil =>
      simp only [hleft] at h
      have hend := hnil { s' with nextchar := [] } ⟨hord.words, hord.first, hord.last, hord.pos,
        hord.bound⟩ rfl hleft
      exact .call h nofun rfl hend
  | cons x ws =>
      simp only [hleft] at h
      obtain ⟨hpass, hrest, -⟩ := hord.pass hleft
      exact .call h nofun ⟨rfl, hord.finds hleft⟩ (hwords ws (by simp) _ hpass rfl hrest)

/-- Inside a word of short options. -/
theorem Gives.cluster {o : Options} {argc : Nat} {w : Word} {ws : List Word}
    (hwords : ∀ us, us.length ≤ ws.length → GivesWords o argc us) (cs : List UInt8) (hcs : cs ≠ [])
    (s : Scan) (hord : Ordered argc s) (hnext : s.nextchar = cs) (hleft : s.left = w :: ws) :
    Gives o argc s ((o.cluster cs).1.map .plain ++ (o.cluster cs).2.events o w ws) := by
  induction cs generalizing s with
  | nil => exact absurd rfl hcs
  | cons c rest ih =>
      obtain ⟨hpass, hrest, -⟩ := hord.pass hleft
      have hgetopt : getoptLong o s = shortOption o s := by
        rw [getoptLong, if_neg (by simp [hnext])]
      -- a letter without an argument: on with the word, or with the next one
      have hletter : ∀ a, a ≠ .done →
          shortOption o s = (a, if rest = [] then s.pass else { s with nextchar := rest }) →
          Gives o argc s
            (.plain a :: ((o.cluster rest).1.map .plain ++ (o.cluster rest).2.events o w ws)) := by
        intro a ha hshort
        refine .call (hgetopt.trans hshort) ha rfl ?_
        by_cases hr : rest = []
        · rw [if_pos hr, hr]
          exact hwords ws (Nat.le_refl _) s.pass hpass rfl hrest
        · rw [if_neg hr]
          exact ih hr { s with nextchar := rest }
            ⟨hord.words, hord.first, hord.last, hord.pos, hord.bound⟩ rfl hleft
      cases hfind : o.findShort c with
      | none =>
          simp only [Options.cluster, hfind]
          exact hletter _ nofun (by simp [shortOption, hnext, hfind])
      | some takes =>
          cases takes with
          | false =>
              simp only [Options.cluster, hfind]
              exact hletter _ nofun (by simp [shortOption, hnext, hfind])
          | true =>
              simp only [Options.cluster, hfind, List.map_nil, List.nil_append]
              by_cases hr : rest = []
              · rw [if_pos hr]
                have hshort : shortOption o s = s.pass.takeArg c (.missing c) := by
                  simp [shortOption, hnext, hfind, hr]
                exact .takeArg hpass hrest (hgetopt.trans hshort)
                  (fun us hus => hwords us (Nat.le_of_lt hus)) (hwords [] (Nat.zero_le _))
              · rw [if_neg hr]
                have hshort : shortOption o s = (.option c (some rest), s.pass) := by
                  simp [shortOption, hnext, hfind, hr]
                exact .call (hgetopt.trans hshort) nofun ⟨rfl, hord.finds hleft⟩
                  (hwords ws (Nat.le_refl _) s.pass hpass rfl hrest)

/-- A long option. -/
theorem Gives.long {o : Options} {argc : Nat} {w : Word} {ws : List Word} (body : Word)
    (hwords : ∀ us, us.length ≤ ws.length → GivesWords o argc us)
    {s s' : Scan} (hord : Ordered argc s') (hleft : s'.left = w :: ws)
    (h : getoptLong o s = longOption o w body s') :
    Gives o argc s ((o.longWord w body).1.map .plain ++ (o.longWord w body).2.events o w ws) := by
  obtain ⟨hpass, hrest, -⟩ := hord.pass hleft
  have hnext := hwords ws (Nat.le_refl _) s'.pass hpass rfl hrest
  unfold longOption at h
  unfold Options.longWord
  cases hfind : o.findLong (nameOf body) with
  | ambiguous =>
      simp only [hfind] at h ⊢
      exact .call h nofun rfl hnext
  | unknown =>
      simp only [hfind] at h ⊢
      exact .call h nofun rfl hnext
  | found p =>
      simp only [hfind] at h ⊢
      cases hvalue : valueOf body <;> cases harg : p.hasArg <;> simp only [hvalue, harg] at h ⊢
      · exact .call h nofun rfl hnext
      · exact .takeArg (w := w) hpass hrest h (fun us hus => hwords us (Nat.le_of_lt hus))
          (hwords [] (Nat.zero_le _))
      · exact .call h nofun rfl hnext
      · exact .call h nofun ⟨rfl, hord.finds hleft⟩ hnext

/-- **The calls give what the words give**, from every state between two words. -/
theorem givesWords (o : Options) (argc : Nat) (ws : List Word) : GivesWords o argc ws := by
  induction hn : ws.length using Nat.strong_induction_on generalizing ws with
  | _ n ih =>
  intro s hord hnext hleft
  obtain ⟨hadv, hskip, hchar⟩ := hord.advance
  rw [hleft] at hskip
  rw [← scan_dropWhile]
  have hshort : (ws.dropWhile isNonoption).length ≤ ws.length :=
    (List.dropWhile_suffix _).length_le
  have hgetopt := getoptLong.eq_1 o s
  rw [if_pos hnext] at hgetopt
  cases hws : ws.dropWhile isNonoption with
  | nil =>
      simp only [hskip, hws] at hgetopt
      exact .done hgetopt
  | cons w us =>
      rw [hws] at hskip hshort
      rw [List.length_cons] at hshort
      have hwords : ∀ vs, vs.length ≤ us.length → GivesWords o argc vs :=
        fun vs hvs => ih vs.length (by omega) vs rfl
      have hopt : isNonoption w = false := by
        have hhead := List.head?_dropWhile_not isNonoption ws
        rw [hws] at hhead
        simpa using hhead
      simp only [hskip] at hgetopt
      split at hgetopt
      · next hstop =>
          have hrole : o.role w = .stop := by
            rw [Options.role, if_neg (by simp [hopt]), if_pos hstop]
          rw [scan, hrole]
          exact .done hgetopt
      · next hstop =>
          split at hgetopt
          · next hlong =>
              have hrole : o.role w = .options (o.longWord w (w.drop 2)).1
                  (o.longWord w (w.drop 2)).2 := by simp [Options.role, hopt, hstop, hlong]
              rw [scan_options hrole]
              exact .long (w.drop 2) hwords hadv hskip hgetopt
          · next hlong =>
              have hrole : o.role w = .options (o.cluster (w.drop 1)).1
                  (o.cluster (w.drop 1)).2 := by simp [Options.role, hopt, hstop, hlong]
              have hcs : w.drop 1 ≠ [] := by
                intro hnil
                have hsecond : w[1]? = none :=
                  List.getElem?_eq_none (List.drop_eq_nil_iff.mp hnil)
                simp [isNonoption, hsecond] at hopt
              rw [scan_options hrole]
              refine .congr ?_ (.cluster hwords (w.drop 1) hcs
                { s.permute.skip with nextchar := w.drop 1 } ⟨hadv.words, hadv.first, hadv.last,
                  hadv.pos, hadv.bound⟩ rfl hskip)
              rw [hgetopt, getoptLong, if_neg hcs]

/-- **A run of the parser.**  Called until it answers -1, it gives what the words after
the first give from left to right, in at most as many calls as they have characters. -/
theorem exists_run (o : Options) {argv : List Word} (h : argv ≠ []) :
    ∃ l, Run o (Scan.start argv) l ∧
      List.Forall₂ (Matches argv.length) l (scan o argv.tail) := by
  have hpos : 1 ≤ argv.length := List.length_pos_iff.mpr h
  have hstart : Ordered argv.length (Scan.start argv) :=
    ⟨rfl, Nat.le_refl 1, Nat.le_refl 1, Nat.le_refl 1, hpos⟩
  exact givesWords o argv.length argv.tail (Scan.start argv) hstart rfl List.drop_one

/-- The letter stands for an option that takes no argument. -/
def Options.Flag (o : Options) (c : UInt8) : Prop :=
  o.findShort c = some false ∨ ∃ p ∈ o.long, p.hasArg = false ∧ p.val = c

/-- The letter stands for an option that requires an argument. -/
def Options.Taking (o : Options) (c : UInt8) : Prop :=
  o.findShort c = some true ∨ ∃ p ∈ o.long, p.hasArg = true ∧ p.val = c

/-- An answer without an argument: a fault or a flag. -/
def Answer.Plain (o : Options) (a : Answer) : Prop :=
  (∃ e, a = .error e) ∨ ∃ c, a = .option c none ∧ o.Flag c

/-- What a word of `n` characters may be. -/
structure Fair (o : Options) (n : Nat) (answers : List Answer) (ending : Ending) : Prop where
  plain : ∀ a ∈ answers, a.Plain o
  inline : ∀ c arg, ending = .inline c arg → o.Taking c
  wants : ∀ c e, ending = .wants c e → o.Taking c
  count : answers.length ≤ n
  room : ending ≠ .plain → answers.length < n

/-- One more answer in front asks for one more letter. -/
theorem Fair.cons {o : Options} {n : Nat} {answers : List Answer} {ending : Ending} {a : Answer}
    (h : Fair o n answers ending) (ha : a.Plain o) : Fair o (n + 1) (a :: answers) ending := by
  refine ⟨List.forall_mem_cons.mpr ⟨ha, h.plain⟩, h.inline, h.wants, ?_, fun he => ?_⟩
  · exact Nat.succ_le_succ h.count
  · exact Nat.succ_lt_succ (h.room he)

/-- A cluster of letters is what a word of its length may be. -/
theorem fair_cluster (o : Options) (cs : List UInt8) :
    Fair o cs.length (o.cluster cs).1 (o.cluster cs).2 := by
  induction cs with
  | nil => exact ⟨nofun, nofun, nofun, Nat.le_refl 0, fun h => absurd rfl h⟩
  | cons c rest ih =>
      unfold Options.cluster
      split
      · exact ih.cons (.inl ⟨_, rfl⟩)
      · next hfind => exact ih.cons (.inr ⟨c, rfl, .inl hfind⟩)
      · next hfind =>
          refine ⟨nofun, ?_, ?_, Nat.zero_le _, fun _ => Nat.succ_pos _⟩
          · grind [Options.Taking]
          · grind [Options.Taking]

/-- A long option that is found is one of the table. -/
theorem findLong_mem {o : Options} {name : Word} {p : LongOption}
    (h : o.findLong name = .found p) : p ∈ o.long := by
  unfold Options.findLong at h
  split at h
  · next hfind =>
      cases h
      exact List.mem_of_find?_eq_some hfind
  · split at h
    · cases h
    · next q others hq =>
        split at h
        · cases h
          have hmem : p ∈ o.long.filter (fun p => name.isPrefixOf p.name) := by simp [hq]
          exact List.mem_of_mem_filter hmem
        · cases h

/-- A long option is what a word of its length may be. -/
theorem fair_longWord (o : Options) (w body : Word) (hw : w ≠ []) :
    Fair o w.length (o.longWord w body).1 (o.longWord w body).2 := by
  have hpos : 0 < w.length := List.length_pos_iff.mpr hw
  have hone : ∀ a, Answer.Plain o a → Fair o w.length [a] .plain := by
    intro a ha
    exact ⟨by simpa using ha, nofun, nofun, hpos, fun h => absurd rfl h⟩
  unfold Options.longWord
  cases hfind : o.findLong (nameOf body) with
  | ambiguous => exact hone _ (.inl ⟨_, rfl⟩)
  | unknown => exact hone _ (.inl ⟨_, rfl⟩)
  | found p =>
      have hp := findLong_mem hfind
      cases hvalue : valueOf body <;> cases harg : p.hasArg <;> simp only [harg]
      · exact hone _ (.inr ⟨p.val, rfl, .inr ⟨p, hp, harg, rfl⟩⟩)
      · have htaking : o.Taking p.val := .inr ⟨p, hp, harg, rfl⟩
        exact ⟨nofun, nofun, by grind, Nat.zero_le _, fun _ => hpos⟩
      · exact hone _ (.inl ⟨_, rfl⟩)
      · have htaking : o.Taking p.val := .inr ⟨p, hp, harg, rfl⟩
        exact ⟨nofun, by grind, nofun, Nat.zero_le _, fun _ => hpos⟩

/-- Every word of options is what one of its length may be. -/
theorem fair_role {o : Options} {w : Word} {answers : List Answer} {ending : Ending}
    (h : o.role w = .options answers ending) : Fair o w.length answers ending := by
  unfold Options.role at h
  split at h
  · cases h
  · split at h
    · cases h
    · split at h
      · next hlong =>
          cases h
          exact fair_longWord o w _ (by rintro rfl; cases hlong)
      · cases h
        have hfair := fair_cluster o (w.drop 1)
        have hle : (w.drop 1).length ≤ w.length := by simp
        exact ⟨hfair.plain, hfair.inline, hfair.wants, Nat.le_trans hfair.count hle,
          fun he => Nat.lt_of_lt_of_le (hfair.room he) hle⟩

/-- The words give at most as many events as they have characters. -/
theorem length_scan_le (o : Options) (ws : List Word) :
    (scan o ws).length ≤ ws.flatten.length := by
  fun_induction scan o ws with
  | case1 => exact Nat.le_refl 0
  | case2 w ws hrole ih => grind
  | case3 w ws hrole => exact Nat.zero_le _
  | case4 w ws answers ending hrole ih ihnext =>
      have hfair := fair_role hrole
      cases ending with
      | plain =>
          have hcount := hfair.count
          grind
      | inline c arg =>
          have hroom := hfair.room nofun
          grind
      | wants c e =>
          have hroom := hfair.room nofun
          cases ws <;> grind

/-- What can be an event. -/
def Event.Legal (o : Options) : Event → Prop
  | .plain a => a.Plain o
  | .taken c _ _ _ => o.Taking c

/-- Every event of a scan is one that the options allow. -/
theorem legal_of_mem_scan {o : Options} {ws : List Word} {event : Event}
    (h : event ∈ scan o ws) : event.Legal o := by
  fun_induction scan o ws with
  | case1 => cases h
  | case2 w ws hrole ih => exact ih h
  | case3 w ws hrole => cases h
  | case4 w ws answers ending hrole ih ihnext =>
      have hfair := fair_role hrole
      have hplain : ∀ e ∈ answers.map Event.plain, e.Legal o := by
        simpa [Event.Legal] using hfair.plain
      rcases List.mem_append.mp h with hmem | hmem
      · exact hplain event hmem
      · cases ending with
        | plain => exact ih hmem
        | inline c arg =>
            have htaking := hfair.inline c arg rfl
            grind [Event.Legal]
        | wants c e =>
            have htaking := hfair.wants c e rfl
            cases ws <;> grind [Event.Legal, Answer.Plain]

/-- The words from `optind` on when an option has taken its argument are fewer than those
the scan began with. -/
theorem length_rest_lt {o : Options} {ws rest : List Word} {c : UInt8} {arg before : Word}
    (h : .taken c arg before rest ∈ scan o ws) : rest.length < ws.length := by
  fun_induction scan o ws with
  | case1 => cases h
  | case2 w ws hrole ih => exact Nat.lt_succ_of_lt (ih h)
  | case3 w ws hrole => cases h
  | case4 w ws answers ending hrole ih ihnext =>
      rcases List.mem_append.mp h with hmem | hmem
      · simp at hmem
      · cases ending with
        | plain => exact Nat.lt_succ_of_lt (ih hmem)
        | inline c' arg' => grind
        | wants c' e => cases ws <;> grind

end Getopt

import Alp.CalcItems

/-!
# Does the calculator print the exact results?

`calc_do_calculate` divides by a zero divisor after it has noticed it, and adds, subtracts
and multiplies without looking at the limits of `int`.  And the parser goes on in front of
the second operand, where a negative hexadecimal number with an `a` or a `d` in it is
another option.

`startCalc_exact_iff` is the exact condition on a line (`Calculable`).  `tally` gives the
numbers that events print; the count of the options that take an argument bounds it from
below (`length_le_taken`), so that a number too many is never made up for.
-/

set_option autoImplicit false

namespace Calc

open CString Astrtol Getopt
open Comm hiding Scan

/-- The numbers printed. -/
def numbers (acts : List Act) : List Int :=
  acts.filterMap fun a =>
    match a with
    | .number _ n => some n
    | _ => none

/-- Nothing undefined is evaluated, and the numbers printed are those expected. -/
structure PrintsExactly (acts : List Act) (expected : List Int) : Prop where
  defined : .undefined ∉ acts
  numbers : numbers acts = expected

/-- The words of a line of items. -/
def calcLine (items : List Item) : List Word :=
  asciiBytes "calc" :: itemWords items

/-- The numbers that events print; `none` if something undefined is evaluated. -/
def tally (past : Option Word) : List Event → Option (List Int)
  | [] => some []
  | .plain _ :: es => tally past es
  | .taken c _ before rest :: es =>
    (eventResult past c before rest).bind fun n => (tally past es).map (n :: ·)

/-- The numbers that acts print; `none` if one of them is undefined. -/
def results (acts : List Act) : Option (List Int) :=
  if .undefined ∈ acts then none else some (numbers acts)

/-- Printing exactly some numbers is having them as the results. -/
theorem printsExactly_iff {acts : List Act} {expected : List Int} :
    PrintsExactly acts expected ↔ results acts = some expected := by
  unfold results
  split
  · next h => exact iff_of_false (fun hp => hp.defined h) nofun
  · next h =>
      rw [Option.some_inj]
      exact ⟨fun hp => hp.numbers, fun hn => ⟨h, hn⟩⟩

/-- The results of two lists of acts joined are those of each. -/
theorem results_append (as bs : List Act) :
    results (as ++ bs) = (results as).bind fun ns => (results bs).map (ns ++ ·) := by
  unfold results numbers
  rw [List.filterMap_append]
  by_cases ha : Act.undefined ∈ as
  · simp [ha]
  · by_cases hb : Act.undefined ∈ bs
    · simp [ha, hb]
    · simp [ha, hb]

/-- Text is no number. -/
theorem results_text {acts : List Act}
    (h : ∀ act ∈ acts, (∃ stream s, act = .text stream s) ∨ ∃ e, act = .diagnostic e) :
    results acts = some [] := by
  have hdefined : Act.undefined ∉ acts := by
    intro hmem
    rcases h _ hmem with ⟨stream, s, heq⟩ | ⟨e, heq⟩ <;> cases heq
  rw [results, if_neg hdefined, numbers, Option.some_inj, List.filterMap_eq_nil_iff]
  intro act hact
  rcases h act hact with ⟨stream, s, rfl⟩ | ⟨e, rfl⟩ <;> rfl

/-- **The numbers printed** come of the operands that the events find. -/
theorem results_play (argc : Nat) (past : Option Word) {events : List Event}
    (h : ∀ e ∈ events, e.Legal options) (res : Int) :
    results (play argc past events res) = tally past events := by
  induction events generalizing res with
  | nil => rfl
  | cons e es ih =>
      obtain ⟨he, hes⟩ := List.forall_mem_cons.mp h
      cases e with
      | plain a =>
          rw [play_plain argc past he, results_append, results_text (calcSwitch_text he res).2,
            ih hes res, tally]
          cases tally past es <;> rfl
      | taken c arg before rest =>
          rw [play_taken argc past he, tally]
          cases eventResult past c before rest with
          | none => simp [results]
          | some n =>
              rw [Option.bind_some, ← ih hes n]
              exact results_append [.read _, .read _, .number .stdout n] _

/-- The option has taken an argument, so a number is printed. -/
def isTaken : Event → Bool
  | .plain _ => false
  | .taken _ _ _ _ => true

/-- There is one number for each option with an argument. -/
theorem length_tally {past : Option Word} {es : List Event} {ns : List Int}
    (h : tally past es = some ns) : ns.length = es.countP isTaken := by
  induction es generalizing ns with
  | nil =>
      cases h
      rfl
  | cons e es ih =>
      cases e with
      | plain a => exact ih h
      | taken c arg before rest =>
          rw [tally, Option.bind_eq_some_iff] at h
          obtain ⟨n, -, hmap⟩ := h
          obtain ⟨ms, hms, rfl⟩ := Option.map_eq_some_iff.mp hmap
          rw [List.countP_cons_of_pos rfl, List.length_cons, ih hms]

/-- Plain answers print no number. -/
theorem countP_plain (answers : List Answer) : (answers.map Event.plain).countP isTaken = 0 := by
  rw [List.countP_eq_zero]
  intro e he
  obtain ⟨a, -, rfl⟩ := List.mem_map.mp he
  nofun

/-- Plain answers in front leave the tally alone. -/
theorem tally_plain (past : Option Word) (answers : List Answer) (es : List Event) :
    tally past (answers.map .plain ++ es) = tally past es := by
  induction answers with
  | nil => rfl
  | cons a answers ih => exact ih

/-- The number of options that the words give with an argument. -/
def takenCount (ws : List Word) : Nat :=
  (scan options ws).countP isTaken

/-- An operand counts the options that its tail begins. -/
theorem takenCount_operand (o : Operand) (ws : List Word) :
    takenCount (o.word :: ws) = (tailEvents o.tail o.word ws).countP isTaken := by
  obtain ⟨answers, -, hscan⟩ := scan_operand o ws
  rw [takenCount, hscan, List.countP_append, countP_plain, Nat.zero_add]

/-- An operand where an option is expected takes one word at most, and is an option for it. -/
theorem le_takenCount_operand {k : Nat} (o : Operand) {w : Word} {ws : List Word}
    (hpass : k ≤ takenCount (w :: ws)) (htake : k ≤ takenCount ws + 1) :
    k ≤ takenCount (o.word :: w :: ws) := by
  rw [takenCount_operand]
  match htail : o.tail with
  | [] => exact hpass
  | [c] =>
      rw [tailEvents, Ending.events, List.countP_cons_of_pos rfl]
      exact htake
  | c :: x :: arg =>
      rw [tailEvents, List.countP_cons_of_pos rfl]
      · exact Nat.le_succ_of_le hpass
      · nofun

/-- Every option of a line prints a number at least, whatever the parser takes the words
before it for. -/
theorem length_le_takenCount (items : List Item) :
    items.length ≤ takenCount (itemWords items) ∧
      (∀ b : Operand, items.length ≤ takenCount (b.word :: itemWords items)) ∧
      ∀ a b : Operand, items.length ≤ takenCount (a.word :: b.word :: itemWords items) := by
  induction items with
  | nil => exact ⟨Nat.zero_le _, fun _ => Nat.zero_le _, fun _ _ => Nat.zero_le _⟩
  | cons i is ih =>
      obtain ⟨-, hsecond, hboth⟩ := ih
      have hitems : (i :: is).length ≤ takenCount (itemWords (i :: is)) := by
        rw [takenCount, scan_item, List.countP_cons_of_pos rfl]
        exact Nat.succ_le_succ (hsecond i.second)
      have hafter : ∀ b : Operand,
          (i :: is).length ≤ takenCount (b.word :: itemWords (i :: is)) :=
        fun b => le_takenCount_operand b hitems (Nat.succ_le_succ (hboth i.first i.second))
      exact ⟨hitems, hafter, fun a b =>
        le_takenCount_operand a (hafter b) (Nat.le_succ_of_le hitems)⟩

/-- What an operand that ends in `tail` does to the option of the next item: it leaves it
alone (`some none`), takes it as an argument (`some (some op)`), or is an option with an
argument of its own (`none`). -/
def nextTaker : List UInt8 → Option (Option CalcCmd)
  | [] => some none
  | [c] => some (calcCmdOf c)
  | _ => none

/-- The items give their results, when the option of the first one has been taken as its
argument by the option `taker` in an operand before it: every operation is defined, and a
second operand in which the parser finds an option ends with it, where the line ends too,
or where the number that this prints is that of the item whose option it takes. -/
def Calculable : Option CalcCmd → List Item → Prop
  | _, [] => True
  | taker, i :: is =>
    i.result ≠ none ∧
      (∀ op, taker = some op → i.first.tail = [] ∧ op.result 0 i.first.val = i.result) ∧
      ∃ next, nextTaker i.second.tail = some next ∧ Calculable next is

/-- The events of some items, the option of the first of which `taker` has taken. -/
def itemEvents : Option CalcCmd → List Item → List Event
  | none, items => scan options (itemWords items)
  | some op, items =>
    (Ending.wants op.letter (.missing op.letter)).events options [] (itemWords items)

/-- What the line should print. -/
def expected (items : List Item) : List Int :=
  items.filterMap Item.result

/-- There is at most one number for each item. -/
theorem length_expected_le (items : List Item) : (expected items).length ≤ items.length :=
  List.length_filterMap_le _ _

/-- An event too many is not made up for. -/
theorem tally_ne_of_lt {past : Option Word} {es : List Event} {items : List Item}
    (h : items.length < es.countP isTaken) : tally past es ≠ some (expected items) := by
  intro htally
  have hlen := length_tally htally
  have hle := length_expected_le items
  omega

/-- The tail of an operand begins with a digit that is an option. -/
theorem isOptionDigit_of_tail {o : Operand} {c : UInt8} {arg : List UInt8}
    (h : o.tail = c :: arg) : isOptionDigit c = true := by
  unfold Operand.tail at h
  split at h
  · have hhead := List.head?_dropWhile_not (fun c => !isOptionDigit c) o.digits
    rw [h] at hhead
    simpa using hhead
  · cases h

/-- A digit that is an option is the letter of a command. -/
theorem letter_of_isOptionDigit {c : UInt8} (h : isOptionDigit c = true) :
    ∃ op : CalcCmd, calcCmdOf c = some op ∧ op.letter = c := by
  rcases Bool.or_eq_true_iff.mp h with h | h
  · obtain rfl := eq_of_beq h
    exact ⟨.add, rfl, rfl⟩
  · obtain rfl := eq_of_beq h
    exact ⟨.div, rfl, rfl⟩

/-- What an option that wants a word takes does not depend on the word before. -/
theorem wants_events (w w' : Word) (ws : List Word) (c : UInt8) (e : Error) :
    (Ending.wants c e).events options w ws = (Ending.wants c e).events options w' ws := by
  cases ws <;> rfl

/-- The rest of a line after the first operand of an item. -/
theorem tally_second {past : Option Word} {is : List Item}
    (ih : ∀ taker, tally past (itemEvents taker is) = some (expected is) ↔ Calculable taker is)
    (b : Operand) :
    tally past (scan options (b.word :: itemWords is)) = some (expected is) ↔
      ∃ next, nextTaker b.tail = some next ∧ Calculable next is := by
  obtain ⟨answers, -, hscan⟩ := scan_operand b (itemWords is)
  rw [hscan, tally_plain]
  match htail : b.tail with
  | [] =>
      have hnone := ih none
      simp only [nextTaker, Option.some_inj, exists_eq_left']
      exact hnone
  | [c] =>
      obtain ⟨op, hop, hletter⟩ := letter_of_isOptionDigit (isOptionDigit_of_tail htail)
      have hsome := ih (some op)
      simp only [nextTaker, hop, Option.some_inj, exists_eq_left']
      rw [itemEvents, hletter, wants_events _ b.word] at hsome
      exact hsome
  | c :: x :: arg =>
      refine iff_of_false ?_ (by rintro ⟨next, hnext, -⟩; cases hnext)
      apply tally_ne_of_lt
      rw [tailEvents, List.countP_cons_of_pos rfl]
      · exact Nat.lt_succ_of_le (length_le_takenCount is).1
      · nofun

/-- The rest of a line after an option that has been taken: its first operand must not be
an option. -/
theorem tally_first (past : Option Word) (is : List Item) (a b : Operand) :
    tally past (scan options (a.word :: b.word :: itemWords is)) = some (expected is) ↔
      a.tail = [] ∧ tally past (scan options (b.word :: itemWords is)) = some (expected is) := by
  obtain ⟨hwords, hsecond, -⟩ := length_le_takenCount is
  obtain ⟨answers, -, hscan⟩ := scan_operand a (b.word :: itemWords is)
  rw [hscan, tally_plain]
  match htail : a.tail with
  | [] => exact (and_iff_right rfl).symm
  | [c] =>
      refine iff_of_false ?_ (fun h => nomatch h.1)
      apply tally_ne_of_lt
      rw [tailEvents, Ending.events, List.countP_cons_of_pos rfl]
      exact Nat.lt_succ_of_le hwords
  | c :: x :: arg =>
      refine iff_of_false ?_ (fun h => nomatch h.1)
      apply tally_ne_of_lt
      rw [tailEvents, List.countP_cons_of_pos rfl]
      · exact Nat.lt_succ_of_le (hsecond b)
      · nofun

/-- The number an item prints. -/
theorem eventResult_item (past : Option Word) (i : Item) (ws : List Word) :
    eventResult past i.op.letter i.first.word (i.second.word :: ws) = i.result := by
  simp only [eventResult, List.head?_cons, Option.some_or, operands_words, Option.bind_some,
    calcCmdOf_letter]
  rfl

/-- The number printed for an item whose option has been taken. -/
theorem eventResult_taken (past : Option Word) (op : CalcCmd) (i : Item) (ws : List Word) :
    eventResult past op.letter i.option (i.first.word :: ws) = op.result 0 i.first.val := by
  simp only [eventResult, List.head?_cons, Option.some_or, operands, Option.bind_some,
    Option.map_some, calcCmdOf_letter, strtol_option, strtol_word]

/-- One number, and the rest. -/
theorem cons_eq_expected {o : Option Int} {rest : Option (List Int)} {i : Item} {is : List Item}
    {n : Int} (hi : i.result = some n) :
    (o.bind fun m => rest.map (m :: ·)) = some (expected (i :: is)) ↔
      o = some n ∧ rest = some (expected is) := by
  have hexp : expected (i :: is) = n :: expected is := List.filterMap_cons_some hi
  rw [hexp]
  cases o with
  | none => simp
  | some m => cases rest <;> simp

/-- **The numbers of a line.**  Induction on the items, with what the parser was doing
before them. -/
theorem tally_iff (past : Option Word) (items : List Item) (taker : Option CalcCmd) :
    tally past (itemEvents taker items) = some (expected items) ↔ Calculable taker items := by
  induction items generalizing taker with
  | nil =>
      refine iff_of_true ?_ trivial
      cases taker <;> rfl
  | cons i is ih =>
      have hsecond := tally_second ih i.second
      cases taker with
      | none =>
          rw [itemEvents, scan_item, tally, eventResult_item]
          cases hi : i.result with
          | none => exact iff_of_false nofun (fun h => h.1 hi)
          | some n =>
              rw [cons_eq_expected hi, hsecond, Calculable, hi]
              simp
      | some op =>
          have hevents : itemEvents (some op) (i :: is) =
              .taken op.letter i.option i.option (i.first.word :: i.second.word :: itemWords is) ::
                scan options (i.first.word :: i.second.word :: itemWords is) := rfl
          cases hi : i.result with
          | none =>
              -- the number printed for the item stands for no result
              have hexp : expected (i :: is) = expected is := List.filterMap_cons_none hi
              refine iff_of_false ?_ (fun h => h.1 hi)
              rw [hexp, hevents]
              apply tally_ne_of_lt
              rw [List.countP_cons_of_pos rfl]
              exact Nat.lt_succ_of_le ((length_le_takenCount is).2.2 i.first i.second)
          | some n =>
              rw [hevents, tally, eventResult_taken, cons_eq_expected hi, tally_first, hsecond,
                Calculable, hi]
              constructor
              · rintro ⟨hres, htail, hnext⟩
                refine ⟨nofun, fun op' hop => ?_, hnext⟩
                cases hop
                exact ⟨htail, hres⟩
              · rintro ⟨-, htaker, hnext⟩
                obtain ⟨htail, hres⟩ := htaker op rfl
                exact ⟨hres, htail, hnext⟩

/-- **When the calculator prints the exact results.**  For every line of options and
operands, and whatever stands in the command data past the line. -/
theorem startCalc_exact_iff {d : CommData} {items : List Item} (h : HoldsWords d (calcLine items)) :
    (∃ acts, startCalc d = some acts ∧ PrintsExactly acts (expected items)) ↔
      Calculable none items := by
  have hrun := startCalc_eq h (List.cons_ne_nil _ _)
  have hevents : scan options (calcLine items).tail = itemEvents none items := rfl
  rw [hrun, ← tally_iff (d.argStr d.argc) items none, ← hevents,
    ← results_play d.argc (d.argStr d.argc) (fun e => legal_of_mem_scan) 0]
  constructor
  · rintro ⟨acts, hacts, hprint⟩
    cases hacts
    exact printsExactly_iff.mp hprint
  · intro hres
    exact ⟨_, rfl, printsExactly_iff.mpr hres⟩

/-- The command data of a line. -/
def lineData (s : String) : CommData :=
  commParseCommand
    { CommData.zeroed with temp := fun i => (asciiBytes s).getD i nul, tmpc := s.length + 1 }

/-- A decimal operand of one digit. -/
def decimal (sign : Sign) (c : UInt8) (h : isDigit 10 c = true ∧ c ≠ 0x30)
    (hint : IsInt (sign.apply (numeral 10 [c]))) : Operand where
  sign := sign
  pre := []
  base := 10
  digits := [c]
  literal := .dec (by simpa [AllDigits] using h.1) nofun h.2
  int := hint

/-- The operand `0`. -/
def zero : Operand where
  sign := .none
  pre := [0x30]
  base := 8
  digits := []
  literal := .oct (List.forall_mem_nil _)
  int := by decide

/-- `-d 7 -2 --mul 7 7`. -/
def quotientProduct : List Item :=
  [⟨.div, false, decimal .none 0x37 (by decide) (by decide),
      decimal .minus 0x32 (by decide) (by decide)⟩,
    ⟨.mul, true, decimal .none 0x37 (by decide) (by decide),
      decimal .none 0x37 (by decide) (by decide)⟩]

/-- A quotient and a product on one line. -/
theorem startCalc_exact_quotientProduct :
    ∃ acts, startCalc (lineData "calc -d 7 -2 --mul 7 7") = some acts ∧
      PrintsExactly acts [-3, 49] := by
  have hholds : HoldsWords (lineData "calc -d 7 -2 --mul 7 7") (calcLine quotientProduct) :=
    ⟨by decide +kernel, by decide +kernel⟩
  have hcalculable : Calculable none quotientProduct :=
    ⟨by decide, nofun, none, rfl, by decide, nofun, none, rfl, trivial⟩
  have hexpected : expected quotientProduct = [-3, 49] := by decide
  rw [← hexpected]
  exact (startCalc_exact_iff hholds).mpr hcalculable

/-- `calc -d 1 0` divides by zero. -/
theorem startCalc_div_zero :
    HoldsWords (lineData "calc -d 1 0")
        (calcLine [⟨.div, false, decimal .none 0x31 (by decide) (by decide), zero⟩]) ∧
      ∀ expected acts, startCalc (lineData "calc -d 1 0") = some acts →
        ¬ PrintsExactly acts expected := by
  refine ⟨⟨by decide +kernel, by decide +kernel⟩, fun expected acts hacts hprint => ?_⟩
  have hrun : startCalc (lineData "calc -d 1 0") = some [.read 2, .read 3, .undefined] := by
    decide +kernel
  rw [hrun] at hacts
  cases hacts
  exact hprint.defined (by simp)

end Calc

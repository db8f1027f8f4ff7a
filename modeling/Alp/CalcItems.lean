import Alp.Astrtol
import Alp.Calc

/-!
# Lines of options and operands

A line of the calculator as it is meant: options, each followed by two operands as words
of their own (`Item`).  The option takes its first operand as its argument, and the
calculator reads both operands right (`scan_item`, `operands_words`).

The second operand stays in front of the parser.  If it is negative it looks like a word
of options: its characters are invalid letters, except that the hexadecimal digits `a` and
`d` are `-a` and `-d` (`Operand.tail`, `scan_operand`).
-/

set_option autoImplicit false

namespace Calc

open CString Astrtol Getopt
open Comm hiding Scan

inductive Sign
  | none
  | plus
  | minus
  deriving DecidableEq

def Sign.bytes : Sign → List UInt8
  | .none => []
  | .plus => [0x2B]
  | .minus => [0x2D]

def Sign.apply : Sign → Nat → Int
  | .minus, n => -n
  | _, n => n

/-- An `int` in writing: an optional sign and a literal. -/
structure Operand where
  sign : Sign
  pre : List UInt8
  base : Nat
  digits : List UInt8
  literal : IsLiteral pre base digits
  int : IsInt (sign.apply (numeral base digits))

def Operand.val (o : Operand) : Int :=
  o.sign.apply (numeral o.base o.digits)

def Operand.word (o : Operand) : Word :=
  o.sign.bytes ++ (o.pre ++ o.digits)

/-- Digits read on from a value lay it before their number. -/
theorem readDigits_eq {base : Nat} {ds : List UInt8} (h : AllDigits base ds) (acc : Nat) :
    readDigits base ds acc = acc * base ^ ds.length + numeral base ds := by
  induction ds generalizing acc with
  | nil => simp [readDigits, numeral]
  | cons c ds ih =>
      obtain ⟨hc, hds⟩ := List.forall_mem_cons.mp h
      have hlt := digit_lt hc
      have hval : digitVal c = some (digit c) := by
        unfold isDigit at hc
        unfold digit
        cases hv : digitVal c with
        | none => simp [hv] at hc
        | some v => rfl
      simp only [readDigits, hval, if_pos hlt]
      rw [ih hds, numeral_cons, List.length_cons]
      ring

/-- The first character of a literal. -/
theorem literal_head {pre ds : List UInt8} {base : Nat} (h : IsLiteral pre base ds) :
    ∃ c rest, pre ++ ds = c :: rest ∧ isDigit 10 c = true := by
  cases h with
  | @dec ds hdigits hpos hhead =>
      obtain ⟨c, rest, rfl⟩ := List.exists_cons_of_ne_nil hpos
      exact ⟨c, rest, rfl, hdigits c List.mem_cons_self⟩
  | @oct ds hdigits => exact ⟨0x30, ds, rfl, by decide⟩
  | @hex x ds hx hdigits hpos => exact ⟨0x30, x :: ds, rfl, by decide⟩

/-- `strtol` reads a literal as what it denotes. -/
theorem readLiteral_literal {pre ds : List UInt8} {base : Nat} (h : IsLiteral pre base ds) :
    readLiteral (pre ++ ds) = numeral base ds := by
  have hread : ∀ {b : Nat}, AllDigits b ds → readDigits b ds 0 = numeral b ds := by
    intro b hb
    rw [readDigits_eq hb, Nat.zero_mul, Nat.zero_add]
  cases h with
  | dec hdigits hpos hhead =>
      obtain ⟨c, rest, rfl⟩ := List.exists_cons_of_ne_nil hpos
      have hc : c ≠ 0x30 := hhead
      rw [List.nil_append, ← hread hdigits]
      unfold readLiteral
      split
      · next hsame => exact absurd (List.cons.inj hsame).1 hc
      · rfl
  | oct hdigits =>
      cases ds with
      | nil => rfl
      | cons x rest =>
          have hx : ¬ (x = 0x78 ∨ x = 0x58) := by
            have hdigit := hdigits x List.mem_cons_self
            rintro (rfl | rfl)
            · exact absurd hdigit (by decide)
            · exact absurd hdigit (by decide)
          simp only [List.singleton_append, readLiteral, if_neg hx]
          exact hread hdigits
  | @hex x ds hx hdigits hpos =>
      simp only [List.cons_append, List.nil_append, readLiteral, if_pos hx]
      exact hread hdigits

/-- A digit is no space and no sign. -/
theorem not_isSpace_of_digit {c : UInt8} (h : isDigit 10 c = true) :
    isSpace c = false ∧ c ≠ 0x2D ∧ c ≠ 0x2B := by
  revert h
  revert c
  apply forall_byte
  decide +kernel

/-- The sign in front of a literal. -/
theorem readSign_word (o : Operand) :
    readSign (o.word.dropWhile isSpace) = (o.sign == .minus, o.pre ++ o.digits) := by
  obtain ⟨c, rest, hlit, hc⟩ := literal_head o.literal
  obtain ⟨hspace, hminus, hplus⟩ := not_isSpace_of_digit hc
  rw [Operand.word, hlit]
  cases o.sign with
  | none =>
      simp only [Sign.bytes, List.nil_append, List.dropWhile_cons, hspace]
      unfold readSign
      split
      · next hsame => exact absurd (List.cons.inj hsame).1 hminus
      · next hsame => exact absurd (List.cons.inj hsame).1 hplus
      · rfl
  | plus => rfl
  | minus => rfl

/-- **The calculator reads an operand.** -/
theorem strtol_word (o : Operand) : intOfLong (strtol o.word) = o.val := by
  obtain ⟨hlow, hhigh⟩ : -2 ^ 31 ≤ o.val ∧ o.val < 2 ^ 31 := o.int
  have hval : strtol o.word = o.val := by
    unfold Operand.val at hlow hhigh ⊢
    simp only [strtol, readSign_word, readLiteral_literal o.literal]
    cases hs : o.sign <;> simp only [hs, Sign.apply] at hlow hhigh ⊢
    · exact min_eq_left (by omega)
    · exact min_eq_left (by omega)
    · exact max_eq_left (by omega)
  rw [hval, intOfLong]
  exact Int.bmod_eq_of_le (by omega) (by omega)

/-- The words of two operands are read as their values. -/
theorem operands_words (a b : Operand) :
    operands (some a.word) (some b.word) = some (a.val, b.val) := by
  simp only [operands, Option.bind_some, Option.map_some, strtol_word]

/-- A hexadecimal digit that is also an option. -/
def isOptionDigit (c : UInt8) : Bool :=
  c == 0x61 || c == 0x64

/-- The digits from the first on that the parser takes for an option. -/
def Operand.tail (o : Operand) : List UInt8 :=
  if o.sign = .minus ∧ o.base = 16 then o.digits.dropWhile (fun c => !isOptionDigit c) else []

/-- What an operand that ends in `tail` does where the parser expects an option. -/
def tailEvents (tail : List UInt8) (w : Word) (ws : List Word) : List Event :=
  match tail with
  | [] => scan options ws
  | [c] => (Ending.wants c (.missing c)).events options w ws
  | c :: arg => .taken c arg w ws :: scan options ws

/-- Faults give no option. -/
def Faults (answers : List Answer) : Prop :=
  ∀ a ∈ answers, ∃ e, a = .error e

/-- A hexadecimal digit is an option with an argument, or none. -/
theorem findShort_digit {c : UInt8} (h : isDigit 16 c = true) :
    options.findShort c = if isOptionDigit c then some true else none := by
  revert h
  revert c
  apply forall_byte
  decide +kernel

/-- A cluster of digits faults up to the first that is an option. -/
theorem cluster_digits {cs : List UInt8}
    (h : ∀ c ∈ cs, options.findShort c = if isOptionDigit c then some true else none) :
    Faults (options.cluster cs).1 ∧ ∀ w ws, (options.cluster cs).2.events options w ws =
      tailEvents (cs.dropWhile (fun c => !isOptionDigit c)) w ws := by
  induction cs with
  | nil => exact ⟨List.forall_mem_nil _, fun w ws => rfl⟩
  | cons c rest ih =>
      obtain ⟨hc, hrest⟩ := List.forall_mem_cons.mp h
      unfold Options.cluster
      by_cases hopt : isOptionDigit c = true
      · rw [if_pos hopt] at hc
        rw [List.dropWhile_cons_of_neg (by simp [hopt])]
        simp only [hc]
        refine ⟨List.forall_mem_nil _, fun w ws => ?_⟩
        cases rest with
        | nil => rfl
        | cons b rest => rfl
      · rw [if_neg hopt] at hc
        rw [List.dropWhile_cons_of_pos (by simpa using hopt)]
        simp only [hc]
        exact ⟨List.forall_mem_cons.mpr ⟨⟨_, rfl⟩, (ih hrest).1⟩, (ih hrest).2⟩

/-- A digit of a base is one of every greater base. -/
theorem isDigit_mono {b b' : Nat} (hb : b ≤ b') {c : UInt8} (h : isDigit b c = true) :
    isDigit b' c = true := by
  unfold isDigit at h ⊢
  cases hc : digitVal c with
  | none => simp [hc] at h
  | some v =>
      simp only [hc, Option.any_some, decide_eq_true_eq] at h ⊢
      omega

/-- A decimal digit is no option. -/
theorem not_isOptionDigit {c : UInt8} (h : isDigit 10 c = true) : isOptionDigit c = false := by
  revert h
  revert c
  apply forall_byte
  decide +kernel

/-- A literal as the rest of a word of options: what counts is its hexadecimal digits. -/
theorem literal_letters {pre ds : List UInt8} {base : Nat} (h : IsLiteral pre base ds) :
    (∀ c ∈ pre ++ ds, options.findShort c = if isOptionDigit c then some true else none) ∧
      (pre ++ ds).dropWhile (fun c => !isOptionDigit c) =
        if base = 16 then ds.dropWhile (fun c => !isOptionDigit c) else [] := by
  have hprefix : ∀ x : UInt8, x = 0x30 ∨ x = 0x78 ∨ x = 0x58 →
      options.findShort x = none ∧ isOptionDigit x = false := by
    rintro x (rfl | rfl | rfl) <;> decide
  have hdigits : ∀ {b : Nat}, b ≤ 16 → AllDigits b ds →
      ∀ c ∈ ds, options.findShort c = if isOptionDigit c then some true else none :=
    fun hb hall c hc => findShort_digit (isDigit_mono hb (hall c hc))
  have hsmall : ∀ {b : Nat}, b ≤ 10 → AllDigits b ds →
      ds.dropWhile (fun c => !isOptionDigit c) = [] := by
    intro b hb hall
    rw [List.dropWhile_eq_nil_iff]
    intro c hc
    rw [not_isOptionDigit (isDigit_mono hb (hall c hc))]
    rfl
  have hzero := hprefix 0x30 (.inl rfl)
  cases h with
  | dec hall hpos hhead =>
      exact ⟨hdigits (by omega) hall, hsmall (Nat.le_refl 10) hall⟩
  | oct hall =>
      constructor
      · rw [List.singleton_append]
        refine List.forall_mem_cons.mpr ⟨?_, hdigits (by omega) hall⟩
        rw [hzero.1, hzero.2]
        rfl
      · rw [List.singleton_append, List.dropWhile_cons_of_pos (by rw [hzero.2]; rfl)]
        exact hsmall (by omega) hall
  | @hex x ds hx hall hpos =>
      have hletter := hprefix x (.inr hx)
      constructor
      · simp only [List.cons_append, List.nil_append]
        refine List.forall_mem_cons.mpr ⟨?_, List.forall_mem_cons.mpr
          ⟨?_, hdigits (Nat.le_refl 16) hall⟩⟩
        · rw [hzero.1, hzero.2]
          rfl
        · rw [hletter.1, hletter.2]
          rfl
      · simp only [List.cons_append, List.nil_append]
        rw [List.dropWhile_cons_of_pos (by rw [hzero.2]; rfl),
          List.dropWhile_cons_of_pos (by rw [hletter.2]; rfl)]
        rfl

/-- An operand where the parser expects an option. -/
theorem scan_operand (o : Operand) (ws : List Word) :
    ∃ answers, Faults answers ∧
      scan options (o.word :: ws) = answers.map .plain ++ tailEvents o.tail o.word ws := by
  obtain ⟨c, rest, hlit, hc⟩ := literal_head o.literal
  obtain ⟨-, hminus, -⟩ := not_isSpace_of_digit hc
  have hplain : o.sign ≠ .minus → isNonoption o.word = true →
      ∃ answers, Faults answers ∧
        scan options (o.word :: ws) = answers.map .plain ++ tailEvents o.tail o.word ws := by
    intro hsign hnon
    refine ⟨[], List.forall_mem_nil _, ?_⟩
    rw [scan_nonoption (by rw [Options.role, if_pos hnon]), Operand.tail,
      if_neg (fun h => hsign h.1)]
    rfl
  cases hs : o.sign with
  | none =>
      refine hplain (by simp [hs]) ?_
      rw [Operand.word, hs, hlit]
      simp [isNonoption, Sign.bytes, dash, hminus]
  | plus =>
      refine hplain (by simp [hs]) ?_
      rw [Operand.word, hs]
      rfl
  | minus =>
      obtain ⟨hletters, htail⟩ := literal_letters o.literal
      obtain ⟨hfaults, hevents⟩ := cluster_digits hletters
      have hword : o.word = dash :: (o.pre ++ o.digits) := by
        rw [Operand.word, hs]
        rfl
      have hrole : options.role o.word = .options (options.cluster (o.pre ++ o.digits)).1
          (options.cluster (o.pre ++ o.digits)).2 := by
        have hc' : c ≠ dash := hminus
        rw [hword, hlit]
        simp [Options.role, isNonoption, hc']
      refine ⟨_, hfaults, ?_⟩
      rw [scan_options hrole, hevents, htail, Operand.tail]
      simp [hs]

/-- The letter of an option. -/
def CalcCmd.letter : CalcCmd → UInt8
  | .add => 0x61
  | .sub => 0x73
  | .mul => 0x6D
  | .div => 0x64

@[simp] theorem calcCmdOf_letter (op : CalcCmd) : calcCmdOf op.letter = some op := by
  cases op <;> rfl

/-- An option and its operands. -/
structure Item where
  op : CalcCmd
  long : Bool
  first : Operand
  second : Operand

/-- The name of the long form. -/
def CalcCmd.name : CalcCmd → List UInt8
  | .add => asciiBytes "add"
  | .sub => asciiBytes "sub"
  | .mul => asciiBytes "mul"
  | .div => asciiBytes "div"

def Item.option (i : Item) : Word :=
  if i.long then dash :: dash :: i.op.name else [dash, i.op.letter]

/-- The words of some items. -/
def itemWords (items : List Item) : List Word :=
  items.flatMap (fun i => [i.option, i.first.word, i.second.word])

/-- The result of an item, where it is defined. -/
def Item.result (i : Item) : Option Int :=
  i.op.result i.first.val i.second.val

/-- The option takes its first operand. -/
theorem scan_item (i : Item) (items : List Item) :
    scan options (itemWords (i :: items)) =
      .taken i.op.letter i.first.word i.first.word (i.second.word :: itemWords items) ::
        scan options (i.second.word :: itemWords items) := by
  have hrole : ∃ e, options.role i.option = .options [] (.wants i.op.letter e) := by
    unfold Item.option
    cases i.op <;> cases i.long
    all_goals exact ⟨_, rfl⟩
  obtain ⟨e, hrole⟩ := hrole
  have hwords : itemWords (i :: items) =
      i.option :: i.first.word :: i.second.word :: itemWords items := rfl
  rw [hwords, scan_options hrole]
  rfl

/-- The word of an option as a number. -/
theorem strtol_option (i : Item) : intOfLong (strtol i.option) = 0 := by
  unfold Item.option
  cases i.op <;> cases i.long <;> decide

end Calc

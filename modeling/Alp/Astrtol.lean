import Alp.CNumber
import Alp.Numeral

/-!
# `astrtol`

This file embeds `astrtol` of `demo-lib/main.c`.  Bases 10 and 8 are read from the end
of the string with a running power `pos`, an `int` that is multiplied before it is used;
the other branch is read from its start, with a shift that depends on the length.

`none` is an overflow of `pos` or a shift by 32 or more.  The length is an `int`, so
`seen` is what of the string the loops can reach.
-/

set_option autoImplicit false

namespace Astrtol

open CString Numeral

/-- `((c >= '0') && (c <= last))`, and `t`. -/
def decTest (last c : UInt8) : Option Nat :=
  if 0x30 ≤ c ∧ c ≤ last then some (c - 0x30).toNat else none

/-- The three tests of the last branch. -/
def hexTest (c : UInt8) : Option Nat :=
  if 0x30 ≤ c ∧ c ≤ 0x39 then some (c - 0x30).toNat
  else if 0x61 ≤ c ∧ c ≤ 0x66 then some (c - 0x57).toNat
  else if 0x41 ≤ c ∧ c ≤ 0x46 then some (c - 0x37).toNat
  else none

/-- `INT_MAX`. -/
def intMax : Nat := 2 ^ 31 - 1

/-- `len = strlen(s)`, or 0 where it is negative. -/
def intLen (n : Nat) : Nat :=
  (BitVec.ofNat 32 n).toInt.toNat

/-- The first `len` characters. -/
def seen (s : List UInt8) : List UInt8 :=
  s.take (intLen s.length)

/-- The loops of bases 10 and 8, over the characters from the last one down. -/
def scanLoop (test : UInt8 → Option Nat) (base : Nat) :
    List UInt8 → Nat → BitVec 32 → Option (BitVec 32)
  | [], _, v => some v
  | c :: rest, pos, v =>
    match test c with
    | none => some v
    | some t =>
      let pos := pos * base
      if intMax < pos then none
      else scanLoop test base rest pos (v + BitVec.ofNat 32 t * BitVec.ofNat 32 (pos / base))

/-- The loop of the last branch; `rest` has `(len - 1) - i` characters. -/
def hexLoop : List UInt8 → BitVec 32 → Option (BitVec 32)
  | [], v => some v
  | c :: rest, v =>
    match hexTest c with
    | none => some v
    | some t =>
      let pos := rest.length <<< 2
      if 32 ≤ pos then none else hexLoop rest (v ||| BitVec.ofNat 32 t <<< pos)

/-- `s[i]`; a string ends in NUL. -/
def charAt (s : List UInt8) (i : Nat) : UInt8 :=
  s.getD i nul

/-- `0x` or `0X` in front. -/
def hexPrefix (s : List UInt8) : Bool :=
  charAt s 0 == 0x30 && (charAt s 1 == 0x78 || charAt s 1 == 0x58)

/-- The base that base 0 stands for. -/
def prefixBase (s : List UInt8) : Nat :=
  if charAt s 0 = 0x30 then if hexPrefix s then 16 else 8 else 10

/-- `astrtol`. -/
def astrtol (nptr : CStr) (base : Nat) : Option (BitVec 32) :=
  let s := nptr.bytes
  let base := if base = 0 then prefixBase s else base
  if base = 10 then scanLoop (decTest 0x39) base (seen s).reverse 1 0
  else if base = 8 then
    let s := if charAt s 0 = 0x30 then s.drop 1 else s
    scanLoop (decTest 0x37) base (seen s).reverse 1 0
  else
    let s := if hexPrefix s then s.drop 2 else s
    hexLoop (seen s) 0

def isDigit (base : Nat) (c : UInt8) : Bool :=
  (digitVal c).any (· < base)

def digit (c : UInt8) : Nat :=
  (digitVal c).getD 0

/-- All characters are digits of the base. -/
def AllDigits (base : Nat) (cs : List UInt8) : Prop :=
  ∀ c ∈ cs, isDigit base c = true

instance (base : Nat) (cs : List UInt8) : Decidable (AllDigits base cs) :=
  inferInstanceAs (Decidable (∀ c ∈ cs, _))

/-- The number that a string of digits denotes. -/
def numeral (base : Nat) (cs : List UInt8) : Nat :=
  value base (cs.map digit)

/-- The test recognises the digits of the base and gives their values. -/
def Tests (test : UInt8 → Option Nat) (base : Nat) : Prop :=
  ∀ c, test c = if isDigit base c then some (digit c) else none

/-- A property of bytes holds if it holds of every byte value. -/
theorem forall_byte {P : UInt8 → Prop} (h : ∀ n < 256, P (UInt8.ofNat n)) (c : UInt8) : P c := by
  have hc := h c.toNat c.toNat_lt
  rwa [UInt8.ofNat_toNat] at hc

/-- The test against `'9'` recognises the decimal digits. -/
theorem decTest_ten : Tests (decTest 0x39) 10 := by
  apply forall_byte
  decide +kernel

/-- The test against `'7'` recognises the octal digits. -/
theorem decTest_eight : Tests (decTest 0x37) 8 := by
  apply forall_byte
  decide +kernel

/-- The three ranges of base 16 recognise the hexadecimal digits. -/
theorem hexTest_sixteen : Tests hexTest 16 := by
  apply forall_byte
  decide +kernel

/-- A digit is below its base. -/
theorem digit_lt {base : Nat} {c : UInt8} (h : isDigit base c = true) : digit c < base := by
  unfold isDigit at h
  unfold digit
  cases hc : digitVal c with
  | none => simp [hc] at h
  | some d => simpa [hc] using h

/-- The values of digits are below the base. -/
theorem AllDigits.lt {base : Nat} {cs : List UInt8} (h : AllDigits base cs) :
    ∀ d ∈ cs.map digit, d < base := by
  intro d hd
  obtain ⟨c, hc, rfl⟩ := List.mem_map.mp hd
  exact digit_lt (h c hc)

/-- The first digit counts the highest power. -/
theorem numeral_cons (base : Nat) (c : UInt8) (cs : List UInt8) :
    numeral base (c :: cs) = digit c * base ^ cs.length + numeral base cs := by
  rw [numeral, List.map_cons, value_cons, List.length_map]
  rfl

/-- One more digit at the end multiplies what was before by the base. -/
theorem numeral_concat (base : Nat) (cs : List UInt8) (c : UInt8) :
    numeral base (cs ++ [c]) = numeral base cs * base + digit c := by
  rw [numeral, List.map_append, List.map_singleton, value_concat]
  rfl

/-- A number of `n` digits is below the power `n` of the base. -/
theorem numeral_lt_pow {base : Nat} (hb : 1 < base) {cs : List UInt8} (h : AllDigits base cs) :
    numeral base cs < base ^ cs.length := by
  have hlt := value_lt_pow hb h.lt
  rwa [List.length_map] at hlt

/-- `len` is no more than the length. -/
theorem intLen_le (n : Nat) : intLen n ≤ n := by
  rw [intLen, BitVec.toInt_eq_toNat_cond, BitVec.toNat_ofNat]
  split <;> omega

/-- The digits at the end of a string. -/
def endDigits (base : Nat) (s : List UInt8) : List UInt8 :=
  (s.reverse.takeWhile (isDigit base)).reverse

/-- The loop reads the digits at the end while the next power is an `int`. -/
theorem scanLoop_eq {test : UInt8 → Option Nat} {base : Nat} (htest : Tests test base)
    (hb : 1 < base) (cs : List UInt8) (k a : Nat) (hk : base ^ k ≤ intMax) :
    scanLoop test base cs (base ^ k) (BitVec.ofNat 32 a) =
      if base ^ (k + (cs.takeWhile (isDigit base)).length) ≤ intMax then
        some (BitVec.ofNat 32
          (a + base ^ k * numeral base (cs.takeWhile (isDigit base)).reverse))
      else none := by
  induction cs generalizing k a with
  | nil => simp [scanLoop, hk, numeral]
  | cons c rest ih =>
      rw [scanLoop, htest c]
      by_cases hc : isDigit base c = true
      · rw [if_pos hc, List.takeWhile_cons_of_pos hc, List.length_cons, List.reverse_cons,
          numeral_concat]
        dsimp only
        by_cases hpos : intMax < base ^ k * base
        · rw [if_pos hpos, if_neg]
          have hmono : base ^ (k + 1) ≤
              base ^ (k + ((rest.takeWhile (isDigit base)).length + 1)) :=
            Nat.pow_le_pow_right (by omega) (by omega)
          rw [Nat.pow_succ] at hmono
          omega
        · have hdiv : base ^ k * base / base = base ^ k :=
            Nat.mul_div_cancel _ (by omega)
          have hadd : BitVec.ofNat 32 a + BitVec.ofNat 32 (digit c) * BitVec.ofNat 32 (base ^ k) =
              BitVec.ofNat 32 (a + digit c * base ^ k) := by
            rw [BitVec.ofNat_add, BitVec.ofNat_mul]
          rw [if_neg hpos, hdiv, hadd, ← Nat.pow_succ,
            ih (k + 1) _ (by rw [Nat.pow_succ]; omega)]
          have hexp : k + 1 + (rest.takeWhile (isDigit base)).length =
              k + ((rest.takeWhile (isDigit base)).length + 1) := by omega
          have hsum : a + digit c * base ^ k +
                base ^ (k + 1) * numeral base (rest.takeWhile (isDigit base)).reverse =
              a + base ^ k *
                (numeral base (rest.takeWhile (isDigit base)).reverse * base + digit c) := by
            ring
          rw [hexp, hsum]
      · rw [if_neg hc, List.takeWhile_cons_of_neg hc]
        simp [hk, numeral]

/-- The number at the end of `s`, if `base ^ length` is an `int`. -/
def endValue (base : Nat) (s : List UInt8) : Option (BitVec 32) :=
  if base ^ (endDigits base s).length ≤ intMax then
    some (BitVec.ofNat 32 (numeral base (endDigits base s)))
  else none

/-- The loop from the last character gives the number at the end. -/
theorem scanLoop_seen {test : UInt8 → Option Nat} {base : Nat} (htest : Tests test base)
    (hb : 1 < base) (s : List UInt8) :
    scanLoop test base s.reverse 1 0 = endValue base s := by
  have hone : base ^ 0 ≤ intMax := by
    rw [Nat.pow_zero]
    decide
  have h := scanLoop_eq htest hb s.reverse 0 0 hone
  simpa [endValue, endDigits] using h

/-- A power of 16 is a shift by four bits for each digit. -/
theorem sixteen_pow (m : Nat) : (16 : Nat) ^ m = 2 ^ (4 * m) := by
  rw [Nat.pow_mul]

/-- One more digit still fits. -/
theorem shift_lt {a t n : Nat} (hn : n < 8) (ht : t < 16) (ha : a * 16 ^ (n + 1) < 2 ^ 32) :
    (a * 16 + t) * 16 ^ n < 2 ^ 32 := by
  have hsplit : (2 : Nat) ^ 32 = 16 ^ (7 - n) * 16 ^ (n + 1) := by
    rw [← Nat.pow_add, show 7 - n + (n + 1) = 8 by omega]
    rfl
  rw [hsplit] at ha ⊢
  have hlt : a < 16 ^ (7 - n) := Nat.lt_of_mul_lt_mul_right ha
  calc (a * 16 + t) * 16 ^ n < ((a + 1) * 16) * 16 ^ n :=
        Nat.mul_lt_mul_of_pos_right (by omega) (Nat.pow_pos (by omega))
    _ = (a + 1) * 16 ^ (n + 1) := by ring
    _ ≤ 16 ^ (7 - n) * 16 ^ (n + 1) := Nat.mul_le_mul_right _ hlt

/-- One digit at its place. -/
theorem or_shift {a t n : Nat} (hn : n < 8) (ht : t < 16) (ha : a * 16 ^ (n + 1) < 2 ^ 32) :
    BitVec.ofNat 32 (a * 16 ^ (n + 1)) ||| BitVec.ofNat 32 t <<< (n <<< 2) =
      BitVec.ofNat 32 ((a * 16 + t) * 16 ^ n) := by
  have hfit := shift_lt hn ht ha
  have hshift : n <<< 2 = 4 * n := by
    rw [Nat.shiftLeft_eq]
    omega
  have hlt : t * 2 ^ (4 * n) < 2 ^ (4 * (n + 1)) := by
    calc t * 2 ^ (4 * n) < 16 * 2 ^ (4 * n) := Nat.mul_lt_mul_of_pos_right ht (by positivity)
      _ = 2 ^ (4 * (n + 1)) := by
        rw [Nat.mul_add, Nat.pow_add]
        ring
  have hle : (2 : Nat) ^ (4 * (n + 1)) ≤ 2 ^ 32 := Nat.pow_le_pow_right (by omega) (by omega)
  have hsum : (a * 16 + t) * 2 ^ (4 * n) = a * 2 ^ (4 * (n + 1)) + t * 2 ^ (4 * n) := by
    rw [Nat.mul_add 4, Nat.pow_add]
    ring
  rw [sixteen_pow] at ha hfit
  apply BitVec.eq_of_toNat_eq
  rw [sixteen_pow, sixteen_pow, BitVec.toNat_or, BitVec.toNat_shiftLeft, BitVec.toNat_ofNat,
    BitVec.toNat_ofNat, BitVec.toNat_ofNat, hshift, Nat.mod_eq_of_lt ha, Nat.mod_eq_of_lt hfit,
    Nat.mod_eq_of_lt (by omega : t < 2 ^ 32), Nat.shiftLeft_eq,
    Nat.mod_eq_of_lt (hlt.trans_le hle), ← Nat.shiftLeft_eq a, ← Nat.shiftLeft_add_eq_or_of_lt hlt,
    Nat.shiftLeft_eq, hsum]

/-- The loop of base 16 goes on from a value laid at its place, by induction on the characters. -/
theorem hexLoop_eq {cs : List UInt8} {a : Nat} (hlen : cs.length ≤ 8)
    (ha : a * 16 ^ cs.length < 2 ^ 32) :
    hexLoop cs (BitVec.ofNat 32 (a * 16 ^ cs.length)) =
      let run := cs.takeWhile (isDigit 16)
      some (BitVec.ofNat 32
        ((a * 16 ^ run.length + numeral 16 run) * 16 ^ (cs.length - run.length))) := by
  induction cs generalizing a with
  | nil => simp [hexLoop, numeral]
  | cons c rest ih =>
      rw [List.length_cons] at hlen ha ⊢
      rw [hexLoop, hexTest_sixteen c]
      by_cases hc : isDigit 16 c = true
      · have hpos : ¬ 32 ≤ rest.length <<< 2 := by
          rw [Nat.shiftLeft_eq]
          omega
        have hfit := shift_lt (by omega) (digit_lt hc) ha
        rw [if_pos hc]
        dsimp only
        rw [if_neg hpos, or_shift (by omega) (digit_lt hc) ha, ih (by omega) hfit,
          List.takeWhile_cons_of_pos hc, numeral_cons, List.length_cons]
        have hsub : rest.length + 1 - ((rest.takeWhile (isDigit 16)).length + 1) =
            rest.length - (rest.takeWhile (isDigit 16)).length := by omega
        have hval : (a * 16 + digit c) * 16 ^ (rest.takeWhile (isDigit 16)).length +
              numeral 16 (rest.takeWhile (isDigit 16)) =
            a * 16 ^ ((rest.takeWhile (isDigit 16)).length + 1) +
              (digit c * 16 ^ (rest.takeWhile (isDigit 16)).length +
                numeral 16 (rest.takeWhile (isDigit 16))) := by
          ring
        dsimp only
        rw [hsub, hval]
      · rw [if_neg hc, List.takeWhile_cons_of_neg hc]
        simp [numeral]

/-- The digits at the start of a string. -/
def startDigits (base : Nat) (s : List UInt8) : List UInt8 :=
  s.takeWhile (isDigit base)

/-- The digits at the start of `s`, at the places that its length gives them. -/
def startValue (s : List UInt8) : Option (BitVec 32) :=
  if startDigits 16 s = [] ∨ s.length ≤ 8 then
    some (BitVec.ofNat 32
      (numeral 16 (startDigits 16 s) * 16 ^ (s.length - (startDigits 16 s).length)))
  else none

/-- The loop of base 16 gives the digits at the start. -/
theorem hexLoop_seen (s : List UInt8) : hexLoop s 0 = startValue s := by
  unfold startValue
  by_cases hlen : s.length ≤ 8
  · have h := hexLoop_eq (a := 0) hlen (by omega)
    rw [if_pos (Or.inr hlen)]
    simpa [startDigits] using h
  · obtain ⟨c, rest, rfl⟩ : ∃ c rest, s = c :: rest := by
      apply List.exists_cons_of_ne_nil
      rintro rfl
      simp at hlen
    rw [hexLoop, hexTest_sixteen c, startDigits]
    by_cases hc : isDigit 16 c = true
    · have hpos : 32 ≤ rest.length <<< 2 := by
        rw [List.length_cons] at hlen
        rw [Nat.shiftLeft_eq]
        omega
      rw [if_pos hc, List.takeWhile_cons_of_pos hc, if_neg (by simpa using hlen)]
      dsimp only
      rw [if_pos hpos]
    · rw [if_neg hc, List.takeWhile_cons_of_neg hc, if_pos (Or.inl rfl)]
      simp [numeral]

/-- The most digits that a branch reads without overflow. -/
def digitLimit (base : Nat) : Nat :=
  if base = 10 then 9 else if base = 8 then 10 else 8

/-- The powers of 10 and 8 that are an `int` are those up to the limit. -/
theorem pow_le_intMax_iff {base : Nat} (hb : base = 10 ∨ base = 8) (n : Nat) :
    base ^ n ≤ intMax ↔ n ≤ digitLimit base := by
  have hlow : base ^ digitLimit base ≤ intMax := by
    rcases hb with rfl | rfl <;> decide
  have hhigh : intMax < base ^ (digitLimit base + 1) := by
    rcases hb with rfl | rfl <;> decide
  have hpos : 0 < base := by omega
  constructor
  · intro h
    by_contra hn
    have hmono : base ^ (digitLimit base + 1) ≤ base ^ n :=
      Nat.pow_le_pow_right hpos (by omega)
    omega
  · intro hn
    exact (Nat.pow_le_pow_right hpos hn).trans hlow

/-- What base 8 scans. -/
def octBody (s : List UInt8) : List UInt8 :=
  if charAt s 0 = 0x30 then s.drop 1 else s

/-- What the last branch scans. -/
def hexBody (s : List UInt8) : List UInt8 :=
  if hexPrefix s then s.drop 2 else s

/-- The base taken from a prefix is never 0. -/
theorem prefixBase_pos (s : List UInt8) : prefixBase s ≠ 0 := by
  unfold prefixBase
  split
  · split <;> decide
  · decide

/-- Base 0 is the base that the prefix names. -/
theorem astrtol_zero (s : CStr) : astrtol s 0 = astrtol s (prefixBase s.bytes) := by
  unfold astrtol
  dsimp only
  rw [if_pos rfl, if_neg (prefixBase_pos _)]

/-- Base 10 reads the number at the end of the string. -/
theorem astrtol_ten (s : CStr) : astrtol s 10 = endValue 10 (seen s.bytes) :=
  scanLoop_seen decTest_ten (by omega) _

/-- Base 8 reads the number at the end, behind a leading `0`. -/
theorem astrtol_eight (s : CStr) : astrtol s 8 = endValue 8 (seen (octBody s.bytes)) :=
  scanLoop_seen decTest_eight (by omega) _

/-- Base 16 reads the digits at the start, behind a leading `0x`. -/
theorem astrtol_sixteen (s : CStr) : astrtol s 16 = startValue (seen (hexBody s.bytes)) :=
  hexLoop_seen _

/-- A C integer literal: its prefix, its base and its digits. -/
inductive IsLiteral : List UInt8 → Nat → List UInt8 → Prop
  | dec {ds : List UInt8} (h : AllDigits 10 ds) (hpos : ds ≠ []) (hhead : charAt ds 0 ≠ 0x30) :
      IsLiteral [] 10 ds
  | oct {ds : List UInt8} (h : AllDigits 8 ds) : IsLiteral [0x30] 8 ds
  | hex {x : UInt8} {ds : List UInt8} (hx : x = 0x78 ∨ x = 0x58) (h : AllDigits 16 ds)
      (hpos : ds ≠ []) : IsLiteral [0x30, x] 16 ds

/-- The number of digits is within the limit of the branch.  A length that is not an `int`
does no harm where it leaves few digits and all digits are zero. -/
def DigitsFit (base : Nat) (ds : List UInt8) : Prop :=
  intLen ds.length ≤ digitLimit base ∧ (ds.length < 2 ^ 31 ∨ numeral base ds = 0)

instance (base : Nat) (ds : List UInt8) : Decidable (DigitsFit base ds) :=
  inferInstanceAs (Decidable (_ ∧ _))

/-- Where all characters are digits, so are those that `len` counts. -/
theorem AllDigits.seen {base : Nat} {ds : List UInt8} (h : AllDigits base ds) :
    AllDigits base (seen ds) := by
  intro c hc
  exact h c (List.mem_of_mem_take hc)

/-- Where all characters are digits, all of them end the string. -/
theorem AllDigits.endDigits_eq {base : Nat} {ds : List UInt8} (h : AllDigits base ds) :
    endDigits base ds = ds := by
  rw [endDigits, List.takeWhile_eq_self_iff.mpr, List.reverse_reverse]
  intro c hc
  exact h c (List.mem_reverse.mp hc)

/-- Where all characters are digits, all of them start the string. -/
theorem AllDigits.startDigits_eq {base : Nat} {ds : List UInt8} (h : AllDigits base ds) :
    startDigits base ds = ds :=
  List.takeWhile_eq_self_iff.mpr h

/-- `len` characters are seen. -/
theorem length_seen (s : List UInt8) : (seen s).length = intLen s.length := by
  rw [seen, List.length_take]
  exact Nat.min_eq_left (intLen_le _)

/-- The digits of an octal literal do not make it hexadecimal. -/
theorem hexPrefix_oct {ds : List UInt8} (h : AllDigits 8 ds) {s : List UInt8}
    (hs : s = [0x30] ++ ds) : hexPrefix s = false := by
  cases ds with
  | nil =>
      rw [hs]
      rfl
  | cons c ds =>
      have hc := h c List.mem_cons_self
      have hone : charAt s 1 = c := by
        rw [hs]
        rfl
      have hne : c ≠ 0x78 ∧ c ≠ 0x58 := by
        constructor <;> (rintro rfl; revert hc; decide)
      rw [hexPrefix, hone]
      simp [hne.1, hne.2]

/-- A string of digits is read as far as it is seen. -/
theorem endValue_digits {base : Nat} (hb : base = 10 ∨ base = 8) {ds : List UInt8}
    (h : AllDigits base ds) :
    endValue base (seen ds) =
      if intLen ds.length ≤ digitLimit base then
        some (BitVec.ofNat 32 (numeral base (seen ds)))
      else none := by
  rw [endValue, h.seen.endDigits_eq, length_seen]
  simp only [pow_le_intMax_iff hb]

/-- Of hexadecimal digits only, the value is theirs up to eight of them. -/
theorem startValue_digits {ds : List UInt8} (h : AllDigits 16 ds) :
    startValue (seen ds) =
      if intLen ds.length ≤ digitLimit 16 then some (BitVec.ofNat 32 (numeral 16 (seen ds)))
      else none := by
  have hlimit : (seen ds = [] ∨ intLen ds.length ≤ 8) ↔ intLen ds.length ≤ digitLimit 16 := by
    have height : digitLimit 16 = 8 := rfl
    rw [← List.length_eq_zero_iff, length_seen, height]
    omega
  rw [startValue, h.seen.startDigits_eq, Nat.sub_self, Nat.pow_zero, Nat.mul_one, length_seen]
  simp only [hlimit]

/-- What `astrtol` reads of a literal. -/
theorem astrtol_literal {pre ds : List UInt8} {base : Nat} (h : IsLiteral pre base ds) {s : CStr}
    (hs : s.bytes = pre ++ ds) :
    astrtol s 0 =
      if intLen ds.length ≤ digitLimit base then
        some (BitVec.ofNat 32 (numeral base (seen ds)))
      else none := by
  cases h with
  | dec h hpos hhead =>
      have hbase : prefixBase s.bytes = 10 := by
        rw [hs, List.nil_append, prefixBase, if_neg hhead]
      rw [astrtol_zero, hbase, astrtol_ten, hs, List.nil_append, endValue_digits (Or.inl rfl) h]
  | oct h =>
      have hzero : charAt s.bytes 0 = 0x30 := by
        rw [hs]
        rfl
      have hbase : prefixBase s.bytes = 8 := by
        rw [prefixBase, if_pos hzero, hexPrefix_oct h hs]
        rfl
      have hbody : octBody s.bytes = ds := by
        rw [octBody, if_pos hzero, hs]
        rfl
      rw [astrtol_zero, hbase, astrtol_eight, hbody, endValue_digits (Or.inr rfl) h]
  | @hex x ds hx h hpos =>
      have hzero : charAt s.bytes 0 = 0x30 := by
        rw [hs]
        rfl
      have hprefix : hexPrefix s.bytes = true := by
        rw [hs]
        rcases hx with rfl | rfl <;> rfl
      have hbase : prefixBase s.bytes = 16 := by
        rw [prefixBase, if_pos hzero, hprefix]
        rfl
      have hbody : hexBody s.bytes = ds := by
        rw [hexBody, hprefix, if_pos rfl, hs]
        rfl
      rw [astrtol_zero, hbase, astrtol_sixteen, hbody, startValue_digits h]

/-- **Literals.**  A literal below 2^32 is read exactly when its digits are within the
limit of its branch. -/
theorem astrtol_literal_iff {pre ds : List UInt8} {base : Nat} (h : IsLiteral pre base ds)
    (hv : numeral base ds < 2 ^ 32) {s : CStr} (hs : s.bytes = pre ++ ds) :
    astrtol s 0 = some (BitVec.ofNat 32 (numeral base ds)) ↔ DigitsFit base ds := by
  have hb : 1 < base := by
    cases h <;> decide
  have hint : ds.length ≤ intLen ds.length ↔ ds.length < 2 ^ 31 := by
    rw [intLen, BitVec.toInt_eq_toNat_cond, BitVec.toNat_ofNat]
    split <;> omega
  have hseen : numeral base (seen ds) = value base ((ds.map digit).take (intLen ds.length)) := by
    rw [numeral, seen, List.map_take]
  have hle : numeral base (seen ds) ≤ numeral base ds := by
    rw [hseen]
    exact value_take_le (by omega) _ _
  have hsame : numeral base (seen ds) = numeral base ds ↔
      ds.length < 2 ^ 31 ∨ numeral base ds = 0 := by
    rw [hseen, numeral, value_take_eq_iff hb, List.length_map, hint]
  rw [astrtol_literal h hs, DigitsFit, ← hsame]
  by_cases hlimit : intLen ds.length ≤ digitLimit base
  · rw [if_pos hlimit, Option.some_inj, ← BitVec.toNat_inj, BitVec.toNat_ofNat,
      BitVec.toNat_ofNat, Nat.mod_eq_of_lt hv, Nat.mod_eq_of_lt (by omega)]
    simp [hlimit]
  · simp [hlimit]

/-- The largest literal with eight digits. -/
theorem astrtol_ffffffff : astrtol (lit "0xffffFFFF") 0 = some 0xFFFFFFFF ∧
    DigitsFit 16 (asciiBytes "ffffFFFF") := by
  have hfit : DigitsFit 16 (asciiBytes "ffffFFFF") := by
    decide +kernel
  refine ⟨?_, hfit⟩
  have hlit : IsLiteral [0x30, 0x78] 16 (asciiBytes "ffffFFFF") :=
    .hex (Or.inl rfl) (by decide +kernel) (by decide +kernel)
  have hread := (astrtol_literal_iff hlit (by decide +kernel) (s := lit "0xffffFFFF")
    (by decide +kernel)).mpr hfit
  rw [hread]
  decide +kernel

/-- With ten digits `pos` overflows. -/
theorem astrtol_billion :
    IsLiteral [] 10 (asciiBytes "1000000000") ∧
      numeral 10 (asciiBytes "1000000000") = 10 ^ 9 ∧ astrtol (lit "1000000000") 0 = none := by
  refine ⟨.dec (by decide +kernel) (by decide +kernel) (by decide +kernel), ?_, ?_⟩
  · decide +kernel
  · decide +kernel

end Astrtol

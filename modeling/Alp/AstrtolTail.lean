import Alp.Astrtol

/-!
# What follows a number

`astrtol` with an explicit base, on digits and then something else.  Bases 10 and 8 stop
at a character that is no digit coming from the end, so they read the digits that the
string ends in; the last branch stops at it from the start, but has placed the digits
before it by the length of the whole string.
-/

set_option autoImplicit false

namespace Astrtol

open CString Numeral

/-- The digits at the end of `s` are those of `d` up to leading zeros, and few enough. -/
def EndsLike (base : Nat) (d s : List UInt8) : Prop :=
  (endDigits base s).length ≤ digitLimit base ∧
    significant ((endDigits base s).map digit) = significant (d.map digit)

/-- All digits are zero. -/
def AllZero (d : List UInt8) : Prop :=
  ∀ c ∈ d, digit c = 0

instance (base : Nat) (d s : List UInt8) : Decidable (EndsLike base d s) :=
  inferInstanceAs (Decidable (_ ∧ _))

instance (d : List UInt8) : Decidable (AllZero d) :=
  inferInstanceAs (Decidable (∀ c ∈ d, _))

/-- `d` is zero, and what follows it made it a hexadecimal prefix: after it no digit
follows, or a few zeros. -/
def PrefixZero (body : List UInt8) : Prop :=
  (startDigits 16 body = [] ∨ body.length ≤ 8) ∧ AllZero (startDigits 16 body)

instance (body : List UInt8) : Decidable (PrefixZero body) :=
  inferInstanceAs (Decidable (_ ∧ _))

/-- When `astrtol` reads `d` and nothing of the `tail` after it. -/
def ReadsAlone (base : Nat) (d tail : List UInt8) : Prop :=
  let s := d ++ tail
  if base = 10 then EndsLike 10 d (seen s)
  else if base = 8 then EndsLike 8 d (seen (octBody s))
  else if hexPrefix s then PrefixZero (seen (s.drop 2))
  else intLen s.length ≤ 8 ∧ (intLen s.length = d.length ∨ AllZero d)

instance (base : Nat) (d tail : List UInt8) : Decidable (ReadsAlone base d tail) := by
  unfold ReadsAlone
  infer_instance

/-- Two numerals have one value exactly when they agree but for leading zeros. -/
theorem numeral_eq_iff {base : Nat} (hb : 1 < base) {d e : List UInt8} (hd : AllDigits base d)
    (he : AllDigits base e) :
    numeral base d = numeral base e ↔ significant (d.map digit) = significant (e.map digit) :=
  value_eq_iff hb hd.lt he.lt

/-- Only zeros denote 0. -/
theorem numeral_eq_zero_iff {base : Nat} (hb : 0 < base) (d : List UInt8) :
    numeral base d = 0 ↔ AllZero d := by
  rw [numeral, value_eq_zero_iff hb, AllZero, List.forall_mem_map]

/-- The digits at the end are digits. -/
theorem endDigits_allDigits (base : Nat) (s : List UInt8) : AllDigits base (endDigits base s) := by
  intro c hc
  exact List.mem_takeWhile_imp (List.mem_reverse.mp hc)

/-- The digits at the start are digits. -/
theorem startDigits_allDigits (base : Nat) (s : List UInt8) :
    AllDigits base (startDigits base s) := by
  intro c hc
  exact List.mem_takeWhile_imp hc

/-- Numbers below 2^32 are the same number as `unsigned int`. -/
theorem some_ofNat_inj {m n : Nat} (hm : m < 2 ^ 32) (hn : n < 2 ^ 32) :
    some (BitVec.ofNat 32 m) = some (BitVec.ofNat 32 n) ↔ m = n := by
  rw [Option.some_inj, ← BitVec.toNat_inj, BitVec.toNat_ofNat, BitVec.toNat_ofNat,
    Nat.mod_eq_of_lt hm, Nat.mod_eq_of_lt hn]

/-- Eight digits denote a 32-bit number. -/
theorem numeral_small {base : Nat} (hb : 1 < base) (hb' : base ≤ 16) {d : List UInt8}
    (hd : AllDigits base d) (hlen : d.length ≤ 8) : numeral base d < 2 ^ 32 := by
  calc numeral base d < base ^ d.length := numeral_lt_pow hb hd
    _ ≤ 16 ^ d.length := Nat.pow_le_pow_left hb' _
    _ ≤ 16 ^ 8 := Nat.pow_le_pow_right (by omega) hlen
    _ = 2 ^ 32 := by decide

/-- A branch that scans from the end reads `d` exactly if the string ends like `d`. -/
theorem endValue_eq_iff {base : Nat} (hb : base = 10 ∨ base = 8) {d : List UInt8}
    (hd : AllDigits base d) (hsmall : numeral base d < 2 ^ 32) (s : List UInt8) :
    endValue base s = some (BitVec.ofNat 32 (numeral base d)) ↔ EndsLike base d s := by
  have hb' : 1 < base := by omega
  rw [endValue, EndsLike, ← pow_le_intMax_iff hb]
  by_cases hpow : base ^ (endDigits base s).length ≤ intMax
  · have hlt : numeral base (endDigits base s) < 2 ^ 32 := by
      calc numeral base (endDigits base s) < base ^ (endDigits base s).length :=
            numeral_lt_pow hb' (endDigits_allDigits base s)
        _ ≤ intMax := hpow
        _ ≤ 2 ^ 32 := by decide
    rw [if_pos hpow, some_ofNat_inj hlt hsmall,
      numeral_eq_iff hb' (endDigits_allDigits base s) hd]
    simp [hpow]
  · rw [if_neg hpow]
    simp [hpow]

/-- Digits with no digit behind them are the digits at the start. -/
theorem startDigits_append {base : Nat} {d tail : List UInt8} (hd : AllDigits base d)
    (htail : ∀ c, tail.head? = some c → isDigit base c = false) :
    startDigits base (d ++ tail) = d := by
  rw [startDigits, List.takeWhile_append_of_pos hd]
  cases tail with
  | nil => simp
  | cons c tail => simp [htail c rfl]

/-- The last branch gives `n` where it is defined and the padded digits denote `n`. -/
theorem startValue_eq_iff (s : List UInt8) {n : Nat} (hn : n < 2 ^ 32) :
    startValue s = some (BitVec.ofNat 32 n) ↔
      (startDigits 16 s = [] ∨ s.length ≤ 8) ∧
        numeral 16 (startDigits 16 s) * 16 ^ (s.length - (startDigits 16 s).length) = n := by
  rw [startValue]
  by_cases h : startDigits 16 s = [] ∨ s.length ≤ 8
  · have hlt : numeral 16 (startDigits 16 s) *
        16 ^ (s.length - (startDigits 16 s).length) < 2 ^ 32 := by
      rcases h with hnil | hlen
      · simp [hnil, numeral]
      · have hle : (startDigits 16 s).length ≤ s.length := (List.takeWhile_prefix _).length_le
        calc numeral 16 (startDigits 16 s) * 16 ^ (s.length - (startDigits 16 s).length)
            < 16 ^ (startDigits 16 s).length *
                16 ^ (s.length - (startDigits 16 s).length) :=
              Nat.mul_lt_mul_of_pos_right
                (numeral_lt_pow (by omega) (startDigits_allDigits 16 s))
                (Nat.pow_pos (by omega))
          _ = 16 ^ s.length := by rw [← Nat.pow_add, Nat.add_sub_cancel' hle]
          _ ≤ 16 ^ 8 := Nat.pow_le_pow_right (by omega) hlen
          _ = 2 ^ 32 := by decide
    rw [if_pos h, some_ofNat_inj hlt hn]
    simp [h]
  · rw [if_neg h]
    simp [h]

/-- The digits are cut off at `m`. -/
theorem startValue_take_iff {d : List UInt8} (hd : AllDigits 16 d)
    (hsmall : numeral 16 d < 2 ^ 32) {m : Nat} (hm : m ≤ d.length) :
    startValue (d.take m) = some (BitVec.ofNat 32 (numeral 16 d)) ↔
      m ≤ 8 ∧ (m = d.length ∨ AllZero d) := by
  have hlength : (d.take m).length = m := by
    rw [List.length_take]
    omega
  have hdigits : startDigits 16 (d.take m) = d.take m := by
    apply AllDigits.startDigits_eq
    intro c hc
    exact hd c (List.mem_of_mem_take hc)
  have hguard : d.take m = [] ∨ m ≤ 8 ↔ m ≤ 8 := by
    rw [← List.length_eq_zero_iff, hlength]
    omega
  have hvalue : numeral 16 (d.take m) = numeral 16 d ↔ m = d.length ∨ AllZero d := by
    rw [numeral, List.map_take, numeral, value_take_eq_iff (by omega), List.length_map,
      ← numeral, numeral_eq_zero_iff (by omega)]
    grind
  rw [startValue_eq_iff _ hsmall, hdigits, hlength, Nat.sub_self, Nat.pow_zero, Nat.mul_one,
    hguard, hvalue]

/-- Something follows the digits. -/
theorem startValue_append_iff {d e : List UInt8} (hd : AllDigits 16 d) (hne : d ≠ [])
    (hsmall : numeral 16 d < 2 ^ 32) (he : e ≠ [])
    (hhead : ∀ c, e.head? = some c → isDigit 16 c = false) :
    startValue (d ++ e) = some (BitVec.ofNat 32 (numeral 16 d)) ↔
      (d ++ e).length ≤ 8 ∧ AllZero d := by
  have hsub : (d ++ e).length - d.length = e.length := by
    rw [List.length_append]
    omega
  have hpad : 16 ≤ 16 ^ e.length := Nat.le_self_pow (List.length_pos_iff.mpr he).ne' 16
  have hvalue : numeral 16 d * 16 ^ e.length = numeral 16 d ↔ AllZero d := by
    rw [← numeral_eq_zero_iff (by omega : 0 < 16)]
    constructor
    · intro h
      have hmul := Nat.mul_le_mul_left (numeral 16 d) hpad
      omega
    · intro h
      rw [h, Nat.zero_mul]
  rw [startValue_eq_iff _ hsmall, startDigits_append hd hhead, hsub, hvalue]
  simp [hne]

/-- Digits and a tail: the digits must be all of the string, or zero. -/
theorem startValue_seen_iff {d tail : List UInt8} (hd : AllDigits 16 d) (hne : d ≠ [])
    (hsmall : numeral 16 d < 2 ^ 32)
    (htail : ∀ c, tail.head? = some c → isDigit 16 c = false) :
    startValue (seen (d ++ tail)) = some (BitVec.ofNat 32 (numeral 16 d)) ↔
      intLen (d ++ tail).length ≤ 8 ∧
        (intLen (d ++ tail).length = d.length ∨ AllZero d) := by
  have hlength := length_seen (d ++ tail)
  rw [seen] at hlength ⊢
  generalize intLen (d ++ tail).length = m at hlength ⊢
  by_cases hcut : m ≤ d.length
  · rw [List.take_append_of_le_length hcut]
    exact startValue_take_iff hd hsmall hcut
  · have hsplit : (d ++ tail).take m = d ++ tail.take (m - d.length) := by
      rw [List.take_append, List.take_of_length_le (by omega)]
    have hne' : tail.take (m - d.length) ≠ [] := by
      intro hnil
      rw [hsplit, hnil, List.append_nil] at hlength
      omega
    rw [hsplit] at hlength ⊢
    rw [startValue_append_iff hd hne hsmall hne', hlength]
    · grind
    · intro c hc
      apply htail c
      rw [← hc, List.head?_take, if_neg (by omega)]

/-- Only `0` can be the start of a prefix. -/
theorem numeral_of_hexPrefix {d tail : List UInt8} (hd : AllDigits 16 d) (hne : d ≠ [])
    (h : hexPrefix (d ++ tail) = true) : numeral 16 d = 0 := by
  obtain ⟨c, d', rfl⟩ := List.exists_cons_of_ne_nil hne
  have hzero : charAt (c :: d' ++ tail) 0 = c := rfl
  rw [hexPrefix, hzero, Bool.and_eq_true, beq_iff_eq] at h
  obtain ⟨rfl, hx⟩ := h
  cases d' with
  | nil => decide
  | cons c' d' =>
      have hone : charAt (0x30 :: c' :: d' ++ tail) 1 = c' := rfl
      have hdigit := hd c' (by simp)
      rw [hone, Bool.or_eq_true, beq_iff_eq, beq_iff_eq] at hx
      rcases hx with rfl | rfl
      · exact absurd hdigit (by decide)
      · exact absurd hdigit (by decide)

/-- The value is 0 exactly where the prefix is. -/
theorem startValue_prefix_iff (body : List UInt8) :
    startValue body = some (BitVec.ofNat 32 0) ↔ PrefixZero body := by
  rw [startValue_eq_iff _ (by omega), PrefixZero, Nat.mul_eq_zero, numeral_eq_zero_iff (by omega)]
  simp

/-- **What follows.**  Digits and something else are read as the digits alone exactly in
the cases of `ReadsAlone`. -/
theorem astrtol_append_iff {base : Nat} (hbase : base = 8 ∨ base = 10 ∨ base = 16)
    {d tail : List UInt8} (hd : AllDigits base d) (hne : d ≠ []) (hlen : d.length ≤ 8)
    (htail : ∀ c, tail.head? = some c → isDigit base c = false) {s : CStr}
    (hs : s.bytes = d ++ tail) :
    astrtol s base = some (BitVec.ofNat 32 (numeral base d)) ↔ ReadsAlone base d tail := by
  have hsmall : numeral base d < 2 ^ 32 := by
    apply numeral_small _ _ hd hlen
    · omega
    · omega
  unfold ReadsAlone
  dsimp only
  rcases hbase with rfl | rfl | rfl
  · rw [if_neg (by decide), if_pos rfl, astrtol_eight, hs, endValue_eq_iff (Or.inr rfl) hd hsmall]
  · rw [if_pos rfl, astrtol_ten, hs, endValue_eq_iff (Or.inl rfl) hd hsmall]
  · rw [if_neg (by decide), if_neg (by decide), astrtol_sixteen, hs, hexBody]
    by_cases hprefix : hexPrefix (d ++ tail) = true
    · rw [if_pos hprefix, if_pos hprefix, numeral_of_hexPrefix hd hne hprefix,
        startValue_prefix_iff]
    · rw [if_neg hprefix, if_neg hprefix, startValue_seen_iff hd hne hsmall htail]

/-- No digit is a NUL. -/
theorem AllDigits.noNul {base : Nat} {d : List UInt8} (hd : AllDigits base d) :
    ∀ b ∈ d, decide (b ≠ nul) = true := by
  intro b hb
  have hdigit := hd b hb
  rw [decide_eq_true_iff]
  rintro rfl
  exact absurd hdigit (by simp [isDigit, digitVal])

/-- The string that starts with the digits `d`, a character `c` and `r`. -/
theorem astrtol_stops_iff {base : Nat} (hbase : base = 8 ∨ base = 10 ∨ base = 16)
    {d : List UInt8} (hd : AllDigits base d) (hne : d ≠ []) (hlen : d.length ≤ 8) {c : UInt8}
    (hc : isDigit base c = false) (r : List UInt8) :
    astrtol (CStr.ofBytes (d ++ c :: r)) base = some (BitVec.ofNat 32 (numeral base d)) ↔
      ReadsAlone base d (CStr.ofBytes (c :: r)).bytes := by
  apply astrtol_append_iff hbase hd hne hlen
  · intro c' hc'
    change ((c :: r).takeWhile (· ≠ nul)).head? = some c' at hc'
    by_cases hnul : c = nul
    · rw [List.takeWhile_cons_of_neg (by simp [hnul])] at hc'
      cases hc'
    · rw [List.takeWhile_cons_of_pos (by simp [hnul])] at hc'
      cases hc'
      exact hc
  · exact List.takeWhile_append_of_pos hd.noNul

/-- The zero of `0xg` in base 16. -/
theorem astrtol_stops_zero :
    astrtol (CStr.ofBytes (asciiBytes "0xg")) 16 = some 0 ∧
      ReadsAlone 16 (asciiBytes "0") (asciiBytes "xg") := by
  have hread : ReadsAlone 16 (asciiBytes "0") (asciiBytes "xg") := by
    decide +kernel
  refine ⟨?_, hread⟩
  exact (astrtol_stops_iff (Or.inr (Or.inr rfl)) (d := asciiBytes "0") (c := 0x78)
    (by decide +kernel) (by decide +kernel) (by decide +kernel) (by decide +kernel)
    (asciiBytes "g")).mpr hread

/-- `12x` is read as 0 in base 10, and `1g` as 16 in base 16. -/
theorem astrtol_twelve :
    astrtol (CStr.ofBytes (asciiBytes "12" ++ asciiBytes "x")) 10 = some 0 ∧
      astrtol (CStr.ofBytes (asciiBytes "1" ++ asciiBytes "g")) 16 = some 0x10 := by
  constructor
  · decide +kernel
  · decide +kernel

end Astrtol

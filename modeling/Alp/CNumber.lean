import Mathlib.Algebra.Ring.Int.Defs
import Mathlib.Algebra.Ring.Nat
import Alp.CString

/-!
# `strtoul` and `strtol`

`strtoul(s, NULL, 0)` of the C library with a 64-bit `unsigned long`: white space,
an optional sign, and a literal whose base is read off its prefix.  A value out of
range gives `ULONG_MAX`; a minus sign negates modulo `2 ^ 64`.  `strtol` reads the same
and gives `LONG_MAX` or `LONG_MIN` for a value out of range.
-/

set_option autoImplicit false

namespace CString

/-- `isspace` in the C locale. -/
def isSpace (b : UInt8) : Bool :=
  b == 0x20 || (0x09 ≤ b && b ≤ 0x0D)

/-- The value of a digit in bases up to 36. -/
def digitVal (b : UInt8) : Option Nat :=
  if 0x30 ≤ b ∧ b ≤ 0x39 then some (b - 0x30).toNat
  else if 0x61 ≤ b ∧ b ≤ 0x7A then some ((b - 0x61).toNat + 10)
  else if 0x41 ≤ b ∧ b ≤ 0x5A then some ((b - 0x41).toNat + 10)
  else none

/-- The value of the longest run of digits of a base, after `acc`. -/
def readDigits (base : Nat) : List UInt8 → Nat → Nat
  | [], acc => acc
  | b :: rest, acc =>
    match digitVal b with
    | some d => if d < base then readDigits base rest (acc * base + d) else acc
    | none => acc

/-- A literal in the base of its prefix. -/
def readLiteral : List UInt8 → Nat
  | 0x30 :: x :: rest =>
    if x = 0x78 ∨ x = 0x58 then readDigits 16 rest 0 else readDigits 8 (x :: rest) 0
  | s => readDigits 10 s 0

/-- The sign in front of a literal: whether it is a minus, and what follows. -/
def readSign : List UInt8 → Bool × List UInt8
  | 0x2D :: rest => (true, rest)
  | 0x2B :: rest => (false, rest)
  | s => (false, s)

/-- `strtoul(s, NULL, 0)`. -/
def strtoul (s : List UInt8) : BitVec 64 :=
  let (minus, rest) := readSign (s.dropWhile isSpace)
  let v := readLiteral rest
  if 2 ^ 64 ≤ v then BitVec.allOnes 64
  else if minus then -(BitVec.ofNat 64 v)
  else BitVec.ofNat 64 v

/-- `strtol(s, NULL, 0)`. -/
def strtol (s : List UInt8) : Int :=
  let (minus, rest) := readSign (s.dropWhile isSpace)
  let v : Int := readLiteral rest
  if minus then max (-v) (-2 ^ 63) else min v (2 ^ 63 - 1)

example : strtoul (asciiBytes "0xbe57") = 0xBE57 := by decide
example : strtoul (asciiBytes " -1") = 0xFFFFFFFFFFFFFFFF := by decide

end CString

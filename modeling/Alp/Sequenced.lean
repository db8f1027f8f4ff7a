import Mathlib.Logic.Function.Iterate

/-!
# Frames taken in sequence

A receiver of numbered frames expects one number at a time.  It takes a frame with
the number it expects and expects the next one from then on; every other frame it
passes over.  `accepted` are the frames it takes and `expected` is the number it
expects after them, for any kind of frame, any numbers and any successor.
-/

set_option autoImplicit false

namespace Sequenced

variable {F N : Type} [DecidableEq N] (num : F → N) (next : N → N)

/-- The frames taken, when the first number expected is `e`. -/
def accepted : N → List F → List F
  | _, [] => []
  | e, f :: fs => if num f = e then f :: accepted (next e) fs else accepted e fs

/-- The number expected afterwards. -/
def expected : N → List F → N
  | e, [] => e
  | e, f :: fs => if num f = e then expected (next e) fs else expected e fs

/-- What is accepted of two stretches is what each gives, the second from where the first ends. -/
theorem accepted_append (e : N) (fs gs : List F) :
    accepted num next e (fs ++ gs) =
      accepted num next e fs ++ accepted num next (expected num next e fs) gs := by
  induction fs generalizing e with
  | nil => rfl
  | cons f fs ih =>
      simp only [List.cons_append, accepted, expected]
      split <;> simp [ih]

/-- What is expected behind two stretches is what the second leads to. -/
theorem expected_append (e : N) (fs gs : List F) :
    expected num next e (fs ++ gs) = expected num next (expected num next e fs) gs := by
  induction fs generalizing e with
  | nil => rfl
  | cons f fs ih =>
      simp only [List.cons_append, expected]
      split <;> exact ih _

/-- A frame with the expected number is taken. -/
theorem accepted_take {e : N} {fs : List F} {f : F} (h : num f = expected num next e fs) :
    accepted num next e (fs ++ [f]) = accepted num next e fs ++ [f] := by
  simp [accepted_append, accepted, h]

/-- Any other frame is passed over. -/
theorem accepted_skip {e : N} {fs : List F} {f : F} (h : num f ≠ expected num next e fs) :
    accepted num next e (fs ++ [f]) = accepted num next e fs := by
  simp [accepted_append, accepted, h]

/-- The number expected leads to the next one. -/
theorem expected_take {e : N} {fs : List F} {f : F} (h : num f = expected num next e fs) :
    expected num next e (fs ++ [f]) = next (expected num next e fs) := by
  simp [expected_append, expected, h]

/-- Any other number leaves the expectation as it is. -/
theorem expected_skip {e : N} {fs : List F} {f : F} (h : num f ≠ expected num next e fs) :
    expected num next e (fs ++ [f]) = expected num next e fs := by
  simp [expected_append, expected, h]

/-- The frames taken carry the numbers in order. -/
theorem num_accepted {e : N} {fs : List F} {i : Nat} {f : F}
    (h : (accepted num next e fs)[i]? = some f) : num f = next^[i] e := by
  induction fs generalizing e i with
  | nil => simp [accepted] at h
  | cons g fs ih =>
      simp only [accepted] at h
      split at h
      · next hg =>
          cases i with
          | zero =>
              obtain rfl : g = f := by simpa using h
              exact hg
          | succ i =>
              have hrest : num f = next^[i] (next e) := ih h
              exact hrest
      · exact ih h

end Sequenced

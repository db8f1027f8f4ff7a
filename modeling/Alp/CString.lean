import Mathlib.Data.List.TakeWhile

/-!
# C strings in byte memory

A `char *` reads a memory one byte at a time up to the terminating NUL.  This
file fixes the little of `<string.h>` that byte programs lean on: a memory is a
function from addresses to bytes, a C string literal is a NUL-free byte list,
and `strEq` is the zero test of `strcmp` together with the possibility that it
runs out of the object it was handed.

The two facts used later are `strEq_of_holds` (on a terminated string the
comparison is plain equality) and the frame lemmas `Holds.congr` and
`Holds.set` (a string only depends on its own bytes).
-/

set_option autoImplicit false

namespace CString

/-- The terminating byte. -/
abbrev nul : UInt8 := 0

/-- A C string value: bytes without the terminator, so it can be stored
followed by a single NUL and read back. -/
structure CStr where
  bytes : List UInt8
  noNul : nul ∉ bytes
  deriving DecidableEq

/-- The byte list of an ASCII literal. -/
def asciiBytes (s : String) : List UInt8 :=
  s.toList.map (fun c => c.toNat.toUInt8)

/-- The string up to the first NUL. -/
def CStr.ofBytes (bs : List UInt8) : CStr where
  bytes := bs.takeWhile (· ≠ nul)
  noNul := fun hmem => by simpa using List.mem_takeWhile_imp hmem

/-- A C string literal. -/
def lit (s : String) : CStr :=
  .ofBytes (asciiBytes s)

/-- Byte memory. -/
abbrev Mem := Nat → UInt8

/-- One byte store. -/
def Mem.set (m : Mem) (i : Nat) (b : UInt8) : Mem :=
  fun j => if j = i then b else m j

@[simp] theorem Mem.set_same (m : Mem) (i : Nat) (b : UInt8) : m.set i b i = b := by
  simp [Mem.set]

/-- Setting a byte leaves the others alone. -/
theorem Mem.set_other (m : Mem) {i j : Nat} (b : UInt8) (h : j ≠ i) :
    m.set i b j = m j := by
  simp [Mem.set, h]

/-- Memory `m` holds the bytes `w` from address `p` on. -/
def Holds (m : Mem) : Nat → List UInt8 → Prop
  | _, [] => True
  | p, b :: w => m p = b ∧ Holds m (p + 1) w

/-- Memory `m` holds the bytes `w` and their terminator from `p` on. -/
def HoldsStr (m : Mem) (p : Nat) (w : List UInt8) : Prop :=
  Holds m p (w ++ [nul])

/-- Memory that holds two texts joined holds the second behind the first. -/
theorem holds_append {m : Mem} {p : Nat} {v w : List UInt8} :
    Holds m p (v ++ w) ↔ Holds m p v ∧ Holds m (p + v.length) w := by
  induction v generalizing p with
  | nil => simp [Holds]
  | cons b v ih =>
      have hlen : p + 1 + v.length = p + (b :: v).length := by
        simp only [List.length_cons]; omega
      simp only [List.cons_append, Holds, ih, hlen, and_assoc]

/-- Bytes in memory, one by one. -/
theorem holds_of_getElem {m : Mem} {p : Nat} {w : List UInt8}
    (h : ∀ (i : Nat) (hi : i < w.length), m (p + i) = w[i]) : Holds m p w := by
  induction w generalizing p with
  | nil => trivial
  | cons b w ih =>
      refine ⟨h 0 (Nat.succ_pos _), ih fun i hi => ?_⟩
      have hplace : p + 1 + i = p + (i + 1) := by omega
      rw [hplace]
      exact h (i + 1) (Nat.succ_lt_succ hi)

/-- The bytes of a text held are read one by one. -/
theorem getElem_of_holds {m : Mem} {p : Nat} {w : List UInt8} (h : Holds m p w) {i : Nat}
    (hi : i < w.length) : m (p + i) = w[i] := by
  induction w generalizing p i with
  | nil => exact absurd hi (Nat.not_lt_zero i)
  | cons b w ih =>
      cases i with
      | zero => exact h.1
      | succ i =>
          have hnext := ih h.2 (Nat.lt_of_succ_lt_succ hi)
          rwa [Nat.add_assoc, Nat.add_comm 1 i] at hnext

/-- A string is held as its text and a NUL behind it. -/
theorem holdsStr_iff {m : Mem} {p : Nat} {w : List UInt8} :
    HoldsStr m p w ↔ Holds m p w ∧ m (p + w.length) = nul := by
  simp [HoldsStr, holds_append, Holds]

/-- What a memory holds only depends on the bytes it is made of. -/
theorem Holds.congr {m m' : Mem} {p : Nat} {w : List UInt8} (h : Holds m p w)
    (hm : ∀ j, p ≤ j → j < p + w.length → m' j = m j) : Holds m' p w := by
  induction w generalizing p with
  | nil => trivial
  | cons b w ih =>
      simp only [List.length_cons] at hm
      refine ⟨?_, ih h.2 (fun j h1 h2 => hm j (by omega) (by omega))⟩
      rw [hm p (Nat.le_refl p) (by omega)]
      exact h.1

/-- A store outside the bytes of `w` leaves them alone. -/
theorem Holds.set {m : Mem} {p i : Nat} {w : List UInt8} (b : UInt8)
    (h : Holds m p w) (hi : i < p ∨ p + w.length ≤ i) : Holds (m.set i b) p w :=
  h.congr (fun _ h1 h2 => Mem.set_other m b (by omega))

/-- Reading a string: at most `n` bytes from `p`, `none` when no terminator
is found among them. -/
def readStr (m : Mem) : Nat → Nat → Option (List UInt8)
  | 0, _ => none
  | n + 1, p => if m p = nul then some [] else (readStr m n (p + 1)).map (m p :: ·)

/-- The zero test of `strcmp(p, s)` on a memory object of which `n` bytes are
left at `p`: `none` when the comparison leaves the object. -/
def strEq (m : Mem) : Nat → Nat → List UInt8 → Option Bool
  | 0, _, _ => none
  | _ + 1, p, [] => some (m p == nul)
  | n + 1, p, c :: s => if m p = c then strEq m n (p + 1) s else some false

/-- A string that is held is read back. -/
theorem readStr_of_holds {m : Mem} {n p : Nat} {w : List UInt8}
    (h : HoldsStr m p w) (hw : nul ∉ w) (hn : w.length < n) :
    readStr m n p = some w := by
  induction w generalizing n p with
  | nil =>
      obtain ⟨n, rfl⟩ : ∃ k, n = k + 1 := ⟨n - 1, by simp at hn; omega⟩
      simp [readStr, show m p = nul from h.1]
  | cons b w ih =>
      obtain ⟨n, rfl⟩ : ∃ k, n = k + 1 := ⟨n - 1, by simp at hn; omega⟩
      have hb : m p = b := h.1
      have hne : b ≠ nul := fun hb' => hw (hb' ▸ List.mem_cons_self)
      have htail := ih h.2 (fun hm => hw (List.mem_cons_of_mem _ hm)) (by simpa using hn)
      simp [readStr, hb, hne, htail]

/-- On a terminated string inside its object, `strcmp` is equality. -/
theorem strEq_of_holds {m : Mem} {n p : Nat} {w s : List UInt8}
    (h : HoldsStr m p w) (hw : nul ∉ w) (hs : nul ∉ s) (hn : w.length < n) :
    strEq m n p s = some (decide (w = s)) := by
  induction w generalizing n p s with
  | nil =>
      obtain ⟨n, rfl⟩ : ∃ k, n = k + 1 := ⟨n - 1, by simp at hn; omega⟩
      have hp : m p = nul := h.1
      cases s with
      | nil => simp [strEq, hp]
      | cons c s =>
          have hc : nul ≠ c := fun hc => hs (hc ▸ List.mem_cons_self)
          simp [strEq, hp, hc]
  | cons b w ih =>
      obtain ⟨n, rfl⟩ : ∃ k, n = k + 1 := ⟨n - 1, by simp at hn; omega⟩
      have hb : m p = b := h.1
      have hne : b ≠ nul := fun hb' => hw (hb' ▸ List.mem_cons_self)
      cases s with
      | nil => simp [strEq, hb, hne]
      | cons c s =>
          have htail := ih (s := s) h.2 (fun hm => hw (List.mem_cons_of_mem _ hm))
            (fun hm => hs (List.mem_cons_of_mem _ hm)) (by simpa using hn)
          by_cases hc : b = c
          · simp [strEq, hb, hc, htail]
          · simp [strEq, hb, hc]

/-- The first `n` bytes of `bs` are in memory. -/
def Copied (m : Mem) (bs : List UInt8) (n : Nat) : Prop :=
  ∀ j < n, bs[j]? = some (m j)

/-- Nothing is copied. -/
theorem copied_zero (m : Mem) (bs : List UInt8) : Copied m bs 0 := by
  intro j hj
  omega

/-- One step of a copy loop. -/
theorem Copied.set {m : Mem} {bs : List UInt8} {n : Nat} {b : UInt8} (h : Copied m bs n)
    (hb : bs[n]? = some b) : Copied (m.set n b) bs (n + 1) := by
  intro j hj
  by_cases hjn : j = n
  · rw [hjn, Mem.set_same, hb]
  · rw [Mem.set_other m b hjn]
    exact h j (by omega)

/-- The bytes of memory are a copy of themselves. -/
theorem copied_range (m : Mem) (n : Nat) : Copied m ((List.range n).map m) n := by
  intro j hj
  simp [List.getElem?_range hj]

/-- Reading back what a copy loop stored. -/
theorem Copied.range_map {m : Mem} {bs : List UInt8} (h : Copied m bs bs.length) :
    (List.range bs.length).map m = bs := by
  apply List.ext_getElem?
  intro j
  by_cases hj : j < bs.length
  · rw [h j hj]
    simp [List.getElem?_range hj]
  · simp [Nat.not_lt.mp hj]

end CString

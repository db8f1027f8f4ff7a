import Alp.XyzmodemBuffer
import Mathlib.Algebra.Order.BigOperators.Group.List
import Mathlib.Algebra.Ring.GrindInstances
import Mathlib.Algebra.Ring.Int.Defs

/-!
# Calls cut in other ways

A transfer is read in calls of `xyzModem_stream_read`, and a call may ask for any number
of bytes.  How the bytes are divided among the calls makes no difference, as long as
none reports an error: to read `a` bytes and then `b` bytes is to read `a + b`
(`streamRead_add`), so that calls with the same sum leave the same bytes, the same
packet and the same line, and have sent the same answers (`streamReads_cut`).

The one place where the calls differ is a packet longer than the first of them asks
for.  There the second call goes on in the packet, where one call makes one `memcpy`
(`step_split`).
-/

set_option autoImplicit false

namespace Xyzmodem

open CString

/-- The passes of the call under way until it returns, at most `fuel`. -/
def finish : Nat → Transfer → Option Transfer
  | 0, _ => none
  | fuel + 1, t =>
    match step t .pass with
    | none => none
    | some u => if u.size = none then some u else finish fuel u

/-- A call of `xyzModem_stream_read`. -/
def streamRead (fuel : Nat) (size : Int) (t : Transfer) : Option Transfer :=
  (step t (.read size)).bind (finish fuel)

/-- Calls one after another. -/
def streamReads (fuel : Nat) : List Int → Transfer → Option Transfer
  | [], t => some t
  | size :: sizes, t => (streamRead fuel size t).bind (streamReads fuel sizes)

/-- With `size` bytes still to get. -/
def Transfer.ask (t : Transfer) (size : Int) : Transfer :=
  { t with size := some size }

/-- A pass that ends the call is the last one. -/
theorem finish_step {fuel : Nat} {t u : Transfer} (h : step t .pass = some u) :
    finish (fuel + 1) t = if u.size = none then some u else finish fuel u := by
  simp only [finish, h]

/-- More fuel gives the same result. -/
theorem finish_mono {fuel more : Nat} {t u : Transfer} (h : finish fuel t = some u)
    (hle : fuel ≤ more) : finish more t = some u := by
  induction fuel generalizing more t with
  | zero => cases h
  | succ fuel ih =>
      obtain ⟨more, rfl⟩ : ∃ m, more = m + 1 := ⟨more - 1, by omega⟩
      cases hstep : step t .pass with
      | none => simp [finish, hstep] at h
      | some v =>
          rw [finish_step hstep] at h ⊢
          split at h
          · next hsize => rw [if_pos hsize]; exact h
          · next hsize => rw [if_neg hsize]; exact ih h (by omega)

/-- A call that was finished asks for nothing more. -/
theorem finish_size {fuel : Nat} {t u : Transfer} (h : finish fuel t = some u) :
    u.size = none := by
  induction fuel generalizing t with
  | zero => cases h
  | succ fuel ih =>
      cases hstep : step t .pass with
      | none => simp [finish, hstep] at h
      | some v =>
          rw [finish_step hstep] at h
          split at h
          · next hsize => rwa [← Option.some.inj h]
          · exact ih h

/-- Where two calls make the same pass, they end alike. -/
theorem finish_congr {t u : Transfer} (h : step t .pass = step u .pass) (fuel : Nat) :
    finish fuel t = finish fuel u := by
  cases fuel with
  | zero => rfl
  | succ fuel => rw [finish, finish, h]

/-- A call that is done returns. -/
theorem step_done {t : Transfer} {size : Int} (hsize : t.size = some size)
    (h : t.x.atEof = true ∨ size ≤ 0) : step t .pass = some { t with size := none } := by
  simp only [step, hsize]
  rw [if_pos h]

/-- At the end of the file, or when nothing is asked for, one pass ends the call. -/
theorem finish_done {t : Transfer} {size : Int} (hsize : t.size = some size)
    (h : t.x.atEof = true ∨ size ≤ 0) (fuel : Nat) :
    finish (fuel + 1) t = some { t with size := none } := by
  rw [finish_step (step_done hsize h), if_pos rfl]

/-- After a pass that copied `bytes`. -/
def Transfer.copied (t : Transfer) (bytes : List UInt8) (x : Xyz) : Transfer :=
  { t with x := x, delivered := t.delivered ++ bytes }

/-- After a pass of a call that is not done; the rest of the call is what it left. -/
def Transfer.passed (t : Transfer) (size : Int) : Pass → Transfer
  | .error err x => { t with x := x, size := none, err := some err }
  | .copied bytes x => (t.copied bytes x).ask (size - bytes.length)

/-- A pass of a call that is not done. -/
theorem step_ask {t : Transfer} {size : Int} (h : ¬ (t.x.atEof = true ∨ size ≤ 0)) :
    step (t.ask size) .pass = (readPass size t.x).map (t.passed size) := by
  show (if t.x.atEof = true ∨ size ≤ 0 then _ else _) = _
  rw [if_neg h, show (t.ask size).x = t.x from rfl]
  rcases readPass size t.x with _ | _ | _ <;> rfl

/-- A pass that copied bytes is followed by the others. -/
theorem finish_copied {t : Transfer} {size : Int} {bytes : List UInt8} {x : Xyz}
    (h : ¬ (t.x.atEof = true ∨ size ≤ 0)) (hpass : readPass size t.x = some (.copied bytes x))
    (fuel : Nat) :
    finish (fuel + 1) (t.ask size) =
      finish fuel ((t.copied bytes x).ask (size - bytes.length)) := by
  have hstep := step_ask h
  rw [hpass, Option.map_some, Transfer.passed] at hstep
  rw [finish_step hstep, if_neg]
  exact Option.some_ne_none _

/-- A call that reports no error has copied something, if it was not done. -/
theorem copied_of_finish {fuel : Nat} {t u : Transfer} {size : Int}
    (hmore : ¬ (t.x.atEof = true ∨ size ≤ 0)) (h : finish (fuel + 1) (t.ask size) = some u)
    (herr : u.err = none) : ∃ bytes x, readPass size t.x = some (.copied bytes x) := by
  have hstep := step_ask hmore
  cases hpass : readPass size t.x with
  | none =>
      rw [hpass, Option.map_none] at hstep
      simp [finish, hstep] at h
  | some p =>
      cases p with
      | error err x =>
          rw [hpass, Option.map_some, Transfer.passed] at hstep
          rw [finish_step hstep, if_pos rfl] at h
          obtain rfl := Option.some.inj h
          cases herr
      | copied bytes x => exact ⟨bytes, x, rfl⟩

/-- After `n` bytes were copied. -/
def Xyz.advance (x : Xyz) (n : Int) : Xyz :=
  { x with len := x.len - n, bufp := x.bufp + n.toNat }

/-- Copying takes bytes off the front of what is pending. -/
theorem copyOut_eq {size : Int} {x : Xyz} (heof : x.atEof = false) (hlen : 0 ≤ x.len) :
    copyOut size x = some
      (.copied (x.pending.take (copyLen size x).toNat) (x.advance (copyLen size x))) := by
  unfold copyOut
  rw [if_neg (by rw [heof]; exact Bool.false_ne_true), if_neg (Int.not_lt.mpr hlen)]
  rfl

/-- What is pending has as many bytes as `len` says. -/
theorem length_take_pending {x : Xyz} {n : Int} (hn : 0 ≤ n) (hle : n ≤ x.len) :
    ((x.pending.take n.toNat).length : Int) = n := by
  rw [List.length_take, Xyz.pending, List.length_map, List.length_range]
  omega

/-- Two portions taken one after the other are one portion. -/
theorem take_advance (x : Xyz) {a b : Int} (ha : 0 ≤ a) (hb : 0 ≤ b) (hle : a + b ≤ x.len) :
    x.pending.take a.toNat ++ (x.advance a).pending.take b.toNat =
      x.pending.take (a + b).toNat := by
  have hlen : (x.pending.take a.toNat).length = a.toNat := by
    have := length_take_pending ha (x := x) (by omega)
    omega
  have hsum : (a + b).toNat = a.toNat + b.toNat := by omega
  have hsplit : (x.pending.take a.toNat ++ (x.advance a).pending).take
      ((x.pending.take a.toNat).length + b.toNat) =
        x.pending.take a.toNat ++ (x.advance a).pending.take b.toNat :=
    List.take_length_add_append b.toNat
  rw [hlen, Xyz.advance, pending_append x ha (by omega : a ≤ x.len)] at hsplit
  rw [hsum, hsplit]
  rfl

/-- Advancing twice is advancing by the sum. -/
theorem advance_advance (x : Xyz) {a b : Int} (ha : 0 ≤ a) (hb : 0 ≤ b) :
    (x.advance a).advance b = x.advance (a + b) := by
  have hsum : (a + b).toNat = a.toNat + b.toNat := by omega
  simp only [Xyz.advance, hsum, Nat.add_assoc, Int.sub_sub]

/-- A pass of a call that asks for `b` bytes more makes the same copy, or one that
the next call makes in two. -/
theorem readPass_add {x y : Xyz} {a b : Int} {bytes : List UInt8} (ha : 0 < a) (hb : 0 < b)
    (h : readPass a x = some (.copied bytes y)) :
    0 ≤ a - bytes.length ∧ readPass (a + b) x = some (.copied bytes y) ∨
      a - bytes.length = 0 ∧ y.atEof = false ∧ ∃ more z, readPass b y = some (.copied more z) ∧
        readPass (a + b) x = some (.copied (bytes ++ more) z) := by
  rw [readPass_nextBlock] at h ⊢
  generalize x.nextBlock.1 = stat at *
  generalize x.nextBlock.2 = z at *
  by_cases hstat : stat < 0
  · rw [if_pos hstat] at h
    cases h
  rw [if_neg hstat] at h ⊢
  by_cases heof : z.atEof = true
  · left
    unfold copyOut at h ⊢
    rw [if_pos heof] at h ⊢
    obtain ⟨rfl, rfl⟩ : [] = bytes ∧ z = y := by
      injection h with h
      injection h with h1 h2
      exact ⟨h1, h2⟩
    exact ⟨by rw [List.length_nil]; omega, rfl⟩
  have heof' : z.atEof = false := Bool.eq_false_iff.mpr heof
  by_cases hneg : z.len < 0
  · unfold copyOut at h
    rw [if_neg heof, if_pos hneg] at h
    cases h
  have hlen : 0 ≤ z.len := Int.not_lt.mp hneg
  rw [copyOut_eq heof' hlen] at h ⊢
  obtain ⟨rfl, rfl⟩ : z.pending.take (copyLen a z).toNat = bytes ∧ z.advance (copyLen a z) = y := by
    injection h with h
    injection h with h1 h2
    exact ⟨h1, h2⟩
  by_cases hshort : a < z.len
  · -- the packet goes on behind `a` bytes
    right
    have hcopy : copyLen a z = a := if_pos hshort
    have hrest : (z.advance a).len = z.len - a := rfl
    have hmore : readPass b (z.advance a) = some (.copied
        ((z.advance a).pending.take (copyLen b (z.advance a)).toNat)
        ((z.advance a).advance (copyLen b (z.advance a)))) := by
      unfold readPass
      rw [if_neg (by omega)]
      exact copyOut_eq heof' (by omega)
    have hsum : copyLen (a + b) z = a + copyLen b (z.advance a) := by
      unfold copyLen
      split <;> split <;> omega
    have hfit : 0 ≤ copyLen b (z.advance a) ∧ a + copyLen b (z.advance a) ≤ z.len := by
      unfold copyLen
      split <;> omega
    rw [hcopy]
    refine ⟨?_, heof', _, _, hmore, ?_⟩
    · rw [length_take_pending (by omega) (by omega)]
      omega
    · rw [hsum, take_advance z (by omega) hfit.1 hfit.2, advance_advance z (by omega) hfit.1]
  · left
    have hcopy : copyLen a z = z.len := if_neg hshort
    have hcopy' : copyLen (a + b) z = z.len := if_neg (by omega)
    rw [hcopy, hcopy']
    exact ⟨by rw [length_take_pending hlen (Int.le_refl _)]; omega, rfl⟩

/-- Asking for nothing changes nothing. -/
theorem finish_ask_zero {fuel : Nat} {t u : Transfer} (h : finish fuel (t.ask 0) = some u) :
    u = { t with size := none } := by
  cases fuel with
  | zero => cases h
  | succ fuel =>
      rw [finish_done (t := t.ask 0) rfl (Or.inr (Int.le_refl 0))] at h
      exact (Option.some.inj h).symm

/-- A call that asks for `b` bytes more goes on as the next call does. -/
theorem finish_add {fuel fuel' : Nat} {t u v : Transfer} {a b : Int} (ha : 0 ≤ a) (hb : 0 < b)
    (h : finish fuel (t.ask a) = some u) (herr : u.err = none)
    (h' : finish fuel' (u.ask b) = some v) :
    finish (fuel + fuel') (t.ask (a + b)) = some v := by
  induction fuel generalizing t a with
  | zero => cases h
  | succ fuel ih =>
      by_cases hdone : t.x.atEof = true ∨ a ≤ 0
      · rw [finish_done (t := t.ask a) rfl hdone] at h
        obtain rfl := Option.some.inj h
        suffices hnow : finish fuel' (t.ask (a + b)) = some v from finish_mono hnow (by omega)
        rcases hdone with heof | hzero
        · -- at the end of the file both calls return at once
          rw [← h']
          refine finish_congr ?_ fuel'
          rw [step_done (t := t.ask (a + b)) rfl (Or.inl heof)]
          exact (step_done (t := t.ask b) rfl (Or.inl heof)).symm
        · obtain rfl : a = 0 := by omega
          rwa [Int.zero_add]
      have hpos : 0 < a := by
        by_contra hle
        exact hdone (Or.inr (by omega))
      have hwide : ¬ (t.x.atEof = true ∨ a + b ≤ 0) := by
        rintro (heof | hle)
        · exact hdone (Or.inl heof)
        · omega
      obtain ⟨bytes, y, hpass⟩ := copied_of_finish hdone h herr
      rw [finish_copied hdone hpass] at h
      have hfuel : fuel + 1 + fuel' = fuel + fuel' + 1 := by omega
      rw [hfuel]
      rcases readPass_add hpos hb hpass with ⟨hnonneg, hsame⟩ | ⟨hall, heof, more, z, hmore, hboth⟩
      · -- the same copy
        have hrest : a + b - bytes.length = a - bytes.length + b := by omega
        rw [finish_copied hwide hsame, hrest]
        exact ih hnonneg h
      · -- the rest of the packet is for the next call
        rw [hall] at h
        obtain rfl := finish_ask_zero h
        have hnot : ¬ (y.atEof = true ∨ b ≤ 0) := by
          rw [heof, not_or]
          exact ⟨Bool.false_ne_true, by omega⟩
        have hleft : a + b - ((bytes ++ more).length : Int) = b - more.length := by
          rw [List.length_append]
          omega
        have hjoin : (t.copied (bytes ++ more) z).ask (b - more.length) =
            ((t.copied bytes y).copied more z).ask (b - more.length) := by
          simp only [Transfer.copied, Transfer.ask, List.append_assoc]
        have hnext := finish_mono h' (by omega : fuel' ≤ fuel + fuel' + 1)
        rw [finish_copied hwide hboth, hleft, hjoin]
        exact (finish_copied (t := t.copied bytes y) hnot hmore (fuel + fuel')).symm.trans hnext

/-- A call that returned was begun between calls and finished. -/
theorem streamRead_eq {fuel : Nat} {size : Int} {t u : Transfer}
    (h : streamRead fuel size t = some u) :
    t.size = none ∧ t.err = none ∧ finish fuel (t.ask size) = some u := by
  rw [streamRead, step] at h
  split at h
  · next hidle => exact ⟨hidle.1, hidle.2, h⟩
  · cases h

/-- A call begun between calls and finished returned. -/
theorem streamRead_of {fuel : Nat} {size : Int} {t u : Transfer} (hsize : t.size = none)
    (herr : t.err = none) (h : finish fuel (t.ask size) = some u) :
    streamRead fuel size t = some u := by
  rw [streamRead, step, if_pos ⟨hsize, herr⟩]
  exact h

/-- To read `a` bytes and then `b` bytes is to read `a + b`. -/
theorem streamRead_add {fuel fuel' : Nat} {t u v : Transfer} {a b : Int} (ha : 0 ≤ a)
    (hb : 0 ≤ b) (h : streamRead fuel a t = some u) (h' : streamRead fuel' b u = some v) :
    streamRead (fuel + fuel') (a + b) t = some v := by
  obtain ⟨hsize, herr, hfinish⟩ := streamRead_eq h
  obtain ⟨hsize', herr', hfinish'⟩ := streamRead_eq h'
  by_cases hzero : b = 0
  · subst hzero
    have hv := finish_ask_zero hfinish'
    have hu : { u with size := none } = u := by rw [← hsize']
    rw [hv, hu, Int.add_zero]
    exact streamRead_of hsize herr (finish_mono hfinish (by omega))
  · exact streamRead_of hsize herr (finish_add ha (by omega) hfinish herr' hfinish')

/-- Calls one after another are one call for all their bytes. -/
theorem streamReads_sum {fuel : Nat} {size : Int} {sizes : List Int} {t u : Transfer}
    (hsize : 0 ≤ size) (hsizes : ∀ n ∈ sizes, 0 ≤ n)
    (h : streamReads fuel (size :: sizes) t = some u) :
    ∃ fuel', streamRead fuel' (size + sizes.sum) t = some u := by
  induction sizes generalizing size t with
  | nil =>
      obtain ⟨v, hv, hu⟩ := Option.bind_eq_some_iff.mp h
      cases hu
      exact ⟨fuel, by rwa [List.sum_nil, Int.add_zero]⟩
  | cons next sizes ih =>
      obtain ⟨v, hv, hu⟩ := Option.bind_eq_some_iff.mp h
      have hnext := hsizes next List.mem_cons_self
      have hrest := fun n hn => hsizes n (List.mem_cons_of_mem next hn)
      obtain ⟨fuel', hfuel'⟩ := ih hnext hrest hu
      have hsum : 0 ≤ sizes.sum := List.sum_nonneg hrest
      rw [List.sum_cons]
      exact ⟨_, streamRead_add hsize (by omega) hv hfuel'⟩

/-- **Calls cut in other ways.**  Calls that ask for the same number of bytes, in any
portions, leave the same transfer: bytes, packet, line and answers. -/
theorem streamReads_cut {fuel fuel' : Nat} {size size' : Int} {sizes sizes' : List Int}
    {t u v : Transfer} (hsizes : ∀ n ∈ size :: sizes, 0 ≤ n)
    (hsizes' : ∀ n ∈ size' :: sizes', 0 ≤ n)
    (hsum : (size :: sizes).sum = (size' :: sizes').sum)
    (h : streamReads fuel (size :: sizes) t = some u)
    (h' : streamReads fuel' (size' :: sizes') t = some v) : u = v := by
  rw [List.forall_mem_cons] at hsizes hsizes'
  rw [List.sum_cons, List.sum_cons] at hsum
  obtain ⟨f, hf⟩ := streamReads_sum hsizes.1 hsizes.2 h
  obtain ⟨f', hf'⟩ := streamReads_sum hsizes'.1 hsizes'.2 h'
  rw [← hsum] at hf'
  obtain ⟨-, -, hu⟩ := streamRead_eq hf
  obtain ⟨-, -, hv⟩ := streamRead_eq hf'
  have hu' := finish_mono hu (Nat.le_add_right f f')
  have hv' := finish_mono hv (Nat.le_add_left f' f)
  exact Option.some.inj (hu'.symm.trans hv')

/-- Block 1 with 128 letters. -/
def letters : List Event :=
  shortFrame 1 (List.replicate 128 0x62) 0x79 0x67

/-- Three bytes, in two calls and in one. -/
theorem streamReads_cut_letters :
    ∃ u, streamReads 3 [1, 2] (openedOn letters) = some u ∧
      streamReads 3 [3] (openedOn letters) = some u ∧ u.delivered = [0x62, 0x62, 0x62] := by
  have htwo : (streamReads 3 [1, 2] (openedOn letters)).map Transfer.delivered =
      some [0x62, 0x62, 0x62] := by decide +kernel
  have hone : (streamReads 3 [3] (openedOn letters)).map Transfer.delivered =
      some [0x62, 0x62, 0x62] := by decide +kernel
  obtain ⟨u, hu, hdel⟩ := Option.map_eq_some_iff.mp htwo
  obtain ⟨v, hv, -⟩ := Option.map_eq_some_iff.mp hone
  obtain rfl : u = v := streamReads_cut (by decide) (by decide) (by decide) hu hv
  exact ⟨u, hu, hv, hdel⟩

end Xyzmodem

import Mathlib.Data.List.Induction

/-!
# One resource at a time

A program acquires handles, uses them and releases them.  `single` is the automaton
of a program that owns at most one handle: it acquires only when it owns none, and
uses and releases only the one it owns.

A history the automaton accepts is in order whatever the handles are: at every point
at most one handle is live, uses and releases are of the live handle
(`accepted_prefix`, `accepted_use`), and where acquired handles are all different
none is released twice (`released_nodup`).
-/

set_option autoImplicit false

namespace Ownership

variable {H : Type}

/-- What a program does with handles. -/
inductive Op (H : Type)
  | acquire (h : H)
  | use (h : H)
  | release (h : H)

/-- The handles acquired, in order. -/
def acquired : List (Op H) → List H
  | [] => []
  | .acquire h :: rest => h :: acquired rest
  | _ :: rest => acquired rest

/-- The handles released, in order. -/
def released : List (Op H) → List H
  | [] => []
  | .release h :: rest => h :: released rest
  | _ :: rest => released rest

/-- What two histories joined acquire is what each acquires. -/
theorem acquired_append (ops rest : List (Op H)) :
    acquired (ops ++ rest) = acquired ops ++ acquired rest := by
  induction ops with
  | nil => rfl
  | cons op ops ih => cases op <;> simp [acquired, ih]

/-- What two histories joined release is what each releases. -/
theorem released_append (ops rest : List (Op H)) :
    released (ops ++ rest) = released ops ++ released rest := by
  induction ops with
  | nil => rfl
  | cons op ops ih => cases op <;> simp [released, ih]

/-- Using a handle releases none. -/
theorem released_replicate_use (h : H) (n : Nat) :
    released (List.replicate n (Op.use h)) = [] := by
  induction n with
  | zero => rfl
  | succ n ih => simp [List.replicate_succ, released, ih]

variable [DecidableEq H]

/-- The handles acquired and not released since. -/
def live (ops : List (Op H)) : List H :=
  ops.foldl
    (fun hs op =>
      match op with
      | .acquire h => hs ++ [h]
      | .use _ => hs
      | .release h => hs.erase h)
    []

/-- A handle acquired is live. -/
theorem live_acquire (ops : List (Op H)) (h : H) :
    live (ops ++ [.acquire h]) = live ops ++ [h] := by
  rw [live, List.foldl_append]
  rfl

/-- Using a handle leaves the live ones as they are. -/
theorem live_use (ops : List (Op H)) (h : H) : live (ops ++ [.use h]) = live ops := by
  rw [live, List.foldl_append]
  rfl

/-- A handle released is live once less. -/
theorem live_release (ops : List (Op H)) (h : H) :
    live (ops ++ [.release h]) = (live ops).erase h := by
  rw [live, List.foldl_append]
  rfl

/-- The automaton of a program that owns at most one handle. -/
def single : Option H → Op H → Option (Option H)
  | none, .acquire h => some (some h)
  | some h, .use h' => if h' = h then some (some h) else none
  | some h, .release h' => if h' = h then some none else none
  | _, _ => none

/-- The automaton accepts the history and owns `own` at its end. -/
def Accepted (ops : List (Op H)) (own : Option H) : Prop :=
  ops.foldlM single none = some own

/-- The empty history is accepted and owns nothing. -/
theorem accepted_nil : Accepted ([] : List (Op H)) none := rfl

/-- A history is accepted when its beginning is and the last operation goes on from there. -/
theorem accepted_snoc {ops : List (Op H)} {op : Op H} {own : Option H} :
    Accepted (ops ++ [op]) own ↔ ∃ mid, Accepted ops mid ∧ single mid op = some own := by
  simp [Accepted, List.foldlM_append, Option.bind_eq_some_iff]

/-- Where nothing is owned a handle may be acquired. -/
theorem Accepted.acquire {ops : List (Op H)} (h : Accepted ops none) (a : H) :
    Accepted (ops ++ [.acquire a]) (some a) :=
  accepted_snoc.mpr ⟨none, h, rfl⟩

/-- The handle that is owned may be used. -/
theorem Accepted.use {ops : List (Op H)} {a : H} (h : Accepted ops (some a)) :
    Accepted (ops ++ [.use a]) (some a) :=
  accepted_snoc.mpr ⟨some a, h, by simp [single]⟩

/-- The handle that is owned may be released. -/
theorem Accepted.release {ops : List (Op H)} {a : H} (h : Accepted ops (some a)) :
    Accepted (ops ++ [.release a]) none :=
  accepted_snoc.mpr ⟨some a, h, by simp [single]⟩

/-- The handle that is owned may be used any number of times. -/
theorem Accepted.uses {ops : List (Op H)} {a : H} (h : Accepted ops (some a)) (n : Nat) :
    Accepted (ops ++ List.replicate n (.use a)) (some a) := by
  induction n with
  | zero => simpa using h
  | succ n ih =>
      rw [List.replicate_succ', ← List.append_assoc]
      exact ih.use

/-- An accepted history is accepted up to every point. -/
theorem accepted_prefix {ops rest : List (Op H)} {own : Option H}
    (h : Accepted (ops ++ rest) own) : ∃ mid, Accepted ops mid := by
  unfold Accepted at h ⊢
  rw [List.foldlM_append] at h
  obtain ⟨mid, hmid, -⟩ := Option.bind_eq_some_iff.mp h
  exact ⟨mid, hmid⟩

/-- What the automaton owns is what is live. -/
theorem Accepted.live_eq {ops : List (Op H)} {own : Option H} (h : Accepted ops own) :
    live ops = own.toList := by
  induction ops using List.reverseRecOn generalizing own with
  | nil =>
      cases h
      rfl
  | append_singleton ops op ih =>
      obtain ⟨mid, hmid, hstep⟩ := accepted_snoc.mp h
      have hlive := ih hmid
      unfold live at hlive ⊢
      rw [List.foldl_append, hlive]
      cases mid with
      | none =>
          cases op <;> simp_all [single]
          cases hstep
          rfl
      | some a =>
          cases op with
          | acquire h => simp [single] at hstep
          | use h =>
              simp only [single] at hstep
              split at hstep <;> cases hstep
              rfl
          | release h =>
              simp only [single] at hstep
              split at hstep
              · next heq =>
                  cases hstep
                  simp [heq]
              · cases hstep

/-- At every point at most one handle is live. -/
theorem Accepted.live_le_one {ops rest : List (Op H)} {own : Option H}
    (h : Accepted (ops ++ rest) own) : (live ops).length ≤ 1 := by
  obtain ⟨mid, hmid⟩ := accepted_prefix h
  rw [hmid.live_eq]
  cases mid <;> simp

/-- Every use is of the handle live at that point. -/
theorem Accepted.use_live {ops rest : List (Op H)} {a : H} {own : Option H}
    (h : Accepted (ops ++ .use a :: rest) own) : live ops = [a] := by
  rw [List.append_cons] at h
  obtain ⟨_, hmid⟩ := accepted_prefix h
  obtain ⟨before, hbefore, hstep⟩ := accepted_snoc.mp hmid
  rw [hbefore.live_eq]
  cases before with
  | none => simp [single] at hstep
  | some b =>
      simp only [single] at hstep
      split at hstep
      · next heq => simp [heq]
      · cases hstep

/-- Every release is of the handle live at that point. -/
theorem Accepted.release_live {ops rest : List (Op H)} {a : H} {own : Option H}
    (h : Accepted (ops ++ .release a :: rest) own) : live ops = [a] := by
  rw [List.append_cons] at h
  obtain ⟨_, hmid⟩ := accepted_prefix h
  obtain ⟨before, hbefore, hstep⟩ := accepted_snoc.mp hmid
  rw [hbefore.live_eq]
  cases before with
  | none => simp [single] at hstep
  | some b =>
      simp only [single] at hstep
      split at hstep
      · next heq => simp [heq]
      · cases hstep

/-- Handles are released in the order in which they were acquired. -/
theorem Accepted.acquired_eq {ops : List (Op H)} {own : Option H} (h : Accepted ops own) :
    acquired ops = released ops ++ own.toList := by
  induction ops using List.reverseRecOn generalizing own with
  | nil =>
      cases h
      rfl
  | append_singleton ops op ih =>
      obtain ⟨mid, hmid, hstep⟩ := accepted_snoc.mp h
      rw [acquired_append, released_append, ih hmid]
      cases mid with
      | none =>
          cases op <;> simp [single] at hstep
          simp [acquired, released, ← hstep]
      | some a =>
          cases op with
          | acquire h => simp [single] at hstep
          | use h =>
              simp only [single] at hstep
              split at hstep <;> cases hstep
              simp [acquired, released]
          | release h =>
              simp only [single] at hstep
              split at hstep
              · next heq =>
                  cases hstep
                  simp [acquired, released, heq]
              · cases hstep

/-- Where acquired handles are all different, none is released twice. -/
theorem Accepted.released_nodup {ops : List (Op H)} {own : Option H} (h : Accepted ops own)
    (hfresh : (acquired ops).Nodup) : (released ops).Nodup := by
  rw [h.acquired_eq] at hfresh
  exact (List.nodup_append.mp hfresh).1

end Ownership

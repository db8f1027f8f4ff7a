import Mathlib.Data.List.Basic

/-!
# Pre- and postconditions of stateful functions

A C function on global state is a `StateM σ α`: a function from the state before to
its result and the state after.  `Triple pre m post` says that from a state with
`pre` it ends with `post` of its result and its state.  There is one rule for each
way such a function is put together.

`Mirrors f m m'` compares two such functions: on the state `f s` the second does what
the first does on `s`.  Its rules are the same.
-/

set_option autoImplicit false

namespace Hoare

variable {σ α β : Type}

/-- From a state with `pre`, `m` ends with `post`. -/
def Triple (pre : σ → Prop) (m : StateM σ α) (post : α → σ → Prop) : Prop :=
  ∀ s, pre s → post (m s).1 (m s).2

variable {pre pre' : σ → Prop} {post post' : α → σ → Prop} {m m' : StateM σ α}

/-- Returning a value. -/
theorem Triple.pure {a : α} (h : ∀ s, pre s → post a s) :
    Triple pre (Pure.pure a : StateM σ α) post :=
  h

/-- One function after another. -/
theorem Triple.bind {mid : α → σ → Prop} {f : α → StateM σ β} {post : β → σ → Prop}
    (hm : Triple pre m mid) (hf : ∀ a, Triple (mid a) (f a) post) :
    Triple pre (m >>= f) post := by
  intro s hs
  exact hf (m s).1 (m s).2 (hm s hs)

/-- Reading the state. -/
theorem Triple.get {f : σ → StateM σ β} {post : β → σ → Prop}
    (hf : ∀ s, pre s → Triple pre (f s) post) : Triple pre (MonadState.get >>= f) post := by
  intro s hs
  exact hf s hs s hs

/-- A branch. -/
theorem Triple.ite {c : Prop} [Decidable c] (ht : c → Triple pre m post)
    (hf : ¬ c → Triple pre m' post) : Triple pre (if c then m else m') post := by
  by_cases h : c
  · simpa only [if_pos h] using ht h
  · simpa only [if_neg h] using hf h

/-- Weakening. -/
theorem Triple.conseq (h : Triple pre m post) (hpre : ∀ s, pre' s → pre s)
    (hpost : ∀ a s, post a s → post' a s) : Triple pre' m post' := by
  intro s hs
  exact hpost _ _ (h s (hpre s hs))

variable {τ : Type} {f : σ → τ}

/-- On `f s`, `m'` does what `m` does on `s`. -/
def Mirrors (f : σ → τ) (m : StateM σ α) (m' : StateM τ α) : Prop :=
  ∀ s, m' (f s) = ((m s).1, f (m s).2)

/-- A result alone is mirrored. -/
theorem Mirrors.pure (f : σ → τ) (a : α) :
    Mirrors f (Pure.pure a : StateM σ α) (Pure.pure a) :=
  fun _ => rfl

/-- What is mirrored step by step is mirrored. -/
theorem Mirrors.bind {m : StateM σ α} {m' : StateM τ α} {k : α → StateM σ β}
    {k' : α → StateM τ β} (hm : Mirrors f m m') (hk : ∀ a, Mirrors f (k a) (k' a)) :
    Mirrors f (m >>= k) (m' >>= k') := by
  intro s
  show k' (m' (f s)).1 (m' (f s)).2 = _
  rw [hm s]
  exact hk (m s).1 (m s).2

/-- Reading the state, where what is read is the same. -/
theorem Mirrors.get {k : σ → StateM σ β} {k' : τ → StateM τ β}
    (hk : ∀ s, Mirrors f (k s) (k' (f s))) :
    Mirrors f (MonadState.get >>= k) (MonadState.get >>= k') :=
  fun s => hk s s

/-- A choice is mirrored when both branches are. -/
theorem Mirrors.ite {c : Prop} [Decidable c] {m₁ m₂ : StateM σ α} {m₁' m₂' : StateM τ α}
    (ht : Mirrors f m₁ m₁') (hf : Mirrors f m₂ m₂') :
    Mirrors f (if c then m₁ else m₂) (if c then m₁' else m₂') := by
  by_cases h : c
  · simpa only [if_pos h] using ht
  · simpa only [if_neg h] using hf

end Hoare

import Mathlib.Logic.Function.Basic

/-!
# Counting semaphores

A semaphore carries its own account: what was posted and not taken is its value.  The
account is a field, so that whoever posts and takes in whatever order, it holds.
-/

set_option autoImplicit false

namespace Semaphore

/-- A semaphore that started with `initial`, and what was done to it. -/
structure Sem (initial : Nat) where
  value : Nat
  posts : Nat
  takes : Nat
  balance : value + takes = initial + posts

variable {initial : Nat}

/-- `sem_init`. -/
def Sem.init (initial : Nat) : Sem initial :=
  ⟨initial, 0, 0, rfl⟩

/-- `sem_post`. -/
def Sem.post (s : Sem initial) : Sem initial where
  value := s.value + 1
  posts := s.posts + 1
  takes := s.takes
  balance := by
    have := s.balance
    omega

/-- `sem_wait`; it blocks at zero. -/
def Sem.wait (s : Sem initial) : Option (Sem initial) :=
  if h : 0 < s.value then
    some ⟨s.value - 1, s.posts, s.takes + 1, by have := s.balance; omega⟩
  else none

@[simp] theorem Sem.init_posts : (Sem.init initial).posts = 0 := rfl

@[simp] theorem Sem.post_posts (s : Sem initial) : s.post.posts = s.posts + 1 := rfl

@[simp] theorem Sem.post_takes (s : Sem initial) : s.post.takes = s.takes := rfl

/-- A take is one more, of something that was there. -/
theorem Sem.of_wait {s t : Sem initial} (h : s.wait = some t) :
    t.takes = s.takes + 1 ∧ t.posts = s.posts ∧ s.takes < initial + s.posts := by
  unfold Sem.wait at h
  split at h
  · next hpos =>
      cases h
      have := s.balance
      exact ⟨rfl, rfl, by omega⟩
  · cases h

end Semaphore

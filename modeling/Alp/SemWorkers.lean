import Alp.Semaphore
import Alp.Transition

/-!
# Two consumers and a producer on one semaphore

This file embeds `c4-2/main.c`: `main` allocates the data the threads share, creates two
consumers and a producer, joins the producer, cancels and joins the consumers, and frees
the data.  A step of a thread makes one access to the data, or one operation on the
semaphore.  A cancelled thread ends at its next cancellation point; `printf` may be one,
so it may end between any two of its accesses.

Whatever the order of the steps, no thread is left to use the data when it is freed, and it
is freed once at most (`data_held`), the producer posts ten times and each consumer takes at most once after
`stop` was set (`semaphore_accounted`), and `main` returns (`main_exits`).
-/

set_option autoImplicit false

namespace SemThreads

open Semaphore Transition

/-- The consumers. -/
inductive Who
  | a
  | b
  deriving DecidableEq

/-- Points of a consumer. -/
inductive ConsumerPc
  /-- It is not created. -/
  | unborn
  /-- `stop = pd->stop` before the loop -/
  | start
  /-- `sem_wait(&pd->sem)` -/
  | wait
  /-- `stop = pd->stop` in the loop -/
  | look
  /-- `usleep(pd->slot[0])`, having read `stop` -/
  | sleep (stop : Bool)
  /-- It has returned, or was cancelled. -/
  | ended
  deriving DecidableEq

/-- Points of the producer. -/
inductive ProducerPc
  /-- It is not created. -/
  | unborn
  /-- `stop = pd->stop` before the loop -/
  | start
  /-- `gen_thread_slot(pd)`, after `sleep(1)` -/
  | gen
  /-- `sem_post(&pd->sem)` -/
  | post
  /-- `pd->cnt--` -/
  | dec
  /-- `if(!pd->cnt) pd->stop = 1` -/
  | test
  /-- `stop = pd->stop` in the loop -/
  | look
  /-- It has returned. -/
  | ended
  deriving DecidableEq

/-- Points of `main`. -/
inductive MainPc
  /-- `ptd = malloc(...)`, and the values its fields get -/
  | ptd
  /-- `attr = malloc(...)` -/
  | attr
  /-- `pthread_create` of `thread_consumer_a` -/
  | createA
  /-- `pthread_create` of `thread_consumer_b` -/
  | createB
  /-- `pthread_create` of `thread_producer_c` -/
  | createC
  /-- `pthread_join(subid[2], NULL)` -/
  | joinC
  /-- `pthread_cancel(subid[1])` -/
  | cancelB
  /-- `pthread_cancel(subid[0])` -/
  | cancelA
  /-- `pthread_join(subid[1], NULL)` -/
  | joinB
  /-- `pthread_join(subid[0], NULL)` -/
  | joinA
  /-- `free(ptd)` -/
  | free
  /-- `return status` -/
  | ret (status : Int)
  /-- The process is over. -/
  | exited (status : Int)
  deriving DecidableEq

/-- `struct th_data`; `posts` and `takes` of the semaphore are a record that no step
looks at. -/
structure ThData where
  cnt : Int
  stop : Bool
  sem : Sem 1

/-- The memory of `ptd`. -/
inductive Ptd
  | none
  | held
  | freed
  deriving DecidableEq

/-- The process.  `late` counts the takes of a consumer made while `stop` was set, and
`frees` the calls of `free(ptd)`; no step looks at them. -/
structure State where
  data : ThData
  ptd : Ptd
  main : MainPc
  consumer : Who → ConsumerPc
  producer : ProducerPc
  /-- `pthread_cancel` was called for the consumer. -/
  pending : Who → Bool
  late : Who → Nat
  frees : Nat

/-- A consumer goes on to `pc`. -/
def State.goto (s : State) (w : Who) (pc : ConsumerPc) : State :=
  { s with consumer := Function.update s.consumer w pc }

/-- A step of a consumer. -/
def threadConsumer (w : Who) (s : State) : Option State :=
  match s.consumer w with
  | .unborn | .ended => none
  | .start => some (s.goto w (if s.data.stop then .ended else .wait))
  | .wait => s.data.sem.wait.map fun sem =>
      { s.goto w .look with
        data := { s.data with sem := sem },
        late := Function.update s.late w (s.late w + s.data.stop.toNat) }
  | .look => some (s.goto w (.sleep s.data.stop))
  | .sleep stop => some (s.goto w (if stop then .ended else .wait))

/-- `thread_consumer_a`. -/
def threadConsumerA : State → Option State :=
  threadConsumer .a

/-- `thread_consumer_b`. -/
def threadConsumerB : State → Option State :=
  threadConsumer .b

/-- A step of `thread_producer_c`. -/
def threadProducerC (s : State) : Option State :=
  match s.producer with
  | .unborn | .ended => none
  | .start => some { s with producer := if s.data.stop then .ended else .gen }
  | .gen => some { s with producer := .post }
  | .post => some { s with producer := .dec, data := { s.data with sem := s.data.sem.post } }
  | .dec => some { s with producer := .test, data := { s.data with cnt := s.data.cnt - 1 } }
  | .test => some { s with
      producer := .look
      data := { s.data with stop := if s.data.cnt = 0 then true else s.data.stop } }
  | .look => some { s with producer := if s.data.stop then .ended else .gen }

/-- A step of `main`; `ok` says whether the `malloc` or the `pthread_create` succeeds. -/
def mainStep (s : State) (ok : Bool) : Option State :=
  match s.main with
  | .ptd => some (if ok then { s with
      main := .attr, ptd := .held, data := ⟨10, false, Sem.init 1⟩ }
    else { s with main := .ret (-1) })
  | .attr => some (if ok then { s with main := .createA }
    else { s with main := .ret (-1), ptd := .freed, frees := s.frees + 1 })
  | .createA => some (if ok then { s.goto .a .start with main := .createB }
    else { s with main := .ret (-1) })
  | .createB => some (if ok then { s.goto .b .start with main := .createC }
    else { s with main := .ret (-1) })
  | .createC => some (if ok then { s with producer := .start, main := .joinC }
    else { s with main := .ret (-1) })
  | .joinC => if s.producer = .ended then some { s with main := .cancelB } else none
  | .cancelB => some { s with main := .cancelA, pending := Function.update s.pending .b true }
  | .cancelA => some { s with main := .joinB, pending := Function.update s.pending .a true }
  | .joinB => if s.consumer .b = .ended then some { s with main := .joinA } else none
  | .joinA => if s.consumer .a = .ended then some { s with main := .free } else none
  | .free => some { s with main := .ret 0, ptd := .freed, frees := s.frees + 1 }
  | .ret status => some { s with main := .exited status }
  | .exited _ => none

/-- Who moves. -/
inductive Action
  | main (ok : Bool)
  | consumer (w : Who)
  | producer
  /-- A consumer acts on `pthread_cancel`. -/
  | cancelled (w : Who)

/-- One step of the process; it has none when `main` has returned. -/
def step (s : State) (a : Action) : Option State :=
  match s.main with
  | .exited _ => none
  | _ =>
    match a with
    | .main ok => mainStep s ok
    | .consumer .a => threadConsumerA s
    | .consumer .b => threadConsumerB s
    | .producer => threadProducerC s
    | .cancelled w =>
      if s.pending w = true ∧ s.consumer w ≠ .unborn ∧ s.consumer w ≠ .ended then
        some (s.goto w .ended)
      else none

/-- `main` begins; nothing is allocated. -/
def start (data : ThData) : State :=
  ⟨data, .none, .ptd, fun _ => .unborn, .unborn, fun _ => false, fun _ => 0, 0⟩

def Started (s : State) : Prop :=
  ∃ data, s = start data

/-- The steps of a consumer. -/
inductive ConsumerMove (w : Who) (s : State) : State → Prop
  | start (hc : s.consumer w = .start) :
      ConsumerMove w s (s.goto w (if s.data.stop then .ended else .wait))
  | take (sem : Sem 1) (hc : s.consumer w = .wait) (hsem : s.data.sem.wait = some sem) :
      ConsumerMove w s { s.goto w .look with
        data := { s.data with sem := sem },
        late := Function.update s.late w (s.late w + s.data.stop.toNat) }
  | look (hc : s.consumer w = .look) : ConsumerMove w s (s.goto w (.sleep s.data.stop))
  | sleep (stop : Bool) (hc : s.consumer w = .sleep stop) :
      ConsumerMove w s (s.goto w (if stop then .ended else .wait))

/-- A step of a consumer is one of its moves. -/
theorem threadConsumer_cases {w : Who} {s t : State} (h : threadConsumer w s = some t) :
    ConsumerMove w s t := by
  unfold threadConsumer at h
  split at h
  · cases h
  · cases h
  · next hc =>
      cases h
      exact .start hc
  · next hc =>
      obtain ⟨sem, hsem, rfl⟩ := Option.map_eq_some_iff.mp h
      exact .take sem hc hsem
  · next hc =>
      cases h
      exact .look hc
  · next stop hc =>
      cases h
      exact .sleep stop hc

/-- The steps of the process before `main` returns. -/
inductive StepMove (s : State) : Action → State → Prop
  | main (ok : Bool) {t : State} (hrun : mainStep s ok = some t) : StepMove s (.main ok) t
  | consumer (w : Who) {t : State} (hmove : ConsumerMove w s t) : StepMove s (.consumer w) t
  | producer {t : State} (hrun : threadProducerC s = some t) : StepMove s .producer t
  | cancelled (w : Who) (hpending : s.pending w = true) (hborn : s.consumer w ≠ .unborn)
      (hlive : s.consumer w ≠ .ended) : StepMove s (.cancelled w) (s.goto w .ended)

/-- A step is one of the moves, and none is made after `main` returned. -/
theorem step_cases {s t : State} {a : Action} (h : step s a = some t) :
    StepMove s a t ∧ ∀ status, s.main ≠ .exited status := by
  unfold step at h
  split at h
  · cases h
  next hmain =>
  refine ⟨?_, hmain⟩
  cases a with
  | main ok => exact .main ok h
  | consumer w => cases w <;> exact .consumer _ (threadConsumer_cases h)
  | producer => exact .producer h
  | cancelled w =>
      simp only at h
      split at h
      · next hw =>
          cases h
          exact .cancelled w hw.1 hw.2.1 hw.2.2
      · cases h

/-- A consumer moves only while it runs, and it is never unborn afterwards. -/
theorem ConsumerMove.live {w : Who} {s t : State} (h : ConsumerMove w s t) :
    (s.consumer w ≠ .unborn ∧ s.consumer w ≠ .ended) ∧
      ∃ pc, pc ≠ .unborn ∧ t.consumer = Function.update s.consumer w pc := by
  cases h with
  | start hc =>
      refine ⟨by simp [hc], _, ?_, rfl⟩
      split <;> simp
  | take sem hc hsem => exact ⟨by simp [hc], .look, by simp, rfl⟩
  | look hc => exact ⟨by simp [hc], .sleep s.data.stop, by simp, rfl⟩
  | sleep stop hc =>
      refine ⟨by simp [hc], _, ?_, rfl⟩
      split <;> simp

/-- What a consumer leaves alone. -/
theorem ConsumerMove.frame {w : Who} {s t : State} (h : ConsumerMove w s t) :
    t.main = s.main ∧ t.ptd = s.ptd ∧ t.producer = s.producer ∧ t.pending = s.pending ∧
      t.data.cnt = s.data.cnt ∧ t.data.stop = s.data.stop ∧
      t.data.sem.posts = s.data.sem.posts := by
  cases h with
  | take sem hc hsem =>
      obtain ⟨-, hposts, -⟩ := Sem.of_wait hsem
      exact ⟨rfl, rfl, rfl, rfl, rfl, rfl, hposts⟩
  | start | look | sleep => exact ⟨rfl, rfl, rfl, rfl, rfl, rfl, rfl⟩

/-- A step of the producer, which only runs while it is created and has not returned. -/
theorem threadProducerC_frame {s t : State} (h : threadProducerC s = some t) :
    (s.producer ≠ .unborn ∧ s.producer ≠ .ended) ∧ t.producer ≠ .unborn ∧ t.main = s.main ∧
      t.ptd = s.ptd ∧ t.consumer = s.consumer ∧ t.pending = s.pending ∧ t.late = s.late ∧
      t.data.sem.takes = s.data.sem.takes ∧ (s.data.stop = true → t.data.stop = true) := by
  unfold threadProducerC at h
  cases hp : s.producer with
  | unborn | ended => simp [hp] at h
  | gen | post | dec =>
      simp only [hp] at h
      cases h
      simp
  | start | look =>
      simp only [hp] at h
      cases h
      cases s.data.stop <;> simp
  | test =>
      simp only [hp] at h
      cases h
      simp +contextual

/-- No thread is left that could use the data. -/
def Quiet (s : State) : Prop :=
  (∀ w, s.consumer w = .unborn ∨ s.consumer w = .ended) ∧
    (s.producer = .unborn ∨ s.producer = .ended)

/-- What holds at each point of `main`. -/
def MainOk (s : State) : Prop :=
  match s.main with
  | .ptd => s.ptd = .none ∧ (∀ w, s.consumer w = .unborn) ∧ s.producer = .unborn
  | .attr | .createA => s.ptd = .held ∧ (∀ w, s.consumer w = .unborn) ∧ s.producer = .unborn
  | .createB => s.ptd = .held ∧ s.consumer .a ≠ .unborn ∧ s.consumer .b = .unborn ∧
      s.producer = .unborn
  | .createC => s.ptd = .held ∧ (∀ w, s.consumer w ≠ .unborn) ∧ s.producer = .unborn
  | .joinC => s.ptd = .held ∧ (∀ w, s.consumer w ≠ .unborn) ∧ s.producer ≠ .unborn
  | .cancelB => s.ptd = .held ∧ (∀ w, s.consumer w ≠ .unborn) ∧ s.producer = .ended
  | .cancelA => s.ptd = .held ∧ (∀ w, s.consumer w ≠ .unborn) ∧ s.producer = .ended ∧
      s.pending .b = true
  | .joinB => s.ptd = .held ∧ (∀ w, s.consumer w ≠ .unborn) ∧ s.producer = .ended ∧
      ∀ w, s.pending w = true
  | .joinA => s.ptd = .held ∧ s.consumer .a ≠ .unborn ∧ s.consumer .b = .ended ∧
      s.producer = .ended ∧ ∀ w, s.pending w = true
  | .free => s.ptd = .held ∧ (∀ w, s.consumer w = .ended) ∧ s.producer = .ended
  | .ret status | .exited status => (s.ptd = .held ∨ Quiet s) ∧
      (status = 0 → s.ptd = .freed ∧ (∀ w, s.consumer w = .ended) ∧ s.producer = .ended)

/-- There are two consumers. -/
theorem Who.forall {p : Who → Prop} : (∀ w, p w) ↔ p .a ∧ p .b :=
  ⟨fun h => ⟨h .a, h .b⟩, fun h w => by cases w; exacts [h.1, h.2]⟩

/-- A step of a consumer that runs. -/
theorem MainOk.consumer {s t : State} {w : Who} {pc : ConsumerPc} (h : MainOk s)
    (hlive : s.consumer w ≠ .unborn ∧ s.consumer w ≠ .ended) (hpc : pc ≠ .unborn)
    (hconsumer : t.consumer = Function.update s.consumer w pc) (hmain : t.main = s.main)
    (hptd : t.ptd = s.ptd) (hproducer : t.producer = s.producer)
    (hpending : t.pending = s.pending) : MainOk t := by
  unfold MainOk at h ⊢
  rw [hmain]
  cases hm : s.main <;> simp only [hm, Quiet, Who.forall] at h ⊢ <;>
    cases w <;> simp_all [Function.update]

/-- A step of the producer while it runs. -/
theorem MainOk.producer {s t : State} (h : MainOk s)
    (hlive : s.producer ≠ .unborn ∧ s.producer ≠ .ended) (hproducer : t.producer ≠ .unborn)
    (hmain : t.main = s.main) (hptd : t.ptd = s.ptd) (hconsumer : t.consumer = s.consumer) :
    MainOk t := by
  unfold MainOk at h ⊢
  rw [hmain]
  cases hm : s.main <;> simp only [hm, Quiet] at h ⊢ <;> simp_all

/-- A step of `main` keeps its part of the invariant. -/
theorem MainOk.main {s t : State} {ok : Bool} (h : MainOk s) (hrun : mainStep s ok = some t) :
    MainOk t := by
  unfold MainOk at h
  cases hm : s.main with
  | ptd | attr | createA | createB | createC =>
      simp only [hm] at h
      simp only [mainStep, hm] at hrun
      cases ok <;> cases hrun <;> simp_all [MainOk, Quiet, State.goto, Function.update, Who.forall]
  | joinC | joinB | joinA =>
      simp only [hm] at h
      simp only [mainStep, hm] at hrun
      split at hrun <;> cases hrun
      simp_all [MainOk, Who.forall]
  | cancelB | cancelA | free =>
      simp only [hm] at h
      simp only [mainStep, hm] at hrun
      cases hrun
      simp_all [MainOk, Quiet, Function.update, Who.forall]
  | ret status =>
      simp only [hm] at h
      simp only [mainStep, hm] at hrun
      cases hrun
      exact h
  | exited status =>
      simp only [mainStep, hm] at hrun
      cases hrun

/-- What the producer has done at each of its points. -/
def ProducerOk (pc : ProducerPc) (data : ThData) : Prop :=
  match pc with
  | .unborn | .start => data.cnt = 10 ∧ data.sem.posts = 0 ∧ data.stop = false
  | .gen | .post => data.cnt + data.sem.posts = 10 ∧ 0 < data.cnt ∧ data.stop = false
  | .dec => data.cnt + data.sem.posts = 11 ∧ 0 < data.cnt ∧ data.stop = false
  | .test => data.cnt + data.sem.posts = 10 ∧ 0 ≤ data.cnt ∧ data.stop = false
  | .look => data.cnt + data.sem.posts = 10 ∧ 0 ≤ data.cnt ∧ (data.stop = true ↔ data.cnt = 0)
  | .ended => data.cnt = 0 ∧ data.sem.posts = 10 ∧ data.stop = true

/-- What a consumer has taken late at each of its points. -/
def LateOk (pc : ConsumerPc) (late : Nat) (stop : Bool) : Prop :=
  match pc with
  | .unborn | .start | .wait | .sleep false => late = 0
  | .look => late ≤ stop.toNat
  | .sleep true | .ended => late ≤ 1

/-- The producer posts at most ten times. -/
theorem ProducerOk.posts_le {pc : ProducerPc} {data : ThData} (h : ProducerOk pc data) :
    data.sem.posts ≤ 10 := by
  cases pc <;> simp only [ProducerOk] at h <;> omega

/-- A consumer takes at most one unit late. -/
theorem LateOk.le_one {pc : ConsumerPc} {late : Nat} {stop : Bool} (h : LateOk pc late stop) :
    late ≤ 1 := by
  unfold LateOk at h
  have := Bool.toNat_le stop
  split at h <;> omega

/-- `stop` is only ever set. -/
theorem LateOk.mono {pc : ConsumerPc} {late : Nat} {stop stop' : Bool} (h : LateOk pc late stop)
    (hstop : stop = true → stop' = true) : LateOk pc late stop' := by
  cases pc with
  | look =>
      have hle : late ≤ stop.toNat := h
      cases stop with
      | false => exact Nat.le_trans hle (Nat.zero_le _)
      | true =>
          show late ≤ stop'.toNat
          rw [hstop rfl]
          exact hle
  | sleep woken => cases woken <;> exact h
  | unborn | start | wait | ended => exact h

/-- A step of the producer keeps its part of the invariant. -/
theorem threadProducerC_ok {s t : State} (h : ProducerOk s.producer s.data)
    (hrun : threadProducerC s = some t) : ProducerOk t.producer t.data := by
  unfold threadProducerC at hrun
  cases hp : s.producer with
  | unborn | ended => simp [hp] at hrun
  | start =>
      simp only [hp, ProducerOk] at h hrun
      cases hrun
      simp only [h.2.2, ProducerOk]
      exact ⟨by omega, by omega, trivial⟩
  | gen =>
      simp only [hp] at h hrun
      cases hrun
      exact h
  | post =>
      simp only [hp, ProducerOk] at h hrun
      cases hrun
      refine ⟨?_, h.2⟩
      simp only [Sem.post_posts]
      omega
  | dec =>
      simp only [hp, ProducerOk] at h hrun
      cases hrun
      have hposts : s.data.cnt - 1 + (s.data.sem.posts : Int) = 10 := by omega
      have hcnt : 0 ≤ s.data.cnt - 1 := by omega
      exact ⟨hposts, hcnt, h.2.2⟩
  | test =>
      simp only [hp, ProducerOk] at h hrun
      cases hrun
      refine ⟨h.1, h.2.1, ?_⟩
      simp [h.2.2]
  | look =>
      simp only [hp, ProducerOk] at h hrun
      cases hrun
      cases hs : s.data.stop
      · have hcnt : s.data.cnt ≠ 0 := fun h0 => by simp [h.2.2.mpr h0] at hs
        have hpos : 0 < s.data.cnt := by omega
        exact ⟨h.1, hpos, hs⟩
      · have hcnt := h.2.2.mp hs
        have hposts : s.data.sem.posts = 10 := by omega
        exact ⟨hcnt, hposts, hs⟩

/-- A move of a consumer keeps the count of its late units. -/
theorem ConsumerMove.late {w : Who} {s t : State} (hmove : ConsumerMove w s t)
    (h : ∀ v, LateOk (s.consumer v) (s.late v) s.data.stop) (v : Who) :
    LateOk (t.consumer v) (t.late v) t.data.stop := by
  have hw := h w
  by_cases hv : v = w
  · subst hv
    cases hmove with
    | start hc =>
        rw [hc] at hw
        cases hs : s.data.stop <;> simp_all [State.goto, LateOk]
    | take sem hc hsem =>
        rw [hc] at hw
        have hlate : s.late v = 0 := hw
        simp [State.goto, LateOk, hlate]
    | look hc =>
        rw [hc] at hw
        cases hs : s.data.stop <;> simp_all [State.goto, LateOk]
    | sleep stop hc =>
        rw [hc] at hw
        cases stop <;> simp_all [State.goto, LateOk]
  · have hother := h v
    cases hmove <;> simpa [State.goto, hv] using hother

/-- The data was freed once if it is freed, and never otherwise. -/
def FreesOk (s : State) : Prop :=
  s.frees = if s.ptd = .freed then 1 else 0

/-- `main`'s knowledge and the account together. -/
structure Inv (s : State) : Prop where
  main : MainOk s
  producer : s.ptd ≠ .none → ProducerOk s.producer s.data
  late : ∀ w, LateOk (s.consumer w) (s.late w) s.data.stop
  frees : FreesOk s

/-- Threads other than `main` neither allocate nor free the data. -/
theorem StepMove.ptd {s t : State} {a : Action} (h : StepMove s a t)
    (hother : ∀ ok, a ≠ .main ok) : t.ptd = s.ptd ∧ t.frees = s.frees := by
  cases h with
  | main ok hrun => exact absurd rfl (hother ok)
  | consumer w hmove => cases hmove <;> exact ⟨rfl, rfl⟩
  | producer hrun =>
      unfold threadProducerC at hrun
      split at hrun <;> cases hrun <;> exact ⟨rfl, rfl⟩
  | cancelled w hpending hborn hlive => exact ⟨rfl, rfl⟩

/-- Where `main` frees the data, they are allocated. -/
theorem mainStep_frees {s t : State} {ok : Bool} (h : MainOk s) (hfrees : FreesOk s)
    (hrun : mainStep s ok = some t) : FreesOk t ∧ (t.frees ≠ s.frees → s.ptd = .held) := by
  unfold MainOk at h
  unfold FreesOk at hfrees ⊢
  cases hm : s.main with
  | ptd | attr =>
      simp only [hm] at h
      simp only [mainStep, hm] at hrun
      cases ok <;> cases hrun <;> simp_all
  | createA | createB | createC =>
      simp only [mainStep, hm] at hrun
      cases ok <;> cases hrun <;> exact ⟨hfrees, fun hne => absurd rfl hne⟩
  | joinC | joinB | joinA =>
      simp only [mainStep, hm] at hrun
      split at hrun <;> cases hrun
      exact ⟨hfrees, fun hne => absurd rfl hne⟩
  | cancelB | cancelA | ret status =>
      simp only [mainStep, hm] at hrun
      cases hrun
      exact ⟨hfrees, fun hne => absurd rfl hne⟩
  | free =>
      simp only [hm] at h
      simp only [mainStep, hm] at hrun
      cases hrun
      simp_all
  | exited status =>
      simp only [mainStep, hm] at hrun
      cases hrun

/-- As long as a thread runs, the data is there. -/
theorem MainOk.held {s : State} (h : MainOk s) (hnot : ¬ Quiet s) : s.ptd = .held := by
  unfold MainOk at h
  cases hm : s.main with
  | ptd =>
      simp only [hm] at h
      exact absurd ⟨fun w => Or.inl (h.2.1 w), Or.inl h.2.2⟩ hnot
  | ret status | exited status =>
      simp only [hm] at h
      exact h.1.resolve_right hnot
  | attr | createA | createB | createC | joinC | cancelB | cancelA | joinB | joinA | free =>
      simp only [hm] at h
      exact h.1

/-- A consumer that runs. -/
theorem not_quiet_of_consumer {s : State} {w : Who}
    (hlive : s.consumer w ≠ .unborn ∧ s.consumer w ≠ .ended) : ¬ Quiet s :=
  fun hquiet => (hquiet.1 w).elim hlive.1 hlive.2

/-- The producer, while it runs. -/
theorem not_quiet_of_producer {s : State}
    (hlive : s.producer ≠ .unborn ∧ s.producer ≠ .ended) : ¬ Quiet s :=
  fun hquiet => hquiet.2.elim hlive.1 hlive.2

/-- The invariant holds at the start. -/
theorem inv_started {s : State} (h : Started s) : Inv s := by
  obtain ⟨data, rfl⟩ := h
  exact ⟨⟨rfl, fun _ => rfl, rfl⟩, fun hne => absurd rfl hne, fun _ => rfl, rfl⟩

/-- Steps of `main` change the fields of the data only when they get their first values,
and consumers and producer only by creating them. -/
theorem mainStep_account {s t : State} {ok : Bool} (h : Inv s) (hrun : mainStep s ok = some t) :
    (t.ptd ≠ .none → ProducerOk t.producer t.data) ∧
      ∀ w, LateOk (t.consumer w) (t.late w) t.data.stop := by
  have hmain := h.main
  have hlate := h.late
  have hproducer := h.producer
  unfold MainOk at hmain
  cases hm : s.main with
  | ptd =>
      simp only [hm] at hmain
      simp only [mainStep, hm] at hrun
      cases ok <;> cases hrun
      · exact ⟨hproducer, hlate⟩
      · refine ⟨fun _ => ?_, fun w => ?_⟩
        · simp [hmain.2.2, ProducerOk]
        · have hw := hlate w
          show LateOk (s.consumer w) (s.late w) false
          rw [hmain.2.1 w] at hw ⊢
          exact hw
  | attr =>
      simp only [hm] at hmain
      simp only [mainStep, hm] at hrun
      have hheld : s.ptd ≠ .none := by simp [hmain.1]
      cases ok <;> cases hrun <;> exact ⟨fun _ => hproducer hheld, hlate⟩
  | createA | createB =>
      simp only [hm] at hmain
      simp only [mainStep, hm] at hrun
      cases ok <;> cases hrun
      · exact ⟨hproducer, hlate⟩
      · refine ⟨hproducer, fun w => ?_⟩
        have hw := hlate w
        cases w <;> simp_all [State.goto, LateOk]
  | createC =>
      simp only [hm] at hmain
      simp only [mainStep, hm] at hrun
      have hheld : s.ptd ≠ .none := by simp [hmain.1]
      have hok := hproducer hheld
      rw [hmain.2.2] at hok
      cases ok <;> cases hrun
      · exact ⟨hproducer, hlate⟩
      · exact ⟨fun _ => hok, hlate⟩
  | joinC | joinB | joinA =>
      simp only [mainStep, hm] at hrun
      split at hrun <;> cases hrun
      exact ⟨hproducer, hlate⟩
  | cancelB | cancelA | ret status =>
      simp only [mainStep, hm] at hrun
      cases hrun
      exact ⟨hproducer, hlate⟩
  | free =>
      simp only [hm] at hmain
      simp only [mainStep, hm] at hrun
      have hheld : s.ptd ≠ .none := by simp [hmain.1]
      cases hrun
      exact ⟨fun _ => hproducer hheld, hlate⟩
  | exited status =>
      simp only [mainStep, hm] at hrun
      cases hrun

/-- Every step keeps what `main` knows and the account. -/
theorem inv_step {s t : State} {a : Action} (h : Inv s) (hstep : step s a = some t) : Inv t := by
  have hmove := (step_cases hstep).1
  have hfrees : (∀ ok, a ≠ .main ok) → FreesOk t := by
    intro hother
    obtain ⟨hptd, hsame⟩ := hmove.ptd hother
    rw [FreesOk, hptd, hsame]
    exact h.frees
  cases hmove with
  | main ok hrun =>
      obtain ⟨hproducer, hlate⟩ := mainStep_account h hrun
      exact ⟨h.main.main hrun, hproducer, hlate, (mainStep_frees h.main h.frees hrun).1⟩
  | consumer w hmove =>
      obtain ⟨hlive, pc, hpc, hconsumer⟩ := hmove.live
      obtain ⟨hmain, hptd, hproducer, hpending, hcnt, hstop, hposts⟩ := hmove.frame
      refine ⟨h.main.consumer hlive hpc hconsumer hmain hptd hproducer hpending, fun hne => ?_,
        hmove.late h.late, hfrees (by simp)⟩
      have hok := h.producer (hptd ▸ hne)
      rw [hproducer]
      unfold ProducerOk at hok ⊢
      rw [hcnt, hstop, hposts]
      exact hok
  | producer hrun =>
      obtain ⟨hlive, hpc, hmain, hptd, hconsumer, -, hlate, -, hstop⟩ := threadProducerC_frame hrun
      refine ⟨h.main.producer hlive hpc hmain hptd hconsumer, fun hne => ?_, fun w => ?_,
        hfrees (by simp)⟩
      · exact threadProducerC_ok (h.producer (hptd ▸ hne)) hrun
      · rw [hconsumer, hlate]
        exact (h.late w).mono hstop
  | cancelled w hpending hborn hlive =>
      refine ⟨h.main.consumer (w := w) ⟨hborn, hlive⟩ (by simp) rfl rfl rfl rfl rfl, h.producer,
        fun v => ?_, hfrees (by simp)⟩
      by_cases hv : v = w
      · subst hv
        simpa [State.goto, LateOk] using (h.late v).le_one
      · simpa [State.goto, hv] using h.late v

/-- The invariant holds in every state reached. -/
theorem inv_reach {s : State} (h : Reach step Started anyStep s) : Inv s :=
  h.invariant (fun _ => inv_started) fun _ _ _ _ hs _ hstep => inv_step hs hstep

/-- **Data.**  In every run a thread that moves still has the data, and so has `main` at
each call of `free(ptd)`, of which there is at most one: the data is neither used after
`free` nor freed twice. -/
theorem data_held {s : State} (h : Reach step Started anyStep s) :
    (∀ a t, (∀ ok, a ≠ .main ok) → step s a = some t → s.ptd = .held) ∧
      (∀ ok t, step s (.main ok) = some t → t.frees ≠ s.frees → s.ptd = .held) ∧
      s.frees ≤ 1 := by
  have hinv := inv_reach h
  refine ⟨fun a t ha hstep => ?_, fun ok t hstep hfree => ?_, ?_⟩
  · refine hinv.main.held ?_
    cases (step_cases hstep).1 with
    | main ok hrun => exact absurd rfl (ha ok)
    | consumer w hmove => exact not_quiet_of_consumer hmove.live.1
    | producer hrun => exact not_quiet_of_producer (threadProducerC_frame hrun).1
    | cancelled w hpending hborn hlive => exact not_quiet_of_consumer ⟨hborn, hlive⟩
  · cases (step_cases hstep).1 with
    | main _ hrun => exact (mainStep_frees hinv.main hinv.frees hrun).2 hfree
  · rw [hinv.frees]
    split <;> omega

/-- Every thread is created, and consumer `a` takes the first token. -/
def takenRun : List Action :=
  List.replicate 5 (.main true) ++ [.consumer .a, .consumer .a]

/-- Consumer `a` reads `stop` of data that is there. -/
theorem data_held_takenRun :
    ∃ s t, Reach step Started anyStep s ∧ s.data.sem.takes = 1 ∧
      step s (.consumer .a) = some t ∧ s.ptd = .held ∧ s.frees ≤ 1 := by
  obtain ⟨s, t, hrun, htakes, hstep⟩ : ∃ s t,
      exec step (fun _ _ => true) (start ⟨0, false, Sem.init 1⟩) takenRun = some s ∧
        s.data.sem.takes = 1 ∧ step s (.consumer .a) = some t := ⟨_, _, rfl, rfl, rfl⟩
  have hreach : Reach step Started anyStep s :=
    Reach.of_exec (fun _ _ _ => trivial) (.start ⟨_, rfl⟩) hrun
  obtain ⟨hthreads, -, hfrees⟩ := data_held hreach
  exact ⟨s, t, hreach, htakes, hstep, hthreads _ t (by simp) hstep, hfrees⟩

/-- **Account.**  In every run, once the data has its values: what was posted and not
taken is the semaphore's value but for the first token, there are at most ten posts, and
a consumer takes at most once after `stop` was set; when `main` returns 0 there were all
ten posts, all threads have ended, and the data is freed. -/
theorem semaphore_accounted {s : State} (h : Reach step Started anyStep s) (hptd : s.ptd ≠ .none) :
    s.data.sem.value + s.data.sem.takes = 1 + s.data.sem.posts ∧ s.data.sem.posts ≤ 10 ∧
      (∀ w, s.late w ≤ 1) ∧
      (s.main = .exited 0 → s.data.sem.posts = 10 ∧ s.ptd = .freed ∧ s.producer = .ended ∧
        ∀ w, s.consumer w = .ended) := by
  have hinv := inv_reach h
  have hproducer := hinv.producer hptd
  refine ⟨s.data.sem.balance, hproducer.posts_le, fun w => (hinv.late w).le_one, fun hm => ?_⟩
  have hmain := hinv.main
  unfold MainOk at hmain
  simp only [hm] at hmain
  obtain ⟨hfreed, hconsumer, hended⟩ := hmain.2 trivial
  rw [hended] at hproducer
  exact ⟨hproducer.2.1, hfreed, hended, hconsumer⟩

/-- The producer runs alone to its end, and `main` after it. -/
def producedRun : List Action :=
  List.replicate 5 (.main true) ++ List.replicate 51 .producer ++ List.replicate 3 (.main true) ++
    [.cancelled .b, .cancelled .a] ++ List.replicate 4 (.main true)

/-- A run to its end, with ten posts. -/
theorem semaphore_accounted_producedRun :
    ∃ s : State, Reach step Started anyStep s ∧ s.main = .exited 0 ∧
      s.data.sem.value + s.data.sem.takes = 1 + s.data.sem.posts ∧
      s.data.sem.posts = 10 := by
  obtain ⟨s, hrun, hm, hptd⟩ : ∃ s,
      exec step (fun _ _ => true) (start ⟨0, false, Sem.init 1⟩) producedRun = some s ∧
        s.main = .exited 0 ∧ s.ptd ≠ .none := ⟨_, rfl, rfl, by simp⟩
  have hreach : Reach step Started anyStep s :=
    Reach.of_exec (fun _ _ _ => trivial) (.start ⟨_, rfl⟩) hrun
  obtain ⟨hbalance, -, -, hreturned⟩ := semaphore_accounted hreach hptd
  exact ⟨s, hreach, hm, hbalance, (hreturned hm).1⟩

/-- Steps of a consumer that are left, but for further takes. -/
def ConsumerPc.left : ConsumerPc → Nat
  | .unborn => 5
  | .start => 4
  | .look => 3
  | .sleep _ => 2
  | .wait => 1
  | .ended => 0

/-- Steps of the producer that are left, but for further posts. -/
def ProducerPc.left : ProducerPc → Nat
  | .unborn => 6
  | .dec => 5
  | .test => 4
  | .look | .start => 3
  | .gen => 2
  | .post => 1
  | .ended => 0

/-- Steps of `main` that are left; the first one is also that of giving the data their
values. -/
def MainPc.left : MainPc → Nat
  | .ptd => 200
  | .attr => 11
  | .createA => 10
  | .createB => 9
  | .createC => 8
  | .joinC => 7
  | .cancelB => 6
  | .cancelA => 5
  | .joinB => 4
  | .joinA => 3
  | .free => 2
  | .ret _ => 1
  | .exited _ => 0

/-- What is left to do. -/
def State.work (s : State) : Nat :=
  s.main.left + (s.consumer .a).left + (s.consumer .b).left + s.producer.left +
    4 * (11 - s.data.sem.takes) + 6 * (10 - s.data.sem.posts)

/-- A step of a consumer leaves it less, a take being worth four steps. -/
theorem ConsumerMove.left {w : Who} {s t : State} (h : ConsumerMove w s t)
    (hposts : s.data.sem.posts ≤ 10) :
    (t.consumer w).left + 4 * (11 - t.data.sem.takes) <
        (s.consumer w).left + 4 * (11 - s.data.sem.takes) ∧
      ∀ v, v ≠ w → t.consumer v = s.consumer v := by
  refine ⟨?_, fun v hv => by cases h <;> simp [State.goto, hv]⟩
  cases h with
  | start hc => cases hs : s.data.stop <;> simp [State.goto, hc, ConsumerPc.left]
  | take sem hc hsem =>
      obtain ⟨htakes, -, hlt⟩ := Sem.of_wait hsem
      simp only [State.goto, Function.update_self, hc, ConsumerPc.left, htakes]
      omega
  | look hc => simp [State.goto, hc, ConsumerPc.left]
  | sleep stop hc => cases stop <;> simp [State.goto, hc, ConsumerPc.left]

/-- A step of the producer leaves it less to do. -/
theorem threadProducerC_left {s t : State} (h : ProducerOk s.producer s.data)
    (hrun : threadProducerC s = some t) :
    t.producer.left + 6 * (10 - t.data.sem.posts) <
      s.producer.left + 6 * (10 - s.data.sem.posts) := by
  unfold threadProducerC at hrun
  cases hp : s.producer with
  | unborn | ended => simp [hp] at hrun
  | start | look =>
      simp only [hp] at hrun
      cases hrun
      cases s.data.stop <;> simp [ProducerPc.left]
  | gen | dec | test =>
      simp only [hp] at hrun
      cases hrun
      simp [ProducerPc.left]
  | post =>
      simp only [hp, ProducerOk] at h hrun
      cases hrun
      simp only [ProducerPc.left, Sem.post_posts]
      omega

/-- A step of `main` leaves less to do. -/
theorem mainStep_work {s t : State} {ok : Bool} (h : MainOk s) (hrun : mainStep s ok = some t) :
    t.work < s.work := by
  unfold MainOk at h
  cases hm : s.main with
  | ptd =>
      simp only [mainStep, hm] at hrun
      cases ok <;> cases hrun <;> simp [State.work, hm, MainPc.left]
      omega
  | attr | createA | createB | createC =>
      simp only [hm] at h
      simp only [mainStep, hm] at hrun
      cases ok <;> cases hrun <;>
        simp_all [State.work, State.goto, MainPc.left, ConsumerPc.left, ProducerPc.left] <;> omega
  | joinC | joinB | joinA =>
      simp only [mainStep, hm] at hrun
      split at hrun <;> cases hrun
      simp [State.work, hm, MainPc.left]
  | cancelB | cancelA | free | ret status =>
      simp only [mainStep, hm] at hrun
      cases hrun
      simp [State.work, hm, MainPc.left]
  | exited status =>
      simp only [mainStep, hm] at hrun
      cases hrun

/-- Each step leaves less to do. -/
theorem step_work {s t : State} {a : Action} (h : Inv s) (hstep : step s a = some t) :
    t.work < s.work := by
  have hdata : ¬ Quiet s → ProducerOk s.producer s.data := fun hnot =>
    h.producer (by rw [h.main.held hnot]; simp)
  cases (step_cases hstep).1 with
  | main ok hrun => exact mainStep_work h.main hrun
  | consumer w hmove =>
      have hposts := (hdata (not_quiet_of_consumer hmove.live.1)).posts_le
      obtain ⟨hleft, hother⟩ := hmove.left hposts
      obtain ⟨hmain, -, hproducer, -, -, -, hsame⟩ := hmove.frame
      unfold State.work
      rw [hmain, hproducer, hsame]
      cases w
      · rw [hother .b (by simp)]
        omega
      · rw [hother .a (by simp)]
        omega
  | producer hrun =>
      obtain ⟨hlive, -, hmain, -, hconsumer, -, -, htakes, -⟩ := threadProducerC_frame hrun
      have hleft := threadProducerC_left (hdata (not_quiet_of_producer hlive)) hrun
      unfold State.work
      rw [hmain, hconsumer, htakes]
      omega
  | cancelled w hpending hborn hlive =>
      have hpos : 0 < (s.consumer w).left := by
        cases hc : s.consumer w <;> simp_all [ConsumerPc.left]
      have hended : ConsumerPc.ended.left = 0 := rfl
      cases w <;> simpa [State.work, State.goto, Function.update, hended] using hpos

/-- Until `main` has returned, somebody can move. -/
theorem MainOk.moves {s : State} (h : MainOk s) (hmain : ∀ status, s.main ≠ .exited status) :
    ∃ a t, step s a = some t := by
  have hstep : ∀ a, step s a = match a with
      | .main ok => mainStep s ok
      | .consumer .a => threadConsumerA s
      | .consumer .b => threadConsumerB s
      | .producer => threadProducerC s
      | .cancelled w =>
        if s.pending w = true ∧ s.consumer w ≠ .unborn ∧ s.consumer w ≠ .ended then
          some (s.goto w .ended)
        else none := by
    intro a
    unfold step
    split
    · next status hm => exact absurd hm (hmain status)
    · rfl
  unfold MainOk at h
  cases hm : s.main with
  | ptd | attr | createA | createB | createC | cancelB | cancelA | free | ret status =>
      exact ⟨.main true, _, by rw [hstep]; simp only [mainStep, hm]; rfl⟩
  | exited status => exact absurd hm (hmain status)
  | joinC =>
      simp only [hm] at h
      by_cases hended : s.producer = .ended
      · exact ⟨.main true, _, by rw [hstep]; simp only [mainStep, hm, if_pos hended]; rfl⟩
      · -- the producer waits for nobody
        have hsome : (threadProducerC s).isSome = true := by
          unfold threadProducerC
          cases hp : s.producer with
          | unborn => exact absurd hp h.2.2
          | ended => exact absurd hp hended
          | start | gen | post | dec | test | look => rfl
        obtain ⟨t, ht⟩ := Option.isSome_iff_exists.mp hsome
        exact ⟨.producer, t, by rw [hstep]; exact ht⟩
  | joinB =>
      simp only [hm] at h
      by_cases hended : s.consumer .b = .ended
      · exact ⟨.main true, _, by rw [hstep]; simp only [mainStep, hm, if_pos hended]; rfl⟩
      · -- however long it sleeps or waits, the consumer was cancelled
        exact ⟨.cancelled .b, _, by rw [hstep]; simp [h.2.1 .b, h.2.2.2 .b, hended]; rfl⟩
  | joinA =>
      simp only [hm] at h
      by_cases hended : s.consumer .a = .ended
      · exact ⟨.main true, _, by rw [hstep]; simp only [mainStep, hm, if_pos hended]; rfl⟩
      · exact ⟨.cancelled .a, _, by rw [hstep]; simp [h.2.1, h.2.2.2.2 .a, hended]; rfl⟩

/-- **The end.**  Whatever the order of the steps, `main` returns. -/
theorem main_exits {s : State} (h : Reach step Started anyStep s) :
    Inevitable step anyStep (fun t => ∃ status, t.main = .exited status) s := by
  refine Inevitable.of_variant State.work ?_ ?_ h
  · intro t ht hgoal
    obtain ⟨a, u, hstep⟩ := (inv_reach ht).main.moves fun status hm => hgoal ⟨status, hm⟩
    exact ⟨a, u, trivial, hstep⟩
  · intro t a u ht hgoal hok hstep
    exact ⟨ht.next hok hstep, step_work (inv_reach ht) hstep⟩

/-- From the state where consumer `a` has the only token. -/
theorem main_exits_takenRun :
    ∃ s : State, Reach step Started anyStep s ∧ s.data.sem.value = 0 ∧
      Inevitable step anyStep (fun t => ∃ status, t.main = .exited status) s := by
  obtain ⟨s, hrun, hvalue⟩ : ∃ s,
      exec step (fun _ _ => true) (start ⟨0, false, Sem.init 1⟩) takenRun = some s ∧
        s.data.sem.value = 0 := ⟨_, rfl, rfl⟩
  have hreach : Reach step Started anyStep s :=
    Reach.of_exec (fun _ _ _ => trivial) (.start ⟨_, rfl⟩) hrun
  exact ⟨s, hreach, hvalue, main_exits hreach⟩

end SemThreads

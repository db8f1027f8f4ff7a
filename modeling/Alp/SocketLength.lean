import Alp.LocalSocket
import Alp.Transition

/-!
# The length a client sends

`server_run` of `c5-2/server.c` as a transition system, one message a step, with the
sizes that it passes to `malloc`, `memset` and `read` recorded.

The length is an `int` and the sizes are `size_t`: `len + 1` is added as an `int` and
then converted, `len` is converted as it is.
-/

set_option autoImplicit false

namespace LocalSocket

/-- The sizes of one message's buffer. -/
structure Buffer where
  allocated : Nat
  memset : Nat
  read : Nat
  deriving DecidableEq

/-- Nothing is filled or read past the end of the allocation. -/
def Buffer.Within (b : Buffer) : Prop :=
  b.memset ≤ b.allocated ∧ b.read ≤ b.allocated

instance (b : Buffer) : Decidable b.Within :=
  inferInstanceAs (Decidable (_ ∧ _))

inductive ServerStatus
  | running
  | returned
  /-- After a call or an operation that C leaves undefined. -/
  | undefined
  deriving DecidableEq

/-- `server_run` between two messages. -/
structure Server where
  len : BitVec 32
  stream : List UInt8
  buffers : List Buffer
  messages : List (List UInt8)
  status : ServerStatus
  deriving DecidableEq

/-- What the system decides while one message is served: the most bytes that each `read`
returns, `none` where it fails, and whether `malloc` finds the memory. -/
structure Round where
  lenCut : Option Nat
  bodyCut : Option Nat
  mallocOk : Bool

/-- The bytes that `malloc(len + 1)` allocates. -/
def mallocSize (mallocOk : Bool) (len : BitVec 32) : Nat :=
  if mallocOk ∧ sizeT (len + 1) ≤ ptrdiffMax then sizeT (len + 1) else 0

def buffer (mallocOk : Bool) (len : BitVec 32) : Buffer :=
  ⟨mallocSize mallocOk len, sizeT (len + 1), sizeT len⟩

/-- The body of a message: the second `read`, and what is done with the string. -/
def serverBody (s : Server) (cut : Option Nat) : Server :=
  match cut with
  | none => { s with status := .returned }
  | some cut =>
    let bodyRead := sockRead cut (sizeT s.len) s.stream
    if s.stream = [] then { s with status := .returned }
    else
      { s with
        stream := bodyRead.2
        messages := s.messages ++ [text bodyRead.1]
        status := if text bodyRead.1 = quit then .returned else .running }

/-- A message of length `s.len`.  `len + 1` overflows at `INT_MAX`. -/
def serverMessage (s : Server) (r : Round) : Server :=
  if s.len = 0 then { s with status := .returned }
  else if s.len = intMax then { s with status := .undefined }
  else
    let b := buffer r.mallocOk s.len
    if b.Within then serverBody { s with buffers := s.buffers ++ [b] } r.bodyCut
    else { s with buffers := s.buffers ++ [b], status := .undefined }

/-- One turn of the loop of `server_run`. -/
def serverStep (s : Server) (r : Round) : Option Server :=
  if s.status = .running then
    match r.lenCut with
    | none => some { s with status := .returned }
    | some cut =>
      let lenRead := sockRead cut 4 s.stream
      if s.stream = [] then some { s with status := .returned }
      else
        some (serverMessage { s with len := readInto s.len lenRead.1, stream := lenRead.2 } r)
  else none

/-- `server_run` is called; `len` is uninitialised. -/
def IsStart (s : Server) : Prop :=
  s.buffers = [] ∧ s.messages = [] ∧ s.status = .running

/-- Every size passed to `memset` and `read` is within the allocation, and nothing
undefined was evaluated. -/
def SizesOk (s : Server) : Prop :=
  s.status ≠ .undefined ∧ ∀ b ∈ s.buffers, b.Within

/-- The length read is zero, or it is positive and below `INT_MAX` and `malloc` finds the
memory. -/
def LengthOk (s : Server) (r : Round) : Prop :=
  ∀ cut, r.lenCut = some cut → s.stream ≠ [] →
    let len := readInto s.len (sockRead cut 4 s.stream).1
    len = 0 ∨ (0 < len.toInt ∧ len.toInt < 2 ^ 31 - 1 ∧ r.mallocOk = true)

/-- For a negative length nothing is allocated. -/
theorem mallocSize_neg (mallocOk : Bool) {len : BitVec 32} (h : 2 ^ 31 ≤ len.toNat) :
    mallocSize mallocOk len = 0 := by
  have hlt := len.isLt
  have hsucc : (len + 1).toNat = (len.toNat + 1) % 2 ^ 32 := by simp
  unfold mallocSize
  split
  · next hok =>
      have hle := hok.2
      rw [sizeT_eq, hsucc] at hle ⊢
      simp only [ptrdiffMax] at hle
      by_cases hsmall : (len.toNat + 1) % 2 ^ 32 < 2 ^ 31
      · rw [if_pos hsmall]
        omega
      · rw [if_neg hsmall] at hle
        omega
  · rfl

/-- One more than a length with a buffer is itself a size. -/
theorem sizeT_succ {len : BitVec 32} (h : len.toNat < 2 ^ 31 - 1) :
    sizeT (len + 1) = len.toNat + 1 := by
  have hsucc : (len + 1).toNat = (len.toNat + 1) % 2 ^ 32 := by simp
  rw [sizeT_eq, hsucc, if_pos (by omega)]
  omega

/-- What is asked for fits in what is allocated exactly for positive lengths for which
`malloc` finds the memory. -/
theorem buffer_within_iff (mallocOk : Bool) {len : BitVec 32} (hzero : len ≠ 0)
    (hmax : len ≠ intMax) :
    (buffer mallocOk len).Within ↔
      0 < len.toInt ∧ len.toInt < 2 ^ 31 - 1 ∧ mallocOk = true := by
  have hlt := len.isLt
  have hzero' : len.toNat ≠ 0 := by
    intro h
    exact hzero (BitVec.eq_of_toNat_eq h)
  have hmax' : len.toNat ≠ 2 ^ 31 - 1 := by
    intro h
    exact hmax (BitVec.eq_of_toNat_eq h)
  simp only [Buffer.Within, buffer, sizeT_eq len, BitVec.toInt_eq_toNat_cond]
  by_cases hneg : len.toNat < 2 ^ 31
  · rw [sizeT_succ (by omega), if_pos hneg, if_pos (by omega), mallocSize,
      sizeT_succ (by omega)]
    cases mallocOk with
    | false => simp
    | true =>
        rw [if_pos ⟨rfl, by simp only [ptrdiffMax]; omega⟩]
        constructor
        · intro _
          exact ⟨by omega, by omega, rfl⟩
        · intro _
          constructor <;> omega
  · rw [mallocSize_neg mallocOk (by omega), if_neg hneg, if_neg (by omega)]
    omega

/-- Reading a body asks for no buffer. -/
theorem serverBody_buffers (s : Server) (cut : Option Nat) :
    (serverBody s cut).buffers = s.buffers := by
  unfold serverBody
  split
  · rfl
  · dsimp only
    split <;> rfl

/-- Reading a body is never undefined. -/
theorem serverBody_defined (s : Server) (cut : Option Nat) :
    (serverBody s cut).status ≠ .undefined := by
  unfold serverBody
  split
  · simp
  · dsimp only
    split
    · simp
    · dsimp only
      split <;> simp

/-- A message keeps the sizes in order exactly when its length is zero, or positive and
below `INT_MAX` with the memory found. -/
theorem serverMessage_sizesOk {s : Server} {r : Round} (h : SizesOk s) :
    SizesOk (serverMessage s r) ↔
      s.len = 0 ∨ (0 < s.len.toInt ∧ s.len.toInt < 2 ^ 31 - 1 ∧ r.mallocOk = true) := by
  have hbuffers := h.2
  unfold serverMessage
  by_cases hzero : s.len = 0
  · rw [if_pos hzero]
    simp only [hzero, true_or, iff_true]
    exact ⟨by simp, hbuffers⟩
  rw [if_neg hzero]
  by_cases hmax : s.len = intMax
  · rw [if_pos hmax, hmax]
    simp [SizesOk, intMax]
  rw [if_neg hmax]
  have hwithin := buffer_within_iff r.mallocOk hzero hmax
  simp only [hzero, false_or, ← hwithin]
  by_cases hb : (buffer r.mallocOk s.len).Within
  · rw [if_pos hb]
    simp only [hb, iff_true]
    constructor
    · apply serverBody_defined
    · rw [serverBody_buffers]
      intro b hmem
      rcases List.mem_append.mp hmem with hold | hnew
      · exact hbuffers b hold
      · rw [List.mem_singleton.mp hnew]
        exact hb
  · rw [if_neg hb]
    simp [SizesOk, hb]

/-- One step keeps the sizes in order exactly when the length it reads is in order. -/
theorem serverStep_sizesOk {s t : Server} {r : Round} (hs : SizesOk s)
    (hstep : serverStep s r = some t) : SizesOk t ↔ LengthOk s r := by
  unfold serverStep at hstep
  split at hstep
  · split at hstep
    · next hcut =>
        cases hstep
        simp only [LengthOk, hcut]
        grind [SizesOk]
    · next cut hcut =>
        dsimp only at hstep
        split at hstep
        · next hnil =>
            cases hstep
            simp only [LengthOk, hnil]
            grind [SizesOk]
        · next hcons =>
            have hs' : SizesOk { s with
                len := readInto s.len (sockRead cut 4 s.stream).1,
                stream := (sockRead cut 4 s.stream).2 } := hs
            cases hstep
            apply (serverMessage_sizesOk hs').trans
            simp [LengthOk, hcut, hcons]
  · cases hstep

/-- A length is within its buffer exactly when it has one. -/
theorem within_iff_bufferOk {len : BitVec 32} (hmax : len ≠ intMax) :
    (buffer true len).Within ↔ BufferOk len := by
  simp only [Buffer.Within, buffer, mallocSize, BufferOk, ne_eq, hmax, not_false_eq_true,
    true_and]
  by_cases hsize : sizeT (len + 1) ≤ ptrdiffMax
  · rw [if_pos hsize]
    constructor
    · intro h
      exact ⟨hsize, h.2⟩
    · intro h
      exact ⟨le_refl _, h.2⟩
  · rw [if_neg hsize]
    simp only [ptrdiffMax] at hsize ⊢
    omega

/-- The messages printed when the loop goes on from `s` at the `i`-th read, with memory
found. -/
def printed (cuts : Nat → Nat) (i : Nat) (s : Server) : Option (List (List UInt8)) :=
  match s.status with
  | .running => (serverLoop cuts i s.len s.stream).map fun served => s.messages ++ served.messages
  | .returned => some s.messages
  | .undefined => none

/-- A running server prints what it printed and what the rest gives. -/
theorem printed_running (cuts : Nat → Nat) (i : Nat) {s : Server} (h : s.status = .running) :
    printed cuts i s =
      (serverLoop cuts i s.len s.stream).map fun served => s.messages ++ served.messages := by
  rw [printed, h]

/-- A server that returned prints no more. -/
theorem printed_returned (cuts : Nat → Nat) (i : Nat) {s : Server} (h : s.status = .returned) :
    printed cuts i s = some s.messages := by
  rw [printed, h]

/-- A server that is undefined has no output. -/
theorem printed_undefined (cuts : Nat → Nat) (i : Nat) {s : Server}
    (h : s.status = .undefined) : printed cuts i s = none := by
  rw [printed, h]

/-- `serverLoop` is the run of `serverStep`. -/
theorem printed_serverStep {cuts : Nat → Nat} {i : Nat} {s t : Server}
    (hstep : serverStep s ⟨some (cuts i), some (cuts (i + 1)), true⟩ = some t) :
    printed cuts (i + 2) t = printed cuts i s := by
  unfold serverStep at hstep
  split at hstep
  case isFalse => cases hstep
  case isTrue hrun =>
    rw [printed_running cuts i hrun, serverLoop]
    dsimp only at hstep ⊢
    by_cases hnil : s.stream = []
    · rw [if_pos hnil] at hstep ⊢
      cases hstep
      rw [printed_returned _ _ rfl]
      simp
    rw [if_neg hnil] at hstep ⊢
    cases hstep
    unfold serverMessage
    dsimp only
    by_cases hzero : readInto s.len (sockRead (cuts i) 4 s.stream).1 = 0
    · rw [if_pos hzero, if_pos hzero, printed_returned _ _ rfl]
      simp
    rw [if_neg hzero, if_neg hzero]
    by_cases hmax : readInto s.len (sockRead (cuts i) 4 s.stream).1 = intMax
    · rw [if_pos hmax, printed_undefined _ _ rfl, if_pos (by simp [BufferOk, hmax])]
      rfl
    rw [if_neg hmax]
    have hok := within_iff_bufferOk hmax
    by_cases hb : BufferOk (readInto s.len (sockRead (cuts i) 4 s.stream).1)
    · rw [if_pos (hok.mpr hb), if_neg (not_not.mpr hb)]
      unfold serverBody
      dsimp only
      by_cases hrest : (sockRead (cuts i) 4 s.stream).2 = []
      · rw [if_pos hrest, if_pos hrest, printed_returned _ _ rfl]
        simp
      rw [if_neg hrest, if_neg hrest]
      split
      · next hquit =>
          rw [printed_returned _ _ rfl]
          simp
      · next hquit =>
          rw [printed_running _ _ rfl]
          simp [Option.map_map, Function.comp_def]
    · rw [if_neg (mt hok.mp hb), if_pos hb, printed_undefined _ _ rfl]
      rfl

open Transition in
/-- **Sizes.**  In every run whose lengths are all in order, every `memset` and every
`read` stays within its allocation; the first length that is not in order breaks this. -/
theorem serverRun_sizesOk {s : Server} (hs : Reach serverStep IsStart LengthOk s) :
    SizesOk s ∧ ∀ r t, serverStep s r = some t → (SizesOk t ↔ LengthOk s r) := by
  have hall : SizesOk s := by
    apply hs.invariant
    · intro s hstart
      obtain ⟨hbuffers, -, hstatus⟩ := hstart
      exact ⟨by simp [hstatus], by simp [hbuffers]⟩
    · intro s r t _ hok hlen hstep
      exact (serverStep_sizesOk hok hstep).mpr hlen
  constructor
  · exact hall
  · intro r t hstep
    exact serverStep_sizesOk hall hstep

/-- `hello`, and then the end of the stream. -/
def helloStart : Server :=
  ⟨0, sendMessage hello, [], [], .running⟩

def fullRound : Round :=
  ⟨some 4, some 8, true⟩

/-- One message of five bytes, in six bytes of memory. -/
theorem hello_sizesOk :
    ∃ t, Transition.Reach serverStep IsStart LengthOk helloStart ∧
      serverStep helloStart fullRound = some t ∧ t.buffers = [⟨6, 6, 5⟩] ∧ SizesOk t := by
  have hstart : Transition.Reach serverStep IsStart LengthOk helloStart :=
    .start ⟨rfl, rfl, rfl⟩
  have hlen : LengthOk helloStart fullRound := by
    intro cut hcut _
    cases hcut
    right
    decide +kernel
  refine ⟨⟨5, [], [⟨6, 6, 5⟩], [hello.bytes], .running⟩, hstart, by decide +kernel, rfl, ?_⟩
  exact ((serverRun_sizesOk hstart).2 fullRound _ (by decide +kernel)).mpr hlen

/-- The length -1: no byte is allocated, and `read` is asked for `SIZE_MAX` bytes. -/
theorem minusOne_read :
    ∃ s, Transition.Reach serverStep IsStart Transition.anyStep s ∧
      s.buffers = [⟨0, 0, 2 ^ 64 - 1⟩] ∧ ¬ SizesOk s := by
  have hstep : serverStep ⟨0, [255, 255, 255, 255, 0], [], [], .running⟩ fullRound =
      some ⟨BitVec.allOnes 32, [0], [⟨0, 0, 2 ^ 64 - 1⟩], [], .undefined⟩ := by
    decide +kernel
  refine ⟨_, .next (.start ⟨rfl, rfl, rfl⟩) trivial hstep, rfl, ?_⟩
  intro hok
  exact hok.1 rfl

end LocalSocket

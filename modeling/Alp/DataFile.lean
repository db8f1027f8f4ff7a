import Alp.CString
import Alp.Ownership
import Alp.Transition

/-!
# The data file object

This file embeds `clsDataFile` of `demo-dh/drivers/datafile.cpp`.  The results of the
stdio functions are arguments of the calls; every successful `fopen` returns a stream of
its own.  The log of stdio calls, read as operations on streams, is a history in the sense
of `Ownership`.

`fileClose`, `fileRead`, `fileWrite` and `fileFlush` look at `f_opened` first; the other
methods pass `f_stream` on as it is.
-/

set_option autoImplicit false

namespace DataFile

open CString Ownership Transition

inductive OFLAG
  | ro
  | wo
  | wr
  | ap
  deriving DecidableEq

/-- A `FILE *`: not yet initialised, `NULL`, or the stream of the `n`-th successful
`fopen`. -/
inductive FilePtr
  | uninit
  | null
  | file (n : Nat)
  deriving DecidableEq

inductive Whence
  | seekSet
  | seekEnd
  deriving DecidableEq

/-- A call to stdio; `fopen` with the stream it returned. -/
inductive Stdio
  | fopen (pathname mode : CStr) (stream : FilePtr)
  | fclose (stream : FilePtr)
  | fread (stream : FilePtr) (bytes : UInt32)
  | fwrite (stream : FilePtr) (bytes : UInt32)
  | fflush (stream : FilePtr)
  | fseek (stream : FilePtr) (offset : UInt32) (whence : Whence)
  | ftell (stream : FilePtr)
  | ferror (stream : FilePtr)
  | clearerr (stream : FilePtr)
  | feof (stream : FilePtr)
  deriving DecidableEq

/-- The object, with the stdio calls made so far and the number of streams opened. -/
structure File where
  f_opened : Bool
  f_flag : OFLAG
  f_stream : FilePtr
  calls : List Stdio
  streams : Nat
  destroyed : Bool
  deriving DecidableEq

/-- The constructor. -/
def clsDataFile : File :=
  ⟨false, .ro, .uninit, [], 0, false⟩

def File.call (s : File) (e : Stdio) : File :=
  { s with calls := s.calls ++ [e] }

/-- The mode of `fopen`. -/
def fopenMode : OFLAG → CStr
  | .ro => lit "r"
  | .wo => lit "a"
  | .wr => lit "r+"
  | .ap => lit "a+"

/-- `fileOpen`; `ok` says whether `fopen` succeeds. -/
def File.fileOpen (s : File) (pathname : Option CStr) (flag : OFLAG) (ok : Bool) :
    File × Int :=
  match pathname with
  | none => (s, -1)
  | some name =>
    if s.f_opened then (s, -2)
    else if ok then
      let stream := FilePtr.file s.streams
      ({ s.call (.fopen name (fopenMode flag) stream) with
        f_stream := stream, streams := s.streams + 1, f_opened := true, f_flag := flag }, 0)
    else ({ s.call (.fopen name (fopenMode flag) .null) with f_stream := .null }, -3)

def File.fileClose (s : File) : File :=
  if s.f_opened then { s.call (.fclose s.f_stream) with f_opened := false } else s

/-- `fileRead` and `fileWrite`: one of them is not allowed with the flag `excluded`. -/
def File.transfer (s : File) (excluded : OFLAG) (e : Stdio) (buf : Option Nat)
    (bytes len : UInt32) : File × UInt32 :=
  if bytes = 0 then (s, 0)
  else if buf = none then (s, 0)
  else if ¬ s.f_opened then (s, 0)
  else if s.f_flag = excluded then (s, 0)
  else (s.call e, len)

/-- `fileRead`; `len` is what `fread` returns. -/
def File.fileRead (s : File) (buf : Option Nat) (bytes len : UInt32) :
    File × UInt32 :=
  s.transfer .wo (.fread s.f_stream bytes) buf bytes len

/-- `fileWrite`; `len` is what `fwrite` returns. -/
def File.fileWrite (s : File) (buf : Option Nat) (bytes len : UInt32) :
    File × UInt32 :=
  s.transfer .ro (.fwrite s.f_stream bytes) buf bytes len

def File.fileFlush (s : File) (r : Int) : File × Int :=
  if s.f_opened then (s.call (.fflush s.f_stream), r) else (s, 0)

def File.atStart (s : File) (r : Int) : File × Int :=
  (s.call (.fseek s.f_stream 0 .seekSet), r)

def File.atEnd (s : File) (r : Int) : File × Int :=
  (s.call (.fseek s.f_stream 0 .seekEnd), r)

def File.atPos (s : File) (new_pos : UInt32) (r : Int) : File × Int :=
  (s.call (.fseek s.f_stream new_pos .seekSet), r)

def File.getPos (s : File) (r : UInt32) : File × UInt32 :=
  (s.call (.ftell s.f_stream), r)

/-- `getSize`; the two `ftell` return `cur_len` and `len`. -/
def File.getSize (s : File) (cur_len len : UInt32) : File × UInt32 :=
  ((((s.call (.ftell s.f_stream)).call (.fseek s.f_stream 0 .seekEnd)).call
    (.ftell s.f_stream)).call (.fseek s.f_stream cur_len .seekSet), len)

/-- `isError`; `r` is what `ferror` returns. -/
def File.isError (s : File) (r : Int) : File × Int :=
  let s' := s.call (.ferror s.f_stream)
  (if r ≠ 0 then s'.call (.clearerr s.f_stream) else s', r)

def File.isEnd (s : File) (r : Int) : File × Int :=
  (s.call (.feof s.f_stream), r)

/-- A method call, with the results of the stdio functions. -/
inductive Call
  | fileOpen (pathname : Option CStr) (flag : OFLAG) (ok : Bool)
  | fileClose
  | fileRead (buf : Option Nat) (bytes len : UInt32)
  | fileWrite (buf : Option Nat) (bytes len : UInt32)
  | fileFlush (r : Int)
  | atStart (r : Int)
  | atEnd (r : Int)
  | atPos (new_pos : UInt32) (r : Int)
  | getPos (r : UInt32)
  | getSize (cur_len len : UInt32)
  | isError (r : Int)
  | isEnd (r : Int)
  | destructor

/-- One method call.  After the destructor there is none. -/
def step (s : File) (c : Call) : Option File :=
  if s.destroyed then none
  else
    some <| match c with
    | .fileOpen pathname flag ok => (s.fileOpen pathname flag ok).1
    | .fileClose => s.fileClose
    | .fileRead buf bytes len => (s.fileRead buf bytes len).1
    | .fileWrite buf bytes len => (s.fileWrite buf bytes len).1
    | .fileFlush r => (s.fileFlush r).1
    | .atStart r => (s.atStart r).1
    | .atEnd r => (s.atEnd r).1
    | .atPos new_pos r => (s.atPos new_pos r).1
    | .getPos r => (s.getPos r).1
    | .getSize cur_len len => (s.getSize cur_len len).1
    | .isError r => (s.isError r).1
    | .isEnd r => (s.isEnd r).1
    | .destructor => { s.fileClose with destroyed := true }

/-- What a call to stdio does with a stream. -/
def Stdio.op? : Stdio → Option (Op FilePtr)
  | .fopen _ _ .null => none
  | .fopen _ _ stream => some (.acquire stream)
  | .fclose stream => some (.release stream)
  | .fread stream _ => some (.use stream)
  | .fwrite stream _ => some (.use stream)
  | .fflush stream => some (.use stream)
  | .fseek stream _ _ => some (.use stream)
  | .ftell stream => some (.use stream)
  | .ferror stream => some (.use stream)
  | .clearerr stream => some (.use stream)
  | .feof stream => some (.use stream)

/-- What was done with streams. -/
def File.ops (s : File) : List (Op FilePtr) :=
  s.calls.filterMap Stdio.op?

/-- Every stdio call is on a stream that this object opened and has not closed; none is
closed twice, and after the destructor none is left open. -/
structure InOrder (s : File) : Prop where
  used : ∀ ops h rest, s.ops = ops ++ .use h :: rest → h ∈ live ops
  closed : ∀ ops h rest, s.ops = ops ++ .release h :: rest → h ∈ live ops
  once : (released s.ops).Nodup
  done : s.destroyed = true → live s.ops = []

/-- The methods that do not look at `f_opened`. -/
def Call.unchecked : Call → Bool
  | .atStart _ | .atEnd _ | .atPos _ _ | .getPos _ | .getSize _ _ | .isError _ | .isEnd _ => true
  | _ => false

/-- The methods that do not look at `f_opened` are called only on an open file. -/
def OpenedFirst (s : File) (c : Call) : Prop :=
  c.unchecked = true → s.f_opened = true

/-- Calls that use one stream. -/
def UsesOnly (stream : FilePtr) (es : List Stdio) : Prop :=
  ∀ e ∈ es, e.op? = some (.use stream)

/-- A call made in order uses the open stream, or opens one, or fails to, or closes it. -/
inductive Effect (s : File) : File → Prop
  | uses (es : List Stdio) (h : UsesOnly s.f_stream es) (hopen : es ≠ [] → s.f_opened = true) :
      Effect s { s with calls := s.calls ++ es }
  | opened {name mode : CStr} {flag : OFLAG} (h : s.f_opened = false)
      (halive : s.destroyed = false) :
      Effect s { s.call (.fopen name mode (.file s.streams)) with
        f_stream := .file s.streams, streams := s.streams + 1, f_opened := true,
        f_flag := flag }
  | failed {name mode : CStr} (h : s.f_opened = false) :
      Effect s { s.call (.fopen name mode .null) with f_stream := .null }
  | closed (destroyed : Bool) (h : s.f_opened = true) :
      Effect s { s.call (.fclose s.f_stream) with f_opened := false, destroyed := destroyed }
  | destroyed (h : s.f_opened = false) : Effect s { s with destroyed := true }

/-- A method that makes no call. -/
theorem Effect.idle (s : File) : Effect s s := by
  have h := Effect.uses (s := s) [] (by intro e he; cases he)
    (by intro he; exact absurd rfl he)
  rwa [List.append_nil] at h

/-- A method that makes one call. -/
theorem Effect.use {s : File} {e : Stdio} (he : e.op? = some (.use s.f_stream))
    (h : s.f_opened = true) : Effect s (s.call e) := by
  apply Effect.uses [e]
  · intro e' he'
    rw [List.mem_singleton.mp he']
    exact he
  · intro _
    exact h

/-- `close` acts on the stream that it holds. -/
theorem fileClose_effect (s : File) : Effect s s.fileClose := by
  unfold File.fileClose
  split
  · next h => exact Effect.closed s.destroyed h
  · exact Effect.idle s

/-- A transfer acts on the stream that it holds. -/
theorem transfer_effect (s : File) (excluded : OFLAG) {e : Stdio}
    (he : e.op? = some (.use s.f_stream)) (buf : Option Nat) (bytes len : UInt32) :
    Effect s (s.transfer excluded e buf bytes len).1 := by
  unfold File.transfer
  split
  · exact Effect.idle s
  split
  · exact Effect.idle s
  split
  · exact Effect.idle s
  split
  · exact Effect.idle s
  · next hopen _ => exact Effect.use he (by simpa using hopen)

/-- `open` closes what was open and opens anew. -/
theorem fileOpen_effect {s : File} (halive : s.destroyed = false) (pathname : Option CStr)
    (flag : OFLAG) (ok : Bool) : Effect s (s.fileOpen pathname flag ok).1 := by
  unfold File.fileOpen
  split
  · exact Effect.idle s
  · split
    · exact Effect.idle s
    · next hopen =>
        have hclosed : s.f_opened = false := by simpa using hopen
        split
        · exact Effect.opened hclosed halive
        · exact Effect.failed hclosed

/-- `flush` acts on the stream that it holds. -/
theorem fileFlush_effect (s : File) (r : Int) : Effect s (s.fileFlush r).1 := by
  unfold File.fileFlush
  split
  · next h => exact Effect.use rfl h
  · exact Effect.idle s

/-- `getSize` of an open object acts on its stream. -/
theorem getSize_effect {s : File} (h : s.f_opened = true) (cur_len len : UInt32) :
    Effect s (s.getSize cur_len len).1 := by
  have heffect := Effect.uses (s := s)
    [.ftell s.f_stream, .fseek s.f_stream 0 .seekEnd, .ftell s.f_stream,
      .fseek s.f_stream cur_len .seekSet]
    (by intro e he; grind [Stdio.op?]) (by intro _; exact h)
  simpa [File.getSize, File.call] using heffect

/-- `isError` of an open object acts on its stream. -/
theorem isError_effect {s : File} (h : s.f_opened = true) (r : Int) :
    Effect s (s.isError r).1 := by
  unfold File.isError
  dsimp only
  split
  · have heffect := Effect.uses (s := s) [.ferror s.f_stream, .clearerr s.f_stream]
      (by intro e he; grind [Stdio.op?]) (by intro _; exact h)
    simpa [File.call] using heffect
  · exact Effect.use rfl h

/-- A call that meets the condition has an effect that `Effect` lists. -/
theorem step_effect {s t : File} {c : Call} (hstep : step s c = some t)
    (hopen : OpenedFirst s c) : Effect s t := by
  unfold step at hstep
  split at hstep
  · cases hstep
  next halive =>
    cases hstep
    cases c with
    | fileOpen pathname flag ok => exact fileOpen_effect (by simpa using halive) _ _ _
    | fileClose => exact fileClose_effect s
    | fileRead buf bytes len => exact transfer_effect s _ rfl _ _ _
    | fileWrite buf bytes len => exact transfer_effect s _ rfl _ _ _
    | fileFlush r => exact fileFlush_effect s r
    | atStart r => exact Effect.use rfl (hopen rfl)
    | atEnd r => exact Effect.use rfl (hopen rfl)
    | atPos new_pos r => exact Effect.use rfl (hopen rfl)
    | getPos r => exact Effect.use rfl (hopen rfl)
    | getSize cur_len len => exact getSize_effect (hopen rfl) _ _
    | isError r => exact isError_effect (hopen rfl) r
    | isEnd r => exact Effect.use rfl (hopen rfl)
    | destructor =>
        dsimp only
        by_cases h : s.f_opened = true
        · rw [File.fileClose, if_pos h]
          exact Effect.closed true h
        · rw [File.fileClose, if_neg h]
          exact Effect.destroyed (by simpa using h)

/-- The stream that is open. -/
def File.own (s : File) : Option FilePtr :=
  if s.f_opened then some s.f_stream else none

/-- The open stream is `f_stream`, and streams are different from one another. -/
structure Owned (s : File) : Prop where
  accepted : Accepted s.ops s.own
  fresh : ∀ h ∈ acquired s.ops, ∃ n < s.streams, h = .file n
  nodup : (acquired s.ops).Nodup
  done : s.destroyed = true → s.f_opened = false

/-- A new object owns no stream. -/
theorem clsDataFile_owned : Owned clsDataFile := by
  constructor
  · exact accepted_nil
  · intro h hmem
    cases hmem
  · exact List.nodup_nil
  · intro h
    cases h

/-- The operations of more calls follow those before. -/
theorem ops_append (s : File) (es : List Stdio) :
    ({ s with calls := s.calls ++ es } : File).ops = s.ops ++ es.filterMap Stdio.op? := by
  rw [File.ops, File.ops, List.filterMap_append]

/-- Calls that only use a stream are as many uses of it. -/
theorem UsesOnly.filterMap {stream : FilePtr} {es : List Stdio} (h : UsesOnly stream es) :
    es.filterMap Stdio.op? = List.replicate es.length (.use stream) := by
  induction es with
  | nil => rfl
  | cons e es ih =>
      rw [List.filterMap_cons_some (h e List.mem_cons_self),
        ih (fun e' he' => h e' (List.mem_cons_of_mem _ he'))]
      rfl

/-- Using a stream acquires none. -/
theorem acquired_replicate_use (stream : FilePtr) (n : Nat) :
    acquired (List.replicate n (Op.use stream)) = [] := by
  induction n with
  | zero => rfl
  | succ n ih => simp [List.replicate_succ, acquired, ih]

/-- Uses of the stream that is held are accepted. -/
theorem accepted_uses {ops : List (Op FilePtr)} {stream : FilePtr}
    (h : Accepted ops (some stream)) (n : Nat) :
    Accepted (ops ++ List.replicate n (.use stream)) (some stream) := by
  induction n with
  | zero => simpa using h
  | succ n ih =>
      rw [List.replicate_succ', ← List.append_assoc]
      exact ih.use

/-- Calls on the open stream. -/
theorem Owned.uses {s : File} (hs : Owned s) {es : List Stdio} (h : UsesOnly s.f_stream es)
    (hopen : es ≠ [] → s.f_opened = true) : Owned { s with calls := s.calls ++ es } := by
  have hops := ops_append s es
  rw [h.filterMap] at hops
  constructor
  · rw [hops]
    by_cases hnil : es = []
    · rw [hnil]
      simpa using hs.accepted
    · have hown : s.own = some s.f_stream := by rw [File.own, if_pos (hopen hnil)]
      have hown' : ({ s with calls := s.calls ++ es } : File).own = some s.f_stream := hown
      rw [hown']
      exact accepted_uses (hown ▸ hs.accepted) _
  · rw [hops, acquired_append, acquired_replicate_use, List.append_nil]
    exact hs.fresh
  · rw [hops, acquired_append, acquired_replicate_use, List.append_nil]
    exact hs.nodup
  · exact hs.done

/-- A stream that `fopen` gives out is a new one. -/
theorem Owned.opened {s : File} (hs : Owned s) (hclosed : s.f_opened = false)
    (halive : s.destroyed = false) (name mode : CStr) (flag : OFLAG) :
    Owned { s.call (.fopen name mode (.file s.streams)) with
      f_stream := .file s.streams, streams := s.streams + 1, f_opened := true,
      f_flag := flag } := by
  have hown : s.own = none := by simp [File.own, hclosed]
  have hops : ({ s.call (.fopen name mode (.file s.streams)) with
        f_stream := .file s.streams, streams := s.streams + 1, f_opened := true,
        f_flag := flag } : File).ops = s.ops ++ [.acquire (.file s.streams)] :=
    ops_append s [.fopen name mode (.file s.streams)]
  have hacquired : acquired (s.ops ++ [.acquire (.file s.streams)]) =
      acquired s.ops ++ [.file s.streams] := by
    rw [acquired_append]
    rfl
  have haccepted := hs.accepted
  rw [hown] at haccepted
  constructor
  · rw [hops]
    exact haccepted.acquire _
  · rw [hops, hacquired]
    intro h hmem
    rcases List.mem_append.mp hmem with hold | hnew
    · obtain ⟨n, hn, rfl⟩ := hs.fresh h hold
      exact ⟨n, Nat.lt_succ_of_lt hn, rfl⟩
    · exact ⟨s.streams, Nat.lt_succ_self _, List.mem_singleton.mp hnew⟩
  · rw [hops, hacquired]
    refine List.nodup_append.mpr ⟨hs.nodup, by simp, ?_⟩
    intro h hold h' hnew heq
    obtain ⟨n, hn, rfl⟩ := hs.fresh h hold
    rw [List.mem_singleton.mp hnew] at heq
    cases heq
    exact Nat.lt_irrefl _ hn
  · intro hdestroyed
    exact absurd (halive.symm.trans hdestroyed) (by decide)

/-- An `fopen` that fails. -/
theorem Owned.failed {s : File} (hs : Owned s) (hclosed : s.f_opened = false)
    (name mode : CStr) :
    Owned { s.call (.fopen name mode .null) with f_stream := .null } := by
  have hown : s.own = none := by simp [File.own, hclosed]
  have hown' : ({ s.call (.fopen name mode .null) with f_stream := .null } : File).own =
      none := by
    simp [File.own, File.call, hclosed]
  have hops : ({ s.call (.fopen name mode .null) with f_stream := .null } : File).ops =
      s.ops ++ [] :=
    ops_append s [.fopen name mode .null]
  rw [List.append_nil] at hops
  constructor
  · rw [hops, hown', ← hown]
    exact hs.accepted
  · rw [hops]
    exact hs.fresh
  · rw [hops]
    exact hs.nodup
  · intro _
    exact hclosed

/-- An `fclose` of the open stream. -/
theorem Owned.closed {s : File} (hs : Owned s) (hopen : s.f_opened = true)
    (destroyed : Bool) :
    Owned { s.call (.fclose s.f_stream) with f_opened := false, destroyed := destroyed } := by
  have hown : s.own = some s.f_stream := by simp [File.own, hopen]
  have hops : ({ s.call (.fclose s.f_stream) with
        f_opened := false, destroyed := destroyed } : File).ops =
      s.ops ++ [.release s.f_stream] :=
    ops_append s [.fclose s.f_stream]
  have hacquired : acquired (s.ops ++ [.release s.f_stream]) = acquired s.ops := by
    rw [acquired_append]
    exact List.append_nil _
  have haccepted := hs.accepted
  rw [hown] at haccepted
  constructor
  · rw [hops]
    exact haccepted.release
  · rw [hops, hacquired]
    exact hs.fresh
  · rw [hops, hacquired]
    exact hs.nodup
  · intro _
    rfl

/-- Every effect keeps the invariant. -/
theorem Effect.owned {s t : File} (h : Effect s t) (hs : Owned s) : Owned t := by
  cases h with
  | uses es huses hes => exact hs.uses huses hes
  | opened hclosed halive => exact hs.opened hclosed halive _ _ _
  | failed hclosed => exact hs.failed hclosed _ _
  | closed destroyed hopen => exact hs.closed hopen destroyed
  | destroyed hclosed =>
      constructor
      · exact hs.accepted
      · exact hs.fresh
      · exact hs.nodup
      · intro _
        exact hclosed

/-- An object that owns its stream has used it in order. -/
theorem Owned.inOrder {s : File} (h : Owned s) : InOrder s := by
  constructor
  · intro ops stream rest hops
    have haccepted := h.accepted
    rw [hops] at haccepted
    rw [haccepted.use_live]
    exact List.mem_singleton_self _
  · intro ops stream rest hops
    have haccepted := h.accepted
    rw [hops] at haccepted
    rw [haccepted.release_live]
    exact List.mem_singleton_self _
  · exact h.accepted.released_nodup h.nodup
  · intro hdestroyed
    rw [h.accepted.live_eq, File.own, h.done hdestroyed]
    rfl

/-- A method that does not look at `f_opened` uses a stream whatever it is. -/
theorem unchecked_uses {s t : File} {c : Call} (hstep : step s c = some t)
    (hc : c.unchecked = true) : ∃ rest, t.ops = s.ops ++ .use s.f_stream :: rest := by
  have hcalls : ∃ e es, t.calls = s.calls ++ e :: es ∧ e.op? = some (.use s.f_stream) := by
    unfold step at hstep
    split at hstep
    · cases hstep
    cases hstep
    cases c with
    | atStart r => exact ⟨_, [], rfl, rfl⟩
    | atEnd r => exact ⟨_, [], rfl, rfl⟩
    | atPos new_pos r => exact ⟨_, [], rfl, rfl⟩
    | getPos r => exact ⟨_, [], rfl, rfl⟩
    | getSize cur_len len =>
        refine ⟨.ftell s.f_stream, [.fseek s.f_stream 0 .seekEnd, .ftell s.f_stream,
          .fseek s.f_stream cur_len .seekSet], ?_, rfl⟩
        simp [File.getSize, File.call]
    | isError r =>
        dsimp only [File.isError]
        split
        · refine ⟨.ferror s.f_stream, [.clearerr s.f_stream], ?_, rfl⟩
          simp [File.call]
        · exact ⟨_, [], rfl, rfl⟩
    | isEnd r => exact ⟨_, [], rfl, rfl⟩
    | _ => cases hc
  obtain ⟨e, es, hcalls, he⟩ := hcalls
  refine ⟨es.filterMap Stdio.op?, ?_⟩
  rw [File.ops, hcalls, List.filterMap_append, List.filterMap_cons_some he]
  rfl

/-- One call keeps the order exactly when it is made on an open file or checks that. -/
theorem Owned.step_iff {s t : File} {c : Call} (h : Owned s) (hstep : step s c = some t) :
    InOrder t ↔ OpenedFirst s c := by
  constructor
  · intro ht hc
    obtain ⟨rest, hops⟩ := unchecked_uses hstep hc
    have hlive := ht.used s.ops s.f_stream rest hops
    by_contra hclosed
    rw [h.accepted.live_eq, File.own, if_neg hclosed] at hlive
    cases hlive
  · intro hopen
    exact ((step_effect hstep hopen).owned h).inOrder

/-- **Streams.**  In every run whose unchecked calls are made on an open file, every stdio
call is on an open stream and every stream is closed once; the first such call on a file
that is not open breaks this. -/
theorem streams_inOrder {s : File} (hs : Reach step (· = clsDataFile) OpenedFirst s) :
    InOrder s ∧ ∀ c t, step s c = some t → (InOrder t ↔ OpenedFirst s c) := by
  have howned : Owned s := by
    apply hs.invariant
    · rintro s rfl
      exact clsDataFile_owned
    · intro s c t _ h hopen hstep
      exact (step_effect hstep hopen).owned h
  constructor
  · exact howned.inOrder
  · intro c t hstep
    exact howned.step_iff hstep

/-- A run that opens a file, asks for its size and destroys the object. -/
def openSizeDestroy : List Call :=
  [.fileOpen (some (lit "log")) .ap true, .getSize 0 0, .destructor]

/-- A run that opens, asks for the size and destroys. -/
theorem openSizeDestroy_inOrder :
    ∃ s, exec step (fun s c => !c.unchecked || s.f_opened) clsDataFile openSizeDestroy = some s ∧
      acquired s.ops = [.file 0] ∧ InOrder s := by
  have hrun : (exec step (fun s c => !c.unchecked || s.f_opened) clsDataFile
      openSizeDestroy).map (fun s => acquired s.ops) = some [.file 0] := by
    decide +kernel
  obtain ⟨s, hexec, hacquired⟩ := Option.map_eq_some_iff.mp hrun
  have hstart : Reach step (· = clsDataFile) OpenedFirst clsDataFile := .start rfl
  have hreach : Reach step (· = clsDataFile) OpenedFirst s := by
    apply Reach.of_exec _ hstart hexec
    intro s c hok hc
    simpa [hc] using hok
  exact ⟨s, hexec, hacquired, (streams_inOrder hreach).1⟩

/-- A position is asked for before any file is opened. -/
theorem getPos_uninit :
    ∃ s, Reach step (· = clsDataFile) anyStep s ∧ s.calls = [.ftell .uninit] ∧
      ¬ InOrder s := by
  refine ⟨_, .next (a := .getPos 0) (.start rfl) trivial rfl, rfl, ?_⟩
  intro h
  have hlive := h.used [] .uninit [] rfl
  cases hlive

end DataFile

import Mathlib.Data.List.Induction
import Mathlib.Data.List.Flatten
import Alp.LocalSocket

/-!
# The text-line servers

`server_run` of `c5-3/server.c` and of `c5-4/server.c` (the two are the same) reads a
client's bytes one at a time into a buffer of `SERVER_BUF_SIZE` bytes.  At a line feed
it drops the byte before it, reports what is left and writes it back.

`after reads n` is the state after `n` calls to `read`.  A client that has sent a stream
and closed the connection is `closing stream`: `read` then returns 0 for ever, and
`server_run` sleeps and asks again.
-/

set_option autoImplicit false

namespace LineServer

open CString LocalSocket

/-- `SERVER_BUF_SIZE`. -/
def serverBufSize : Nat := 1024

def lf : UInt8 := 10

def cr : UInt8 := 13

/-- The result of `read(client_fd, &t, 1)`. -/
inductive ReadResult
  | error
  | zero
  | char (t : UInt8)
  deriving DecidableEq

/-- A call to `write`. -/
structure Write where
  buf : List UInt8
  len : Int
  deriving DecidableEq

inductive Status
  | running
  | returned
  /-- `exit(-1)` after a failed `read`. -/
  | exited
  /-- After a write outside the buffer. -/
  | undefined
  deriving DecidableEq

/-- The variables of `server_run` before a `read`, with what it has done so far: the
indices of `ps` written, the calls to `write` and the messages reported. -/
structure Server where
  ps : List UInt8
  len : Int
  indices : List Int
  writes : List Write
  messages : List (List UInt8)
  status : Status
  deriving DecidableEq

/-- The buffer after `memset(ps, 0x0, size)`. -/
def cleared : List UInt8 :=
  List.replicate serverBufSize nul

def start : Server :=
  ⟨cleared, 0, [], [], [], .running⟩

/-- `ps[len] = t`. -/
def Server.put (s : Server) (t : UInt8) : Server :=
  let s : Server := { s with indices := s.indices ++ [s.len] }
  if 0 ≤ s.len ∧ s.len ≤ serverBufSize - 1 then { s with ps := s.ps.set s.len.toNat t }
  else { s with status := .undefined }

/-- What follows the inner loop. -/
def Server.report (s : Server) : Server :=
  if s.len ≠ 0 then
    let s : Server := { s with
      messages := s.messages ++ [text s.ps]
      writes := s.writes ++ [⟨asciiBytes ">" ++ [nul], 2⟩, ⟨s.ps, s.len⟩, ⟨[cr, lf, nul], 2⟩] }
    if text s.ps = quit then { s with status := .returned }
    else { s with ps := cleared, len := 0 }
  else { s with ps := cleared, len := 0 }

/-- One turn of the inner loop, with what follows it after a line feed. -/
def Server.turn (s : Server) (cnt : ReadResult) : Server :=
  if s.status = .running then
    match cnt with
    | .error => { s with status := .exited }
    | .zero => s
    | .char t =>
      if t = lf then
        let s := { s with len := s.len - 1 }.put nul
        if s.status = .running then s.report else s
      else
        let s := s.put t
        if s.status = .running then { s with len := s.len + 1 } else s
  else s

/-- The state after `n` calls to `read`. -/
def after (reads : Nat → ReadResult) : Nat → Server
  | 0 => start
  | n + 1 => (after reads n).turn (reads n)

/-- The client sends `stream` and closes the connection. -/
def closing (stream : List UInt8) (n : Nat) : ReadResult :=
  match stream[n]? with
  | some t => .char t
  | none => .zero

/-- The bytes are read one after another. -/
def Server.feed (s : Server) (bytes : List UInt8) : Server :=
  bytes.foldl (fun s t => s.turn (.char t)) s

@[simp] theorem feed_nil (s : Server) : s.feed [] = s := rfl

@[simp] theorem feed_cons (s : Server) (t : UInt8) (bytes : List UInt8) :
    s.feed (t :: bytes) = (s.turn (.char t)).feed bytes := rfl

/-- Feeding two pieces one after the other is feeding them joined. -/
@[simp] theorem feed_append (s : Server) (bytes rest : List UInt8) :
    s.feed (bytes ++ rest) = (s.feed bytes).feed rest :=
  List.foldl_append

/-- A server that stopped takes no more turns. -/
theorem turn_stopped {s : Server} (h : s.status ≠ .running) (cnt : ReadResult) :
    s.turn cnt = s := by
  unfold Server.turn
  rw [if_neg h]

/-- A server that stopped takes no more bytes. -/
theorem feed_stopped {s : Server} (h : s.status ≠ .running) (bytes : List UInt8) :
    s.feed bytes = s := by
  induction bytes with
  | nil => rfl
  | cons t bytes ih => rw [feed_cons, turn_stopped h, ih]

/-- A server that returned takes no more bytes. -/
theorem feed_returned {s : Server} (h : s.status = .returned) (bytes : List UInt8) :
    s.feed bytes = s :=
  feed_stopped (by rw [h]; decide) bytes

/-- A byte that is no LF is put behind the line and, if that is in range, counted. -/
theorem turn_char {s : Server} (h : s.status = .running) {t : UInt8} (ht : t ≠ lf) :
    s.turn (.char t) =
      if (s.put t).status = .running then { s.put t with len := (s.put t).len + 1 }
      else s.put t := by
  unfold Server.turn
  rw [if_pos h]
  dsimp only
  rw [if_neg ht]

/-- An LF reports the line and, unless it was `quit`, begins the next one. -/
theorem turn_lf {s : Server} (h : s.status = .running) :
    s.turn (.char lf) =
      if ({ s with len := s.len - 1 }.put nul).status = .running then
        ({ s with len := s.len - 1 }.put nul).report
      else { s with len := s.len - 1 }.put nul := by
  unfold Server.turn
  rw [if_pos h]
  dsimp only
  rw [if_pos rfl]

/-- A read of no bytes changes nothing. -/
theorem turn_zero (s : Server) : s.turn .zero = s := by
  unfold Server.turn
  split <;> rfl

/-- After `n` reads the first `n` bytes have been read. -/
theorem after_closing (stream : List UInt8) (n : Nat) :
    after (closing stream) n = start.feed (stream.take n) := by
  induction n with
  | zero => simp [after]
  | succ n ih =>
      rw [after, ih, List.take_add_one, feed_append, closing]
      cases stream[n]? with
      | none => exact turn_zero _
      | some t => rfl

/-- When the whole stream was read, the server stands where feeding it leads. -/
theorem after_closing_all {stream : List UInt8} {n : Nat} (h : stream.length ≤ n) :
    after (closing stream) n = start.feed stream := by
  rw [after_closing, List.take_of_length_le h]

/-- The indices written and the lengths of the writes are in range. -/
structure InRange (s : Server) : Prop where
  indices : ∀ i ∈ s.indices, 0 ≤ i ∧ i ≤ serverBufSize - 1
  writes : ∀ w ∈ s.writes, 0 ≤ w.len

/-- Before and after every read the ranges are kept, and `server_run` returns. -/
def Safe (stream : List UInt8) : Prop :=
  (∀ n, InRange (after (closing stream) n)) ∧
    ∃ n, (after (closing stream) n).status = .returned

/-- What has been done is not undone. -/
structure Grows (s t : Server) : Prop where
  indices : s.indices <+: t.indices
  writes : s.writes <+: t.writes

/-- Every server grows to itself. -/
theorem Grows.refl (s : Server) : Grows s s :=
  ⟨List.prefix_refl _, List.prefix_refl _⟩

/-- Growth composes. -/
theorem Grows.trans {s t u : Server} (h : Grows s t) (h' : Grows t u) : Grows s u :=
  ⟨h.indices.trans h'.indices, h.writes.trans h'.writes⟩

/-- The indices of an earlier state are among those of a later one. -/
theorem InRange.of_grows {s t : Server} (h : Grows s t) (ht : InRange t) : InRange s := by
  constructor
  · intro i hi
    exact ht.indices i (h.indices.subset hi)
  · intro w hw
    exact ht.writes w (h.writes.subset hw)

/-- Putting a byte adds to what the server did. -/
theorem put_grows (s : Server) (t : UInt8) : Grows s (s.put t) := by
  unfold Server.put
  dsimp only
  split
  · exact ⟨List.prefix_append _ _, List.prefix_refl _⟩
  · exact ⟨List.prefix_append _ _, List.prefix_refl _⟩

/-- Reporting a line adds to what the server did. -/
theorem report_grows (s : Server) : Grows s s.report := by
  unfold Server.report
  dsimp only
  split
  · split
    · exact ⟨List.prefix_refl _, List.prefix_append _ _⟩
    · exact ⟨List.prefix_refl _, List.prefix_append _ _⟩
  · exact ⟨List.prefix_refl _, List.prefix_refl _⟩

/-- A turn only adds to the indices and the messages. -/
theorem turn_grows (s : Server) (cnt : ReadResult) : Grows s (s.turn cnt) := by
  unfold Server.turn
  split
  · cases cnt with
    | error => exact ⟨List.prefix_refl _, List.prefix_refl _⟩
    | zero => exact Grows.refl s
    | char t =>
        dsimp only
        split
        · have hput := put_grows { s with len := s.len - 1 } nul
          have hput' : Grows s ({ s with len := s.len - 1 }.put nul) :=
            ⟨hput.indices, hput.writes⟩
          split
          · exact hput'.trans (report_grows _)
          · exact hput'
        · have hput := put_grows s t
          split
          · exact ⟨hput.indices, hput.writes⟩
          · exact hput
  · exact Grows.refl _

/-- Feeding bytes only adds to the indices and the messages. -/
theorem feed_grows (s : Server) (bytes : List UInt8) : Grows s (s.feed bytes) := by
  induction bytes generalizing s with
  | nil => exact Grows.refl s
  | cons t bytes ih => exact (turn_grows s _).trans (ih _)

/-- A stream is safe when the state at its end is. -/
theorem safe_iff_feed (stream : List UInt8) :
    Safe stream ↔ InRange (start.feed stream) ∧ (start.feed stream).status = .returned := by
  constructor
  · intro ⟨hrange, n, hreturned⟩
    have hend := hrange stream.length
    rw [after_closing_all le_rfl] at hend
    refine ⟨hend, ?_⟩
    rw [after_closing] at hreturned
    rw [← List.take_append_drop n stream, feed_append, feed_returned hreturned]
    exact hreturned
  · intro ⟨hrange, hreturned⟩
    refine ⟨?_, stream.length, ?_⟩
    · intro n
      apply InRange.of_grows _ hrange
      rw [after_closing]
      nth_rewrite 2 [← List.take_append_drop n stream]
      rw [feed_append]
      exact feed_grows _ _
    · rw [after_closing_all le_rfl]
      exact hreturned

/-- At the start of a line. -/
structure AtLine (s : Server) : Prop where
  ps : s.ps = cleared
  len : s.len = 0
  status : s.status = .running

/-- The server starts at the beginning of a line. -/
theorem start_atLine : AtLine start := ⟨rfl, rfl, rfl⟩

/-- The state after the bytes `line` of an unfinished line. -/
def Server.filled (s : Server) (line : List UInt8) : Server :=
  { s with
    ps := line ++ List.replicate (serverBufSize - line.length) nul
    len := line.length
    indices := s.indices ++ (List.range line.length).map Nat.cast }

/-- Filling the buffer leaves the status alone. -/
@[simp] theorem filled_status (s : Server) (line : List UInt8) :
    (s.filled line).status = s.status := rfl

/-- Filling the buffer leaves the messages alone. -/
@[simp] theorem filled_messages (s : Server) (line : List UInt8) :
    (s.filled line).messages = s.messages := rfl

/-- The next byte goes behind the line, as long as the buffer has room. -/
theorem put_filled {s : Server} {line : List UInt8} (t : UInt8)
    (hlen : line.length < serverBufSize) :
    ((s.filled line).put t) =
      { s.filled (line ++ [t]) with len := line.length } := by
  have hset : (line ++ List.replicate (serverBufSize - line.length) nul).set line.length t =
      line ++ [t] ++ List.replicate (serverBufSize - (line.length + 1)) nul := by
    obtain ⟨k, hk⟩ : ∃ k, serverBufSize - line.length = k + 1 :=
      ⟨serverBufSize - line.length - 1, by omega⟩
    have hk' : serverBufSize - (line.length + 1) = k := by omega
    rw [hk, hk', List.set_append_right _ _ le_rfl, Nat.sub_self, List.replicate_succ,
      List.set_cons_zero, List.append_assoc, List.singleton_append]
  unfold Server.put Server.filled
  rw [if_pos (by dsimp only; omega)]
  simp [List.range_succ, hset]

/-- Bytes without LF that fit are laid into the buffer, by induction from the end of the line. -/
theorem feed_filled {s : Server} (hs : AtLine s) {line : List UInt8} (hlf : lf ∉ line)
    (hlen : line.length ≤ serverBufSize) : s.feed line = s.filled line := by
  induction line using List.reverseRecOn with
  | nil =>
      obtain ⟨hps, hzero, -⟩ := hs
      cases s
      simp_all [Server.filled, cleared]
  | append_singleton line t ih =>
      rw [List.length_append, List.length_singleton] at hlen
      have ht : t ≠ lf := by
        intro h
        exact hlf (by simp [h])
      rw [feed_append, ih (by intro h; exact hlf (by simp [h])) (by omega)]
      have hrun : (s.filled line).status = .running := hs.status
      have hrun' : (s.filled (line ++ [t])).status = .running := hs.status
      have hput := put_filled (s := s) t (by omega : line.length < serverBufSize)
      rw [feed_cons, feed_nil, turn_char hrun ht, hput]
      dsimp only
      rw [if_pos hrun']
      simp [Server.filled]

/-- The byte before the line feed is dropped. -/
theorem put_finished (s : Server) {body : List UInt8} (last : UInt8)
    (hlen : body.length < serverBufSize) :
    ({ s.filled (body ++ [last]) with len := (s.filled (body ++ [last])).len - 1 }.put nul) =
      { s.filled body with
        indices := (s.filled (body ++ [last])).indices ++ [(body.length : Int)] } := by
  have hset : (body ++ [last] ++ List.replicate (serverBufSize - (body.length + 1)) nul).set
      body.length nul = body ++ List.replicate (serverBufSize - body.length) nul := by
    obtain ⟨k, hk⟩ : ∃ k, serverBufSize - body.length = k + 1 :=
      ⟨serverBufSize - body.length - 1, by omega⟩
    have hk' : serverBufSize - (body.length + 1) = k := by omega
    rw [hk, hk', List.append_assoc, List.set_append_right _ _ le_rfl, Nat.sub_self,
      List.singleton_append, List.set_cons_zero, List.replicate_succ]
  have hbyte : ((body.length : Int) + 1 - 1).toNat = body.length := by omega
  unfold Server.put Server.filled
  dsimp only
  rw [if_pos (by rw [List.length_append, List.length_singleton]; omega)]
  simp only [List.length_append, List.length_singleton, Nat.cast_add, Nat.cast_one, hbyte, hset]
  simp

/-- The string in the buffer after a line `body`. -/
theorem text_filled (body : List UInt8) {k : Nat} (hk : 0 < k) :
    text (body ++ List.replicate k nul) = text body := by
  obtain ⟨n, rfl⟩ : ∃ n, k = n + 1 := ⟨k - 1, by omega⟩
  unfold text
  induction body with
  | nil => simp [List.replicate_succ]
  | cons b body ih =>
      rw [List.cons_append, List.takeWhile_cons, List.takeWhile_cons, ih]

/-- What a line leaves: `body` is the line without its last byte and the line feed. -/
structure LineDone (s : Server) (body : List UInt8) (t : Server) : Prop where
  messages : t.messages = s.messages ++ if body = [] then [] else [text body]
  status : t.status = if text body = quit then .returned else .running
  atLine : t.status = .running → AtLine t
  inRange : InRange s → InRange t

/-- Reporting a line that fits finishes it: its message is sent and the server is at a line again.
-/
theorem report_lineDone {s : Server} (hs : AtLine s) {body : List UInt8} {indices : List Int}
    (hlen : body.length < serverBufSize) (hindices : InRange s →
      ∀ i ∈ indices, 0 ≤ i ∧ i ≤ serverBufSize - 1) :
    LineDone s body ({ s.filled body with indices := indices }.report) := by
  have htext : text (s.filled body).ps = text body :=
    text_filled body (Nat.sub_pos_of_lt hlen)
  have hstatus : (s.filled body).status = .running := hs.status
  have hzero : (s.filled body).len ≠ 0 ↔ body ≠ [] := by simp [Server.filled]
  unfold Server.report
  dsimp only
  by_cases hbody : body = []
  · rw [if_neg (by rw [hzero]; exact not_not.mpr hbody)]
    have hquit : text body ≠ quit := by
      rw [hbody]
      decide
    constructor
    · simp [hbody]
    · rw [if_neg hquit]
      exact hstatus
    · intro _
      exact ⟨rfl, rfl, hstatus⟩
    · intro h
      exact ⟨hindices h, h.writes⟩
  · rw [if_pos (hzero.mpr hbody), htext]
    have hcounts : InRange s → ∀ w ∈ (s.filled body).writes ++
        [⟨asciiBytes ">" ++ [nul], 2⟩, ⟨(s.filled body).ps, (s.filled body).len⟩,
          ⟨[cr, lf, nul], 2⟩], 0 ≤ w.len := by
      intro h w hw
      rcases List.mem_append.mp hw with hold | hnew
      · exact h.writes w hold
      · simp only [List.mem_cons, List.not_mem_nil, or_false] at hnew
        rcases hnew with rfl | rfl | rfl
        · decide
        · exact Int.natCast_nonneg _
        · decide
    by_cases hquit : text body = quit
    · rw [if_pos hquit]
      constructor
      · rw [if_neg hbody]
        rfl
      · rw [if_pos hquit]
      · intro h
        cases h
      · intro h
        exact ⟨hindices h, hcounts h⟩
    · rw [if_neg hquit]
      constructor
      · rw [if_neg hbody]
        rfl
      · rw [if_neg hquit]
        exact hstatus
      · intro _
        exact ⟨rfl, rfl, hstatus⟩
      · intro h
        exact ⟨hindices h, hcounts h⟩

/-- A line, its last byte and the LF, when they fit, finish the line. -/
theorem feed_line {s : Server} (hs : AtLine s) {body : List UInt8} {last : UInt8}
    (hlf : lf ∉ body ++ [last]) (hlen : body.length < serverBufSize) :
    LineDone s body (s.feed (body ++ [last] ++ [lf])) := by
  have hrun : (s.filled (body ++ [last])).status = .running := hs.status
  rw [feed_append, feed_filled hs hlf (by rw [List.length_append]; exact hlen), feed_cons, feed_nil,
    turn_lf hrun,
    put_finished s last hlen]
  dsimp only
  rw [if_pos (show (s.filled body).status = .running from hs.status)]
  apply report_lineDone hs hlen
  intro h i hi
  simp only [Server.filled, List.length_append, List.length_singleton, List.mem_append,
    List.mem_map, List.mem_range, List.mem_singleton] at hi
  rcases hi with (hold | ⟨n, hn, rfl⟩) | rfl
  · exact h.indices i hold
  · omega
  · omega

/-- The same for a line that is not empty. -/
theorem feed_nonempty {s : Server} (hs : AtLine s) {line : List UInt8} (hlf : lf ∉ line)
    (hpos : line ≠ []) (hlen : line.length ≤ serverBufSize) :
    LineDone s line.dropLast (s.feed (line ++ [lf])) := by
  have hbody : line.dropLast.length < serverBufSize := by
    have := List.length_pos_iff.mpr hpos
    rw [List.length_dropLast]
    omega
  rw [← List.dropLast_concat_getLast hpos] at hlf
  have hdone := feed_line hs hlf hbody
  rw [List.dropLast_concat_getLast hpos] at hdone
  exact hdone

/-- A line with more than `SERVER_BUF_SIZE` bytes is written past the end of the buffer. -/
theorem feed_overlong {s : Server} (hs : AtLine s) {line : List UInt8} (hlf : lf ∉ line)
    (hlen : serverBufSize < line.length) : ¬ InRange (s.feed line) := by
  have hsplit := List.take_append_drop serverBufSize line
  have hhead : (line.take serverBufSize).length = serverBufSize := by
    rw [List.length_take]
    omega
  obtain ⟨t, rest, hrest⟩ : ∃ t rest, line.drop serverBufSize = t :: rest := by
    apply List.exists_cons_of_ne_nil
    intro hnil
    have := congrArg List.length hnil
    rw [List.length_drop, List.length_nil] at this
    omega
  have ht : t ≠ lf := by
    intro h
    apply hlf
    rw [← hsplit, hrest, h]
    simp
  rw [hrest] at hsplit
  intro hrange
  rw [← hsplit, feed_append, feed_filled hs (fun h => hlf (List.mem_of_mem_take h)) hhead.le,
    feed_cons] at hrange
  have hturn := hrange.of_grows (feed_grows _ _)
  have hrun : (s.filled (line.take serverBufSize)).status = .running := hs.status
  rw [turn_char hrun ht] at hturn
  have hput : ((s.filled (line.take serverBufSize)).put t).indices =
      (s.filled (line.take serverBufSize)).indices ++ [(serverBufSize : Int)] := by
    unfold Server.put
    dsimp only
    split <;> simp [Server.filled, hhead]
  have hmem : (serverBufSize : Int) ∈ ((s.filled (line.take serverBufSize)).put t).indices := by
    rw [hput]
    simp
  have hbad : (serverBufSize : Int) ≤ serverBufSize - 1 := by
    split at hturn
    · exact (hturn.indices _ hmem).2
    · exact (hturn.indices _ hmem).2
  omega

/-- An empty line is written before the start of the buffer. -/
theorem feed_empty {s : Server} (hs : AtLine s) : ¬ InRange (s.feed [lf]) := by
  intro hrange
  rw [feed_cons, feed_nil, turn_lf hs.status] at hrange
  have hput : ({ s with len := s.len - 1 }.put nul).status = .undefined ∧
      ({ s with len := s.len - 1 }.put nul).indices = s.indices ++ [-1] := by
    unfold Server.put
    dsimp only
    rw [if_neg (by rw [hs.len]; omega)]
    simp [hs.len]
  rw [if_neg (by simp [hput.1])] at hrange
  have hbad := hrange.indices (-1) (by simp [hput.2])
  omega

/-- The lines of the stream up to one that is `quit` and one more byte all have between 1
and `SERVER_BUF_SIZE` bytes. -/
def Quits (stream : List UInt8) : Prop :=
  ∃ lines line rest,
    stream = lines.flatMap (· ++ [lf]) ++ (line ++ [lf] ++ rest) ∧
    (∀ l ∈ lines ++ [line], lf ∉ l ∧ l ≠ [] ∧ l.length ≤ serverBufSize) ∧
    text line.dropLast = quit

/-- After lines that fit and then `quit`, the server has returned and used every index in range. -/
theorem feed_quits {s : Server} (hs : AtLine s) (hrange : InRange s) {lines : List (List UInt8)}
    {line rest : List UInt8}
    (hlines : ∀ l ∈ lines ++ [line], lf ∉ l ∧ l ≠ [] ∧ l.length ≤ serverBufSize)
    (hquit : text line.dropLast = quit) :
    let t := s.feed (lines.flatMap (· ++ [lf]) ++ (line ++ [lf] ++ rest))
    InRange t ∧ t.status = .returned := by
  induction lines generalizing s with
  | nil =>
      obtain ⟨hlf, hpos, hlen⟩ := hlines line (by simp)
      have hdone := feed_nonempty hs hlf hpos hlen
      have hreturned : (s.feed (line ++ [lf])).status = .returned := by
        rw [hdone.status, if_pos hquit]
      rw [List.flatMap_nil, List.nil_append, feed_append, feed_returned hreturned]
      exact ⟨hdone.inRange hrange, hreturned⟩
  | cons first lines ih =>
      obtain ⟨hlf, hpos, hlen⟩ := hlines first (by simp)
      have hdone := feed_nonempty hs hlf hpos hlen
      rw [List.flatMap_cons, List.append_assoc, feed_append]
      by_cases hfirst : text first.dropLast = quit
      · have hreturned : (s.feed (first ++ [lf])).status = .returned := by
          rw [hdone.status, if_pos hfirst]
        rw [feed_returned hreturned]
        exact ⟨hdone.inRange hrange, hreturned⟩
      · have hrun : (s.feed (first ++ [lf])).status = .running := by
          rw [hdone.status, if_neg hfirst]
        apply ih (hdone.atLine hrun) (hdone.inRange hrange)
        intro l hl
        exact hlines l (List.mem_cons_of_mem _ hl)

/-- A server that returned with its indices in range read a `quit` line behind lines that fit. -/
theorem quits_of_feed {s : Server} (hs : AtLine s) {stream : List UInt8}
    (hrange : InRange (s.feed stream)) (hreturned : (s.feed stream).status = .returned) :
    Quits stream := by
  induction hn : stream.length using Nat.strong_induction_on generalizing s stream with
  | _ n ih =>
    by_cases hmem : lf ∈ stream
    · obtain ⟨line, rest, rfl, hlf⟩ := List.eq_append_cons_of_mem hmem
      rw [List.append_cons, feed_append] at hrange hreturned
      rw [List.append_cons]
      have hline := hrange.of_grows (feed_grows _ _)
      have hpos : line ≠ [] := by
        rintro rfl
        exact feed_empty hs hline
      have hlen : line.length ≤ serverBufSize := by
        by_contra hlong
        rw [feed_append] at hline
        exact feed_overlong hs hlf (by omega) (hline.of_grows (feed_grows _ _))
      have hdone := feed_nonempty hs hlf hpos hlen
      by_cases hquit : text line.dropLast = quit
      · refine ⟨[], line, rest, rfl, ?_, hquit⟩
        intro l hl
        rw [List.nil_append, List.mem_singleton] at hl
        rw [hl]
        exact ⟨hlf, hpos, hlen⟩
      · have hrun : (s.feed (line ++ [lf])).status = .running := by
          rw [hdone.status, if_neg hquit]
        obtain ⟨lines, last, tail, hrest, hlines, hlast⟩ :=
          ih rest.length (by simp at hn; omega) (hdone.atLine hrun) hrange hreturned rfl
        refine ⟨line :: lines, last, tail, ?_, ?_, hlast⟩
        · rw [List.flatMap_cons, hrest]
          simp only [List.append_assoc]
        · intro l hl
          rw [List.cons_append, List.mem_cons] at hl
          rcases hl with rfl | hl
          · exact ⟨hlf, hpos, hlen⟩
          · exact hlines l hl
    · by_cases hlong : serverBufSize < stream.length
      · exact absurd hrange (feed_overlong hs hmem hlong)
      · rw [feed_filled hs hmem (by omega), filled_status, hs.status] at hreturned
        cases hreturned

/-- At the start no index was used. -/
theorem start_inRange : InRange start := by
  constructor
  · intro i hi
    cases hi
  · intro w hw
    cases hw

/-- **Safety.**  The servers keep to the buffer, ask for no negative length and return
exactly when the lines up to `quit` fit in the buffer and none is empty. -/
theorem safe_iff (stream : List UInt8) : Safe stream ↔ Quits stream := by
  rw [safe_iff_feed]
  constructor
  · intro ⟨hrange, hreturned⟩
    exact quits_of_feed start_atLine hrange hreturned
  · intro ⟨lines, line, rest, hstream, hlines, hquit⟩
    rw [hstream]
    exact feed_quits start_atLine start_inRange hlines hquit

/-- An empty line is written at index -1, and at the end of the stream `server_run` still
waits. -/
theorem emptyLine_unsafe :
    (after (closing [lf]) 1).indices = [-1] ∧ ¬ Safe [lf] ∧
      ∀ n, (after (closing []) n).status ≠ .returned := by
  have hindices : (after (closing [lf]) 1).indices = [-1] := by decide +kernel
  refine ⟨hindices, ?_, ?_⟩
  · intro hsafe
    have hbad := (hsafe.1 1).indices (-1) (by simp [hindices])
    omega
  · intro n
    rw [after_closing_all (Nat.zero_le n)]
    simp [start]

end LineServer

import Alp.CommEof
import Alp.CommScreen

/-!
# The socket build

This file embeds `server_main` of `socket/server.c`, and the command loop of `comm_main` on
what `read` returns on the client's socket.  `sock_getc_blocked` waits out a read without a
byte and prints a line for a read that failed, in the middle of what the session prints.

`wireLines` cuts the reads at their line feeds, and the loop on the reads is the loop on
these lines (`commLoopSock_lines`): where the bytes of a line are held up does not show, but
for the lines about the failed reads.  `serverMain_screen` is the program.
-/

set_option autoImplicit false

namespace Comm

open CString

/-- What `sock_getc_blocked` prints for a read that failed. -/
def readFailed : List UInt8 :=
  asciiBytes "sock_getc_blocked, error -1" ++ [lineFeed]

/-- `sock_getc_blocked` with its output. -/
def sockGetcBlockedOut : List SockRead → Option (List UInt8 × Int × List SockRead)
  | [] => none
  | .byte b :: rest => some ([], commFgetc true b, rest)
  | .zero :: rest => sockGetcBlockedOut rest
  | .error :: rest => (sockGetcBlockedOut rest).map fun r => (readFailed ++ r.1, r.2)

/-- A byte obtained was read from the socket. -/
theorem sockGetcBlockedOut_shorter {reads rest : List SockRead} {out : List UInt8} {c : Int}
    (h : sockGetcBlockedOut reads = some (out, c, rest)) : rest.length < reads.length := by
  induction reads generalizing out with
  | nil => cases h
  | cons r reads ih =>
      rw [List.length_cons]
      cases r with
      | byte b =>
          cases h
          exact Nat.lt_succ_self _
      | zero => exact Nat.lt_succ_of_lt (ih h)
      | error =>
          obtain ⟨⟨out', c', rest'⟩, hr, hpair⟩ := Option.map_eq_some_iff.mp h
          cases hpair
          exact Nat.lt_succ_of_lt (ih hr)

/-- The loop of `comm_get_command` on a socket, with its output. -/
def commGetLoopSock (size : Nat) (d : CommData) (cnt : Nat) (reads : List SockRead) :
    Option (List UInt8 × CommData × List SockRead) :=
  match _h : sockGetcBlockedOut reads with
  | none => none
  | some (out, c, rest) =>
    if c = 10 then
      let cnt := if 0 < cnt ∧ d.temp (cnt - 1) = 13 then cnt - 1 else cnt
      some (out, { d.store cnt commAsciiEof with tmpc := cnt }, rest)
    else
      let cnt := if size ≤ cnt then 0 else cnt
      (commGetLoopSock size (d.store cnt (charByte c)) (cnt + 1) rest).map fun r =>
        (out ++ r.1, r.2)
termination_by reads.length
decreasing_by exact sockGetcBlockedOut_shorter _h

/-- `comm_get_command` on a socket. -/
def commGetCommandSock (d : CommData) (reads : List SockRead) :
    Option (List UInt8 × CommData × List SockRead) :=
  commGetLoopSock d.tmpsize d 0 reads

/-- `comm_exec_command` on the data of the box, and the handler. -/
def Box.execOut (modules : ModuleOutputs) (descs : CmdDescs) (b : Box) (data : CommData) :
    Option (List UInt8 × Box) :=
  match commExecCommand b.state.cmds b.state.tbl data b.state.cdatas with
  | none => none
  | some res =>
    let b := { b with data := data, state := { b.state with cdatas := res.cdatas } }
    match res.call with
    | none => some ([], b)
    | some call => b.handleOut modules descs call

/-- Where no byte comes, the line is not finished. -/
theorem commGetLoopSock_none {reads : List SockRead} (h : sockGetcBlockedOut reads = none)
    (size : Nat) (d : CommData) (cnt : Nat) : commGetLoopSock size d cnt reads = none := by
  rw [commGetLoopSock]
  split
  · rfl
  · next heq =>
      rw [h] at heq
      cases heq

/-- One pass of the loop: an LF ends the line, any other byte is put behind it. -/
theorem commGetLoopSock_some {reads rest : List SockRead} {out : List UInt8} {c : Int}
    (h : sockGetcBlockedOut reads = some (out, c, rest)) (size : Nat) (d : CommData) (cnt : Nat) :
    commGetLoopSock size d cnt reads =
      if c = 10 then
        some (out, { d.store (commEndCnt (d, cnt)) commAsciiEof with tmpc := commEndCnt (d, cnt) },
          rest)
      else
        (commGetLoopSock size (commPut size (d, cnt) c).1 (commPut size (d, cnt) c).2 rest).map
          fun r => (out ++ r.1, r.2) := by
  rw [commGetLoopSock]
  split
  · next heq =>
      rw [h] at heq
      cases heq
  · next heq =>
      rw [h] at heq
      cases heq
      rfl

@[simp] theorem commGetLoopSock_nil (size : Nat) (d : CommData) (cnt : Nat) :
    commGetLoopSock size d cnt [] = none :=
  commGetLoopSock_none rfl size d cnt

@[simp] theorem commGetLoopSock_zero (size : Nat) (d : CommData) (cnt : Nat)
    (reads : List SockRead) :
    commGetLoopSock size d cnt (.zero :: reads) = commGetLoopSock size d cnt reads := by
  cases h : sockGetcBlockedOut reads with
  | none =>
      have hzero : sockGetcBlockedOut (.zero :: reads) = none := h
      rw [commGetLoopSock_none h, commGetLoopSock_none hzero]
  | some r =>
      have hzero : sockGetcBlockedOut (.zero :: reads) = some r := h
      rw [commGetLoopSock_some h, commGetLoopSock_some hzero]

/-- A read that fails is told on the screen, and the loop goes on. -/
theorem commGetLoopSock_error (size : Nat) (d : CommData) (cnt : Nat) (reads : List SockRead) :
    commGetLoopSock size d cnt (.error :: reads) =
      (commGetLoopSock size d cnt reads).map fun r => (readFailed ++ r.1, r.2) := by
  cases h : sockGetcBlockedOut reads with
  | none =>
      have herr : sockGetcBlockedOut (.error :: reads) = none := congrArg (Option.map _) h
      rw [commGetLoopSock_none h, commGetLoopSock_none herr]
      rfl
  | some r =>
      have herr : sockGetcBlockedOut (.error :: reads) = some (readFailed ++ r.1, r.2) :=
        congrArg (Option.map _) h
      rw [commGetLoopSock_some h, commGetLoopSock_some herr]
      split
      · rfl
      · simp [Function.comp_def]

/-- A byte that is no LF is put behind the line. -/
theorem commGetLoopSock_byte (size : Nat) (d : CommData) (cnt : Nat) {b : UInt8} (h : b ≠ 10)
    (reads : List SockRead) :
    commGetLoopSock size d cnt (.byte b :: reads) =
      commGetLoopSock size (commPut size (d, cnt) b.toNat).1 (commPut size (d, cnt) b.toNat).2
        reads := by
  have hput : commPut size (d, cnt) (commFgetc true b) = commPut size (d, cnt) b.toNat := by
    rw [commPut, commPut, charByte_commFgetc, charByte_toNat]
  have hbyte : sockGetcBlockedOut (.byte b :: reads) = some ([], commFgetc true b, reads) := rfl
  rw [commGetLoopSock_some hbyte, hput, if_neg fun hlf => h (commFgetc_eq_lf hlf)]
  simp

/-- An LF ends the line. -/
theorem commGetLoopSock_lf (size : Nat) (d : CommData) (cnt : Nat) (reads : List SockRead) :
    commGetLoopSock size d cnt (.byte 10 :: reads) =
      some ([], { d.store (commEndCnt (d, cnt)) commAsciiEof with tmpc := commEndCnt (d, cnt) },
        reads) := by
  have hlf : sockGetcBlockedOut (.byte 10 :: reads) = some ([], commFgetc true 10, reads) := rfl
  rw [commGetLoopSock_some hlf]
  exact if_pos rfl

/-- A line as it came in: how many reads failed meanwhile. -/
structure WireLine where
  failed : Nat
  line : Line
  deriving DecidableEq

/-- Before its first byte. -/
def WireLine.fresh : WireLine :=
  ⟨0, [], List.not_mem_nil⟩

def Line.push (l : Line) (b : UInt8) (h : b ≠ 10) : Line :=
  ⟨l.bytes ++ [b], by simpa [l.noLf] using h.symm⟩

/-- A byte pushed stands at the end of the line's body. -/
theorem Line.push_body (l : Line) (b : UInt8) (h : b ≠ 10) :
    (l.push b h).body = l.body ++ [(b.toNat : Int)] := by
  simp [Line.body, Line.push]

/-- The lines that end in the reads, the first of them begun. -/
def wireLinesFrom : WireLine → List SockRead → List WireLine
  | _, [] => []
  | w, .zero :: reads => wireLinesFrom w reads
  | w, .error :: reads => wireLinesFrom { w with failed := w.failed + 1 } reads
  | w, .byte b :: reads =>
    if h : b = 10 then w :: wireLinesFrom .fresh reads
    else wireLinesFrom { w with line := w.line.push b h } reads

def wireLines (reads : List SockRead) : List WireLine :=
  wireLinesFrom .fresh reads

/-- The reads behind the first line. -/
def afterLine : List SockRead → List SockRead
  | [] => []
  | r :: reads => if r = .byte 10 then reads else afterLine reads

/-- What is printed while the line comes in. -/
def WireLine.printed (w : WireLine) : List UInt8 :=
  (List.replicate w.failed readFailed).flatten

/-- One more failed read prints one more message. -/
theorem WireLine.printed_succ (w : WireLine) :
    { w with failed := w.failed + 1 }.printed = w.printed ++ readFailed := by
  simp [WireLine.printed, List.replicate_succ', List.flatten_append]

/-- The lines behind the first are those of the reads behind it. -/
theorem wireLinesFrom_tail (w : WireLine) (reads : List SockRead) :
    (wireLinesFrom w reads).tail = wireLines (afterLine reads) := by
  induction reads generalizing w with
  | nil => rfl
  | cons r reads ih =>
      cases r with
      | zero => exact ih w
      | error => exact ih _
      | byte b =>
          rw [wireLinesFrom, afterLine]
          by_cases h : b = 10
          · rw [dif_pos h, if_pos (congrArg SockRead.byte h)]
            rfl
          · rw [dif_neg h, if_neg fun hlf => h (SockRead.byte.inj hlf)]
            exact ih _

/-- Filling with one more character is putting it behind the others. -/
theorem commFill_snoc (size : Nat) (d : CommData) (cnt : Nat) (cs : List Int) (c : Int) :
    commFill size d cnt (cs ++ [c]) = commPut size (commFill size d cnt cs) c :=
  List.foldl_append

/-- Reading a line fills the buffer and writes the terminator. -/
theorem commReadLine_eq (d : CommData) (l : Line) :
    commReadLine d l =
      let p := commFill d.tmpsize d 0 l.body
      { p.1.store (commEndCnt p) commAsciiEof with tmpc := commEndCnt p } := by
  have hline : commGetCommand d l.chars = some (_, []) :=
    (commGetLoop_chars _ _ l.lf_notMem_body [10] d 0).trans (commGetLoop_lf _ _ [])
  rw [commReadLine, hline]
  rfl

/-- What `comm_get_command` leaves of the line it has begun to read. -/
theorem commGetLoopSock_from (d : CommData) (w : WireLine) (reads : List SockRead) :
    (commGetLoopSock d.tmpsize (commFill d.tmpsize d 0 w.line.body).1
        (commFill d.tmpsize d 0 w.line.body).2 reads).map (fun r => (w.printed ++ r.1, r.2)) =
      (wireLinesFrom w reads).head?.map fun v =>
        (v.printed, commReadLine d v.line, afterLine reads) := by
  induction reads generalizing w with
  | nil => simp [wireLinesFrom]
  | cons r reads ih =>
      cases r with
      | zero =>
          rw [commGetLoopSock_zero]
          exact ih w
      | error =>
          have hnext := ih { w with failed := w.failed + 1 }
          rw [w.printed_succ] at hnext
          rw [commGetLoopSock_error, Option.map_map]
          simpa [Function.comp_def, wireLinesFrom, afterLine] using hnext
      | byte b =>
          by_cases h : b = 10
          · subst h
            rw [commGetLoopSock_lf, wireLinesFrom, dif_pos rfl, afterLine, if_pos rfl]
            simp [commReadLine_eq]
          · have hnext := ih { w with line := w.line.push b h }
            rw [Line.push_body, commFill_snoc] at hnext
            rw [commGetLoopSock_byte _ _ _ h, wireLinesFrom, dif_neg h, afterLine,
              if_neg fun hlf => h (SockRead.byte.inj hlf)]
            exact hnext

/-- **One line.**  Reading on a socket is reading the first line on the wire. -/
theorem commGetCommandSock_line (d : CommData) (reads : List SockRead) :
    commGetCommandSock d reads = (wireLines reads).head?.map fun w =>
      (w.printed, commReadLine d w.line, afterLine reads) := by
  have h := commGetLoopSock_from d .fresh reads
  rw [show (fun r => (WireLine.fresh.printed ++ r.1, r.2)) = id from rfl, Option.map_id] at h
  exact h

/-- A line takes at least one read. -/
theorem afterLine_shorter {reads : List SockRead} (h : wireLines reads ≠ []) :
    (afterLine reads).length < reads.length := by
  have hle : ∀ reads, (afterLine reads).length ≤ reads.length := by
    intro reads
    induction reads with
    | nil => exact Nat.le_refl 0
    | cons r reads ih =>
        rw [afterLine, List.length_cons]
        split
        · exact Nat.le_succ _
        · exact Nat.le_succ_of_le ih
  cases reads with
  | nil => exact absurd rfl h
  | cons r reads =>
      rw [afterLine, List.length_cons]
      split
      · exact Nat.lt_succ_self _
      · exact Nat.lt_succ_of_le (hle reads)

/-- A command obtained took at least one read. -/
theorem commGetCommandSock_shorter {d d' : CommData} {reads rest : List SockRead}
    {out : List UInt8} (h : commGetCommandSock d reads = some (out, d', rest)) :
    rest.length < reads.length := by
  rw [commGetCommandSock_line] at h
  obtain ⟨w, hw, hpair⟩ := Option.map_eq_some_iff.mp h
  cases hpair
  exact afterLine_shorter fun hnil => by simp [hnil] at hw

/-- `do { ... } while (!box_quit)` on a socket, with its output; `none` while it still
waits for a line. -/
def commLoopSock (modules : ModuleOutputs) (descs : CmdDescs) (reads : List SockRead) (b : Box) :
    Option (List UInt8 × Box) :=
  match _h : commGetCommandSock b.data reads with
  | none => none
  | some (traces, data, rest) =>
    match b.execOut modules descs (commParseCommand data) with
    | none => none
    | some (out, b) =>
      if b.quit then some (commShowScreen ++ traces ++ out, b)
      else (commLoopSock modules descs rest b).map fun r =>
        (commShowScreen ++ traces ++ out ++ r.1, r.2)
termination_by reads.length
decreasing_by exact commGetCommandSock_shorter _h

/-- The loop on the lines as they came in. -/
def commLoopWire (modules : ModuleOutputs) (descs : CmdDescs) :
    List WireLine → Box → Option (List UInt8 × Box)
  | [], _ => none
  | w :: lines, b =>
    match b.execOut modules descs (commRunLine b.data w.line) with
    | none => none
    | some (out, b) =>
      if b.quit then some (commShowScreen ++ w.printed ++ out, b)
      else (commLoopWire modules descs lines b).map fun r =>
        (commShowScreen ++ w.printed ++ out ++ r.1, r.2)

/-- The loop over the reads is the loop over the lines in them. -/
theorem commLoopSock_wire (modules : ModuleOutputs) (descs : CmdDescs) (reads : List SockRead)
    (b : Box) : commLoopSock modules descs reads b =
      commLoopWire modules descs (wireLines reads) b := by
  generalize hlines : wireLines reads = lines
  induction lines generalizing reads b with
  | nil =>
      have hget : commGetCommandSock b.data reads = none := by
        rw [commGetCommandSock_line, hlines]
        rfl
      rw [commLoopSock]
      split
      · rfl
      · next heq =>
          rw [hget] at heq
          cases heq
  | cons w lines ih =>
      have hget : commGetCommandSock b.data reads =
          some (w.printed, commReadLine b.data w.line, afterLine reads) := by
        rw [commGetCommandSock_line, hlines]
        rfl
      have hrest : wireLines (afterLine reads) = lines := by
        rw [← wireLinesFrom_tail .fresh reads]
        exact congrArg List.tail hlines
      rw [commLoopSock, commLoopWire, commRunLine]
      split
      · next heq =>
          rw [hget] at heq
          cases heq
      next heq =>
      rw [hget] at heq
      cases heq
      split
      · rfl
      split
      · rfl
      · rw [ih _ _ hrest]

/-- The lines are those of the bytes that came in. -/
theorem wireLinesFrom_bytes (w : WireLine) (reads : List SockRead) :
    (wireLinesFrom w reads).map (fun v => v.line.bytes) =
      (((reads.filterMap SockRead.byte?).splitOn 10).modifyHead (w.line.bytes ++ ·)).dropLast := by
  induction reads generalizing w with
  | nil => simp [wireLinesFrom]
  | cons r reads ih =>
      cases r with
      | zero => exact ih w
      | error => exact ih _
      | byte b =>
          have hbytes : (SockRead.byte b :: reads).filterMap SockRead.byte? =
              b :: reads.filterMap SockRead.byte? := rfl
          obtain ⟨bs, rest, hsplit⟩ : ∃ bs rest,
              (reads.filterMap SockRead.byte?).splitOn 10 = bs :: rest :=
            List.exists_cons_of_ne_nil (List.splitOn_ne_nil _ _)
          rw [wireLinesFrom, hbytes, List.splitOn, List.splitOnP_cons_eq_if_modifyHead]
          rw [List.splitOn] at hsplit
          by_cases h : b = 10
          · have hrest := ih .fresh
            rw [List.splitOn, hsplit] at hrest
            rw [dif_pos h, if_pos (by simp [h]), List.map_cons, hrest, hsplit]
            simp [WireLine.fresh]
          · rw [dif_neg h, ih, List.splitOn, hsplit, if_neg (by simpa using h)]
            simp [Line.push]

/-- The lines are the pieces between the LFs of the bytes read, but the one not ended. -/
theorem wireLines_bytes (reads : List SockRead) :
    (wireLines reads).map (fun w => w.line.bytes) =
      ((reads.filterMap SockRead.byte?).splitOn 10).dropLast := by
  obtain ⟨bs, rest, hsplit⟩ := List.exists_cons_of_ne_nil
    (List.splitOn_ne_nil 10 (reads.filterMap SockRead.byte?))
  rw [wireLines, wireLinesFrom_bytes, hsplit]
  rfl

/-- Without a failed read no line has one. -/
theorem wireLinesFrom_failed {w : WireLine} {reads : List SockRead} (hw : w.failed = 0)
    (h : .error ∉ reads) : ∀ v ∈ wireLinesFrom w reads, v.failed = 0 := by
  induction reads generalizing w with
  | nil => simp [wireLinesFrom]
  | cons r reads ih =>
      obtain ⟨hne, hrest⟩ := not_or.mp fun hmem => h (List.mem_cons.mpr hmem)
      cases r with
      | zero => exact ih hw hrest
      | error => exact absurd rfl hne
      | byte b =>
          rw [wireLinesFrom]
          split
          · exact List.forall_mem_cons.mpr ⟨hw, ih rfl hrest⟩
          · exact ih hw hrest

/-- One pass of the loop is the prompt and what follows the parsing. -/
theorem Box.runLineOut_eq (modules : ModuleOutputs) (descs : CmdDescs) (b : Box) (l : Line) :
    b.runLineOut modules descs l =
      (b.execOut modules descs (commRunLine b.data l)).map fun r =>
        (commShowScreen ++ r.1, r.2) := by
  simp only [Box.runLineOut, Box.execOut]
  cases commExecCommand b.state.cmds b.state.tbl (commRunLine b.data l) b.state.cdatas with
  | none => rfl
  | some res =>
      cases hcall : res.call with
      | none => simp only [hcall, Option.map_some, List.append_nil]
      | some call => simp only [hcall]

/-- Failed reads leave what the loop does to the box alone. -/
theorem commLoopWire_box (modules : ModuleOutputs) (descs : CmdDescs) (lines : List WireLine)
    (b : Box) : (commLoopWire modules descs lines b).map Prod.snd =
      (commLoopOut modules descs (lines.map WireLine.line) b).map Prod.snd := by
  induction lines generalizing b with
  | nil => rfl
  | cons w lines ih =>
      rw [commLoopWire, List.map_cons, commLoopOut, Box.runLineOut_eq]
      cases b.execOut modules descs (commRunLine b.data w.line) with
      | none => rfl
      | some r =>
          simp only [Option.map_some]
          split
          · rfl
          · simpa [Option.map_map, Function.comp_def] using ih r.2

/-- Without failed reads the loop prints what it prints of the lines. -/
theorem commLoopWire_quiet (modules : ModuleOutputs) (descs : CmdDescs) {lines : List WireLine}
    (h : ∀ w ∈ lines, w.failed = 0) (b : Box) : commLoopWire modules descs lines b =
      commLoopOut modules descs (lines.map WireLine.line) b := by
  induction lines generalizing b with
  | nil => rfl
  | cons w lines ih =>
      obtain ⟨hw, hrest⟩ := List.forall_mem_cons.mp h
      rw [commLoopWire, List.map_cons, commLoopOut, Box.runLineOut_eq]
      cases b.execOut modules descs (commRunLine b.data w.line) with
      | none => rfl
      | some r => simp [WireLine.printed, hw, ih hrest r.2]

/-- **The bytes as they come.**  Whatever the modules do, the loop on the reads is the loop on
the lines of the bytes: it ends on the same box, and where no read failed it prints the
same. -/
theorem commLoopSock_lines (modules : ModuleOutputs) (descs : CmdDescs) (reads : List SockRead)
    (b : Box) :
    ∃ session : List Line,
      session.map Line.bytes = ((reads.filterMap SockRead.byte?).splitOn 10).dropLast ∧
      (commLoopSock modules descs reads b).map Prod.snd =
        (commLoopOut modules descs session b).map Prod.snd ∧
      (.error ∉ reads →
        commLoopSock modules descs reads b = commLoopOut modules descs session b) := by
  refine ⟨(wireLines reads).map WireLine.line, ?_, ?_, fun herr => ?_⟩
  · rw [List.map_map]
    exact wireLines_bytes reads
  · rw [commLoopSock_wire, commLoopWire_box]
  · rw [commLoopSock_wire]
    exact commLoopWire_quiet _ _ (wireLinesFrom_failed (w := .fresh) rfl herr) b

/-- What the calls on the network return; a client there is not has nothing to read. -/
structure Net where
  socket : Int
  bind : Int
  listen : Int
  accept : Int
  reads : List SockRead
  refused : accept < 0 → ∀ r ∈ reads, r = .error

/-- How the program ends: what `main` returns, what was printed, and the descriptors
closed. -/
structure ServerExit where
  ret : Int
  printed : List UInt8
  closed : List Int
  deriving DecidableEq

/-- `%d`. -/
def intText (n : Int) : List UInt8 :=
  asciiBytes (toString n)

/-- What `server_main` prints when the address is bound. -/
def bindOk (fd : Int) : List UInt8 :=
  asciiBytes "bind ok, fd:" ++ intText fd ++ asciiBytes ", ip:127.0.0.1, port:1234" ++ [lineFeed]

/-- What it prints around `accept`. -/
def connected (fd : Int) : List UInt8 :=
  asciiBytes "wait connection ..." ++ [lineFeed] ++
    asciiBytes "client " ++ intText fd ++ asciiBytes " connceted" ++ [lineFeed]

/-- What it prints at the end. -/
def serverClosed : List UInt8 :=
  asciiBytes "server closed" ++ [lineFeed]

/-- `comm_main` on a socket. -/
def commMainSock (usb sock : Bool) (modules : ModuleOutputs) (descs : CmdDescs) (tbl : CmdTable)
    (reads : List SockRead) : Option (List UInt8 × Int × CmdState) :=
  (commLoopSock modules descs reads (Box.start (commStartUp usb sock tbl).2)).map fun r =>
    (commClearScreen ++ r.1 ++ commClearScreen ++ seeYouAgain, commShutDown usb sock r.2.state)

/-- `server_main`; `none` while it waits for the client. -/
def serverMain (usb sock : Bool) (modules : ModuleOutputs) (descs : CmdDescs) (tbl : CmdTable)
    (net : Net) : Option ServerExit :=
  if net.socket < 0 then some ⟨-1, [], []⟩
  else if net.bind ≠ 0 then some ⟨0, serverClosed, [net.socket]⟩
  else if net.listen ≠ 0 then some ⟨0, bindOk net.socket ++ serverClosed, [net.socket]⟩
  else (commMainSock usb sock modules descs tbl net.reads).map fun r =>
    ⟨0, bindOk net.socket ++ connected net.accept ++ r.1 ++ serverClosed, [net.socket]⟩

/-- What a session prints: a prompt for each line, the reads that failed before it was there,
and the reply. -/
def wireScreen (cmds : CmdMem) (descs : CmdDescs) (slots : List (Option Addr)) :
    List WireLine → List UInt8
  | [] => []
  | w :: lines =>
    commShowScreen ++ w.printed ++ shellReply cmds descs slots w.line.tokens ++
      if quits cmds slots w.line.tokens then [] else wireScreen cmds descs slots lines

section Screen

variable {cmds : CmdMem} {tbl : CmdTable}

/-- The reply to a line. -/
theorem Box.Ready.execOut (descs : CmdDescs) {b : Box} (hb : b.Ready cmds tbl)
    (hgroup : ∀ a, some a ∈ tbl.slots → (cmds a).Grouped) {l : Line}
    (hl : l.Shell cmds tbl.slots) (hecho : l.tokens ≠ [(lit "echo").bytes])
    (hplain : ∀ call, shellCall cmds tbl.slots l.tokens = some call → call.Plain l.tokens) :
    ∃ b', b.execOut sockCmdHandlerOut descs (commRunLine b.data l) =
        some (shellReply cmds descs tbl.slots l.tokens, b') ∧
      b'.Ready cmds tbl ∧ (b.quit = false → b'.quit = quits cmds tbl.slots l.tokens) := by
  obtain ⟨b', hrun, hready, hquits⟩ : ∃ b', b.runLineOut sockCmdHandlerOut descs l =
      some (commShowScreen ++ shellReply cmds descs tbl.slots l.tokens, b') ∧ _ :=
    hb.runLineOut hgroup hl hecho hplain
  rw [Box.runLineOut_eq] at hrun
  obtain ⟨⟨out, b''⟩, hexec, hpair⟩ := Option.map_eq_some_iff.mp hrun
  obtain ⟨hout, rfl⟩ := Prod.mk.inj hpair
  obtain rfl := List.append_cancel_left hout
  exact ⟨b'', hexec, hready, hquits⟩

/-- The session ends where a line says so, and prints what the lines say. -/
theorem commLoopWire_screen (descs : CmdDescs) {b : Box} (hb : b.Ready cmds tbl)
    (hquit : b.quit = false)
    (hgroup : ∀ a, some a ∈ tbl.slots → (cmds a).Grouped)
    (hplain : ∀ ts call, shellCall cmds tbl.slots ts = some call → call.Plain ts)
    {lines : List WireLine} (hlines : ∀ w ∈ lines, w.line.Shell cmds tbl.slots)
    (hecho : ∀ w ∈ lines, w.line.tokens ≠ [(lit "echo").bytes]) :
    (commLoopWire sockCmdHandlerOut descs lines b).map Prod.fst =
      if ∃ w ∈ lines, quits cmds tbl.slots w.line.tokens = true then
        some (wireScreen cmds descs tbl.slots lines)
      else none := by
  induction lines generalizing b with
  | nil => simp [commLoopWire]
  | cons w lines ih =>
      obtain ⟨b', hexec, hready, hquits⟩ := hb.execOut descs hgroup
        (hlines w List.mem_cons_self) (hecho w List.mem_cons_self) (hplain w.line.tokens)
      have hquits := hquits hquit
      rw [commLoopWire, hexec, wireScreen]
      simp only [hquits]
      by_cases hend : quits cmds tbl.slots w.line.tokens = true
      · simp [hend]
      · have hrest := ih hready (hquits.trans (Bool.eq_false_iff.mpr hend))
          (fun v hv => hlines v (List.mem_cons_of_mem w hv))
          (fun v hv => hecho v (List.mem_cons_of_mem w hv))
        have hmap : ∀ (o : Option (List UInt8 × Box)) (pre : List UInt8),
            (o.map fun r => (pre ++ r.1, r.2)).map Prod.fst = (o.map Prod.fst).map (pre ++ ·) := by
          intro o pre
          cases o <;> rfl
        rw [if_neg hend, if_neg hend, hmap, hrest]
        by_cases hmore : ∃ v ∈ lines, quits cmds tbl.slots v.line.tokens = true
        · rw [if_pos hmore, if_pos (by simpa [hend] using hmore)]
          simp
        · rw [if_neg hmore, if_neg (by simpa [hend] using hmore)]
          rfl

end Screen

/-- The line begins with `quit` or `exit`. -/
def WireLine.Ends (w : WireLine) : Prop :=
  w.line.tokens.head? = some (lit "quit").bytes ∨ w.line.tokens.head? = some (lit "exit").bytes

instance (w : WireLine) : Decidable w.Ends :=
  inferInstanceAs (Decidable (_ ∨ _))

/-- `comm_main` without the usb module. -/
theorem commMainSock_screen (sock : Bool) (descs : CmdDescs) (tbl : CmdTable)
    {reads : List SockRead}
    (hlines : ∀ w ∈ wireLines reads, w.line.Fits ∧ w.line.tokens ≠ [(lit "echo").bytes]) :
    (commMainSock false sock sockCmdHandlerOut descs tbl reads).map Prod.fst =
      if ∃ w ∈ wireLines reads, w.Ends then
        some (commClearScreen ++
            wireScreen (started false sock).cmds descs (started false sock).tbl.slots
              (wireLines reads) ++
          commClearScreen ++ seeYouAgain)
      else none := by
  have hready : (Box.start (started false sock)).Ready (started false sock).cmds
      (started false sock).tbl := ⟨rfl, rfl, rfl⟩
  have hscreen := commLoopWire_screen descs hready rfl
    (fun a ha => started_named false sock ha) (fun ts call h => started_plain h)
    (fun w hw => started_shell false sock (hlines w hw).1
      fun husb => absurd husb Bool.false_ne_true)
    (fun w hw => (hlines w hw).2)
  have hquits : ∀ w : WireLine, quits (started false sock).cmds (started false sock).tbl.slots
      w.line.tokens = true ↔ w.Ends := fun w => started_quits false sock w.line.tokens
  simp only [hquits] at hscreen
  have hmain : (commMainSock false sock sockCmdHandlerOut descs tbl reads).map Prod.fst =
      ((commLoopWire sockCmdHandlerOut descs (wireLines reads)
        (Box.start (started false sock))).map Prod.fst).map
          (commClearScreen ++ · ++ commClearScreen ++ seeYouAgain) := by
    rw [commMainSock, commStartUp_prior, commLoopSock_wire, Option.map_map, Option.map_map]
    rfl
  rw [hmain, hscreen]
  by_cases hends : ∃ w ∈ wireLines reads, w.Ends
  · rw [if_pos hends, if_pos hends]
    rfl
  · rw [if_neg hends, if_neg hends]
    rfl

/-- The server has its socket, its address and its queue. -/
def Net.Up (net : Net) : Prop :=
  0 ≤ net.socket ∧ net.bind = 0 ∧ net.listen = 0

/-- A server with its socket, address and queue prints the session between its own messages. -/
theorem serverMain_up {net : Net} (h : net.Up) (usb sock : Bool) (modules : ModuleOutputs)
    (descs : CmdDescs) (tbl : CmdTable) :
    serverMain usb sock modules descs tbl net =
      ((commMainSock usb sock modules descs tbl net.reads).map Prod.fst).map fun out =>
        ⟨0, bindOk net.socket ++ connected net.accept ++ out ++ serverClosed, [net.socket]⟩ := by
  obtain ⟨hsocket, hbind, hlisten⟩ := h
  rw [serverMain, if_neg (by omega), if_neg (not_not.mpr hbind), if_neg (not_not.mpr hlisten),
    Option.map_map]
  rfl

/-- A server that lacks one of them returns. -/
theorem serverMain_down {net : Net} (h : ¬ net.Up) (usb sock : Bool) (modules : ModuleOutputs)
    (descs : CmdDescs) (tbl : CmdTable) :
    (serverMain usb sock modules descs tbl net).isSome = true := by
  rw [serverMain]
  split
  · rfl
  next hsocket =>
  split
  · rfl
  next hbind =>
  split
  · rfl
  next hlisten =>
  exact absurd ⟨by omega, not_not.mp hbind, not_not.mp hlisten⟩ h

/-- A client there is not sends no line. -/
theorem Net.wireLines_refused {net : Net} (h : net.accept < 0) : wireLines net.reads = [] := by
  have hnone : ∀ (reads : List SockRead) (w : WireLine), (∀ r ∈ reads, r = .error) →
      wireLinesFrom w reads = [] := by
    intro reads
    induction reads with
    | nil => exact fun _ _ => rfl
    | cons r reads ih =>
        intro w hall
        obtain ⟨rfl, hrest⟩ := List.forall_mem_cons.mp hall
        exact ih _ hrest
  exact hnone net.reads .fresh (net.refused h)

/-- **The program on a socket.**  Without the usb module, where the lines that come in fit the
buffer and none is `echo` alone: `main` returns exactly if the server did not come up or a
line begins with `quit` or `exit`.  A session that ends printed what its lines say, and the
server's descriptor is closed and not the client's; where `accept` failed the program reads
on for ever. -/
theorem serverMain_screen (sock : Bool) (descs : CmdDescs) (tbl : CmdTable) {net : Net}
    (hlines : ∀ w ∈ wireLines net.reads, w.line.Fits ∧ w.line.tokens ≠ [(lit "echo").bytes]) :
    let served := serverMain false sock sockCmdHandlerOut descs tbl net
    let ends := ∃ w ∈ wireLines net.reads, w.Ends
    (served.isSome = true ↔ ¬ net.Up ∨ ends) ∧
      (net.Up → ends → served = some
        { ret := 0
          printed := bindOk net.socket ++ connected net.accept ++
            (commClearScreen ++
                wireScreen (started false sock).cmds descs (started false sock).tbl.slots
                  (wireLines net.reads) ++
              commClearScreen ++ seeYouAgain) ++ serverClosed
          closed := [net.socket] }) ∧
      (net.Up → net.accept < 0 → served = none) := by
  intro served ends
  have hscreen := commMainSock_screen sock descs tbl hlines
  have hserved := fun (hup : net.Up) (hends : ends) =>
    (serverMain_up hup false sock sockCmdHandlerOut descs tbl).trans
      (congrArg (Option.map _) (hscreen.trans (if_pos hends)))
  have hwaits : net.Up → ¬ ends → served = none := fun hup hends =>
    (serverMain_up hup false sock sockCmdHandlerOut descs tbl).trans
      (congrArg (Option.map _) (hscreen.trans (if_neg hends)))
  refine ⟨⟨fun hsome => ?_, ?_⟩, hserved, fun hup haccept => hwaits hup ?_⟩
  · by_contra hneither
    obtain ⟨hup, hends⟩ := not_or.mp hneither
    rw [hwaits (not_not.mp hup) hends] at hsome
    cases hsome
  · rintro (hdown | hends)
    · exact serverMain_down hdown _ _ _ _ _
    · by_cases hup : net.Up
      · exact congrArg Option.isSome (hserved hup hends)
      · exact serverMain_down hup _ _ _ _ _
  · rintro ⟨w, hw, -⟩
    rw [Net.wireLines_refused haccept] at hw
    cases hw

/-- A client whose `echo hi` is held up by a failed read, and that ends with `exit`. -/
def heldUpNet : Net where
  socket := 3
  bind := 0
  listen := 0
  accept := 4
  reads := (asciiBytes "echo").map .byte ++ [.zero, .error] ++
    (asciiBytes " hi\nexit\x0d\n").map .byte
  refused := by decide

/-- A read of no bytes and a failed one hold up the first of two lines. -/
theorem serverMain_screen_heldUp :
    serverMain false true sockCmdHandlerOut (fun _ => none) commInitCommand heldUpNet = some
      { ret := 0
        printed := asciiBytes ("bind ok, fd:3, ip:127.0.0.1, port:1234\nwait connection ...\n" ++
          "client 4 connceted\n\nCMD>sock_getc_blocked, error -1\n\nhi\nCMD>\n" ++
          "See you again.\nserver closed\n")
        closed := [3] } := by
  have hlines : ∀ w ∈ wireLines heldUpNet.reads,
      w.line.Fits ∧ w.line.tokens ≠ [(lit "echo").bytes] := by decide +kernel
  have hends : ∃ w ∈ wireLines heldUpNet.reads, w.Ends := by decide +kernel
  obtain ⟨-, hserved, -⟩ := serverMain_screen true (fun _ => none) commInitCommand hlines
  rw [hserved ⟨by decide, rfl, rfl⟩ hends]
  decide +kernel

end Comm

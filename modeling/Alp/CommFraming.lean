import Alp.CommReader

/-!
# One call, one line

A stream of lines, each shorter than `temp` and ended by LF or CR LF, is cut by
`comm_get_command` exactly at its line ends: `commGetCommand_framed` is one call,
whatever the command data held, and `commGetCommand_stream` the `k`-th call on the
stream, where each call may find any command data.

The characters are those of `comm_fgetc` in either build: `fgetc` returns a byte as
it is, `sock_getc_blocked` through a `char`.
-/

set_option autoImplicit false

namespace Comm

open CString RestartBuffer

/-- The value `comm_fgetc` returns for a byte; `useSocket` says whether `USE_SOCKET` was
defined, where the byte goes through a (signed) `char`. -/
def commFgetc (useSocket : Bool) (b : UInt8) : Int :=
  if useSocket ∧ 128 ≤ b.toNat then b.toNat - 256 else b.toNat

/-- A line of the stream and how it ends. -/
structure FramedLine where
  bytes : List UInt8
  /-- The line ends in CR LF. -/
  crlf : Bool
  noLf : (10 : UInt8) ∉ bytes
  short : bytes.length < commTempBufSize
  noCr : crlf = false → bytes.getLast? ≠ some 13

/-- The bytes of a line before its line feed. -/
def FramedLine.body (l : FramedLine) : List UInt8 :=
  l.bytes ++ if l.crlf then [13] else []

/-- The characters of a line. -/
def FramedLine.chars (useSocket : Bool) (l : FramedLine) : List Int :=
  l.body.map (commFgetc useSocket) ++ [10]

/-- The characters of the lines one after another. -/
def streamChars (useSocket : Bool) (lines : List FramedLine) : List Int :=
  lines.flatMap (FramedLine.chars useSocket)

/-- The characters left after `k` calls, of which call `i` finds the command data
`ds i`. -/
def inputAfter (ds : Nat → CommData) (input : List Int) : Nat → Option (List Int)
  | 0 => some input
  | k + 1 => (inputAfter ds input k).bind fun left =>
    (commGetCommand (ds k) left).map Prod.snd

/-- The command data hold the line `w`. -/
structure HoldsLine (d : CommData) (w : List UInt8) : Prop where
  text : Holds d.temp 0 w
  tmpc : d.tmpc = w.length
  ends : d.temp d.tmpc = nul

/-- A byte read as a character is the byte. -/
theorem charByte_commFgetc (useSocket : Bool) (b : UInt8) :
    charByte (commFgetc useSocket b) = b := by
  unfold commFgetc
  split
  · have hmod : ((b.toNat : Int) - 256) % 256 = (b.toNat : Int) % 256 := by omega
    rw [charByte, hmod]
    exact charByte_toNat b
  · exact charByte_toNat b

/-- The character LF is the byte LF. -/
theorem commFgetc_eq_lf {useSocket : Bool} {b : UInt8} (h : commFgetc useSocket b = 10) :
    b = 10 := by
  rw [← charByte_commFgetc useSocket b, h]
  rfl

/-- Of a framed line its bytes are left when the CR is cut. -/
theorem FramedLine.stripCr_body (l : FramedLine) : stripCr l.body = l.bytes := by
  unfold FramedLine.body stripCr
  cases hcrlf : l.crlf with
  | true => simp
  | false => simpa using fun h => absurd h (l.noCr hcrlf)

/-- A framed line fits the buffer. -/
theorem FramedLine.length_body_le (l : FramedLine) : l.body.length ≤ commTempBufSize := by
  have hshort := l.short
  unfold FramedLine.body
  cases l.crlf <;> simp <;> omega

/-- **One call.**  Reading stops behind the line's own end and leaves the line. -/
theorem commGetCommand_framed (useSocket : Bool) {d : CommData} (hd : d.tmpsize = commTempBufSize)
    (l : FramedLine) (rest : List Int) :
    ∃ d', commGetCommand d (l.chars useSocket ++ rest) = some (d', rest) ∧
      HoldsLine d' l.bytes := by
  have hlf : (10 : Int) ∉ l.body.map (commFgetc useSocket) := by
    intro hmem
    obtain ⟨b, hb, hten⟩ := List.mem_map.mp hmem
    obtain rfl := commFgetc_eq_lf hten
    rcases List.mem_append.mp hb with hline | hcr
    · exact l.noLf hline
    · cases hcrlf : l.crlf <;> simp [hcrlf] at hcr
  have hkept : stripCr (keptBytes (l.body.map (commFgetc useSocket))) = l.bytes := by
    have hbytes : (l.body.map (commFgetc useSocket)).map charByte = l.body := by
      rw [List.map_map]
      exact (List.map_congr_left fun b _ => charByte_commFgetc useSocket b).trans (List.map_id _)
    rw [keptBytes, hbytes, lastChunk_of_le l.length_body_le, l.stripCr_body]
  obtain ⟨d', hres, hread⟩ := commGetCommand_reads d hd _ hlf rest
  refine ⟨d', ?_, ?_⟩
  · rw [FramedLine.chars, List.append_assoc, List.singleton_append]
    exact hres
  · obtain ⟨htext, htmpc, -, hinside, -⟩ := hread
    rw [hkept] at htext htmpc hinside
    refine ⟨htext, htmpc, ?_⟩
    rw [htmpc]
    exact (hinside l.short).1

/-- The stream goes on behind its first line. -/
theorem streamChars_cons (useSocket : Bool) (l : FramedLine) (lines : List FramedLine) :
    streamChars useSocket (l :: lines) = l.chars useSocket ++ streamChars useSocket lines :=
  rfl

/-- `k` calls take `k` lines. -/
theorem inputAfter_stream (useSocket : Bool) {ds : Nat → CommData}
    (hds : ∀ k, (ds k).tmpsize = commTempBufSize) (lines : List FramedLine) (rest : List Int)
    {k : Nat} (hk : k ≤ lines.length) :
    inputAfter ds (streamChars useSocket lines ++ rest) k =
      some (streamChars useSocket (lines.drop k) ++ rest) := by
  induction k with
  | zero => rfl
  | succ k ih =>
      have hlt : k < lines.length := by omega
      obtain ⟨d', hres, -⟩ := commGetCommand_framed useSocket (hds k) lines[k]
        (streamChars useSocket (lines.drop (k + 1)) ++ rest)
      rw [inputAfter, ih (by omega), List.drop_eq_getElem_cons hlt, streamChars_cons,
        List.append_assoc, Option.bind_some, hres]
      rfl

/-- **Input framing.**  On a stream of lines, whatever the calls find in their command
data: the `k`-th call takes exactly the `k`-th line with its end and leaves that
line, terminated. -/
theorem commGetCommand_stream (useSocket : Bool) {ds : Nat → CommData}
    (hds : ∀ k, (ds k).tmpsize = commTempBufSize) (lines : List FramedLine) (rest : List Int)
    {k : Nat} (hk : k < lines.length) :
    ∃ left d', inputAfter ds (streamChars useSocket lines ++ rest) k = some left ∧
      left = lines[k].chars useSocket ++ (streamChars useSocket (lines.drop (k + 1)) ++ rest) ∧
      commGetCommand (ds k) left =
        some (d', streamChars useSocket (lines.drop (k + 1)) ++ rest) ∧
      HoldsLine d' lines[k].bytes := by
  obtain ⟨d', hres, hline⟩ := commGetCommand_framed useSocket (hds k) lines[k]
    (streamChars useSocket (lines.drop (k + 1)) ++ rest)
  refine ⟨_, d', inputAfter_stream useSocket hds lines rest (Nat.le_of_lt hk), ?_, ?_, hline⟩
  · rw [List.drop_eq_getElem_cons hk, streamChars_cons, List.append_assoc]
  · rw [List.drop_eq_getElem_cons hk, streamChars_cons, List.append_assoc]
    exact hres

/-- The second of two lines, one ended by LF and one by CR LF. -/
theorem commGetCommand_stream_second :
    ∃ (lines : List FramedLine) (left : List Int) (d' : CommData),
      streamChars false lines = [97, 10, 98, 13, 10] ∧
        inputAfter (fun _ => commInitData) (streamChars false lines ++ []) 1 = some left ∧
        commGetCommand commInitData left = some (d', []) ∧ HoldsLine d' [98] := by
  have hinit : ∀ k : Nat, ((fun _ => commInitData) k).tmpsize = commTempBufSize := fun _ => rfl
  obtain ⟨left, d', hleft, -, hres, hline⟩ := commGetCommand_stream false hinit
    [⟨[97], false, by decide, by decide, by decide⟩, ⟨[98], true, by decide, by decide, nofun⟩]
    [] (k := 1) (by decide)
  exact ⟨_, left, d', rfl, hleft, hres, hline⟩

end Comm

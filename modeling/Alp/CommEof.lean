import Alp.CommBounds
import Alp.CommFraming

/-!
# The end of the input

The loop of `comm_get_command` is left at a line feed only (in demo-calc at LF or CR).
After the last byte of the input `fgetc` returns `EOF` for ever, which is stored like
any character, and `read` on the socket returns 0 for ever, on which
`sock_getc_blocked` tries again.

An endless source is a function from call numbers to results; the reader returns when
it does so on some finite part of them.
-/

set_option autoImplicit false

namespace Comm

/-- The line is finished exactly where an LF comes. -/
theorem commGetLoop_isSome_iff (size : Nat) (d : CommData) (cnt : Nat) (input : List Int) :
    (commGetLoop size d cnt input).isSome = true ↔ 10 ∈ input := by
  induction input generalizing d cnt with
  | nil => simp [commGetLoop]
  | cons c input ih =>
      rw [commGetLoop]
      by_cases hc : c = 10
      · simp [hc]
      · rw [if_neg hc, List.mem_cons, or_iff_right (Ne.symm hc)]
        exact ih _ _

/-- The first `n` results of an endless source. -/
def firstResults {α : Type} (source : Nat → α) (n : Nat) : List α :=
  (List.range n).map source

/-- The first results of a source are its results. -/
theorem mem_firstResults {α : Type} {source : Nat → α} {a : α} :
    (∃ n, a ∈ firstResults source n) ↔ ∃ i, source i = a := by
  constructor
  · rintro ⟨n, hmem⟩
    obtain ⟨i, -, hi⟩ := List.mem_map.mp hmem
    exact ⟨i, hi⟩
  · rintro ⟨i, hi⟩
    exact ⟨i + 1, List.mem_map.mpr ⟨i, List.mem_range.mpr (Nat.lt_succ_self i), hi⟩⟩

/-- `EOF`. -/
def eof : Int := -1

/-- What the `i`-th `fgetc(stdin)` returns. -/
def stdinChar (input : List UInt8) (i : Nat) : Int :=
  (input[i]?.map (commFgetc false)).getD eof

/-- What `read(client_fd, &temp, 1)` returns, with the byte it stored. -/
inductive SockRead
  | byte (b : UInt8)
  | zero
  | error
  deriving DecidableEq

/-- `sock_getc_blocked` on the results of its reads; `none` while it goes on reading. -/
def sockGetcBlocked : List SockRead → Option (Int × List SockRead)
  | [] => none
  | .byte b :: rest => some (commFgetc true b, rest)
  | .zero :: rest => sockGetcBlocked rest
  | .error :: rest => sockGetcBlocked rest

/-- What at most `k` calls of `sock_getc_blocked` return on the results of their reads. -/
def sockChars : Nat → List SockRead → List Int
  | 0, _ => []
  | k + 1, reads =>
    match sockGetcBlocked reads with
    | none => []
    | some (c, rest) => c :: sockChars k rest

/-- What the `i`-th `read` returns. -/
def sockResult (input : List SockRead) (i : Nat) : SockRead :=
  input.getD i .zero

/-- The byte a `read` stored. -/
def SockRead.byte? : SockRead → Option UInt8
  | .byte b => some b
  | .zero | .error => none

/-- `comm_get_command` of the stdin build returns. -/
def StdinReturns (d : CommData) (input : List UInt8) : Prop :=
  ∃ n, (commGetCommand d (firstResults (stdinChar input) n)).isSome = true

/-- `comm_get_command` of the socket build returns. -/
def SocketReturns (d : CommData) (input : List SockRead) : Prop :=
  ∃ n k, (commGetCommand d (sockChars k (firstResults (sockResult input) n))).isSome = true

/-- A byte is the character LF exactly when it is the byte LF. -/
theorem commFgetc_lf_iff {useSocket : Bool} {b : UInt8} : commFgetc useSocket b = 10 ↔ b = 10 := by
  constructor
  · exact commFgetc_eq_lf
  · rintro rfl
    cases useSocket <;> rfl

/-- The characters of `stdin` are its bytes, and EOF. -/
theorem exists_stdinChar_iff {input : List UInt8} {c : Int} (hc : c ≠ eof) :
    (∃ i, stdinChar input i = c) ↔ ∃ b ∈ input, commFgetc false b = c := by
  constructor
  · rintro ⟨i, hi⟩
    unfold stdinChar at hi
    cases hget : input[i]? with
    | none =>
        rw [hget] at hi
        exact absurd hi.symm hc
    | some b =>
        rw [hget] at hi
        exact ⟨b, List.mem_of_getElem? hget, hi⟩
  · rintro ⟨b, hmem, hb⟩
    obtain ⟨i, hi⟩ := List.mem_iff_getElem?.mp hmem
    exact ⟨i, by rw [stdinChar, hi]; exact hb⟩

/-- The reads without a byte are waited out. -/
theorem sockChars_eq (k : Nat) (reads : List SockRead) :
    sockChars k reads = ((reads.filterMap SockRead.byte?).take k).map (commFgetc true) := by
  induction reads generalizing k with
  | nil => cases k <;> rfl
  | cons r reads ih =>
      cases k with
      | zero => rfl
      | succ k =>
          cases r with
          | byte b => exact congrArg (commFgetc true b :: ·) (ih k)
          | zero => exact ih (k + 1)
          | error => exact ih (k + 1)

/-- The reader of `stdin` returns exactly where an LF is in the input. -/
theorem stdinReturns_iff (d : CommData) (input : List UInt8) :
    StdinReturns d input ↔ 10 ∈ input := by
  unfold StdinReturns commGetCommand
  simp only [commGetLoop_isSome_iff]
  rw [mem_firstResults, exists_stdinChar_iff (by decide)]
  constructor
  · rintro ⟨b, hmem, hb⟩
    exact commFgetc_lf_iff.mp hb ▸ hmem
  · exact fun hmem => ⟨10, hmem, rfl⟩

/-- The reader of the socket returns exactly where an LF is read. -/
theorem socketReturns_iff (d : CommData) (input : List SockRead) :
    SocketReturns d input ↔ .byte 10 ∈ input := by
  unfold SocketReturns commGetCommand
  simp only [commGetLoop_isSome_iff, sockChars_eq]
  constructor
  · rintro ⟨n, k, hmem⟩
    obtain ⟨b, hb, hlf⟩ := List.mem_map.mp hmem
    obtain rfl := commFgetc_lf_iff.mp hlf
    obtain ⟨r, hr, hbyte⟩ := List.mem_filterMap.mp (List.mem_of_mem_take hb)
    obtain ⟨i, -, hi⟩ := List.mem_map.mp hr
    cases r with
    | byte b =>
        cases hbyte
        unfold sockResult at hi
        rw [List.getD_eq_getElem?_getD] at hi
        cases hget : input[i]? with
        | none => rw [hget] at hi; cases hi
        | some r =>
            rw [hget] at hi
            obtain rfl : r = .byte 10 := hi
            exact List.mem_of_getElem? hget
    | zero => cases hbyte
    | error => cases hbyte
  · intro hmem
    obtain ⟨i, hi⟩ := List.mem_iff_getElem?.mp hmem
    have hresult : sockResult input i = .byte 10 := by
      rw [sockResult, List.getD_eq_getElem?_getD, hi]
      rfl
    obtain ⟨n, hn⟩ := mem_firstResults.mpr ⟨i, hresult⟩
    refine ⟨n, ((firstResults (sockResult input) n).filterMap SockRead.byte?).length, ?_⟩
    rw [List.take_length]
    exact List.mem_map.mpr ⟨10, List.mem_filterMap.mpr ⟨.byte 10, hn, rfl⟩, rfl⟩

end Comm

namespace Calc

open Comm

/-- The calculator's reader ends a line at a CR too. -/
theorem commGetLoop_isSome_iff (size : Nat) (d : CommData) (cnt : Nat) (input : List Int) :
    (commGetLoop size d cnt input).isSome = true ↔ 10 ∈ input ∨ 13 ∈ input := by
  induction input generalizing d cnt with
  | nil => simp [commGetLoop]
  | cons c input ih =>
      rw [commGetLoop]
      by_cases hc : c = 10 ∨ c = 13
      · rw [if_pos hc]
        rcases hc with rfl | rfl <;> simp
      · rw [if_neg hc, ih]
        obtain ⟨hlf, hcr⟩ := not_or.mp hc
        rw [List.mem_cons, List.mem_cons, or_iff_right (Ne.symm hlf), or_iff_right (Ne.symm hcr)]

/-- `comm_get_command` of demo-calc returns. -/
def StdinReturns (d : CommData) (input : List UInt8) : Prop :=
  ∃ n, (commGetCommand d (firstResults (stdinChar input) n)).isSome = true

/-- The calculator's reader returns exactly where an LF or a CR is in the input. -/
theorem stdinReturns_iff (d : CommData) (input : List UInt8) :
    StdinReturns d input ↔ 10 ∈ input ∨ 13 ∈ input := by
  have hbyte : ∀ a : UInt8, commFgetc false a ≠ eof →
      ((∃ n, commFgetc false a ∈ firstResults (stdinChar input) n) ↔ a ∈ input) := by
    intro a ha
    rw [mem_firstResults, exists_stdinChar_iff ha]
    constructor
    · rintro ⟨b, hmem, hb⟩
      have hab := congrArg charByte hb
      rw [charByte_commFgetc, charByte_commFgetc] at hab
      exact hab ▸ hmem
    · exact fun hmem => ⟨a, hmem, rfl⟩
  unfold StdinReturns commGetCommand
  simp only [commGetLoop_isSome_iff]
  rw [exists_or]
  exact or_congr (hbyte 10 (by decide)) (hbyte 13 (by decide))

end Calc

namespace Comm

/-- **The end of the input.**  Whatever the command data hold, on every finite input
followed by end of input for ever: the reader returns exactly when the input has a
line end, in each of the three builds. -/
theorem reader_returns_iff (d : CommData) (input : List UInt8) (reads : List SockRead) :
    (StdinReturns d input ↔ 10 ∈ input) ∧ (SocketReturns d reads ↔ .byte 10 ∈ reads) ∧
      (Calc.StdinReturns d input ↔ 10 ∈ input ∨ 13 ∈ input) :=
  ⟨stdinReturns_iff d input, socketReturns_iff d reads, Calc.stdinReturns_iff d input⟩

/-- On an input that ends in the middle of a line no reader returns. -/
theorem readers_wait_at_eof :
    ¬ StdinReturns commInitData [104, 105] ∧
      ¬ SocketReturns commInitData [.byte 104, .byte 105] ∧
      ¬ Calc.StdinReturns commInitData [104, 105] := by
  rw [stdinReturns_iff, socketReturns_iff, Calc.stdinReturns_iff]
  decide

end Comm

import Alp.LineServer

/-!
# Messages over the text-line socket

`send_message` of `c5-3/client.c` writes a message and then CR LF.  The server drops the
byte before LF, clears its buffer for every line and does not report an empty one, so it
reports what was sent, up to the first `quit`.
-/

set_option autoImplicit false

namespace LineServer

open CString LocalSocket

/-- `send_message`: the bytes written.  A `write` of a negative length fails. -/
def sendMessage (msg : CStr) : List UInt8 :=
  let len := BitVec.ofNat 32 msg.bytes.length
  (if len.toInt < 0 then [] else msg.bytes.take (sizeT len)) ++ [cr, lf]

/-- The stream of a client's messages. -/
def stream (msgs : List CStr) : List UInt8 :=
  msgs.flatMap sendMessage

/-- The messages up to and including the first `quit`. -/
def uptoQuit : List (List UInt8) → List (List UInt8)
  | [] => []
  | msg :: msgs => if msg = quit then [msg] else msg :: uptoQuit msgs

/-- A message that fits in the server's buffer with its CR. -/
structure Fits (msg : CStr) : Prop where
  noLf : lf ∉ msg.bytes
  length_le : msg.bytes.length ≤ serverBufSize - 1

/-- A message is sent with a CR and an LF behind it. -/
theorem sendMessage_eq {msg : CStr} (h : msg.bytes.length < 2 ^ 31) :
    sendMessage msg = msg.bytes ++ [cr] ++ [lf] := by
  have hpos : ¬ (BitVec.ofNat 32 msg.bytes.length).toInt < 0 := by
    rw [BitVec.toInt_eq_toNat_cond, toNat_length h]
    split <;> omega
  unfold sendMessage
  dsimp only
  rw [if_neg hpos, sizeT_length h, List.take_length, List.append_assoc]
  rfl

/-- One message: it is reported unless it is empty, and the server is at the start of a
line again unless it is `quit`. -/
theorem feed_sendMessage {s : Server} (hs : AtLine s) {msg : CStr} (h : Fits msg) :
    let t := s.feed (sendMessage msg)
    t.messages = s.messages ++ (if msg.bytes = [] then [] else [msg.bytes]) ∧
      (msg.bytes = quit → t.status = .returned) ∧ (msg.bytes ≠ quit → AtLine t) := by
  have hsmall : msg.bytes.length < serverBufSize := by
    have := h.length_le
    have hsize : 0 < serverBufSize := by decide
    omega
  have hcr : lf ∉ msg.bytes ++ [cr] := by
    rw [List.mem_append, List.mem_singleton]
    rintro (hmem | heq)
    · exact h.noLf hmem
    · exact absurd heq (by decide)
  have hlt : msg.bytes.length < 2 ^ 31 := by
    apply hsmall.trans
    decide
  have hdone := feed_line hs hcr hsmall
  have htext := text_eq msg.noNul
  rw [← sendMessage_eq hlt] at hdone
  refine ⟨?_, ?_, ?_⟩
  · rw [hdone.messages, htext]
  · intro hquit
    rw [hdone.status, htext, if_pos hquit]
  · intro hquit
    apply hdone.atLine
    rw [hdone.status, htext, if_neg hquit]

/-- The messages that are sent are those reported, by induction on them. -/
theorem feed_stream {s : Server} (hs : AtLine s) {msgs : List CStr}
    (h : ∀ msg ∈ msgs, Fits msg) :
    (s.feed (stream msgs)).messages =
      s.messages ++ uptoQuit ((msgs.map (·.bytes)).filter (· ≠ [])) := by
  induction msgs generalizing s with
  | nil => simp [stream, uptoQuit]
  | cons msg msgs ih =>
      obtain ⟨hmessages, hreturned, hagain⟩ := feed_sendMessage hs (h msg List.mem_cons_self)
      have hrest : ∀ m ∈ msgs, Fits m := fun m hm => h m (List.mem_cons_of_mem _ hm)
      have hstream : stream (msg :: msgs) = sendMessage msg ++ stream msgs := rfl
      rw [hstream, feed_append, List.map_cons]
      by_cases hquit : msg.bytes = quit
      · have hnonempty : msg.bytes ≠ [] := by
          rw [hquit]
          decide
        rw [feed_returned (hreturned hquit), hmessages, if_neg hnonempty,
          List.filter_cons_of_pos (by simpa using hnonempty), uptoQuit, if_pos hquit]
      · rw [ih (hagain hquit) hrest, hmessages]
        by_cases hempty : msg.bytes = []
        · rw [if_pos hempty, List.append_nil, List.filter_cons_of_neg (by simpa using hempty)]
        · rw [if_neg hempty, List.filter_cons_of_pos (by simpa using hempty), uptoQuit,
            if_neg hquit, List.append_assoc, List.singleton_append]

/-- **Round trip.**  The messages reported are those sent that are not empty, up to the
first `quit`. -/
theorem after_stream (msgs : List CStr) (h : ∀ msg ∈ msgs, Fits msg) {n : Nat}
    (hn : (stream msgs).length ≤ n) :
    (after (closing (stream msgs)) n).messages =
      uptoQuit ((msgs.map (·.bytes)).filter (· ≠ [])) := by
  rw [after_closing_all hn, feed_stream start_atLine h]
  rfl

/-- A CR, nothing, `quit`, and a message after it. -/
def mixed : List CStr :=
  [CStr.ofBytes [cr], lit "", lit "quit", lit "on"]

/-- A CR alone, an empty message, and `quit` with another behind it. -/
theorem after_mixed : (after (closing (stream mixed)) 15).messages = [[cr], quit] := by
  have hfits : ∀ msg ∈ mixed, Fits msg := by
    intro msg hmsg
    simp only [mixed, List.mem_cons, List.not_mem_nil, or_false] at hmsg
    rcases hmsg with rfl | rfl | rfl | rfl
    all_goals constructor <;> decide +kernel
  rw [after_stream mixed hfits (by decide +kernel)]
  decide +kernel

end LineServer

import Mathlib.Data.Nat.Digits.Defs
import Alp.CString

/-!
# Messages over the local socket

This file embeds `send_message` of `c5-2/client.c` and `server_run` of
`c5-2/server.c`: every message is its length, a native (little-endian) `int`, and then
its bytes.

A stream socket may return fewer bytes than asked: `cuts` has the most that each
`read` returns.  The server asks once for a length and once for a body, so a message
is recovered only if both reads return all that was asked (`FullReads`).
-/

set_option autoImplicit false

namespace LocalSocket

open CString

/-- The bytes of an `int` object. -/
def wordBytes (w : BitVec 32) : List UInt8 :=
  [w.toNat, w.toNat / 256, w.toNat / 256 ^ 2, w.toNat / 256 ^ 3].map UInt8.ofNat

/-- The `int` that four bytes are. -/
def bytesWord (bs : List UInt8) : BitVec 32 :=
  BitVec.ofNat 32 (Nat.ofDigits 256 (bs.map UInt8.toNat))

/-- What an `int` holding `w` holds after `bs` are read into its first bytes. -/
def readInto (w : BitVec 32) (bs : List UInt8) : BitVec 32 :=
  bytesWord (bs ++ (wordBytes w).drop bs.length)

/-- A word is four bytes. -/
theorem length_wordBytes (w : BitVec 32) : (wordBytes w).length = 4 := rfl

/-- A word is read back from its bytes. -/
theorem bytesWord_wordBytes (w : BitVec 32) : bytesWord (wordBytes w) = w := by
  have hw := w.isLt
  apply BitVec.eq_of_toNat_eq
  simp only [bytesWord, wordBytes, List.map_cons, List.map_nil, Nat.ofDigits_cons,
    Nat.ofDigits_nil, UInt8.toNat_ofNat', BitVec.toNat_ofNat]
  omega

/-- Four bytes replace the whole `int`. -/
theorem readInto_wordBytes (v w : BitVec 32) : readInto v (wordBytes w) = w := by
  rw [readInto, length_wordBytes, ← length_wordBytes v, List.drop_length, List.append_nil,
    bytesWord_wordBytes]

/-- An `int` converted to `size_t`. -/
def sizeT (n : BitVec 32) : Nat :=
  (n.signExtend 64).toNat

def intMax : BitVec 32 := 0x7FFFFFFF

/-- The largest object. -/
def ptrdiffMax : Nat := 2 ^ 63 - 1

/-- A message: a string with at least one byte. -/
structure Message extends CStr where
  nonempty : bytes ≠ []
  deriving DecidableEq

/-- `send_message`: the bytes written.  A `write` of a negative length fails. -/
def sendMessage (msg : Message) : List UInt8 :=
  let len := BitVec.ofNat 32 msg.bytes.length
  wordBytes len ++ if len.toInt < 0 then [] else msg.bytes.take (sizeT len)

/-- The stream of a client's messages. -/
def stream (msgs : List Message) : List UInt8 :=
  msgs.flatMap sendMessage

/-- The bytes `read` returns when asked for `n`, on a stream with enough of them. -/
def readSize (cut n : Nat) : Nat :=
  max 1 (min cut n)

/-- `read` of `n` bytes. -/
def sockRead (cut n : Nat) (stream : List UInt8) : List UInt8 × List UInt8 :=
  (stream.take (readSize cut n), stream.drop (readSize cut n))

/-- The calls on the message buffer are defined: `len + 1` does not overflow, `malloc`
can return that much, and the `read` of `len` bytes fits. -/
def BufferOk (len : BitVec 32) : Prop :=
  len ≠ intMax ∧ sizeT (len + 1) ≤ ptrdiffMax ∧ sizeT len ≤ sizeT (len + 1)

instance (len : BitVec 32) : Decidable (BufferOk len) :=
  inferInstanceAs (Decidable (_ ∧ _ ∧ _))

/-- The string in a zeroed buffer that `ps` was read into. -/
def text (ps : List UInt8) : List UInt8 :=
  ps.takeWhile (· ≠ nul)

def quit : List UInt8 :=
  asciiBytes "quit"

/-- What `server_run` returns, and the messages it printed. -/
structure Served where
  disconnect : Bool
  messages : List (List UInt8)
  deriving DecidableEq

/-- The loop of `server_run` from the `i`-th read on; `len` is what the variable holds.
`none` where the calls on the buffer are not defined. -/
def serverLoop (cuts : Nat → Nat) (i : Nat) (len : BitVec 32) (stream : List UInt8) :
    Option Served :=
  let lenRead := sockRead (cuts i) 4 stream
  if stream = [] then some ⟨false, []⟩
  else
    let len := readInto len lenRead.1
    if len = 0 then some ⟨false, []⟩
    else if ¬ BufferOk len then none
    else
      let bodyRead := sockRead (cuts (i + 1)) (sizeT len) lenRead.2
      if lenRead.2 = [] then some ⟨false, []⟩
      else
        let msg := text bodyRead.1
        if msg = quit then some ⟨true, [msg]⟩
        else
          (serverLoop cuts (i + 2) len bodyRead.2).map
            fun served => ⟨served.disconnect, msg :: served.messages⟩
termination_by stream.length
decreasing_by
  simp only [sockRead, readSize, List.length_drop]
  have hpos : 0 < stream.length := List.length_pos_iff.mpr ‹_›
  omega

/-- `server_run`; `len` is uninitialised. -/
def serverRun (cuts : Nat → Nat) (len : BitVec 32) (stream : List UInt8) : Option Served :=
  serverLoop cuts 0 len stream

/-- The messages up to and including the first `quit`. -/
def uptoQuit : List Message → List Message
  | [] => []
  | msg :: msgs => if msg.bytes = quit then [msg] else msg :: uptoQuit msgs

/-- `server_run` prints exactly the messages up to the first `quit`. -/
def Recovers (cuts : Nat → Nat) (len : BitVec 32) (msgs : List Message) : Prop :=
  ∃ disconnect, serverRun cuts len (stream msgs) =
    some ⟨disconnect, (uptoQuit msgs).map (·.bytes)⟩

/-- From the `i`-th read on, the reads of each message's length and of its body return
all that they ask for. -/
def FullReads (cuts : Nat → Nat) : Nat → List Message → Prop
  | _, [] => True
  | i, msg :: msgs =>
    readSize (cuts i) 4 = 4 ∧ readSize (cuts (i + 1)) msg.bytes.length = msg.bytes.length ∧
      FullReads cuts (i + 2) msgs

/-- As a `size_t` a negative length is close below 2^64. -/
theorem sizeT_eq (w : BitVec 32) :
    sizeT w = if w.toNat < 2 ^ 31 then w.toNat else w.toNat + (2 ^ 64 - 2 ^ 32) := by
  have hw := w.isLt
  simp only [sizeT, BitVec.toNat_signExtend, BitVec.msb_eq_decide, BitVec.toNat_setWidth]
  by_cases hneg : w.toNat < 2 ^ 31
  · rw [if_pos hneg, if_neg (by simpa using hneg)]
    omega
  · rw [if_neg hneg, if_pos (by simpa using hneg)]
    omega

/-- The lengths with a buffer are those below 2^31 - 1. -/
theorem bufferOk_iff (w : BitVec 32) : BufferOk w ↔ w.toNat < 2 ^ 31 - 1 := by
  have hw := w.isLt
  have hmax : w = intMax ↔ w.toNat = 2 ^ 31 - 1 := by
    rw [← BitVec.toNat_inj]
    rfl
  have hsucc : (w + 1).toNat = (w.toNat + 1) % 2 ^ 32 := by simp
  simp only [BufferOk, ne_eq, hmax, sizeT_eq, hsucc, ptrdiffMax]
  split <;> split <;> omega

/-- A length below 2^31 is kept by its word. -/
theorem toNat_length {n : Nat} (hn : n < 2 ^ 31) : (BitVec.ofNat 32 n).toNat = n := by
  rw [BitVec.toNat_ofNat]
  omega

/-- A length below 2^31 is the same as a `size_t`. -/
theorem sizeT_length {n : Nat} (hn : n < 2 ^ 31) : sizeT (BitVec.ofNat 32 n) = n := by
  rw [sizeT_eq, toNat_length hn, if_pos hn]

/-- A message is sent as its length and its bytes. -/
theorem sendMessage_eq {msg : Message} (h : msg.bytes.length < 2 ^ 31) :
    sendMessage msg = wordBytes (BitVec.ofNat 32 msg.bytes.length) ++ msg.bytes := by
  have hpos : ¬ (BitVec.ofNat 32 msg.bytes.length).toInt < 0 := by
    rw [BitVec.toInt_eq_toNat_cond, toNat_length h]
    split <;> omega
  simp only [sendMessage, if_neg hpos, sizeT_length h, List.take_length]

/-- The string in the buffer ends at the first NUL at the latest. -/
theorem length_text_le {bs : List UInt8} {p : Nat} (h : bs[p]? = some nul) (k : Nat) :
    (text (bs.take k)).length ≤ p := by
  induction bs generalizing p k with
  | nil => simp at h
  | cons b bs ih =>
      cases k with
      | zero => exact Nat.zero_le p
      | succ k =>
          cases p with
          | zero =>
              obtain rfl : b = nul := by simpa using h
              simp [text]
          | succ p =>
              have hrest := ih (p := p) (by simpa using h) k
              simp only [text, List.take_succ_cons, List.takeWhile_cons]
              split
              · simpa [text] using hrest
              · exact Nat.zero_le _

/-- A string without NUL is its own text. -/
theorem text_eq {bs : List UInt8} (h : nul ∉ bs) : text bs = bs := by
  refine List.takeWhile_eq_self_iff.mpr fun b hb => ?_
  simpa using ne_of_mem_of_not_mem hb h

/-- The first message printed is the string in what the read of the body returned. -/
theorem serverLoop_first {cuts : Nat → Nat} {i : Nat} {len : BitVec 32} {stream : List UInt8}
    {disconnect : Bool} {msg : List UInt8} {msgs : List (List UInt8)}
    (h : serverLoop cuts i len stream = some ⟨disconnect, msg :: msgs⟩) :
    ∃ k, msg = text ((stream.drop (readSize (cuts i) 4)).take k) := by
  rw [serverLoop] at h
  dsimp only at h
  split at h
  · cases h
  split at h
  · cases h
  split at h
  · cases h
  split at h
  · cases h
  split at h
  · obtain ⟨-, hmsgs⟩ := Served.mk.inj (Option.some.inj h)
    exact ⟨_, (List.cons.inj hmsgs).1.symm⟩
  · obtain ⟨served, -, hserved⟩ := Option.map_eq_some_iff.mp h
    exact ⟨_, (List.cons.inj (Served.mk.inj hserved).2).1.symm⟩

/-- When the read of the length is full, the body is read up to its own cut. -/
theorem serverLoop_message {cuts : Nat → Nat} {i : Nat} (len : BitVec 32) {msg : Message}
    (rest : List UInt8) (hlen : msg.bytes.length < 2 ^ 31 - 1)
    (hfull : readSize (cuts i) 4 = 4) :
    serverLoop cuts i len (sendMessage msg ++ rest) =
      let bodyRead := sockRead (cuts (i + 1)) msg.bytes.length (msg.bytes ++ rest)
      if text bodyRead.1 = quit then some ⟨true, [text bodyRead.1]⟩
      else
        (serverLoop cuts (i + 2) (BitVec.ofNat 32 msg.bytes.length) bodyRead.2).map
          fun served => ⟨served.disconnect, text bodyRead.1 :: served.messages⟩ := by
  have hpos : 0 < msg.bytes.length := List.length_pos_iff.mpr msg.nonempty
  have hsize : msg.bytes.length < 2 ^ 31 := by omega
  have hword := length_wordBytes (BitVec.ofNat 32 msg.bytes.length)
  rw [serverLoop, sendMessage_eq hsize, List.append_assoc]
  have hread : ∀ bs, sockRead (cuts i) 4
      (wordBytes (BitVec.ofNat 32 msg.bytes.length) ++ bs) =
      (wordBytes (BitVec.ofNat 32 msg.bytes.length), bs) := by
    intro bs
    rw [sockRead, hfull, List.take_left' hword, List.drop_left' hword]
  have hnonzero : BitVec.ofNat 32 msg.bytes.length ≠ 0 := by
    intro hzero
    have hnat := toNat_length hsize
    rw [hzero] at hnat
    exact hpos.ne hnat
  have hok : BufferOk (BitVec.ofNat 32 msg.bytes.length) := by
    rw [bufferOk_iff, toNat_length hsize]
    exact hlen
  have hbody : msg.bytes ++ rest ≠ [] := by simp [msg.nonempty]
  rw [if_neg (by simp [wordBytes]), hread, readInto_wordBytes, if_neg hnonzero,
    if_neg (not_not.mpr hok), if_neg hbody, sizeT_length hsize]

/-- A read that is not full is short. -/
theorem readSize_lt {cut n : Nat} (hn : 0 < n) (h : readSize cut n ≠ n) :
    readSize cut n < n := by
  simp only [readSize] at h ⊢
  omega

/-- A read takes at least one byte. -/
theorem readSize_pos (cut n : Nat) : 0 < readSize cut n := by
  simp only [readSize]
  omega

/-- The high bytes of a small length are zero. -/
theorem getElem?_wordBytes {n j : Nat} (hn : n < 2 ^ 31) (hj : j < 4) (hsmall : n < 256 ^ j) :
    (wordBytes (BitVec.ofNat 32 n))[j]? = some nul := by
  have hzero : n / 256 ^ j = 0 := Nat.div_eq_of_lt hsmall
  have hget : (wordBytes (BitVec.ofNat 32 n))[j]? = some (UInt8.ofNat (n / 256 ^ j)) := by
    obtain rfl | rfl | rfl | rfl : j = 0 ∨ j = 1 ∨ j = 2 ∨ j = 3 := by omega
    all_goals simp [wordBytes, toNat_length hn]
  rw [hget, hzero]
  rfl

/-- After a short read of the length, what is read as the body is not the message. -/
theorem short_length_ne {msg : Message} (hlen : msg.bytes.length < 2 ^ 24) {i : Nat}
    (hpos : 0 < i) (hi : i < 4) (rest : List UInt8) (k : Nat) :
    text (((sendMessage msg ++ rest).drop i).take k) ≠ msg.bytes := by
  intro heq
  have hword : ∀ j, j < 4 → msg.bytes.length < 256 ^ j →
      (sendMessage msg ++ rest)[j]? = some nul := by
    intro j hj hsmall
    rw [sendMessage_eq (by omega), List.append_assoc,
      List.getElem?_append_left (by rw [length_wordBytes]; omega)]
    exact getElem?_wordBytes (by omega) hj hsmall
  have hnul : ∀ p, i + p < 4 → msg.bytes.length < 256 ^ (i + p) → msg.bytes.length ≤ p := by
    intro p hp hsmall
    have hat : ((sendMessage msg ++ rest).drop i)[p]? = some nul := by
      rw [List.getElem?_drop]
      exact hword (i + p) hp hsmall
    rw [← heq]
    exact length_text_le hat k
  have hthree : msg.bytes.length ≤ 3 - i :=
    hnul (3 - i) (by omega) (by rw [Nat.add_sub_cancel' (by omega)]; omega)
  have hzero : msg.bytes.length ≤ 0 := by
    refine hnul 0 hi ?_
    calc msg.bytes.length < 256 ^ 1 := by omega
      _ ≤ 256 ^ i := Nat.pow_le_pow_right (by omega) hpos
  exact msg.nonempty (List.length_eq_zero_iff.mp (by omega))

/-- After a short read of the body, the message is cut off. -/
theorem short_body_ne {msg : Message} {cut : Nat}
    (hshort : readSize cut msg.bytes.length ≠ msg.bytes.length) (rest : List UInt8) :
    text (sockRead cut msg.bytes.length (msg.bytes ++ rest)).1 ≠ msg.bytes := by
  have hpos : 0 < msg.bytes.length := List.length_pos_iff.mpr msg.nonempty
  have hlt := readSize_lt hpos hshort
  have hle : (text (sockRead cut msg.bytes.length (msg.bytes ++ rest)).1).length ≤
      readSize cut msg.bytes.length :=
    (List.takeWhile_prefix _).length_le.trans (List.length_take_le _ _)
  intro heq
  rw [heq] at hle
  omega

/-- After two full reads the message is recovered. -/
theorem serverLoop_full {cuts : Nat → Nat} {i : Nat} (len : BitVec 32) {msg : Message}
    (rest : List UInt8) (hlen : msg.bytes.length < 2 ^ 31 - 1)
    (hfull : readSize (cuts i) 4 = 4)
    (hbody : readSize (cuts (i + 1)) msg.bytes.length = msg.bytes.length) :
    serverLoop cuts i len (sendMessage msg ++ rest) =
      if msg.bytes = quit then some ⟨true, [msg.bytes]⟩
      else
        (serverLoop cuts (i + 2) (BitVec.ofNat 32 msg.bytes.length) rest).map
          fun served => ⟨served.disconnect, msg.bytes :: served.messages⟩ := by
  have hread : sockRead (cuts (i + 1)) msg.bytes.length (msg.bytes ++ rest) =
      (msg.bytes, rest) := by
    rw [sockRead, hbody, List.take_left' rfl, List.drop_left' rfl]
  rw [serverLoop_message len rest hlen hfull, hread]
  simp only [text_eq msg.noNul]

/-- With full reads the server gets the messages, by induction on them. -/
theorem serverLoop_fullReads {cuts : Nat → Nat} {i : Nat} (len : BitVec 32)
    {msgs : List Message} (hlen : ∀ msg ∈ uptoQuit msgs, msg.bytes.length < 2 ^ 31 - 1)
    (hfull : FullReads cuts i (uptoQuit msgs)) :
    ∃ disconnect, serverLoop cuts i len (stream msgs) =
      some ⟨disconnect, (uptoQuit msgs).map (·.bytes)⟩ := by
  induction msgs generalizing i len with
  | nil =>
      rw [serverLoop]
      exact ⟨false, rfl⟩
  | cons msg msgs ih =>
      have hstream : stream (msg :: msgs) = sendMessage msg ++ stream msgs := rfl
      rw [uptoQuit] at hlen hfull ⊢
      by_cases hquit : msg.bytes = quit
      · rw [if_pos hquit] at hlen hfull ⊢
        obtain ⟨hword, hbody, -⟩ := hfull
        rw [hstream, serverLoop_full len _ (hlen msg (List.mem_singleton_self _)) hword hbody,
          if_pos hquit]
        exact ⟨true, rfl⟩
      · rw [if_neg hquit] at hlen hfull ⊢
        obtain ⟨hword, hbody, hrest⟩ := hfull
        obtain ⟨disconnect, hserved⟩ := ih (BitVec.ofNat 32 msg.bytes.length)
          (fun m hm => hlen m (List.mem_cons_of_mem _ hm)) hrest
        rw [hstream, serverLoop_full len _ (hlen msg List.mem_cons_self) hword hbody,
          if_neg hquit, hserved]
        exact ⟨disconnect, rfl⟩

/-- A server that gets messages below 2^24 bytes had full reads, by induction on them. -/
theorem fullReads_of_serverLoop {cuts : Nat → Nat} {i : Nat} {len : BitVec 32}
    {msgs : List Message} (hlen : ∀ msg ∈ uptoQuit msgs, msg.bytes.length < 2 ^ 24)
    {disconnect : Bool} (h : serverLoop cuts i len (stream msgs) =
      some ⟨disconnect, (uptoQuit msgs).map (·.bytes)⟩) :
    FullReads cuts i (uptoQuit msgs) := by
  induction msgs generalizing i len disconnect with
  | nil => trivial
  | cons msg msgs ih =>
      have hstream : stream (msg :: msgs) = sendMessage msg ++ stream msgs := rfl
      have hupto : ∃ later, uptoQuit (msg :: msgs) = msg :: later := by
        rw [uptoQuit]
        split
        · exact ⟨_, rfl⟩
        · exact ⟨_, rfl⟩
      obtain ⟨later, hlater⟩ := hupto
      have hsmall : msg.bytes.length < 2 ^ 24 := hlen msg (by simp [hlater])
      rw [hstream] at h
      have hword : readSize (cuts i) 4 = 4 := by
        by_contra hshort
        rw [hlater] at h
        obtain ⟨k, hk⟩ := serverLoop_first h
        exact short_length_ne hsmall (readSize_pos _ _) (readSize_lt (by omega) hshort) _ k
          hk.symm
      have hbody : readSize (cuts (i + 1)) msg.bytes.length = msg.bytes.length := by
        by_contra hshort
        have hne := short_body_ne hshort (stream msgs)
        rw [serverLoop_message len _ (by omega) hword, hlater] at h
        dsimp only at h
        split at h
        · exact hne (List.cons.inj (Served.mk.inj (Option.some.inj h)).2).1
        · obtain ⟨served, -, hserved⟩ := Option.map_eq_some_iff.mp h
          exact hne (List.cons.inj (Served.mk.inj hserved).2).1
      rw [serverLoop_full len _ (by omega) hword hbody] at h
      rw [uptoQuit] at hlen h ⊢
      by_cases hquit : msg.bytes = quit
      · rw [if_pos hquit]
        exact ⟨hword, hbody, trivial⟩
      · rw [if_neg hquit] at hlen h ⊢
        rw [if_neg hquit] at h
        obtain ⟨served, hserved, heq⟩ := Option.map_eq_some_iff.mp h
        have hmessages : served.messages = (uptoQuit msgs).map (·.bytes) :=
          (List.cons.inj (Served.mk.inj heq).2).2
        have hrest : serverLoop cuts (i + 2) (BitVec.ofNat 32 msg.bytes.length) (stream msgs) =
            some ⟨served.disconnect, (uptoQuit msgs).map (·.bytes)⟩ := by
          rw [hserved, ← hmessages]
        exact ⟨hword, hbody, ih (fun m hm => hlen m (List.mem_cons_of_mem _ hm)) hrest⟩

/-- **Recovery.**  Messages shorter than `INT_MAX` are recovered when every read is full.
For messages below 2^24 bytes, whose lengths end in a zero byte, they are recovered only
then. -/
theorem recovers_fullReads (cuts : Nat → Nat) (len : BitVec 32) (msgs : List Message) :
    ((∀ msg ∈ uptoQuit msgs, msg.bytes.length < 2 ^ 31 - 1) →
      FullReads cuts 0 (uptoQuit msgs) → Recovers cuts len msgs) ∧
    ((∀ msg ∈ uptoQuit msgs, msg.bytes.length < 2 ^ 24) →
      Recovers cuts len msgs → FullReads cuts 0 (uptoQuit msgs)) :=
  ⟨fun hlen hfull => serverLoop_fullReads len hlen hfull,
    fun hlen ⟨_, h⟩ => fullReads_of_serverLoop hlen h⟩

/-- The message `hello`. -/
def hello : Message where
  toCStr := lit "hello"
  nonempty := by decide

/-- `hello` with full reads. -/
theorem recovers_hello :
    Recovers (fun _ => 8) 0 [hello] ∧ FullReads (fun _ => 8) 0 (uptoQuit [hello]) := by
  have hrec : Recovers (fun _ => 8) 0 [hello] :=
    (recovers_fullReads (fun _ => 8) 0 [hello]).1 (by decide) ⟨rfl, rfl, trivial⟩
  exact ⟨hrec, (recovers_fullReads (fun _ => 8) 0 [hello]).2 (by decide) hrec⟩

/-- When the first read returns two bytes, the message printed is empty. -/
theorem hello_lost :
    (serverRun (fun i => if i = 0 then 2 else 8) 0 (stream [hello])).map Served.messages =
      some [[]] ∧
    ¬ Recovers (fun i => if i = 0 then 2 else 8) 0 [hello] := by
  have hrun : (serverRun (fun i => if i = 0 then 2 else 8) 0 (stream [hello])).map
      Served.messages = some [[]] := by decide +kernel
  refine ⟨hrun, fun ⟨disconnect, h⟩ => ?_⟩
  rw [h] at hrun
  have hmsgs : (uptoQuit [hello]).map (·.bytes) = [[]] := Option.some.inj hrun
  exact absurd hmsgs (by decide)

end LocalSocket

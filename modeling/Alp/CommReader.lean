import Alp.CommCmd
import Alp.RestartBuffer

/-!
# What the line reader stores

`comm_get_command` stores the characters before the line feed with an index that
starts over at 0 when it has reached `tmpsize`, so of a line only the last chunk
is kept (`RestartBuffer.lastChunk`).  At the line feed one final CR is taken back
and the terminator goes to the index reached, which is one past `temp` when the
buffer is full.

`commGetLoop_chars` reduces the loop to the fold `commFill`, which is a
`RestartBuffer.fill` of `temp` (`commFill_eq`), and `commGetCommand_reads` is the
whole reader: whatever the command data held, `LineRead` of the last chunk.
-/

set_option autoImplicit false

namespace Comm

open CString RestartBuffer

/-- Command data as `comm_data_init` leaves it. -/
def commInitData : CommData :=
  ((commDataInit (some CommData.zeroed)).2).getD CommData.zeroed

@[simp] theorem store_tmpsize (d : CommData) (i : Nat) (b : UInt8) :
    (d.store i b).tmpsize = d.tmpsize := by
  unfold CommData.store; split <;> rfl

/-- A byte stored inside the buffer stands there. -/
theorem store_inside (d : CommData) {i : Nat} (b : UInt8) (h : i < commTempBufSize) :
    d.store i b = { d with temp := d.temp.set i b } := by
  simp [CommData.store, h]

/-- A byte read as a character is the byte. -/
theorem charByte_toNat (b : UInt8) : charByte (b.toNat : Int) = b := by
  have h : ((b.toNat : Int) % 256).toNat = b.toNat := by
    have := b.toNat_lt
    omega
  simp [charByte, h]

/-- Drop one final CR. -/
def stripCr (w : List UInt8) : List UInt8 :=
  if w.getLast? = some 13 then w.dropLast else w

/-- Cutting a CR makes no text longer. -/
theorem stripCr_length_le (w : List UInt8) : (stripCr w).length ≤ w.length := by
  unfold stripCr
  split
  · simp
  · exact Nat.le_refl _

/-- What is stored before a CR taken back is the rest. -/
theorem holds_stripCr {m : Mem} {w : List UInt8} (h : Holds m 0 w) : Holds m 0 (stripCr w) := by
  unfold stripCr
  split
  · next hcr =>
      rw [← List.dropLast_append_getLast? 13 hcr, holds_append] at h
      exact h.1
  · exact h

/-- Storing one character. -/
def commPut (size : Nat) (p : CommData × Nat) (c : Int) : CommData × Nat :=
  (p.1.store (place size p.2) (charByte c), place size p.2 + 1)

/-- Storing the characters of a line. -/
def commFill (size : Nat) (d : CommData) (cnt : Nat) (cs : List Int) : CommData × Nat :=
  cs.foldl (commPut size) (d, cnt)

/-- The loop passes over everything but line feeds. -/
theorem commGetLoop_chars (size : Nat) (cs : List Int) (hcs : (10 : Int) ∉ cs) (rest : List Int)
    (d : CommData) (cnt : Nat) :
    commGetLoop size d cnt (cs ++ rest) =
      commGetLoop size (commFill size d cnt cs).1 (commFill size d cnt cs).2 rest := by
  induction cs generalizing d cnt with
  | nil => rfl
  | cons c cs ih =>
      have hc : c ≠ 10 := fun h => hcs (h ▸ List.mem_cons_self)
      have hrest := ih (fun h => hcs (List.mem_cons_of_mem _ h))
      rw [List.cons_append, commGetLoop, if_neg hc]
      exact hrest (d.store (place size cnt) (charByte c)) (place size cnt + 1)

@[simp] theorem commFill_tmpsize (size : Nat) (d : CommData) (cnt : Nat) (cs : List Int) :
    (commFill size d cnt cs).1.tmpsize = d.tmpsize := by
  induction cs generalizing d cnt with
  | nil => rfl
  | cons c cs ih => exact (ih _ _).trans (store_tmpsize _ _ _)

/-- Setting a byte of memory is updating a function. -/
theorem Mem.set_eq_update (m : Mem) (i : Nat) (b : UInt8) : m.set i b = Function.update m i b := by
  funext j
  simp [Mem.set, Function.update_apply]

/-- With the size of `temp` the characters go to `temp` and nowhere else. -/
theorem commFill_eq (d : CommData) (cnt : Nat) (cs : List Int) :
    commFill commTempBufSize d cnt cs =
      ({ d with temp := (fill commTempBufSize (d.temp, cnt) (cs.map charByte)).1 },
        (fill commTempBufSize (d.temp, cnt) (cs.map charByte)).2) := by
  induction cs generalizing d cnt with
  | nil => rfl
  | cons c cs ih =>
      have hplace : place commTempBufSize cnt < commTempBufSize := place_lt (by decide) cnt
      have hput : commPut commTempBufSize (d, cnt) c =
          ({ d with temp := Function.update d.temp (place commTempBufSize cnt) (charByte c) },
            place commTempBufSize cnt + 1) := by
        rw [commPut, store_inside _ _ hplace, Mem.set_eq_update]
      rw [commFill, List.foldl_cons, hput]
      exact ih _ _

/-- The bytes a line of characters leaves in `temp`. -/
def keptBytes (cs : List Int) : List UInt8 :=
  lastChunk commTempBufSize (cs.map charByte)

/-- What is kept fits the buffer. -/
theorem keptBytes_length_le (cs : List Int) : (keptBytes cs).length ≤ commTempBufSize :=
  length_lastChunk_le (by decide) _

/-- After the characters of a line the last chunk is in `temp`, counted. -/
theorem commFill_holds (d : CommData) (cs : List Int) :
    (commFill commTempBufSize d 0 cs).2 = (keptBytes cs).length ∧
      Holds (commFill commTempBufSize d 0 cs).1.temp 0 (keptBytes cs) ∧
      (commFill commTempBufSize d 0 cs).1.argv = d.argv := by
  have hhold := holding_fill (n := commTempBufSize) (by decide) d.temp (cs.map charByte)
  rw [commFill_eq]
  refine ⟨hhold.count, holds_of_getElem fun i hi => ?_, rfl⟩
  rw [Nat.zero_add]
  exact hhold.item i hi

/-- The index of the terminator, the count after a CR taken back. -/
def commEndCnt (p : CommData × Nat) : Nat :=
  if 0 < p.2 ∧ p.1.temp (p.2 - 1) = 13 then p.2 - 1 else p.2

/-- An LF ends the line. -/
theorem commGetLoop_lf (size : Nat) (p : CommData × Nat) (rest : List Int) :
    commGetLoop size p.1 p.2 (10 :: rest) =
      some ({ p.1.store (commEndCnt p) commAsciiEof with tmpc := commEndCnt p }, rest) := by
  rw [commGetLoop, if_pos rfl]
  rfl

theorem commEndCnt_of_holds {p : CommData × Nat} {w : List UInt8} (hcnt : p.2 = w.length)
    (hw : Holds p.1.temp 0 w) : commEndCnt p = (stripCr w).length := by
  have hcr : (0 < p.2 ∧ p.1.temp (p.2 - 1) = 13) ↔ w.getLast? = some 13 := by
    rcases List.eq_nil_or_concat w with rfl | ⟨u, b, rfl⟩
    · simp [hcnt]
    · rw [List.concat_eq_append, holds_append] at hw
      have hb : p.1.temp (0 + u.length) = b := hw.2.1
      rw [Nat.zero_add] at hb
      simp [hcnt, hb]
  unfold commEndCnt stripCr
  by_cases h : w.getLast? = some 13
  · rw [if_pos (hcr.mpr h), if_pos h, hcnt, List.length_dropLast]
  · rw [if_neg (fun hp => h (hcr.mp hp)), if_neg h, hcnt]

/-- What reading a line left, of which the bytes `w` are kept: its text, and the
terminator after it, in `temp` or on the first entry of `argv`. -/
structure LineRead (d d' : CommData) (w : List UInt8) : Prop where
  text : Holds d'.temp 0 (stripCr w)
  tmpc : d'.tmpc = (stripCr w).length
  tmpsize : d'.tmpsize = d.tmpsize
  inside : (stripCr w).length < commTempBufSize →
    d'.temp (stripCr w).length = nul ∧ d'.argv = d.argv
  past : (stripCr w).length = commTempBufSize →
    d'.argv = fun j => if j = 0 then .wild else d.argv j

/-- **The reader.**  Whatever the command data held, reading stops at the line feed
and leaves the last chunk of the line. -/
theorem commGetCommand_reads (d : CommData) (hd : d.tmpsize = commTempBufSize) (cs : List Int)
    (hcs : (10 : Int) ∉ cs) (rest : List Int) :
    ∃ d', commGetCommand d (cs ++ 10 :: rest) = some (d', rest) ∧ LineRead d d' (keptBytes cs) := by
  obtain ⟨hcnt, hholds, hargv⟩ := commFill_holds d cs
  have hsize := commFill_tmpsize commTempBufSize d 0 cs
  rw [commGetCommand, hd, commGetLoop_chars _ _ hcs, commGetLoop_lf]
  generalize commFill commTempBufSize d 0 cs = p at hcnt hholds hargv hsize
  have hend := commEndCnt_of_holds hcnt hholds
  have hstrip := holds_stripCr hholds
  refine ⟨_, rfl, ?_⟩
  rw [hend]
  by_cases hroom : (stripCr (keptBytes cs)).length < commTempBufSize
  · rw [store_inside _ _ hroom]
    refine ⟨hstrip.set commAsciiEof (Or.inr (by omega)), rfl, hsize, fun _ => ⟨?_, hargv⟩, ?_⟩
    · exact Mem.set_same p.1.temp _ nul
    · exact fun hfull => absurd hroom (by omega)
  · have hle := Nat.le_trans (stripCr_length_le (keptBytes cs)) (keptBytes_length_le cs)
    have hfull : (stripCr (keptBytes cs)).length = commTempBufSize := by omega
    have hstore : p.1.store commTempBufSize commAsciiEof =
        { p.1 with argv := fun j => if j = 0 then .wild else p.1.argv j } := by
      simp [CommData.store]
    rw [hfull, hstore]
    refine ⟨hstrip, hfull.symm, hsize, fun hroom' => absurd hroom' hroom, fun _ => ?_⟩
    rw [← hargv]

end Comm

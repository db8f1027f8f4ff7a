import Alp.CommReader

/-!
# Does the line reader stay inside its buffer?

Both drivers have a `comm_get_command`; that of demo-calc ends a line at LF or CR,
stores the terminator at `cnt++` and counts it.  In both the test `cnt >= size` is
made before an ordinary character is stored and not before the terminator.

`readsInside_iff` and `Calc.readsInside_iff` say for which input each of the two
readers stores outside `temp`: a line that ends when the buffer is just full, in
demo-dh unless its last byte is a CR.
-/

set_option autoImplicit false

namespace Calc

open CString Comm

/-- The loop of demo-calc's `comm_get_command`.  `struct comm_data` is that of
demo-dh. -/
def commGetLoop (size : Nat) : CommData → Nat → List Int → Option (CommData × List Int)
  | _, _, [] => none
  | d, cnt, c :: rest =>
    if c = 10 ∨ c = 13 then
      some ({ d.store cnt commAsciiEof with tmpc := cnt + 1 }, rest)
    else
      let cnt := if size ≤ cnt then 0 else cnt
      commGetLoop size (d.store cnt (charByte c)) (cnt + 1) rest

/-- `comm_get_command` of demo-calc. -/
def commGetCommand (d : CommData) (input : List Int) : Option (CommData × List Int) :=
  commGetLoop d.tmpsize d 0 input

/-- The indices at which `commGetLoop` stores into `temp`. -/
def commGetWrites (size : Nat) : Nat → List Int → List Nat
  | _, [] => []
  | cnt, c :: rest =>
    if c = 10 ∨ c = 13 then [cnt]
    else
      let cnt := if size ≤ cnt then 0 else cnt
      cnt :: commGetWrites size (cnt + 1) rest

end Calc

namespace Comm

open CString RestartBuffer

/-- The indices at which `commGetLoop` stores into `temp`. -/
def commGetWrites (size : Nat) : CommData → Nat → List Int → List Nat
  | _, _, [] => []
  | d, cnt, c :: rest =>
    if c = 10 then [if 0 < cnt ∧ d.temp (cnt - 1) = 13 then cnt - 1 else cnt]
    else
      let cnt := if size ≤ cnt then 0 else cnt
      cnt :: commGetWrites size (d.store cnt (charByte c)) (cnt + 1) rest

/-- The stores of a reader are inside `temp`, and so is what `comm_parse_command`
goes over, the bytes below `tmpc`. -/
structure ReadsInside (writes : List Nat) (result : Option (CommData × List Int)) : Prop where
  stores : ∀ i ∈ writes, i < commTempBufSize
  tmpc : ∀ d' rest, result = some (d', rest) → d'.tmpc ≤ commTempBufSize

/-- demo-dh ends a line at LF. -/
def endsLine (c : Int) : Bool :=
  c == 10

/-- The characters up to the first one that ends a line. -/
def firstLine (ends : Int → Bool) (input : List Int) : List Int :=
  input.takeWhile (fun c => !ends c)

/-- The first line ends, and it ends when the buffer is full. -/
def EndsFull (ends : Int → Bool) (input : List Int) : Prop :=
  (∃ c ∈ input, ends c = true) ∧ firstLine ends input ≠ [] ∧
    commTempBufSize ∣ (firstLine ends input).length

/-- The last byte of the first line is a CR. -/
def EndsCr (input : List Int) : Prop :=
  ((firstLine endsLine input).map charByte).getLast? = some 13

/-- The first line goes to the first character that ends one. -/
theorem firstLine_append {ends : Int → Bool} {cs rest : List Int} {c : Int}
    (hcs : ∀ x ∈ cs, ends x = false) (hc : ends c = true) :
    firstLine ends (cs ++ c :: rest) = cs := by
  unfold firstLine
  rw [List.takeWhile_append_of_pos (by simpa using hcs), List.takeWhile_cons_of_neg (by simp [hc]),
    List.append_nil]

/-- An input goes on for ever or has a first line. -/
theorem firstLine_cases (ends : Int → Bool) (input : List Int) :
    (∀ c ∈ input, ends c = false) ∨
      ∃ cs c rest, input = cs ++ c :: rest ∧ ends c = true ∧ ∀ x ∈ cs, ends x = false := by
  induction input with
  | nil => exact Or.inl nofun
  | cons c input ih =>
      by_cases hc : ends c = true
      · exact Or.inr ⟨[], c, input, rfl, hc, nofun⟩
      · have hc' : ends c = false := by simpa using hc
        rcases ih with hall | ⟨cs, x, rest, rfl, hx, hcs⟩
        · exact Or.inl (List.forall_mem_cons.mpr ⟨hc', hall⟩)
        · exact Or.inr ⟨c :: cs, x, rest, rfl, hx, List.forall_mem_cons.mpr ⟨hc', hcs⟩⟩

/-- Input that ends no line ends no full one. -/
theorem not_endsFull_of_forall {ends : Int → Bool} {input : List Int}
    (h : ∀ c ∈ input, ends c = false) : ¬ EndsFull ends input := by
  rintro ⟨⟨c, hmem, hc⟩, -, -⟩
  rw [h c hmem] at hc
  cases hc

/-- The first line ends full when what is kept of it fills the buffer. -/
theorem endsFull_append {ends : Int → Bool} {cs rest : List Int} {c : Int}
    (hcs : ∀ x ∈ cs, ends x = false) (hc : ends c = true) :
    EndsFull ends (cs ++ c :: rest) ↔ (keptBytes cs).length = commTempBufSize := by
  have hmap : cs.map charByte ≠ [] ↔ cs ≠ [] := not_congr List.map_eq_nil_iff
  rw [EndsFull, firstLine_append hcs hc, keptBytes, length_lastChunk_eq_iff (by decide),
    List.length_map, hmap]
  constructor
  · exact fun h => h.2
  · exact fun h => ⟨⟨c, by simp, hc⟩, h⟩

/-- The stores of the characters are inside. -/
theorem commGetWrites_chars (cs : List Int) (hcs : ∀ x ∈ cs, endsLine x = false)
    (rest : List Int) (d : CommData) (cnt : Nat) :
    ∃ l, (∀ i ∈ l, i < commTempBufSize) ∧
      commGetWrites commTempBufSize d cnt (cs ++ rest) =
        l ++ commGetWrites commTempBufSize (commFill commTempBufSize d cnt cs).1
          (commFill commTempBufSize d cnt cs).2 rest := by
  induction cs generalizing d cnt with
  | nil => exact ⟨[], nofun, rfl⟩
  | cons c cs ih =>
      obtain ⟨hc, hcs⟩ := List.forall_mem_cons.mp hcs
      obtain ⟨l, hl, heq⟩ := ih hcs
        (d.store (place commTempBufSize cnt) (charByte c)) (place commTempBufSize cnt + 1)
      refine ⟨place commTempBufSize cnt :: l, ?_, ?_⟩
      · exact List.forall_mem_cons.mpr ⟨place_lt (by decide) cnt, hl⟩
      · rw [List.cons_append, commGetWrites, if_neg (by simpa [endsLine] using hc)]
        exact congrArg _ heq

/-- A full buffer has no room for the terminator, unless a CR is cut. -/
theorem stripCr_full_iff {w : List UInt8} (hw : w.length ≤ commTempBufSize) :
    (stripCr w).length < commTempBufSize ↔
      ¬ (w.length = commTempBufSize ∧ w.getLast? ≠ some 13) := by
  unfold stripCr
  split
  · next hcr =>
      have hpos : 0 < w.length := by
        rcases w with - | ⟨b, w⟩
        · cases hcr
        · exact Nat.succ_pos _
      refine iff_of_true ?_ (fun h => h.2 hcr)
      rw [List.length_dropLast]
      omega
  · next hcr => simp only [ne_eq, hcr, not_false_eq_true, and_true]; omega

/-- demo-dh stores outside `temp` when a line ends with the buffer full, and not
with a CR. -/
theorem readsInside_iff {d : CommData} (hd : d.tmpsize = commTempBufSize) (input : List Int) :
    ReadsInside (commGetWrites d.tmpsize d 0 input) (commGetCommand d input) ↔
      ¬ (EndsFull endsLine input ∧ ¬ EndsCr input) := by
  have hnotmem : ∀ cs : List Int, (∀ x ∈ cs, endsLine x = false) → (10 : Int) ∉ cs := by
    intro cs hcs hmem
    cases hcs 10 hmem
  rw [hd]
  rcases firstLine_cases endsLine input with hnone | ⟨cs, c, rest, rfl, hc, hcs⟩
  · -- no line feed: the reader still waits
    obtain ⟨l, hl, hwrites⟩ := commGetWrites_chars input hnone [] d 0
    have hloop := commGetLoop_chars d.tmpsize input (hnotmem input hnone) [] d 0
    rw [List.append_nil] at hwrites hloop
    rw [hwrites]
    refine iff_of_true ⟨by simpa [commGetWrites] using hl, fun d' rest hres => ?_⟩
      (fun h => not_endsFull_of_forall hnone h.1)
    rw [commGetCommand, hloop] at hres
    cases hres
  · obtain rfl : c = 10 := by simpa [endsLine] using hc
    obtain ⟨l, hl, hwrites⟩ := commGetWrites_chars cs hcs (10 :: rest) d 0
    obtain ⟨d', hres, hread⟩ := commGetCommand_reads d hd cs (hnotmem cs hcs) rest
    obtain ⟨hcnt, hholds, -⟩ := commFill_holds d cs
    have hend : commGetWrites commTempBufSize (commFill commTempBufSize d 0 cs).1
        (commFill commTempBufSize d 0 cs).2 (10 :: rest) = [(stripCr (keptBytes cs)).length] := by
      rw [← commEndCnt_of_holds hcnt hholds, commGetWrites, if_pos rfl]
      rfl
    have hlast : EndsCr (cs ++ 10 :: rest) ↔ (keptBytes cs).getLast? = some 13 := by
      rw [EndsCr, firstLine_append hcs hc, keptBytes, getLast?_lastChunk]
    rw [endsFull_append hcs hc, hlast, ← ne_eq, ← stripCr_full_iff (keptBytes_length_le cs),
      hwrites, hend]
    constructor
    · intro h
      exact h.stores _ (by simp)
    · intro hroom
      refine ⟨?_, fun d'' rest' hres' => ?_⟩
      · rw [List.forall_mem_append]
        exact ⟨hl, by simpa using hroom⟩
      · rw [hres] at hres'
        cases hres'
        rw [hread.tmpc]
        exact Nat.le_of_lt hroom

end Comm

namespace Calc

open CString Comm RestartBuffer

/-- demo-calc ends a line at LF or CR. -/
def endsLine (c : Int) : Bool :=
  c == 10 || c == 13

/-- A character that ends no line is no LF and no CR. -/
theorem endsLine_eq_false {c : Int} : endsLine c = false ↔ ¬ (c = 10 ∨ c = 13) := by
  simp [endsLine]

/-- The loop passes over everything that does not end the line. -/
theorem commGetLoop_chars (size : Nat) (cs : List Int) (hcs : ∀ x ∈ cs, endsLine x = false)
    (rest : List Int) (d : CommData) (cnt : Nat) :
    commGetLoop size d cnt (cs ++ rest) =
      commGetLoop size (commFill size d cnt cs).1 (commFill size d cnt cs).2 rest := by
  induction cs generalizing d cnt with
  | nil => rfl
  | cons c cs ih =>
      obtain ⟨hc, hcs⟩ := List.forall_mem_cons.mp hcs
      rw [List.cons_append, commGetLoop, if_neg (endsLine_eq_false.mp hc)]
      exact ih hcs (d.store (place size cnt) (charByte c)) (place size cnt + 1)

/-- The stores of the characters are inside. -/
theorem commGetWrites_chars (cs : List Int) (hcs : ∀ x ∈ cs, endsLine x = false)
    (rest : List Int) (d : CommData) (cnt : Nat) :
    ∃ l, (∀ i ∈ l, i < commTempBufSize) ∧
      commGetWrites commTempBufSize cnt (cs ++ rest) =
        l ++ commGetWrites commTempBufSize (commFill commTempBufSize d cnt cs).2 rest := by
  induction cs generalizing d cnt with
  | nil => exact ⟨[], nofun, rfl⟩
  | cons c cs ih =>
      obtain ⟨hc, hcs⟩ := List.forall_mem_cons.mp hcs
      obtain ⟨l, hl, heq⟩ := ih hcs
        (d.store (place commTempBufSize cnt) (charByte c)) (place commTempBufSize cnt + 1)
      refine ⟨place commTempBufSize cnt :: l, ?_, ?_⟩
      · exact List.forall_mem_cons.mpr ⟨place_lt (by decide) cnt, hl⟩
      · rw [List.cons_append, commGetWrites, if_neg (endsLine_eq_false.mp hc)]
        exact congrArg _ heq

/-- demo-calc stores outside `temp` when a line ends with the buffer full. -/
theorem readsInside_iff {d : CommData} (hd : d.tmpsize = commTempBufSize) (input : List Int) :
    ReadsInside (commGetWrites d.tmpsize 0 input) (commGetCommand d input) ↔
      ¬ EndsFull endsLine input := by
  rw [hd]
  rcases firstLine_cases endsLine input with hnone | ⟨cs, c, rest, rfl, hc, hcs⟩
  · obtain ⟨l, hl, hwrites⟩ := commGetWrites_chars input hnone [] d 0
    have hloop := commGetLoop_chars d.tmpsize input hnone [] d 0
    rw [List.append_nil] at hwrites hloop
    rw [hwrites]
    refine iff_of_true ⟨by simpa [commGetWrites] using hl, fun d' rest hres => ?_⟩
      (not_endsFull_of_forall hnone)
    rw [commGetCommand, hloop] at hres
    cases hres
  · obtain ⟨l, hl, hwrites⟩ := commGetWrites_chars cs hcs (c :: rest) d 0
    have hstop : c = 10 ∨ c = 13 := by simpa [endsLine] using hc
    obtain ⟨hcnt, -, -⟩ := commFill_holds d cs
    have hle := keptBytes_length_le cs
    have hend : commGetWrites commTempBufSize (commFill commTempBufSize d 0 cs).2 (c :: rest) =
        [(keptBytes cs).length] := by
      rw [commGetWrites, if_pos hstop, hcnt]
    rw [endsFull_append hcs hc, hwrites, hend]
    constructor
    · intro h
      exact Nat.ne_of_lt (h.stores _ (by simp))
    · intro hroom
      refine ⟨?_, fun d' rest' hres => ?_⟩
      · rw [List.forall_mem_append]
        exact ⟨hl, by simpa using Nat.lt_of_le_of_ne hle hroom⟩
      · rw [commGetCommand, hd, commGetLoop_chars _ _ hcs, commGetLoop, if_pos hstop, hcnt] at hres
        cases hres
        exact Nat.lt_of_le_of_ne hle hroom

end Calc

namespace Comm

open CString RestartBuffer

/-- **The readers and their buffer.**  With `tmpsize` as `comm_data_init` sets it, for
every input and whatever else the command data holds. -/
theorem readers_inside_iff {d : CommData} (hd : d.tmpsize = commTempBufSize) (input : List Int) :
    (ReadsInside (commGetWrites d.tmpsize d 0 input) (commGetCommand d input) ↔
        ¬ (EndsFull endsLine input ∧ ¬ EndsCr input)) ∧
      (ReadsInside (Calc.commGetWrites d.tmpsize 0 input) (Calc.commGetCommand d input) ↔
        ¬ EndsFull Calc.endsLine input) :=
  ⟨readsInside_iff hd input, Calc.readsInside_iff hd input⟩

/-- A one-byte line is read inside the buffer by both. -/
theorem readers_inside_oneByte :
    ReadsInside (commGetWrites commTempBufSize commInitData 0 [65, 10])
        (commGetCommand commInitData [65, 10]) ∧
      ReadsInside (Calc.commGetWrites commTempBufSize 0 [65, 10])
        (Calc.commGetCommand commInitData [65, 10]) := by
  have hiff := readers_inside_iff (d := commInitData) rfl [65, 10]
  have hshort : ∀ ends, firstLine ends [65, 10] = [65] → ¬ EndsFull ends [65, 10] := by
    rintro ends hline ⟨-, -, hdvd⟩
    rw [hline] at hdvd
    exact absurd hdvd (by decide)
  exact ⟨hiff.1.mpr fun h => hshort endsLine rfl h.1, hiff.2.mpr (hshort Calc.endsLine rfl)⟩

/-- A line of 4096 bytes `a`. -/
def fullLine : List Int :=
  List.replicate commTempBufSize 97 ++ [10]

/-- Both readers store the terminator of a full line past the buffer. -/
theorem readers_past_buffer :
    ¬ ReadsInside (commGetWrites commTempBufSize commInitData 0 fullLine)
        (commGetCommand commInitData fullLine) ∧
      ¬ ReadsInside (Calc.commGetWrites commTempBufSize 0 fullLine)
        (Calc.commGetCommand commInitData fullLine) := by
  have hnil : List.replicate commTempBufSize (97 : Int) ≠ [] := by
    rw [ne_eq, List.replicate_eq_nil_iff]
    decide
  have hfull : ∀ ends, ends 97 = false → ends 10 = true →
      firstLine ends fullLine = List.replicate commTempBufSize 97 ∧ EndsFull ends fullLine := by
    intro ends hletter hlf
    have hletters : ∀ x ∈ List.replicate commTempBufSize (97 : Int), ends x = false := by
      intro x hx
      rw [List.eq_of_mem_replicate hx]
      exact hletter
    have hline : firstLine ends fullLine = List.replicate commTempBufSize 97 :=
      firstLine_append hletters hlf
    refine ⟨hline, ⟨10, by simp [fullLine], hlf⟩, ?_⟩
    rw [hline, List.length_replicate]
    exact ⟨hnil, Nat.dvd_refl _⟩
  have hdh := readsInside_iff (d := commInitData) rfl fullLine
  have hcalc := Calc.readsInside_iff (d := commInitData) rfl fullLine
  refine ⟨fun h => hdh.mp h ⟨(hfull endsLine rfl rfl).2, fun hcr => ?_⟩,
    fun h => hcalc.mp h (hfull Calc.endsLine rfl rfl).2⟩
  rw [EndsCr, (hfull endsLine rfl rfl).1, List.map_replicate, List.getLast?_replicate,
    if_neg (by decide)] at hcr
  exact absurd hcr (by decide)

end Comm

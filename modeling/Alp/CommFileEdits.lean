import Alp.CommFile

/-!
# Edits of a file

The file object on a regular file: `lseek`, `read` and `write` as POSIX has them, with
full transfers.  `append` and `insert` position the descriptor and write, and a write in
the middle of a file overwrites: the bytes that were there are not moved.  A file is read
back by its size, which is an `int`.
-/

set_option autoImplicit false

namespace CommFile

open CString Hoare

/-- A file, and the offset of its descriptor. -/
structure Posix where
  content : List UInt8
  offset : Nat

/-- The file after `bs` are written at `offset`; a gap before them is filled with zeros. -/
def writeAt (content : List UInt8) (offset : Nat) (bs : List UInt8) : List UInt8 :=
  if bs = [] then content
  else content.take offset ++ List.replicate (offset - content.length) 0 ++ bs ++
    content.drop (offset + bs.length)

/-- The offset that `lseek` is asked for. -/
def seekTarget (content : List UInt8) (offs : Int) : Whence → Int
  | .seekSet => offs
  | .seekEnd => content.length + offs

/-- The system calls on one open file. -/
def posix : Kernel Posix where
  openFile := fun _ _ _ s => (3, { s with offset := 0 })
  close := fun _ s => (0, s)
  read := fun _ nbytes s =>
    let bs := (s.content.drop s.offset).take nbytes
    (.bytes bs, { s with offset := s.offset + bs.length })
  write := fun _ bs s => (bs.length, ⟨writeAt s.content s.offset bs, s.offset + bs.length⟩)
  lseek := fun _ offs whence s =>
    let target := seekTarget s.content offs whence
    if target < 0 then (-1, s) else (target, { s with offset := target.toNat })
  read_le := by
    intro fd nbytes s bs h
    cases h
    exact List.length_take_le _ _

inductive Edit
  | append (buf : Buf)
  | insert (pos : Int) (buf : Buf)

def Edit.buf : Edit → Buf
  | .append buf => buf
  | .insert _ buf => buf

variable {σ : Type}

def commFileEdit (K : Kernel σ) : Edit → FileM σ Int
  | .append buf => commFileAppend K buf
  | .insert pos buf => commFileInsert K pos buf

/-- One edit after another. -/
def commFileEdits (K : Kernel σ) : List Edit → FileM σ Unit
  | [] => return ()
  | e :: es => do
    let _ ← commFileEdit K e
    commFileEdits K es

/-- Reading a file back: `at_end` for its size, `at_start` and `read`. -/
def readBack (K : Kernel σ) (buf : Mem) (tmsec : Int) (fuel : Nat) :
    FileM σ (Option (List UInt8)) := do
  let len ← commFileAtEnd K
  let _ ← commFileAtStart K
  let r ← commFileRead K buf len tmsec fuel
  return r.map fun r => (List.range r.1.toNat).map r.2

/-- What an edit should do to a list of bytes. -/
def Edit.apply (content : List UInt8) : Edit → List UInt8
  | .append buf => content ++ buf.bytes
  | .insert pos buf => content.take pos.toNat ++ buf.bytes ++ content.drop pos.toNat

/-- Every insert is at a position in the file as it is then. -/
def PosOk : World Posix → List Edit → Prop
  | _, [] => True
  | w, e :: es =>
    (∀ pos buf, e = .insert pos buf → 0 ≤ pos ∧ pos ≤ w.kernel.content.length) ∧
      PosOk (commFileEdit posix e w).2 es

/-- After the edits the file reads back as it should. -/
def ReadsBack (w : World Posix) (edits : List Edit) : Prop :=
  ∀ (buf : Mem) (tmsec : Int), ∃ fuel,
    (readBack posix buf tmsec fuel (commFileEdits posix edits w).2).1 =
      some (edits.foldl Edit.apply w.kernel.content)

/-- The number of bytes in the edits. -/
def added : List Edit → Nat
  | [] => 0
  | e :: es => e.buf.bytes.length + added es

/-- In a file of `size` bytes, every insert is empty or at the end. -/
def AtEndOnly : Nat → List Edit → Prop
  | _, [] => True
  | size, e :: es =>
    (∀ pos buf, e = .insert pos buf → buf.bytes = [] ∨ pos = size) ∧
      AtEndOnly (size + e.buf.bytes.length) es

/-- An open object on a file. -/
def Has (content : List UInt8) (w : World Posix) : Prop :=
  w.file.status ≠ 0 ∧ w.kernel.content = content

/-- The same, with the offset. -/
def HasAt (content : List UInt8) (offset : Nat) (w : World Posix) : Prop :=
  w.file.status ≠ 0 ∧ w.kernel = ⟨content, offset⟩

/-- On a POSIX file `at` moves the offset to its target. -/
theorem commFileAt_posix {content : List UInt8} {offs : Int} {whence : Whence} {n : Nat}
    (htarget : seekTarget content offs whence = n) :
    Triple (Has content) (commFileAt posix offs whence) fun r w =>
      r = cInt n ∧ HasAt content n w := by
  intro w hw
  obtain ⟨hstatus, rfl⟩ := hw
  have hseek : posix.lseek w.file.fd.num offs whence w.kernel =
      ((n : Int), { w.kernel with offset := n }) := by
    unfold posix
    dsimp only
    rw [htarget, if_neg (by omega), Int.toNat_natCast]
  rw [commFileAt_eq posix hstatus, hseek]
  exact ⟨rfl, hstatus, rfl⟩

/-- On a POSIX file `write` lays the bytes at the offset. -/
theorem commFileWrite_posix (content : List UInt8) (offset : Nat) (buf : Buf) :
    Triple (HasAt content offset) (commFileWrite posix buf) fun _ =>
      Has (writeAt content offset buf.bytes) := by
  intro w hw
  obtain ⟨hstatus, hkernel⟩ := hw
  rw [commFileWrite_eq posix hstatus, hkernel]
  exact ⟨hstatus, rfl⟩

/-- Writing at the end appends. -/
theorem writeAt_end (content bs : List UInt8) :
    writeAt content content.length bs = content ++ bs := by
  unfold writeAt
  split
  · next h => simp [h]
  · simp

/-- `append` on a file whose size is an `int`. -/
theorem commFileAppend_posix {content : List UInt8} (hsize : content.length < 2 ^ 31)
    (buf : Buf) :
    Triple (Has content) (commFileAppend posix buf) fun _ => Has (content ++ buf.bytes) := by
  have htarget : seekTarget content 0 .seekEnd = content.length := Int.add_zero _
  refine Triple.bind (commFileAt_posix htarget) fun r => ?_
  have hr : cInt content.length = content.length := cInt_eq (by omega) (by omega)
  apply Triple.ite
  · rintro hneg w ⟨heq, -⟩
    omega
  · intro _
    rw [← writeAt_end]
    exact Triple.conseq (commFileWrite_posix content content.length buf) (fun w hw => hw.2)
      fun _ _ hw => hw

/-- `insert` at a position that is an `int`. -/
theorem commFileInsert_posix {content : List UInt8} {pos : Int} (hpos : 0 ≤ pos)
    (hlt : pos < 2 ^ 31) (buf : Buf) :
    Triple (Has content) (commFileInsert posix pos buf) fun _ =>
      Has (writeAt content pos.toNat buf.bytes) := by
  have htarget : seekTarget content pos .seekSet = pos.toNat := (Int.toNat_of_nonneg hpos).symm
  refine Triple.bind (commFileAt_posix htarget) fun r => ?_
  have hr : cInt pos.toNat = pos := by
    rw [Int.toNat_of_nonneg hpos]
    exact cInt_eq (by omega) hlt
  apply Triple.ite
  · rintro hneg w ⟨heq, -⟩
    omega
  · intro _
    exact Triple.conseq (commFileWrite_posix content pos.toNat buf) (fun w hw => hw.2)
      fun _ _ hw => hw

/-- What is returned, if anything, is below 2^31. -/
def ReturnsInt (r : Option (Int × Mem)) (_ : World σ) : Prop :=
  ∀ n m, r = some (n, m) → n < 2 ^ 31

/-- An answer below 2^31 is an `int`. -/
theorem returnsInt_some {n : Int} (h : n < 2 ^ 31) (m : Mem) :
    Triple (fun _ => True) (return some (n, m)) (ReturnsInt (σ := σ)) := by
  intro w _ n' m' heq
  cases heq
  exact h

/-- A call on the descriptor always comes back. -/
theorem sysOnFd_true {α : Type} (f : File) (call : FdCall) (run : σ → α × σ) :
    Triple (fun _ => True) (sysOnFd f call run) fun _ _ => True :=
  fun _ _ => trivial

/-- Reading the object always comes back. -/
theorem getFile_true : Triple (fun _ => True) (getFile (σ := σ)) fun _ _ => True :=
  fun _ _ => trivial

/-- `comm_file_read` returns an `int`. -/
theorem readLoop_int (K : Kernel σ) (f : File) (fuel : Nat) (last usCnt : Int) {len : Int}
    (hlen : len < 2 ^ 31) (pd : Mem) :
    Triple (fun _ => True) (readLoop K f fuel last usCnt len pd) ReturnsInt := by
  induction fuel generalizing last usCnt len pd with
  | zero =>
      unfold readLoop
      apply Triple.ite
      · intro _
        exact returnsInt_some hlen pd
      · intro _ w _ n m heq
        cases heq
  | succ fuel ih =>
      unfold readLoop
      dsimp only
      apply Triple.ite
      · intro _
        exact returnsInt_some hlen pd
      intro _
      refine Triple.bind (sysOnFd_true f _ _) fun res => ?_
      cases res with
      | error => exact ih _ _ hlen _
      | bytes bs =>
          apply Triple.ite
          · intro _
            exact ih _ _ hlen _
          intro _
          apply Triple.ite
          · intro _
            exact ih _ _ (cInt_lt _) _
          intro _
          apply Triple.ite
          · intro _
            exact returnsInt_some hlen _
          · intro _
            exact ih _ _ hlen _

/-- `read` answers an `int`. -/
theorem commFileRead_int (K : Kernel σ) (buf : Mem) (nbytes tmsec : Int) (fuel : Nat) :
    Triple (fun _ => True) (commFileRead K buf nbytes tmsec fuel) ReturnsInt := by
  refine Triple.bind getFile_true fun f => ?_
  apply Triple.ite
  · intro _
    exact returnsInt_some (by decide) buf
  · intro _
    exact readLoop_int K f fuel _ _ (by decide) _

/-- What is read back has a length that is an `int`. -/
theorem readBack_int (K : Kernel σ) (buf : Mem) (tmsec : Int) (fuel : Nat) (w : World σ)
    {bs : List UInt8} (h : (readBack K buf tmsec fuel w).1 = some bs) : bs.length < 2 ^ 31 := by
  have hread := commFileRead_int K buf (commFileAtEnd K w).1 tmsec fuel
    (commFileAtStart K (commFileAtEnd K w).2).2 trivial
  obtain ⟨⟨n, m⟩, hr, rfl⟩ := Option.map_eq_some_iff.mp h
  have hn := hread n m hr
  rw [List.length_map, List.length_range]
  omega

/-- The bytes laid into memory are read back. -/
theorem map_putBytes (m : Mem) (bs : List UInt8) :
    (List.range bs.length).map (putBytes m 0 bs) = bs := by
  apply List.ext_getElem
  · simp
  · intro i hi hi'
    have hin : i < bs.length := by simpa using hi
    simp [putBytes, hin]

/-- One `read` call returns the whole file. -/
theorem readLoop_posix {content : List UInt8} (hsize : content.length < 2 ^ 31) (f : File)
    (fuel : Nat) (usCnt : Int) (pd : Mem) :
    Triple (HasAt content 0) (readLoop posix f fuel content.length usCnt 0 pd) fun r _ =>
      r.map (fun r => (List.range r.1.toNat).map r.2) =
        if content = [] ∨ 0 < fuel then some content else none := by
  unfold readLoop
  apply Triple.ite
  · intro hzero w _
    have hnil : content = [] := List.length_eq_zero_iff.mp (by omega)
    rw [if_pos (Or.inl hnil), hnil]
    rfl
  intro hpos
  have hne : content ≠ [] := by
    rintro rfl
    exact hpos rfl
  cases fuel with
  | zero =>
      intro w _
      rw [if_neg (by simp [hne])]
      rfl
  | succ fuel =>
      dsimp only
      have hcall : Triple (HasAt content 0)
          (sysOnFd f (.read (sizeT content.length))
            (posix.read f.fd.num (sizeT content.length)))
          fun res _ => res = .bytes content := by
        intro w hw
        have htake : (content.drop 0).take (sizeT content.length) = content := by
          have hlen : sizeT content.length = content.length := by
            rw [sizeT]
            omega
          rw [hlen, List.drop_zero, List.take_length]
        rw [sysOnFd, hw.2]
        exact congrArg ReadResult.bytes htake
      refine Triple.bind hcall fun res => ?_
      rintro w rfl
      have hlen : cInt content.length = content.length := cInt_eq (by omega) (by omega)
      have hlast : cInt (content.length - content.length) = 0 := by
        rw [Int.sub_self]
        rfl
      dsimp only
      rw [hlen, if_neg (by omega), if_pos (by omega), hlast, Int.zero_add, hlen,
        if_pos (Or.inr (Nat.succ_pos fuel))]
      unfold readLoop
      rw [if_pos rfl]
      exact congrArg some (map_putBytes pd content)

/-- On a POSIX file `read` from the start gives the whole content. -/
theorem commFileRead_posix {content : List UInt8} (hsize : content.length < 2 ^ 31) (buf : Mem)
    (tmsec : Int) (fuel : Nat) :
    Triple (HasAt content 0) (commFileRead posix buf content.length tmsec fuel) fun r _ =>
      r.map (fun r => (List.range r.1.toNat).map r.2) =
        if content = [] ∨ 0 < fuel then some content else none := by
  intro w hw
  have hbranch : commFileRead posix buf content.length tmsec fuel w =
      (if w.file.status = 0 then return some (0, buf)
      else readLoop posix w.file fuel content.length (dlyCnt tmsec) 0 buf :
        FileM Posix (Option (Int × Mem))) w := rfl
  rw [hbranch, if_neg hw.1]
  exact readLoop_posix hsize w.file fuel _ buf w hw

/-- Reading back gives the whole file, where its size is an `int`. -/
theorem readBack_posix {content : List UInt8} (hsize : content.length < 2 ^ 31) (buf : Mem)
    (tmsec : Int) (fuel : Nat) :
    Triple (Has content) (readBack posix buf tmsec fuel) fun r _ =>
      r = if content = [] ∨ 0 < fuel then some content else none := by
  have hend : seekTarget content 0 .seekEnd = content.length := Int.add_zero _
  have hstart : seekTarget content 0 .seekSet = (0 : Nat) := rfl
  have hlen : cInt content.length = content.length := cInt_eq (by omega) (by omega)
  have hread : Triple (Has content)
      (do
        let _ ← commFileAtStart posix
        let r ← commFileRead posix buf content.length tmsec fuel
        return r.map fun r => (List.range r.1.toNat).map r.2)
      fun r _ => r = if content = [] ∨ 0 < fuel then some content else none := by
    refine Triple.bind (commFileAt_posix hstart) fun _ => ?_
    refine Triple.bind (Triple.conseq (commFileRead_posix hsize buf tmsec fuel)
      (fun w hw => hw.2) fun _ _ h => h) fun r => ?_
    exact Triple.pure fun w h => h
  refine Triple.bind (commFileAt_posix hend) fun len => ?_
  rintro w ⟨rfl, hw⟩
  rw [hlen]
  exact hread w ⟨hw.1, congrArg Posix.content hw.2⟩

/-- What an edit does to the file. -/
def Edit.onFile (content : List UInt8) : Edit → List UInt8
  | .append buf => content ++ buf.bytes
  | .insert pos buf => writeAt content pos.toNat buf.bytes

/-- An edit adds its bytes to the length. -/
theorem length_apply (content : List UInt8) (e : Edit) :
    (e.apply content).length = content.length + e.buf.bytes.length := by
  cases e with
  | append buf => simp [Edit.apply, Edit.buf]
  | insert pos buf =>
      simp only [Edit.apply, Edit.buf, List.length_append, List.length_take, List.length_drop]
      omega

/-- The edits add all their bytes to the length. -/
theorem length_foldl_apply (content : List UInt8) (edits : List Edit) :
    (edits.foldl Edit.apply content).length = content.length + added edits := by
  induction edits generalizing content with
  | nil => rfl
  | cons e es ih =>
      rw [List.foldl_cons, ih, length_apply, added]
      omega

/-- A write within the file or at its end. -/
theorem length_writeAt (content : List UInt8) {pos : Nat} (hpos : pos ≤ content.length)
    {bs : List UInt8} (hne : bs ≠ []) :
    (writeAt content pos bs).length = max content.length (pos + bs.length) := by
  unfold writeAt
  rw [if_neg hne]
  simp only [List.length_append, List.length_take, List.length_replicate, List.length_drop]
  omega

/-- The file is at most as long as it should be, and shorter after an insert of something
in its middle. -/
theorem length_onFile (content : List UInt8) (e : Edit)
    (hpos : ∀ pos buf, e = .insert pos buf → 0 ≤ pos ∧ pos ≤ content.length) :
    (e.onFile content).length ≤ content.length + e.buf.bytes.length ∧
      ((e.onFile content).length = content.length + e.buf.bytes.length ↔
        ∀ pos buf, e = .insert pos buf → buf.bytes = [] ∨ pos = content.length) := by
  cases e with
  | append buf =>
      constructor
      · simp [Edit.onFile, Edit.buf]
      · simp [Edit.onFile, Edit.buf]
  | insert pos buf =>
      obtain ⟨hlow, hhigh⟩ := hpos pos buf rfl
      by_cases hnil : buf.bytes = []
      · constructor
        · simp [Edit.onFile, Edit.buf, writeAt, hnil]
        · simp only [Edit.onFile, Edit.buf, writeAt, hnil, if_true, List.length_nil,
            Nat.add_zero, true_iff]
          rintro _ _ ⟨⟩
          exact Or.inl hnil
      · have hpositive := List.length_pos_iff.mpr hnil
        have hlength := length_writeAt content (by omega : pos.toNat ≤ content.length) hnil
        have hcond : (∀ p b, Edit.insert pos buf = .insert p b →
            b.bytes = [] ∨ p = content.length) ↔ pos = content.length := by
          constructor
          · intro h
            exact (h pos buf rfl).resolve_left hnil
          · rintro h _ _ ⟨⟩
            exact Or.inr h
        rw [hcond]
        simp only [Edit.onFile, Edit.buf, hlength]
        omega

/-- An edit that keeps all data does what it should. -/
theorem onFile_eq_apply {content : List UInt8} {e : Edit}
    (h : ∀ pos buf, e = .insert pos buf → buf.bytes = [] ∨ pos = content.length) :
    e.onFile content = e.apply content := by
  cases e with
  | append buf => rfl
  | insert pos buf =>
      rcases h pos buf rfl with hnil | hend
      · simp [Edit.onFile, Edit.apply, writeAt, hnil]
      · rw [Edit.onFile, Edit.apply, hend, Int.toNat_natCast, writeAt_end]
        simp

/-- On a POSIX file an edit does what `onFile` says. -/
theorem commFileEdit_posix {content : List UInt8} (hsize : content.length < 2 ^ 31) {e : Edit}
    (hpos : ∀ pos buf, e = .insert pos buf → 0 ≤ pos ∧ pos ≤ content.length) :
    Triple (Has content) (commFileEdit posix e) fun _ => Has (e.onFile content) := by
  cases e with
  | append buf => exact commFileAppend_posix hsize buf
  | insert pos buf =>
      obtain ⟨hlow, hhigh⟩ := hpos pos buf rfl
      exact commFileInsert_posix hlow (by omega) buf

/-- The edits of a file that stays within an `int`: the file is not longer than it should
be, and as long only if every insert is at its end; then it is what it should be. -/
theorem commFileEdits_posix {content : List UInt8} {edits : List Edit}
    (hsize : content.length + added edits < 2 ^ 31) {w : World Posix} (hw : Has content w)
    (hpos : PosOk w edits) :
    ∃ final, Has final (commFileEdits posix edits w).2 ∧
      final.length ≤ content.length + added edits ∧
      (final.length = content.length + added edits ↔ AtEndOnly content.length edits) ∧
      (AtEndOnly content.length edits → final = edits.foldl Edit.apply content) := by
  induction edits generalizing content w with
  | nil => exact ⟨content, hw, le_rfl, by simp [added, AtEndOnly], fun _ => rfl⟩
  | cons e es ih =>
      obtain ⟨hfirst, hrest⟩ := hpos
      rw [hw.2] at hfirst
      rw [added] at hsize ⊢
      have hstep := commFileEdit_posix (by omega) hfirst w hw
      obtain ⟨hle, hiff⟩ := length_onFile content e hfirst
      obtain ⟨final, hfinal, hshort, hequal, hkeep⟩ := ih (by omega) hstep hrest
      refine ⟨final, hfinal, by omega, ?_, ?_⟩
      · rw [AtEndOnly, ← hiff]
        constructor
        · intro hlength
          have hthis : (e.onFile content).length = content.length + e.buf.bytes.length := by
            omega
          refine ⟨hthis, ?_⟩
          rw [← hthis]
          exact hequal.mp (by omega)
        · rintro ⟨hthis, hothers⟩
          rw [← hthis] at hothers
          have := hequal.mpr hothers
          omega
      · rintro ⟨hthis, hothers⟩
        rw [List.foldl_cons, ← onFile_eq_apply hthis]
        rw [← hiff.mpr hthis] at hothers
        exact hkeep hothers

/-- **No data is lost** exactly when every insert is empty or at the end of the file, and
the size of the file stays an `int`. -/
theorem readsBack_iff {w : World Posix} (hopen : w.file.status ≠ 0) {edits : List Edit}
    (hpos : PosOk w edits) :
    ReadsBack w edits ↔ AtEndOnly w.kernel.content.length edits ∧
      w.kernel.content.length + added edits < 2 ^ 31 := by
  have hlength := length_foldl_apply w.kernel.content edits
  constructor
  · intro h
    obtain ⟨fuel, hread⟩ := h (fun _ => 0) 0
    have hsize := readBack_int posix _ _ _ _ hread
    rw [hlength] at hsize
    obtain ⟨final, hfinal, hle, hiff, -⟩ := commFileEdits_posix hsize ⟨hopen, rfl⟩ hpos
    have hback := readBack_posix (by omega) (fun _ => 0) 0 fuel _ hfinal
    rw [hread] at hback
    split at hback
    · have heq := Option.some.inj hback
      rw [heq] at hlength
      exact ⟨hiff.mp hlength, hsize⟩
    · cases hback
  · rintro ⟨hends, hsize⟩ buf tmsec
    obtain ⟨final, hfinal, hle, -, hkeep⟩ := commFileEdits_posix hsize ⟨hopen, rfl⟩ hpos
    have hback := readBack_posix (by omega) buf tmsec 1 _ hfinal
    refine ⟨1, ?_⟩
    rw [hback, if_pos (Or.inr Nat.one_pos), hkeep hends]

/-- An object on the file `helloworld`. -/
def helloworld : World Posix :=
  ⟨{ commFileCreate with fd := ⟨3, some 0⟩, status := 1 }, ⟨asciiBytes "helloworld", 0⟩, 1, []⟩

def program : Buf :=
  ⟨asciiBytes "program", by decide⟩

def xyz : Buf :=
  ⟨asciiBytes "xyz", by decide⟩

/-- `program` is added at the end, and `xyz` after it. -/
theorem readsBack_program :
    ReadsBack helloworld [.append program, .insert 17 xyz] := by
  have hpos : PosOk helloworld [.append program, .insert 17 xyz] := by
    refine ⟨?_, ?_, trivial⟩
    · rintro _ _ ⟨⟩
    · rintro _ _ ⟨⟩
      decide +kernel
  apply (readsBack_iff (w := helloworld) (by decide) hpos).mpr
  refine ⟨⟨?_, ?_, trivial⟩, by decide +kernel⟩
  · rintro _ _ ⟨⟩
  · rintro _ _ ⟨⟩
    right
    decide +kernel

/-- `xyz` put in front of `helloworld` overwrites `hel`. -/
theorem insert_overwrites :
    (readBack posix (fun _ => 0) 1 1
        (commFileEdits posix [.insert 0 xyz] helloworld).2).1 = some (asciiBytes "xyzloworld") ∧
      ¬ ReadsBack helloworld [.insert 0 xyz] := by
  have hcontent : Has (asciiBytes "xyzloworld")
      (commFileEdits posix [.insert 0 xyz] helloworld).2 := by
    constructor
    · decide +kernel
    · decide +kernel
  have hback := fun fuel => readBack_posix
    (by decide +kernel : (asciiBytes "xyzloworld").length < 2 ^ 31) (fun _ => 0) 1 fuel _ hcontent
  constructor
  · rw [hback 1]
    decide +kernel
  · intro h
    obtain ⟨fuel, hread⟩ := h (fun _ => 0) 1
    rw [hback fuel] at hread
    split at hread
    · exact absurd (Option.some.inj hread) (by decide +kernel)
    · cases hread

end CommFile

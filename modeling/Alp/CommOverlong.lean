import Alp.CommDispatch

/-!
# Lines longer than the buffer

When `temp` is full `comm_get_command` starts over at index 0, so of a line of `n`
bytes, `n` at least 4096, it keeps the last `(n - 1) % 4096 + 1` (`Line.tail`, less a
final CR), and this tail is parsed and executed as if it were the line.

`commParseLoop_word` follows the tokenizer up to the end of the first word.  The word
is found and terminated (`argsAt_firstWord`) unless there is none, or the tail fills
the buffer and runs on to its end (`NeverEnds`): then no terminator is left in `temp`
and no comparison can succeed (`commExecScan_not_found`).
-/

set_option autoImplicit false

namespace Comm

open CString RestartBuffer

/-- The first argument of a text as a C string: past the leading separators, up to the
next separator or NUL. -/
def firstWord (w : List UInt8) : Option (List UInt8) :=
  match w.dropWhile isSep with
  | [] => none
  | b :: u => if b = nul then none else some ((b :: u).takeWhile fun c => !isSep c && c != nul)

/-- A text that fills the buffer and whose first word runs on to its end. -/
def NeverEnds (w : List UInt8) : Prop :=
  w.length = commTempBufSize ∧ ∀ b ∈ w.dropWhile isSep, isSep b = false ∧ b ≠ nul

instance (w : List UInt8) : Decidable (NeverEnds w) :=
  inferInstanceAs (Decidable (_ ∧ _))

/-- What `comm_get_command` keeps of a line. -/
def Line.tail (l : Line) : List UInt8 :=
  stripCr (lastChunk commTempBufSize l.bytes)

/-- The bytes `comm_parse_command` goes over. -/
def CommData.kept (d : CommData) : List UInt8 :=
  (List.range d.tmpc).map d.temp

/-- Reading, parsing and executing the line runs a handler for the line's own first
word only, and not on a proper suffix of the line. -/
def RunsWholeLine (d : CommData) (l : Line) : Prop :=
  ∀ (cmds : CmdMem) (tbl : CmdTable) (cdatas : Addr → CommData) (r : ExecResult),
    commExecCommand cmds tbl (commRunLine d l) cdatas = some r → r.call ≠ none →
      (commRunLine d l).argStr 0 = firstWord l.text ∧
        ¬ ((commReadLine d l).kept <:+ l.text ∧ (commReadLine d l).kept ≠ l.text)

/-- A separator in front changes no first word. -/
theorem firstWord_sep {b : UInt8} (hb : isSep b = true) (w : List UInt8) :
    firstWord (b :: w) = firstWord w := by
  rw [firstWord, firstWord, List.dropWhile_cons_of_pos hb]

/-- Any other byte begins the first word, unless it is a NUL. -/
theorem firstWord_of_not_sep {b : UInt8} (hb : isSep b = false) (w : List UInt8) :
    firstWord (b :: w) =
      if b = nul then none else some ((b :: w).takeWhile fun c => !isSep c && c != nul) := by
  rw [firstWord, List.dropWhile_cons_of_neg (by simp [hb])]

/-- A text with a first word is separators, the word, and a rest that does not
continue it. -/
theorem firstWord_split {w f : List UInt8} (h : firstWord w = some f) :
    ∃ s rest, w = s ++ f ++ rest ∧ (∀ b ∈ s, isSep b = true) ∧ f ≠ [] ∧
      (∀ b ∈ f, isSep b = false ∧ b ≠ nul) ∧
      ∀ b, rest.head? = some b → isSep b = true ∨ b = nul := by
  induction w with
  | nil => cases h
  | cons b w ih =>
      by_cases hb : isSep b = true
      · rw [firstWord_sep hb] at h
        obtain ⟨s, rest, rfl, hs, hf⟩ := ih h
        exact ⟨b :: s, rest, rfl, List.forall_mem_cons.mpr ⟨hb, hs⟩, hf⟩
      · have hb' : isSep b = false := by simpa using hb
        rw [firstWord_of_not_sep hb'] at h
        split at h
        · cases h
        · next hnul =>
            let p := fun c => !isSep c && c != nul
            have hp : p b = true := by simp [p, hb', hnul]
            have hf : (b :: w).takeWhile p = f := Option.some.inj h
            have hsplit : f ++ (b :: w).dropWhile p = b :: w := by
              rw [← hf]
              exact List.takeWhile_append_dropWhile
            refine ⟨[], (b :: w).dropWhile p, ?_, nofun, ?_, ?_, ?_⟩
            · rw [List.nil_append, hsplit]
            · rw [← hf, List.takeWhile_cons_of_pos hp]
              exact List.cons_ne_nil _ _
            · intro c hc
              rw [← hf] at hc
              simpa [p] using List.mem_takeWhile_imp hc
            · intro c hc
              have hnot := List.head?_dropWhile_not p (b :: w)
              rw [hc] at hnot
              have hc' : p c = false := by simpa using hnot
              by_cases hsep : isSep c = true
              · exact Or.inl hsep
              · right
                simpa [p, hsep] using hc'

/-- What the loop leaves alone, whatever bytes there are. -/
theorem commParseLoop_frame (d : CommData) (inArg : Bool) (tmpi argi left : Nat)
    (hroom : tmpi + left ≤ commTempBufSize) :
    (∀ j, j < argi → (commParseLoop d inArg tmpi argi left).argv j = d.argv j) ∧
      (∀ i, i < tmpi ∨ tmpi + left ≤ i →
        (commParseLoop d inArg tmpi argi left).temp i = d.temp i) ∧
      argi ≤ (commParseLoop d inArg tmpi argi left).argc := by
  induction left generalizing d inArg tmpi argi with
  | zero => cases inArg <;> exact ⟨fun _ _ => rfl, fun _ _ => rfl, Nat.le_refl _⟩
  | succ left ih =>
      have hroom' : tmpi + 1 + left ≤ commTempBufSize := by omega
      cases inArg with
      | false =>
          rw [commParseLoop]
          split
          · exact ⟨fun _ _ => rfl, fun _ _ => rfl, Nat.le_refl _⟩
          · split
            · obtain ⟨hargv, htemp, hargc⟩ := ih d false (tmpi + 1) argi hroom'
              exact ⟨hargv, fun i hi => htemp i (by omega), hargc⟩
            · obtain ⟨hargv, htemp, hargc⟩ :=
                ih (d.storeArg argi tmpi) true (tmpi + 1) (argi + 1) hroom'
              refine ⟨fun j hj => ?_, fun i hi => htemp i (by omega), by omega⟩
              rw [hargv j (by omega)]
              exact if_neg (Nat.ne_of_lt hj)
      | true =>
          rw [commParseLoop]
          split
          · obtain ⟨hargv, htemp, hargc⟩ :=
              ih (d.store tmpi commAsciiEof) false (tmpi + 1) argi hroom'
            rw [store_inside _ _ (by omega)] at hargv htemp hargc ⊢
            refine ⟨hargv, fun i hi => ?_, hargc⟩
            rw [htemp i (by omega)]
            exact Mem.set_other d.temp _ (by omega)
          · obtain ⟨hargv, htemp, hargc⟩ := ih d true (tmpi + 1) argi hroom'
            exact ⟨hargv, fun i hi => htemp i (by omega), hargc⟩

/-- The inner loop passes over the bytes of a word. -/
theorem commParseLoop_pass {f : List UInt8} (hf : ∀ b ∈ f, isSep b = false) (d : CommData)
    (tmpi argi left : Nat) (hw : Holds d.temp tmpi f) :
    commParseLoop d true tmpi argi (f.length + left) =
      commParseLoop d true (tmpi + f.length) argi left := by
  induction f generalizing tmpi with
  | nil => rw [List.length_nil, Nat.zero_add, Nat.add_zero]
  | cons b f ih =>
      obtain ⟨hb, hf⟩ := List.forall_mem_cons.mp hf
      have hcount : (b :: f).length + left = f.length + left + 1 := by
        rw [List.length_cons]
        omega
      have hplace : tmpi + (b :: f).length = tmpi + 1 + f.length := by
        rw [List.length_cons]
        omega
      have hbyte : d.temp tmpi = b := hw.1
      rw [hcount, hplace, commParseLoop, hbyte, if_neg (by simp [hb])]
      exact ih hf (tmpi + 1) hw.2

/-- The outer loop skips the separators, and `argv` gets the word behind them. -/
theorem commParseLoop_word {s f : List UInt8} (hs : ∀ b ∈ s, isSep b = true) (hne : f ≠ [])
    (hf : ∀ b ∈ f, isSep b = false ∧ b ≠ nul) (d : CommData) (tmpi argi left : Nat)
    (hw : Holds d.temp tmpi (s ++ f)) :
    commParseLoop d false tmpi argi (s.length + f.length + left) =
      commParseLoop (d.storeArg argi (tmpi + s.length)) true (tmpi + s.length + f.length)
        (argi + 1) left := by
  induction s generalizing tmpi with
  | nil =>
      obtain ⟨b, f, rfl⟩ := List.exists_cons_of_ne_nil hne
      obtain ⟨⟨hb, hnul⟩, hf⟩ := List.forall_mem_cons.mp hf
      have hbyte : d.temp tmpi = b := hw.1
      have heof : b ≠ commAsciiEof := hnul
      have hcount : ([] : List UInt8).length + (b :: f).length + left = f.length + left + 1 := by
        simp only [List.length_nil, List.length_cons]
        omega
      rw [hcount, commParseLoop, hbyte, if_neg heof, if_neg (by simp [hb]),
        commParseLoop_pass (fun c hc => (hf c hc).1) (d.storeArg argi tmpi) _ _ _ hw.2,
        List.length_nil, Nat.add_zero, List.length_cons]
      congr 1
      omega
  | cons b s ih =>
      obtain ⟨hb, hs⟩ := List.forall_mem_cons.mp hs
      have hbyte : d.temp tmpi = b := hw.1
      have hnul : b ≠ commAsciiEof := by
        rintro rfl
        exact absurd hb (by decide)
      have hcount : (b :: s).length + f.length + left = s.length + f.length + left + 1 := by
        rw [List.length_cons]
        omega
      have hplace : tmpi + (b :: s).length = tmpi + 1 + s.length := by
        rw [List.length_cons]
        omega
      rw [hcount, hplace, commParseLoop, hbyte, if_neg hnul, if_pos hb]
      exact ih hs (tmpi + 1) hw.2

/-- A text without a first word has no arguments. -/
theorem argc_of_firstWord_none {w : List UInt8} (h : firstWord w = none) (d : CommData)
    (tmpi : Nat) (hw : Holds d.temp tmpi w) :
    (commParseLoop d false tmpi 0 w.length).argc = 0 := by
  induction w generalizing tmpi with
  | nil => rfl
  | cons b w ih =>
      have hbyte : d.temp tmpi = b := hw.1
      rw [List.length_cons, commParseLoop, hbyte]
      by_cases hb : isSep b = true
      · rw [firstWord_sep hb] at h
        have heof : b ≠ commAsciiEof := by
          rintro rfl
          exact absurd hb (by decide)
        rw [if_neg heof, if_pos hb]
        exact ih h (tmpi + 1) hw.2
      · rw [firstWord_of_not_sep (by simpa using hb)] at h
        split at h
        · next hnul =>
            have heof : b = commAsciiEof := hnul
            rw [if_pos heof]
        · cases h

/-- The first word is found and terminated, unless it never ends. -/
theorem argsAt_firstWord {d : CommData} {w f : List UInt8} (hw : Holds d.temp 0 w)
    (htmpc : d.tmpc = w.length) (hroom : w.length ≤ commTempBufSize)
    (hend : w.length < commTempBufSize → d.temp w.length = nul)
    (hf : firstWord w = some f) (hends : ¬ NeverEnds w) :
    ArgsAt (commParseCommand d) 0 [f] ∧ 0 < (commParseCommand d).argc := by
  obtain ⟨s, rest, rfl, hs, hne, hword, hrest⟩ := firstWord_split hf
  have hlen : (s ++ f ++ rest).length = s.length + f.length + rest.length := by
    simp only [List.length_append]
  rw [hlen] at htmpc hroom hend
  rw [holds_append] at hw
  obtain ⟨hwsf, hwrest⟩ := hw
  rw [Nat.zero_add, List.length_append] at hwrest
  have hwf : Holds d.temp s.length f := by
    have h := (holds_append.mp hwsf).2
    rwa [Nat.zero_add] at h
  have hloop := commParseLoop_word hs hne hword d 0 0 rest.length hwsf
  rw [Nat.zero_add, Nat.zero_add] at hloop
  obtain ⟨hargv, htemp, hargc⟩ := commParseLoop_frame (d.storeArg 0 s.length) true
    (s.length + f.length) 1 rest.length hroom
  have hptr : (commParseCommand d).argv 0 = .temp s.length := by
    rw [commParseCommand, htmpc, hloop, hargv 0 (by omega)]
    rfl
  have hbytes : Holds (commParseCommand d).temp s.length f := by
    refine hwf.congr fun j _ hj => ?_
    rw [commParseCommand, htmpc, hloop]
    exact htemp j (Or.inl hj)
  -- the byte behind the word: a separator overwritten, a NUL, or the terminator
  have hstop : (commParseCommand d).temp (s.length + f.length) = nul ∧
      s.length + f.length < commTempBufSize := by
    rw [commParseCommand, htmpc, hloop]
    cases rest with
    | nil =>
        rw [List.length_nil, Nat.add_zero] at hroom hend
        have hlt : s.length + f.length < commTempBufSize := by
          by_contra hfull
          refine hends ⟨by rw [hlen, List.length_nil]; omega, fun b hb => hword b ?_⟩
          rw [List.append_nil, List.dropWhile_append_of_pos hs] at hb
          exact List.dropWhile_suffix _ |>.subset hb
        refine ⟨?_, hlt⟩
        exact hend hlt
    | cons b rest =>
        rw [List.length_cons] at hroom ⊢
        refine ⟨?_, by omega⟩
        have hbyte : d.temp (s.length + f.length) = b := hwrest.1
        have hbyte' : (d.storeArg 0 s.length).temp (s.length + f.length) = b := hbyte
        rw [commParseLoop, hbyte']
        by_cases hb : isSep b = true
        · rw [if_pos hb]
          have hframe := (commParseLoop_frame
            ((d.storeArg 0 s.length).store (s.length + f.length) commAsciiEof) false
            (s.length + f.length + 1) 1 rest.length (by omega)).2.1
          rw [hframe _ (by omega), store_inside _ _ (by omega)]
          exact Mem.set_same d.temp _ nul
        · rw [if_neg hb]
          have hframe := (commParseLoop_frame (d.storeArg 0 s.length) true
            (s.length + f.length + 1) 1 rest.length (by omega)).2.1
          rw [hframe _ (by omega), hbyte']
          exact (hrest b rfl).resolve_left hb
  refine ⟨⟨⟨s.length, hptr, ?_, hstop.2⟩, trivial⟩, ?_⟩
  · rw [holdsStr_iff]
    exact ⟨hbytes, hstop.1⟩
  · rw [commParseCommand, htmpc, hloop]
    omega

/-- A comparison succeeds only where there is a NUL. -/
theorem exists_nul_of_strEq {m : Mem} {n p : Nat} {s : List UInt8}
    (h : strEq m n p s = some true) : ∃ i, p ≤ i ∧ i < p + n ∧ m i = nul := by
  induction s generalizing n p with
  | nil =>
      cases n with
      | zero => cases h
      | succ n =>
          rw [strEq] at h
          exact ⟨p, Nat.le_refl p, by omega, by simpa using Option.some.inj h⟩
  | cons c s ih =>
      cases n with
      | zero => cases h
      | succ n =>
          rw [strEq] at h
          split at h
          · obtain ⟨i, hle, hlt, hi⟩ := ih h
            exact ⟨i, by omega, by omega, hi⟩
          · cases h

/-- Without a NUL in `temp` no command is found. -/
theorem commExecScan_not_found {d : CommData} (hnul : ∀ i, i < commTempBufSize → d.temp i ≠ nul)
    (cmds : CmdMem) (slots : List (Option Addr)) (i : Nat) :
    ∀ k a, (commExecScan cmds d i slots).result ≠ .found k a := by
  have hcmp : ∀ j s, d.strcmpArg j s ≠ some true := by
    intro j s h
    unfold CommData.strcmpArg at h
    split at h
    · next off s hptr =>
        obtain ⟨p, hle, hlt, hp⟩ := exists_nul_of_strEq h
        exact hnul p (by omega) hp
    · cases h
  have htest : ∀ c name, (d.matchCmd c name).2 ≠ some true := by
    intro c name h
    unfold CommData.matchCmd at h
    split at h
    · exact hcmp _ _ h
    · split at h
      · split at h
        · cases h
        · cases h
        · exact hcmp _ _ h
      · exact hcmp _ _ h
  induction slots generalizing i with
  | nil => exact fun k a => ScanEnd.noConfusion
  | cons o slots ih =>
      intro k a
      cases o with
      | none => exact ih _ k a
      | some b =>
          rw [commExecScan]
          split
          · exact ih _ k a
          · next name hlive =>
              dsimp only
              split
              · exact ScanEnd.noConfusion
              · next htrue => exact absurd htrue (htest _ _)
              · exact ih _ k a

/-- A text that never ends leaves no terminator in `temp`. -/
theorem no_nul_of_neverEnds {d : CommData} {w f : List UInt8} (hw : Holds d.temp 0 w)
    (htmpc : d.tmpc = w.length) (hf : firstWord w = some f) (hends : NeverEnds w) :
    ∀ i, i < commTempBufSize → (commParseCommand d).temp i ≠ nul := by
  obtain ⟨hfull, hbytes⟩ := hends
  obtain ⟨s, rest, rfl, hs, hne, hword, hrest⟩ := firstWord_split hf
  have hdrop : (s ++ f ++ rest).dropWhile isSep = f ++ rest := by
    obtain ⟨b, f, rfl⟩ := List.exists_cons_of_ne_nil hne
    rw [List.append_assoc, List.dropWhile_append_of_pos hs, List.cons_append,
      List.dropWhile_cons_of_neg (by simp [(hword b List.mem_cons_self).1])]
  rw [hdrop] at hbytes
  obtain rfl : rest = [] := by
    rcases rest with - | ⟨b, rest⟩
    · rfl
    · obtain ⟨hsep, hnul⟩ := hbytes b (by simp)
      rcases hrest b rfl with hb | hb
      · rw [hsep] at hb
        cases hb
      · exact absurd hb hnul
  rw [List.append_nil] at *
  have hlen : (s ++ f).length = s.length + f.length := List.length_append
  have hloop := commParseLoop_word hs hne hword d 0 0 0 hw
  have htemp : (commParseCommand d).temp = d.temp := by
    rw [commParseCommand, htmpc, hlen, ← Nat.add_zero (s.length + f.length), hloop]
    rfl
  intro i hi
  have hi' : i < (s ++ f).length := by omega
  have hget := getElem_of_holds hw hi'
  rw [Nat.zero_add] at hget
  rw [htemp, hget]
  rcases List.mem_append.mp (List.getElem_mem hi') with hmem | hmem
  · intro hzero
    have hsep := hs _ hmem
    rw [hzero] at hsep
    exact absurd hsep (by decide)
  · exact (hword _ hmem).2

/-- What is kept of a line is its last chunk. -/
theorem Line.keptBytes_body (l : Line) : keptBytes l.body = lastChunk commTempBufSize l.bytes := by
  rw [keptBytes, l.map_charByte_body]

/-- What reading a line leaves, by its tail. -/
theorem commReadLine_tail {d : CommData} (hd : d.tmpsize = commTempBufSize) (l : Line) :
    Holds (commReadLine d l).temp 0 l.tail ∧ (commReadLine d l).tmpc = l.tail.length ∧
      (l.tail.length < commTempBufSize → (commReadLine d l).temp l.tail.length = nul) := by
  obtain ⟨d', hres, hread⟩ := commGetCommand_reads d hd l.body l.lf_notMem_body []
  have hline : commReadLine d l = d' := by
    rw [commReadLine, Line.chars]
    exact congrArg (fun r => (r.map Prod.fst).getD d) hres
  rw [l.keptBytes_body] at hread
  rw [hline]
  exact ⟨hread.text, hread.tmpc, fun hroom => (hread.inside hroom).1⟩

/-- Reading a line keeps its tail. -/
theorem commReadLine_kept {d : CommData} (hd : d.tmpsize = commTempBufSize) (l : Line) :
    (commReadLine d l).kept = l.tail := by
  obtain ⟨hholds, htmpc, -⟩ := commReadLine_tail hd l
  apply List.ext_getElem
  · rw [CommData.kept, List.length_map, List.length_range, htmpc]
  · intro i hi hi'
    have hget := getElem_of_holds hholds hi'
    rw [Nat.zero_add] at hget
    simp only [CommData.kept, List.getElem_map, List.getElem_range]
    exact hget

/-- The tail of a line fits the buffer. -/
theorem Line.length_tail_le (l : Line) : l.tail.length ≤ commTempBufSize :=
  Nat.le_trans (stripCr_length_le _) (length_lastChunk_le (by decide) _)

/-- A line that fills the buffer is its own tail. -/
theorem Line.tail_of_full {l : Line} (h : l.bytes.length = commTempBufSize) : l.tail = l.text := by
  rw [Line.tail, lastChunk_of_le (Nat.le_of_eq h)]
  rfl

/-- A CR is cut at the end only. -/
theorem stripCr_append (u : List UInt8) {w : List UInt8} (hw : w ≠ []) :
    stripCr (u ++ w) = u ++ stripCr w := by
  have hlast : (u ++ w).getLast? = w.getLast? := List.getLast?_append_of_ne_nil u hw
  unfold stripCr
  rw [hlast]
  split
  · exact List.dropLast_append_of_ne_nil hw
  · rfl

/-- Of a longer line the tail is a proper suffix. -/
theorem Line.tail_proper {l : Line} (h : commTempBufSize < l.bytes.length) :
    l.tail <:+ l.text ∧ l.tail ≠ l.text := by
  obtain ⟨u, hu⟩ := lastChunk_suffix commTempBufSize l.bytes
  have hlong : l.bytes ≠ [] := List.ne_nil_of_length_pos (by omega)
  have hkept : lastChunk commTempBufSize l.bytes ≠ [] := by
    apply List.ne_nil_of_length_pos
    rw [length_lastChunk hlong]
    exact Nat.succ_pos _
  have htext : l.text = u ++ l.tail := by
    rw [Line.text, ← hu, stripCr_append u hkept]
    rfl
  have hcount : u.length + (lastChunk commTempBufSize l.bytes).length = l.bytes.length := by
    rw [← List.length_append, hu]
  have hle := length_lastChunk_le (n := commTempBufSize) (by decide) l.bytes
  refine ⟨⟨u, htext.symm⟩, fun heq => ?_⟩
  have hlen := congrArg List.length htext
  rw [← heq, List.length_append] at hlen
  omega

/-- The kinds of tail: no argument, no terminator, or the first word found. -/
theorem commRunLine_tail {d : CommData} (hd : d.tmpsize = commTempBufSize) (l : Line) :
    (firstWord l.tail = none ∧ (commRunLine d l).argc = 0) ∨
      (NeverEnds l.tail ∧ ∀ i, i < commTempBufSize → (commRunLine d l).temp i ≠ nul) ∨
      ∃ f, firstWord l.tail = some f ∧ ¬ NeverEnds l.tail ∧ ArgsAt (commRunLine d l) 0 [f] ∧
        0 < (commRunLine d l).argc := by
  obtain ⟨hholds, htmpc, hend⟩ := commReadLine_tail hd l
  cases hf : firstWord l.tail with
  | none =>
      refine Or.inl ⟨rfl, ?_⟩
      rw [commRunLine, commParseCommand, htmpc]
      exact argc_of_firstWord_none hf _ 0 hholds
  | some f =>
      by_cases hends : NeverEnds l.tail
      · exact Or.inr (Or.inl ⟨hends, no_nul_of_neverEnds hholds htmpc hf hends⟩)
      · obtain ⟨hargs, hargc⟩ := argsAt_firstWord hholds htmpc l.length_tail_le hend hf hends
        exact Or.inr (Or.inr ⟨f, rfl, hends, hargs, hargc⟩)

/-- The first word has no NUL. -/
theorem nul_notMem_of_firstWord {w f : List UInt8} (hf : firstWord w = some f) : nul ∉ f := by
  obtain ⟨s, rest, -, -, -, hword, -⟩ := firstWord_split hf
  exact fun hmem => (hword nul hmem).2 rfl

/-- A handler that runs has been found by the first word of the tail. -/
theorem argStr_of_call {d : CommData} (hd : d.tmpsize = commTempBufSize) (l : Line)
    {cmds : CmdMem} {tbl : CmdTable} {cdatas : Addr → CommData} {r : ExecResult}
    (hr : commExecCommand cmds tbl (commRunLine d l) cdatas = some r) (hcall : r.call ≠ none) :
    ∃ f, (commRunLine d l).argStr 0 = some f ∧ firstWord l.tail = some f ∧ ¬ NeverEnds l.tail := by
  unfold commExecCommand at hr
  rcases commRunLine_tail hd l with ⟨-, hargc⟩ | ⟨-, hnul⟩ | ⟨f, hf, hends, hargs, -⟩
  · rw [if_pos hargc] at hr
    cases hr
    exact absurd rfl hcall
  · split at hr
    · cases hr
      exact absurd rfl hcall
    · split at hr
      · cases hr
      · cases hr
        exact absurd rfl hcall
      · next hfound => exact absurd hfound (commExecScan_not_found hnul cmds _ 0 _ _)
  · exact ⟨f, hargs.argStr (Nat.succ_pos _) (nul_notMem_of_firstWord hf), hf, hends⟩

/-- A command under the name `name`, alone in the table. -/
def wordCmd (name : CStr) : CmdMem :=
  fun _ => ⟨0, some name, none, none, none, some 0, 1⟩

/-- The table with one command. -/
def wordTable : CmdTable :=
  (SlotTable.empty commMaxCmds).set 0 (some 0)

/-- The first word runs the command of its name. -/
theorem commExecCommand_word {d : CommData} {f : List UInt8} (hnul : nul ∉ f)
    (hargs : ArgsAt d 0 [f]) (hargc : 0 < d.argc) (cdatas : Addr → CommData) :
    commExecCommand (wordCmd ⟨f, hnul⟩) wordTable d cdatas =
      some ⟨0, some ⟨0, 0, none, none⟩, cdatas⟩ := by
  have hslots : wordTable.slots = some 0 :: List.replicate 99 none := rfl
  have hcmp : d.strcmpArg 0 (some ⟨f, hnul⟩) = some true := by
    rw [hargs.strcmpArg (Nat.succ_pos _) hnul]
    simp
  have hmatch : d.matchCmd (wordCmd ⟨f, hnul⟩ 0) ⟨f, hnul⟩ = ([0], some true) := by
    have hone : (wordCmd ⟨f, hnul⟩ 0).nogroup = 1 := rfl
    rw [CommData.matchCmd, if_pos hone, hcmp]
  have hlive : (wordCmd ⟨f, hnul⟩ 0).live = some ⟨f, hnul⟩ := rfl
  have hfound : (commExecScan (wordCmd ⟨f, hnul⟩) d 0 wordTable.slots).result = .found 0 0 := by
    rw [hslots, commExecScan, hlive]
    dsimp only
    rw [hmatch]
  rw [commExecCommand, if_neg (Nat.ne_of_gt hargc), hfound]
  rfl

/-- On a longer line, unless its tail has no first word or never ends, some table runs
a proper suffix. -/
theorem runsWholeLine_iff {d : CommData} (hd : d.tmpsize = commTempBufSize) {l : Line}
    (hlong : commTempBufSize ≤ l.bytes.length) :
    RunsWholeLine d l ↔
      l.bytes.length = commTempBufSize ∨ firstWord l.tail = none ∨ NeverEnds l.tail := by
  constructor
  · intro h
    by_contra hcond
    obtain ⟨hlen, hcond⟩ := not_or.mp hcond
    obtain ⟨hword, hends⟩ := not_or.mp hcond
    rcases commRunLine_tail hd l with ⟨hnone, -⟩ | ⟨hnever, -⟩ | ⟨f, hf, -, hargs, hargc⟩
    · exact hword hnone
    · exact hends hnever
    · have hnul := nul_notMem_of_firstWord hf
      have hrun := commExecCommand_word hnul hargs hargc fun _ => d
      obtain ⟨-, hwhole⟩ := h _ _ _ _ hrun (Option.some_ne_none _)
      rw [commReadLine_kept hd l] at hwhole
      exact hwhole (Line.tail_proper (by omega))
  · intro hcond cmds tbl cdatas r hr hcall
    obtain ⟨f, hstr, hf, hends⟩ := argStr_of_call hd l hr hcall
    rcases hcond with hlen | hnone | hnever
    · have htail := Line.tail_of_full hlen
      rw [htail] at hf
      refine ⟨hstr.trans hf.symm, fun hproper => hproper.2 ?_⟩
      rw [commReadLine_kept hd l, htail]
    · rw [hnone] at hf
      cases hf
    · exact absurd hnever hends

/-- **The tail of an over-long line.**  What is kept of a line of 4096 bytes or more is
its tail, and if a handler runs it is for the first word of the tail.  Of a line of
4096 bytes that is the line; a longer line is run by a proper suffix, for some table,
unless its tail has no first word or never ends. -/
theorem overlong_line_tail {d : CommData} (hd : d.tmpsize = commTempBufSize) {l : Line}
    (hlong : commTempBufSize ≤ l.bytes.length) :
    (commReadLine d l).kept = l.tail ∧
      (∀ (cmds : CmdMem) (tbl : CmdTable) (cdatas : Addr → CommData) (r : ExecResult),
        commExecCommand cmds tbl (commRunLine d l) cdatas = some r → r.call ≠ none →
          firstWord l.tail ≠ none ∧ (commRunLine d l).argStr 0 = firstWord l.tail) ∧
      (RunsWholeLine d l ↔
        l.bytes.length = commTempBufSize ∨ firstWord l.tail = none ∨ NeverEnds l.tail) := by
  refine ⟨commReadLine_kept hd l, fun cmds tbl cdatas r hr hcall => ?_, runsWholeLine_iff hd hlong⟩
  obtain ⟨f, hstr, hf, -⟩ := argStr_of_call hd l hr hcall
  rw [hf]
  exact ⟨Option.some_ne_none f, hstr⟩

/-- 4096 bytes `x` and then `help`. -/
def helpTail : Line where
  bytes := List.replicate commTempBufSize 120 ++ asciiBytes "help"
  noLf := by
    intro hmem
    rcases List.mem_append.mp hmem with hmem | hmem
    · exact absurd (List.eq_of_mem_replicate hmem) (by decide)
    · revert hmem
      decide

/-- The tail of the line is `help`. -/
theorem tail_helpTail : helpTail.tail = asciiBytes "help" := by
  have hdrop : lastChunk commTempBufSize helpTail.bytes = asciiBytes "help" := by
    have hlen : helpTail.bytes.length = commTempBufSize + 4 := by
      rw [helpTail, List.length_append, List.length_replicate]
      rfl
    rw [lastChunk, hlen]
    exact List.drop_left' List.length_replicate
  rw [Line.tail, hdrop]
  decide

/-- A line of which `help` is left. -/
theorem overlong_line_helpTail :
    (commReadLine commInitData helpTail).kept = asciiBytes "help" := by
  have hlong : commTempBufSize ≤ helpTail.bytes.length := by
    rw [helpTail, List.length_append, List.length_replicate]
    omega
  rw [(overlong_line_tail rfl hlong).1, tail_helpTail]

/-- The tail `help` is run as if it were the line. -/
theorem tail_run_as_line :
    ¬ ∀ (d : CommData) (l : Line), d.tmpsize = commTempBufSize →
      commTempBufSize ≤ l.bytes.length → RunsWholeLine d l := by
  intro hclaim
  have hlen : helpTail.bytes.length = commTempBufSize + 4 := by
    rw [helpTail, List.length_append, List.length_replicate]
    rfl
  have hcond := (runsWholeLine_iff (d := commInitData) rfl (by omega)).mp
    (hclaim commInitData helpTail rfl (by omega))
  rw [hlen, tail_helpTail] at hcond
  exact absurd hcond (by decide)

end Comm

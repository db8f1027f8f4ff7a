import Alp.CommReader

/-!
# What one input line leaves in the command data

`comm_get_command` and `comm_parse_command` reuse one `comm_data` for every
line.  This file states what they leave there in terms of the line alone: the
text of the line without one final CR (`Line.text`), its arguments (`tokens`,
the maximal runs of bytes other than space and tab), and `ArgsAt`, which says
that consecutive `argv` entries point at given strings inside `temp`.

`commParseLoop_args` is the tokenizer; it carries what the loop has produced so
far through one induction over the bytes still to come.  `argsAt_commRunLine` puts
it behind the reader, and says nothing about `temp` past the new terminator or
`argv` past `argc`: those keep whatever the lines before left there.
-/

set_option autoImplicit false

namespace Comm

open CString RestartBuffer

/-- One input line, without its line feed. -/
structure Line where
  bytes : List UInt8
  noLf : (10 : UInt8) ∉ bytes
  deriving DecidableEq

/-- The line made of a literal. -/
def Line.lit (s : String) (h : (10 : UInt8) ∉ asciiBytes s := by decide) : Line :=
  ⟨asciiBytes s, h⟩

/-- The characters `comm_fgetc` returns for a line. -/
def Line.chars (l : Line) : List Int :=
  l.bytes.map (fun b => (b.toNat : Int)) ++ [10]

/-- A line the buffer has room for, free of NUL. -/
def Line.Fits (l : Line) : Prop :=
  l.bytes.length < commTempBufSize ∧ nul ∉ l.bytes

/-- The text `comm_get_command` keeps of a line. -/
def Line.text (l : Line) : List UInt8 :=
  stripCr l.bytes

/-- The runs of a text when the bytes `t` of the first one were seen before it. -/
def tokensAfter (t w : List UInt8) : List (List UInt8) :=
  ((w.splitOnP isSep).modifyHead (t ++ ·)).filter (fun u => !u.isEmpty)

/-- The arguments of a text: its maximal runs of bytes other than space and tab. -/
def tokens (w : List UInt8) : List (List UInt8) :=
  (w.splitOnP isSep).filter (fun u => !u.isEmpty)

/-- Behind an empty run the tokens are those of the text. -/
theorem tokensAfter_nil (w : List UInt8) : tokensAfter [] w = tokens w := by
  have hhead : ∀ s : List (List UInt8), s.modifyHead ([] ++ ·) = s := by
    intro s
    cases s <;> rfl
  rw [tokensAfter, hhead, tokens]

/-- A run that the text ends is the last token. -/
theorem tokensAfter_end {t : List UInt8} (ht : t ≠ []) : tokensAfter t [] = [t] := by
  simp [tokensAfter, ht]

/-- A separator ends the run. -/
theorem tokensAfter_sep {t w : List UInt8} {b : UInt8} (ht : t ≠ []) (hb : isSep b = true) :
    tokensAfter t (b :: w) = t :: tokens w := by
  simp [tokensAfter, tokens, List.splitOnP_cons_eq_if_modifyHead, hb, ht]

/-- Any other byte lengthens the run. -/
theorem tokensAfter_byte {t w : List UInt8} {b : UInt8} (hb : isSep b = false) :
    tokensAfter t (b :: w) = tokensAfter (t ++ [b]) w := by
  unfold tokensAfter
  rw [List.splitOnP_cons_eq_if_modifyHead]
  cases List.splitOnP isSep w <;> simp [hb]

/-- A separator in front makes no token. -/
theorem tokens_sep {w : List UInt8} {b : UInt8} (hb : isSep b = true) :
    tokens (b :: w) = tokens w := by
  simp [tokens, List.splitOnP_cons_eq_if_modifyHead, hb]

/-- Any other byte begins a run. -/
theorem tokens_byte {w : List UInt8} {b : UInt8} (hb : isSep b = false) :
    tokens (b :: w) = tokensAfter [b] w := by
  rw [← tokensAfter_nil, tokensAfter_byte hb, List.nil_append]

/-- No argument is longer than the text, and none holds a byte the text lacks. -/
theorem nul_notMem_of_tokensAfter {t w u : List UInt8} (ht : nul ∉ t) (hw : nul ∉ w)
    (hu : u ∈ tokensAfter t w) : nul ∉ u := by
  induction w generalizing t with
  | nil =>
      have : u = t := by
        by_cases h : t = [] <;> simp_all [tokensAfter]
      exact this ▸ ht
  | cons b w ih =>
      have hb : nul ≠ b := fun h => hw (h ▸ List.mem_cons_self)
      have hw' : nul ∉ w := fun h => hw (List.mem_cons_of_mem _ h)
      by_cases hsep : isSep b = true
      · have hrest : u = t ∨ u ∈ tokensAfter [] w := by
          rw [tokensAfter_nil]
          by_cases h : t = []
          · subst h
            rw [tokensAfter_nil, tokens_sep hsep] at hu
            exact Or.inr hu
          · rw [tokensAfter_sep h hsep] at hu
            exact List.mem_cons.mp hu
        rcases hrest with rfl | hmem
        · exact ht
        · exact ih (by simp) hw' hmem
      · rw [tokensAfter_byte (by simpa using hsep)] at hu
        refine ih ?_ hw' hu
        simpa [ht] using hb

/-- The tokens of a text without NUL have none. -/
theorem nul_notMem_of_tokens {w u : List UInt8} (hw : nul ∉ w) (hu : u ∈ tokens w) :
    nul ∉ u :=
  nul_notMem_of_tokensAfter (t := []) (by simp) hw (by rwa [tokensAfter_nil])

/-- The arguments of a line. -/
def Line.tokens (l : Line) : List (List UInt8) :=
  Comm.tokens l.text

/-- The text of a line is no longer than the line. -/
theorem Line.text_length_le (l : Line) : l.text.length ≤ l.bytes.length :=
  stripCr_length_le l.bytes

/-- The text of a line without NUL has none. -/
theorem Line.nul_notMem_text {l : Line} (h : nul ∉ l.bytes) : nul ∉ l.text := by
  unfold Line.text stripCr
  split
  · exact fun hm => h (List.dropLast_subset _ hm)
  · exact h

/-- Entries `k`, `k + 1`, … of `argv` point at the strings `ts` inside `temp`. -/
def ArgsAt (d : CommData) : Nat → List (List UInt8) → Prop
  | _, [] => True
  | k, t :: ts =>
    (∃ p, d.argv k = .temp p ∧ HoldsStr d.temp p t ∧ p + t.length < commTempBufSize) ∧
      ArgsAt d (k + 1) ts

/-- Each word of the line is held where its entry of `argv` points. -/
theorem ArgsAt.getElem {d : CommData} {k : Nat} {ts : List (List UInt8)}
    (h : ArgsAt d k ts) {j : Nat} (hj : j < ts.length) :
    ∃ p, d.argv (k + j) = .temp p ∧ HoldsStr d.temp p ts[j] ∧
      p + ts[j].length < commTempBufSize := by
  induction ts generalizing k j with
  | nil => simp at hj
  | cons t ts ih =>
      cases j with
      | zero => exact h.1
      | succ j =>
          have := ih h.2 (j := j) (by simpa using hj)
          simpa [Nat.add_assoc, Nat.add_comm 1 j] using this

/-- What walking over `temp` from `tmpi` to `stop` leaves: the arguments `ts` from entry
`k` on, and everything else as it was. -/
structure Parsed (d d' : CommData) (k tmpi stop : Nat) (ts : List (List UInt8)) : Prop where
  argc : d'.argc = k + ts.length
  args : ArgsAt d' k ts
  earlier : ∀ j, j < k → d'.argv j = d.argv j
  outside : ∀ i, i < tmpi ∨ stop ≤ i → d'.temp i = d.temp i

/-- A byte is passed over. -/
theorem Parsed.pass {d d' : CommData} {k tmpi stop : Nat} {ts : List (List UInt8)}
    (h : Parsed d d' k (tmpi + 1) stop ts) : Parsed d d' k tmpi stop ts :=
  ⟨h.argc, h.args, h.earlier, fun i hi => h.outside i (by omega)⟩

/-- An argument begins. -/
theorem Parsed.begin {d d' : CommData} {k tmpi stop : Nat} {ts : List (List UInt8)}
    (h : Parsed (d.storeArg k tmpi) d' k (tmpi + 1) stop ts) : Parsed d d' k tmpi stop ts := by
  refine ⟨h.argc, h.args, ?_, fun i hi => h.outside i (by omega)⟩
  intro j hj
  rw [h.earlier j hj]
  simp [CommData.storeArg, Nat.ne_of_lt hj]

/-- The argument `t` ends at a separator, which is overwritten. -/
theorem Parsed.finish {d d' : CommData} {k tmpi stop q : Nat} {t : List UInt8}
    {ts : List (List UInt8)} (h : Parsed (d.store tmpi commAsciiEof) d' (k + 1) (tmpi + 1) stop ts)
    (hroom : tmpi < commTempBufSize) (hstop : tmpi < stop) (hptr : d.argv k = .temp q)
    (hq : Holds d.temp q t) (hlen : q + t.length = tmpi) : Parsed d d' k tmpi stop (t :: ts) := by
  obtain ⟨hargc, hargs, hearlier, houtside⟩ := h
  rw [store_inside _ _ hroom] at hearlier houtside
  have htemp : ∀ i, i < tmpi ∨ stop ≤ i → d'.temp i = d.temp i := by
    intro i hi
    rw [houtside i (by omega)]
    exact Mem.set_other d.temp nul (by omega)
  refine ⟨?_, ⟨⟨q, ?_, ?_, by omega⟩, hargs⟩, fun j hj => hearlier j (by omega), htemp⟩
  · rw [hargc, List.length_cons]
    omega
  · rw [hearlier k (Nat.lt_succ_self k)]
    exact hptr
  · rw [holdsStr_iff, hlen]
    refine ⟨hq.congr fun j _ hj => htemp j (by omega), ?_⟩
    rw [houtside tmpi (by omega)]
    exact Mem.set_same d.temp tmpi nul

/-- **The tokenizer.**  `t` holds the bytes of the argument being walked over
(none in the outer loop, where `inArg` is false) and `w` the bytes left.  The
loop appends the arguments of `t` and `w` to the `k` it has. -/
theorem commParseLoop_args (w : List UInt8) (hnul : nul ∉ w) (d : CommData)
    (inArg : Bool) (t : List UInt8) (q k tmpi : Nat)
    (hw : Holds d.temp tmpi w) (hend : d.temp (tmpi + w.length) = nul)
    (hsize : tmpi + w.length < commTempBufSize)
    (hmode : inArg = false → t = [])
    (harg : inArg = true → t ≠ [] ∧ d.argv k = .temp q ∧ Holds d.temp q t ∧
      q + t.length = tmpi) :
    Parsed d (commParseLoop d inArg tmpi (k + inArg.toNat) w.length) k tmpi (tmpi + w.length)
      (tokensAfter t w) := by
  induction w generalizing d inArg t q k tmpi with
  | nil =>
      cases inArg with
      | false =>
          rw [hmode rfl]
          exact ⟨rfl, trivial, fun _ _ => rfl, fun _ _ => rfl⟩
      | true =>
          obtain ⟨ht, hptr, hq, hlen⟩ := harg rfl
          have hstr : HoldsStr d.temp q t := by
            rw [holdsStr_iff]
            exact ⟨hq, by simpa [hlen] using hend⟩
          simp only [List.length_nil, Nat.add_zero] at hsize
          rw [tokensAfter_end ht]
          exact ⟨rfl, ⟨⟨q, hptr, hstr, by omega⟩, trivial⟩, fun _ _ => rfl, fun _ _ => rfl⟩
  | cons b w ih =>
      have hb : d.temp tmpi = b := hw.1
      have hbnul : b ≠ commAsciiEof := fun h => hnul (h ▸ List.mem_cons_self)
      have hnul' : nul ∉ w := fun h => hnul (List.mem_cons_of_mem _ h)
      simp only [List.length_cons] at hend hsize ⊢
      have hroom : tmpi < commTempBufSize := by omega
      have harith : tmpi + 1 + w.length = tmpi + (w.length + 1) := by omega
      have hend' : d.temp (tmpi + 1 + w.length) = nul := by rw [harith]; exact hend
      cases inArg with
      | false =>
          have ht := hmode rfl
          subst ht
          by_cases hsep : isSep b = true
          · have hstep := ih hnul' d false [] q k (tmpi + 1) hw.2 hend' (by omega)
              (fun _ => rfl) (by simp)
            simp only [commParseLoop, hb, hbnul, hsep, if_true, if_false, Bool.toNat_false,
              Nat.add_zero, tokensAfter_nil, tokens_sep hsep, harith] at hstep ⊢
            exact hstep.pass
          · have hsep' : isSep b = false := by simpa using hsep
            have hstep := ih hnul' (d.storeArg k tmpi) true [b] tmpi k (tmpi + 1)
              hw.2 hend' (by omega) (by simp)
              (fun _ => ⟨by simp, by simp [CommData.storeArg], ⟨hb, trivial⟩, rfl⟩)
            simp only [commParseLoop, hb, hbnul, hsep', Bool.false_eq_true, if_false,
              Bool.toNat_false, Bool.toNat_true, Nat.add_zero, tokensAfter_nil,
              tokens_byte hsep', harith] at hstep ⊢
            exact hstep.begin
      | true =>
          obtain ⟨ht, hptr, hq, hlen⟩ := harg rfl
          by_cases hsep : isSep b = true
          · have hmem : ∀ i, tmpi < i → (d.store tmpi commAsciiEof).temp i = d.temp i := by
              intro i hi
              rw [store_inside _ _ hroom]
              exact Mem.set_other d.temp nul (by omega)
            have hstep := ih hnul' (d.store tmpi commAsciiEof) false [] q (k + 1) (tmpi + 1)
              (hw.2.congr fun j hj _ => hmem j (by omega))
              (by rw [hmem _ (by omega)]; exact hend') (by omega) (fun _ => rfl) (by simp)
            simp only [commParseLoop, hb, hsep, if_true, Bool.toNat_false, Bool.toNat_true,
              Nat.add_zero, tokensAfter_nil, tokensAfter_sep ht hsep, harith] at hstep ⊢
            exact hstep.finish hroom (by omega) hptr hq hlen
          · have hsep' : isSep b = false := by simpa using hsep
            have hgrow : Holds d.temp q (t ++ [b]) := by
              rw [holds_append, hlen]
              exact ⟨hq, hb, trivial⟩
            have hstep := ih hnul' d true (t ++ [b]) q k (tmpi + 1) hw.2 hend' (by omega)
              (by simp) (fun _ => ⟨by simp, hptr, hgrow, by simp; omega⟩)
            simp only [commParseLoop, hb, hsep', Bool.false_eq_true, if_false,
              Bool.toNat_true, tokensAfter_byte hsep', harith] at hstep ⊢
            exact hstep.pass

/-- `comm_get_command` on a line. -/
def commReadLine (d : CommData) (l : Line) : CommData :=
  ((commGetCommand d l.chars).map Prod.fst).getD d

/-- `comm_get_command` and `comm_parse_command` on a line. -/
def commRunLine (d : CommData) (l : Line) : CommData :=
  commParseCommand (commReadLine d l)

/-- The characters of a line up to its line feed. -/
def Line.body (l : Line) : List Int :=
  l.bytes.map (fun b => (b.toNat : Int))

/-- The body of a line has no LF. -/
theorem Line.lf_notMem_body (l : Line) : (10 : Int) ∉ l.body := by
  intro hmem
  obtain ⟨b, hb, hlf⟩ := List.mem_map.mp hmem
  have hbyte : b = 10 := by
    rw [← UInt8.toNat_inj]
    exact Int.ofNat_inj.mp hlf
  exact l.noLf (hbyte ▸ hb)

/-- The body of a line is its bytes. -/
theorem Line.map_charByte_body (l : Line) : l.body.map charByte = l.bytes := by
  rw [Line.body, List.map_map]
  conv_rhs => rw [← List.map_id l.bytes]
  exact List.map_congr_left fun b _ => charByte_toNat b

/-- Reading stops exactly at the line's own line feed. -/
theorem commGetCommand_line (d : CommData) (l : Line) (rest : List Int) :
    ∃ d', commGetCommand d (l.chars ++ rest) = some (d', rest) ∧ d'.tmpsize = d.tmpsize := by
  have hchars : l.chars ++ rest = l.body ++ 10 :: rest := by
    rw [Line.chars, List.append_assoc, List.singleton_append]
    rfl
  rw [hchars, commGetCommand, commGetLoop_chars _ _ l.lf_notMem_body, commGetLoop_lf]
  exact ⟨_, rfl, by simp⟩

/-- Reading a line leaves the size of the buffer alone. -/
theorem commReadLine_tmpsize (d : CommData) (l : Line) :
    (commReadLine d l).tmpsize = d.tmpsize := by
  obtain ⟨d', hd', hsize⟩ := commGetCommand_line d l []
  rw [List.append_nil] at hd'
  simp [commReadLine, hd', hsize]

/-- Parsing leaves the size of the buffer alone, by induction on the bytes left. -/
theorem commParseLoop_tmpsize (d : CommData) (inArg : Bool) (tmpi argi left : Nat) :
    (commParseLoop d inArg tmpi argi left).tmpsize = d.tmpsize := by
  induction left generalizing d inArg tmpi argi with
  | zero => cases inArg <;> rfl
  | succ left ih =>
      cases inArg with
      | false =>
          simp only [commParseLoop]
          split
          · rfl
          · split
            · exact ih ..
            · exact ih ..
      | true =>
          simp only [commParseLoop]
          split
          · rw [ih, store_tmpsize]
          · exact ih ..

@[simp] theorem commRunLine_tmpsize (d : CommData) (l : Line) :
    (commRunLine d l).tmpsize = d.tmpsize := by
  rw [commRunLine, commParseCommand, commParseLoop_tmpsize, commReadLine_tmpsize]

/-- **One line.**  After a line that fits, `argc` counts its arguments and the
first `argc` entries of `argv` point at them. -/
theorem argsAt_commRunLine {d : CommData} (hd : d.tmpsize = commTempBufSize) {l : Line}
    (hl : l.Fits) :
    (commRunLine d l).argc = l.tokens.length ∧ ArgsAt (commRunLine d l) 0 l.tokens := by
  obtain ⟨d', hd', hread⟩ := commGetCommand_reads d hd l.body l.lf_notMem_body []
  have hkept : stripCr (keptBytes l.body) = l.text := by
    rw [keptBytes, l.map_charByte_body, lastChunk_of_le (Nat.le_of_lt hl.1)]
    rfl
  have hline : commReadLine d l = d' := by
    rw [commReadLine, Line.chars]
    exact congrArg (fun r => (r.map Prod.fst).getD d) hd'
  obtain ⟨htext, htmpc, -, hinside, -⟩ := hread
  rw [hkept] at htext htmpc hinside
  have hroom : l.text.length < commTempBufSize :=
    Nat.lt_of_le_of_lt l.text_length_le hl.1
  have hend : d'.temp (0 + l.text.length) = nul := by
    rw [Nat.zero_add]
    exact (hinside hroom).1
  have hparse := commParseLoop_args l.text (l.nul_notMem_text hl.2) d' false [] 0 0 0
    htext hend (by simpa using hroom) (fun _ => rfl) (by simp)
  rw [commRunLine, commParseCommand, hline, htmpc]
  simp only [Bool.toNat_false, Nat.add_zero, Nat.zero_add, tokensAfter_nil] at hparse
  exact ⟨hparse.argc.trans (Nat.zero_add _), hparse.args⟩

end Comm

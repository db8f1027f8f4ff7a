import Alp.CommDispatch
import Alp.Transition

/-!
# The tokenizer

`comm_parse_command` finds the maximal runs of bytes other than space and tab
(`Runs`), and points `argv` at them (`commParseCommand_runs`).

It never looks at `argsize`.  `parseStep` is its two loops one test at a time, with
a record of the bytes it reads and overwrites and of the `argv` entries it stores.
`ParseInv` is the loop invariant of both loops: every argument but the last has
taken two bytes of the buffer, so 4096 bytes cannot hold more than 2048 of them.
`parse_halts` runs the steps against `commParseLoop`.
-/

set_option autoImplicit false

namespace Comm

open CString Transition

/-- The maximal runs of bytes other than space and tab in a text, in order. -/
inductive Runs : List UInt8 → List (List UInt8) → Prop
  | none {s : List UInt8} (hs : ∀ b ∈ s, isSep b = true) : Runs s []
  | run {s t rest : List UInt8} {ts : List (List UInt8)} (hs : ∀ b ∈ s, isSep b = true)
      (hne : t ≠ []) (ht : ∀ b ∈ t, isSep b = false)
      (hmax : ∀ b, rest.head? = some b → isSep b = true) (hrest : Runs rest ts) :
      Runs (s ++ t ++ rest) (t :: ts)

/-- A separator in front changes nothing. -/
theorem Runs.sep {w : List UInt8} {ts : List (List UInt8)} {b : UInt8} (h : Runs w ts)
    (hb : isSep b = true) : Runs (b :: w) ts := by
  cases h with
  | none hs => exact .none (List.forall_mem_cons.mpr ⟨hb, hs⟩)
  | run hs hne ht hmax hrest => exact .run (List.forall_mem_cons.mpr ⟨hb, hs⟩) hne ht hmax hrest

/-- The tokens behind a run begun are the maximal runs. -/
theorem runs_tokensAfter {t : List UInt8} (ht : ∀ b ∈ t, isSep b = false) (w : List UInt8) :
    Runs (t ++ w) (tokensAfter t w) := by
  induction w generalizing t with
  | nil =>
      by_cases hne : t = []
      · subst hne
        exact .none nofun
      · rw [tokensAfter_end hne]
        exact .run (s := []) nofun hne ht nofun (.none nofun)
  | cons b w ih =>
      by_cases hb : isSep b = true
      · have hrest : Runs (b :: w) (tokens w) := by
          rw [← tokensAfter_nil]
          exact (ih (t := []) nofun).sep hb
        by_cases hne : t = []
        · subst hne
          rw [tokensAfter_nil, tokens_sep hb]
          exact hrest
        · rw [tokensAfter_sep hne hb]
          refine .run (s := []) nofun hne ht (fun c hc => ?_) hrest
          cases hc
          exact hb
      · have hb' : isSep b = false := by simpa using hb
        have hlong := ih (t := t ++ [b]) (by
          intro c hc
          rcases List.mem_append.mp hc with hc | hc
          · exact ht c hc
          · rw [List.mem_singleton.mp hc]
            exact hb')
        rw [tokensAfter_byte hb']
        simpa using hlong

/-- `tokens` are the maximal runs. -/
theorem runs_tokens (w : List UInt8) : Runs w (tokens w) := by
  rw [← tokensAfter_nil]
  exact runs_tokensAfter (t := []) nofun w

/-- Bytes that are no separators lengthen the run begun. -/
theorem tokensAfter_bytes {t : List UInt8} (ht : ∀ b ∈ t, isSep b = false) (u w : List UInt8) :
    tokensAfter u (t ++ w) = tokensAfter (u ++ t) w := by
  induction t generalizing u with
  | nil => rw [List.nil_append, List.append_nil]
  | cons b t ih =>
      obtain ⟨hb, ht⟩ := List.forall_mem_cons.mp ht
      rw [List.cons_append, tokensAfter_byte hb, ih ht, List.append_assoc, List.singleton_append]

/-- Separators in front make no token. -/
theorem tokens_seps {s : List UInt8} (hs : ∀ b ∈ s, isSep b = true) (w : List UInt8) :
    tokens (s ++ w) = tokens w := by
  induction s with
  | nil => rfl
  | cons b s ih =>
      obtain ⟨hb, hs⟩ := List.forall_mem_cons.mp hs
      rw [List.cons_append, tokens_sep hb, ih hs]

/-- There is one list of maximal runs. -/
theorem Runs.eq_tokens {w : List UInt8} {ts : List (List UInt8)} (h : Runs w ts) :
    ts = tokens w := by
  induction h with
  | @none s hs =>
      have hall := tokens_seps hs []
      rw [List.append_nil] at hall
      rw [hall]
      rfl
  | @run s t rest ts hs hne ht hmax hrest ih =>
      rw [List.append_assoc, tokens_seps hs, ← tokensAfter_nil, tokensAfter_bytes ht,
        List.nil_append, ih]
      cases rest with
      | nil => rw [tokensAfter_end hne]; rfl
      | cons b rest =>
          have hb := hmax b rfl
          rw [tokensAfter_sep hne hb, tokens_sep hb]

/-- No run is empty. -/
theorem Runs.ne_nil {w t : List UInt8} {ts : List (List UInt8)} (h : Runs w ts) (ht : t ∈ ts) :
    t ≠ [] := by
  induction h with
  | none hs => cases ht
  | run hs hne _ _ _ ih =>
      rcases List.mem_cons.mp ht with rfl | ht
      · exact hne
      · exact ih ht

/-- **The tokenizer.**  On a terminated NUL-free text `argc` is the number of its
maximal runs, none of them empty, and `argv` points at them in order. -/
theorem commParseCommand_runs {d : CommData} {w : List UInt8} (hnul : nul ∉ w)
    (hw : Holds d.temp 0 w) (htmpc : d.tmpc = w.length) (hroom : d.tmpc < commTempBufSize)
    (hend : d.temp d.tmpc = nul) :
    ∃ ts, Runs w ts ∧ (∀ us, Runs w us → us = ts) ∧ (∀ t ∈ ts, t ≠ []) ∧
      (commParseCommand d).argc = ts.length ∧
      ∀ (i : Nat) (hi : i < ts.length), (commParseCommand d).argStr i = some ts[i] := by
  have hparse := commParseLoop_args w hnul d false [] 0 0 0 hw
    (by rwa [Nat.zero_add, ← htmpc]) (by omega) (fun _ => rfl) nofun
  simp only [Bool.toNat_false, Nat.add_zero, Nat.zero_add, tokensAfter_nil] at hparse
  rw [commParseCommand, htmpc]
  refine ⟨tokens w, runs_tokens w, fun us hus => hus.eq_tokens, fun t => (runs_tokens w).ne_nil,
    ?_, fun i hi => ?_⟩
  · rw [hparse.argc, Nat.zero_add]
  · exact hparse.args.argStr hi (nul_notMem_of_tokens hnul (List.getElem_mem hi))

/-- Command data that hold a text of two words with separators all around. -/
def twoWords : CommData :=
  { CommData.zeroed with
    temp := fun i => [32, 97, 9, 32, 98, 99, 32].getD i 0
    tmpc := 7 }

/-- Two words, with separators before, between and behind them. -/
theorem commParseCommand_runs_twoWords :
    (commParseCommand twoWords).argc = 2 ∧
      (commParseCommand twoWords).argStr 0 = some [97] ∧
      (commParseCommand twoWords).argStr 1 = some [98, 99] := by
  have hholds : Holds twoWords.temp 0 [32, 97, 9, 32, 98, 99, 32] :=
    ⟨rfl, rfl, rfl, rfl, rfl, rfl, rfl, trivial⟩
  obtain ⟨ts, -, huniq, -, hargc, hargs⟩ :=
    commParseCommand_runs (d := twoWords) (by decide) hholds rfl (by decide) rfl
  have hts : [[97], [98, 99]] = ts := by
    rw [← huniq _ (runs_tokens [32, 97, 9, 32, 98, 99, 32])]
    decide
  subst hts
  exact ⟨hargc, hargs 0 (by decide), hargs 1 (by decide)⟩

/-- Where `comm_parse_command` is. -/
inductive ParsePc
  /-- The head of the outer loop. -/
  | outer
  /-- The head of the inner loop. -/
  | inner
  | done
  deriving DecidableEq

/-- `comm_parse_command` under way, with a record of its accesses. -/
structure ParseState where
  d : CommData
  pc : ParsePc
  tmpi : Nat
  argi : Nat
  /-- The indices of `temp` read. -/
  reads : List Nat
  /-- The indices of `temp` written. -/
  writes : List Nat
  /-- The entries of `argv` stored, each with the position it points at. -/
  stored : List (Nat × Nat)

/-- The call begins. -/
def parseStart (d : CommData) : ParseState where
  d := d
  pc := .outer
  tmpi := 0
  argi := 0
  reads := []
  writes := []
  stored := []

/-- `temp[tmpi]` is read. -/
def ParseState.read (s : ParseState) : ParseState :=
  { s with reads := s.reads ++ [s.tmpi] }

/-- `d->argc = argi` and the outer loop is left. -/
def ParseState.leave (s : ParseState) : ParseState :=
  { s with d := { s.d with argc := s.argi }, pc := .done }

/-- One pass of the outer or of the inner loop. -/
def parseStep (s : ParseState) (_ : Unit) : Option ParseState :=
  match s.pc with
  | .outer =>
    if s.d.tmpc ≤ s.tmpi then some s.leave
    else if s.d.temp s.tmpi = commAsciiEof then some s.read.leave
    else if isSep (s.d.temp s.tmpi) then some { s.read with tmpi := s.tmpi + 1 }
    else some { s.read with
      d := s.d.storeArg s.argi s.tmpi, pc := .inner, argi := s.argi + 1,
      stored := s.stored ++ [(s.argi, s.tmpi)] }
  | .inner =>
    if s.d.tmpc ≤ s.tmpi then some { s with pc := .outer }
    else if isSep (s.d.temp s.tmpi) then some { s.read with
      d := s.d.store s.tmpi commAsciiEof, pc := .outer, tmpi := s.tmpi + 1,
      writes := s.writes ++ [s.tmpi] }
    else some { s.read with tmpi := s.tmpi + 1 }
  | .done => none

/-- The states of the call on the command data `d`. -/
def ParseReach (d : CommData) (s : ParseState) : Prop :=
  Reach parseStep (· = parseStart d) anyStep s

/-- Every access so far is where it may be. -/
structure StepsInside (d : CommData) (s : ParseState) : Prop where
  reads : ∀ i ∈ s.reads, i < d.tmpc
  writes : ∀ i ∈ s.writes, i < d.tmpc
  entries : ∀ e ∈ s.stored, e.1 < commArgvBufSize ∧ e.2 < d.tmpc
  rising : (s.stored.map Prod.snd).Pairwise (· < ·)

/-- The last argument has taken at least one byte, the others two: with `argi`
arguments stored so many bytes are behind. -/
def ParseState.Room (s : ParseState) : Prop :=
  match s.pc with
  | .outer => 2 * s.argi ≤ s.tmpi ∨ s.tmpi = s.d.tmpc ∧ 2 * s.argi ≤ s.tmpi + 1
  | .inner => 2 * s.argi ≤ s.tmpi + 1 ∨
    s.tmpi < s.d.tmpc ∧ isSep (s.d.temp s.tmpi) = false ∧ 2 * s.argi ≤ s.tmpi + 2
  | .done => 2 * s.argi ≤ s.d.tmpc + 1 ∧ s.d.argc = s.argi

/-- The positions stored are behind `tmpi`, the last one may be at it. -/
def ParseState.Behind (s : ParseState) (p : Nat) : Prop :=
  match s.pc with
  | .inner => p ≤ s.tmpi
  | _ => p < s.tmpi

/-- The invariant of the two loops. -/
structure ParseInv (d : CommData) (s : ParseState) : Prop where
  tmpc : s.d.tmpc = d.tmpc
  within : s.tmpi ≤ d.tmpc
  reads : ∀ i ∈ s.reads, i < d.tmpc
  writes : ∀ i ∈ s.writes, i < d.tmpc
  indices : s.stored.map Prod.fst = List.range s.argi
  positions : ∀ p ∈ s.stored.map Prod.snd, p < d.tmpc ∧ s.Behind p
  rising : (s.stored.map Prod.snd).Pairwise (· < ·)
  argv : ∀ e ∈ s.stored, s.d.argv e.1 = .temp e.2
  room : s.Room

/-- The invariant holds at the start. -/
theorem parseInv_start (d : CommData) : ParseInv d (parseStart d) where
  tmpc := rfl
  within := Nat.zero_le _
  reads := nofun
  writes := nofun
  indices := rfl
  positions := nofun
  rising := .nil
  argv := nofun
  room := Or.inl (Nat.zero_le _)

section Steps

variable {d : CommData} {s t : ParseState}

/-- What holds of a list and of one more holds of the list with it at the end. -/
theorem forall_mem_snoc {p : Nat → Prop} {l : List Nat} {i : Nat} (hl : ∀ j ∈ l, p j) (hi : p i) :
    ∀ j ∈ l ++ [i], p j := by
  intro j hj
  rcases List.mem_append.mp hj with hj | hj
  · exact hl j hj
  · rwa [List.mem_singleton.mp hj]

/-- The passes of the two loops. -/
inductive ParseMove (s : ParseState) : ParseState → Prop
  /-- The text ends. -/
  | finish (hpc : s.pc = .outer) (hend : s.d.tmpc ≤ s.tmpi) : ParseMove s s.leave
  /-- A NUL ends it early. -/
  | nul (hpc : s.pc = .outer) (hmore : s.tmpi < s.d.tmpc) (hnul : s.d.temp s.tmpi = commAsciiEof) :
      ParseMove s s.read.leave
  /-- A separator is skipped. -/
  | skip (hpc : s.pc = .outer) (hmore : s.tmpi < s.d.tmpc)
      (hsep : isSep (s.d.temp s.tmpi) = true) : ParseMove s { s.read with tmpi := s.tmpi + 1 }
  /-- An argument begins. -/
  | begin (hpc : s.pc = .outer) (hmore : s.tmpi < s.d.tmpc)
      (hsep : isSep (s.d.temp s.tmpi) = false) (hne : s.d.temp s.tmpi ≠ commAsciiEof) :
      ParseMove s { s.read with
        d := s.d.storeArg s.argi s.tmpi, pc := .inner, argi := s.argi + 1,
        stored := s.stored ++ [(s.argi, s.tmpi)] }
  /-- The last argument ends with the text. -/
  | last (hpc : s.pc = .inner) (hend : s.d.tmpc ≤ s.tmpi) : ParseMove s { s with pc := .outer }
  /-- An argument ends at a separator. -/
  | cut (hpc : s.pc = .inner) (hmore : s.tmpi < s.d.tmpc)
      (hsep : isSep (s.d.temp s.tmpi) = true) :
      ParseMove s { s.read with
        d := s.d.store s.tmpi commAsciiEof, pc := .outer, tmpi := s.tmpi + 1,
        writes := s.writes ++ [s.tmpi] }
  /-- An argument goes on. -/
  | walk (hpc : s.pc = .inner) (hmore : s.tmpi < s.d.tmpc)
      (hsep : isSep (s.d.temp s.tmpi) = false) : ParseMove s { s.read with tmpi := s.tmpi + 1 }

/-- A step is one of the passes. -/
theorem parseStep_cases (hstep : parseStep s () = some t) : ParseMove s t := by
  unfold parseStep at hstep
  split at hstep
  · next hpc =>
      split at hstep
      · next hend =>
          cases hstep
          exact .finish hpc hend
      · next hmore =>
          have hmore := Nat.lt_of_not_le hmore
          split at hstep
          · next hnul =>
              cases hstep
              exact .nul hpc hmore hnul
          · next hne =>
              split at hstep <;> cases hstep
              · next hsep => exact .skip hpc hmore hsep
              · next hsep => exact .begin hpc hmore (Bool.eq_false_iff.mpr hsep) hne
  · next hpc =>
      split at hstep
      · next hend =>
          cases hstep
          exact .last hpc hend
      · next hmore =>
          have hmore := Nat.lt_of_not_le hmore
          split at hstep <;> cases hstep
          · next hsep => exact .cut hpc hmore hsep
          · next hsep => exact .walk hpc hmore (Bool.eq_false_iff.mpr hsep)
  · cases hstep

/-- A position behind is at most `tmpi`. -/
theorem ParseState.Behind.le {p : Nat} (h : s.Behind p) : p ≤ s.tmpi := by
  unfold ParseState.Behind at h
  split at h
  · exact h
  · exact Nat.le_of_lt h

/-- A position below `tmpi` is behind. -/
theorem ParseState.behind_of_lt {p : Nat} (h : p < s.tmpi) : s.Behind p := by
  unfold ParseState.Behind
  split
  · exact Nat.le_of_lt h
  · exact h

/-- The room between arguments. -/
theorem ParseState.Room.outer (h : s.Room) (hpc : s.pc = .outer) :
    2 * s.argi ≤ s.tmpi ∨ s.tmpi = s.d.tmpc ∧ 2 * s.argi ≤ s.tmpi + 1 := by
  unfold ParseState.Room at h
  rwa [hpc] at h

/-- The room inside an argument. -/
theorem ParseState.Room.inner (h : s.Room) (hpc : s.pc = .inner) :
    2 * s.argi ≤ s.tmpi + 1 ∨
      s.tmpi < s.d.tmpc ∧ isSep (s.d.temp s.tmpi) = false ∧ 2 * s.argi ≤ s.tmpi + 2 := by
  unfold ParseState.Room at h
  rwa [hpc] at h

/-- The end of the outer loop. -/
theorem ParseInv.leave (h : ParseInv d s) (hpc : s.pc = .outer) (reads : List Nat)
    (hreads : ∀ i ∈ reads, i < d.tmpc) : ParseInv d { s with reads := reads }.leave := by
  obtain ⟨htmpc, hwithin, -, hwrites, hindices, hpositions, hrising, hargv, hroom⟩ := h
  unfold ParseState.Behind at hpositions
  rw [hpc] at hpositions
  refine ⟨htmpc, hwithin, hreads, hwrites, hindices, hpositions, hrising, hargv, ?_, rfl⟩
  show 2 * s.argi ≤ s.d.tmpc + 1
  have houter := hroom.outer hpc
  rw [htmpc] at houter ⊢
  omega

/-- A byte is read and left behind. -/
theorem ParseInv.advance (h : ParseInv d s) (hmore : s.tmpi < d.tmpc)
    (hroom : ({ s.read with tmpi := s.tmpi + 1 } : ParseState).Room) :
    ParseInv d { s.read with tmpi := s.tmpi + 1 } where
  tmpc := h.tmpc
  within := hmore
  reads := forall_mem_snoc h.reads hmore
  writes := h.writes
  indices := h.indices
  positions := by
    intro p hp
    obtain ⟨hlt, hbehind⟩ := h.positions p hp
    exact ⟨hlt, ParseState.behind_of_lt (Nat.lt_succ_of_le hbehind.le)⟩
  rising := h.rising
  argv := h.argv
  room := hroom

/-- An argument begins at `tmpi`. -/
theorem ParseInv.begin (h : ParseInv d s) (hpc : s.pc = .outer) (hmore : s.tmpi < d.tmpc)
    (hsep : isSep (s.d.temp s.tmpi) = false) :
    ParseInv d { s.read with
      d := s.d.storeArg s.argi s.tmpi, pc := .inner, argi := s.argi + 1,
      stored := s.stored ++ [(s.argi, s.tmpi)] } where
  tmpc := h.tmpc
  within := h.within
  reads := forall_mem_snoc h.reads hmore
  writes := h.writes
  indices := by simp [h.indices, List.range_succ]
  positions := by
    rw [List.map_append]
    apply forall_mem_snoc
    · intro p hp
      obtain ⟨hlt, hbehind⟩ := h.positions p hp
      exact ⟨hlt, hbehind.le⟩
    · exact ⟨hmore, Nat.le_refl _⟩
  rising := by
    rw [List.map_append, List.pairwise_append]
    refine ⟨h.rising, List.pairwise_singleton _ _, fun p hp q hq => ?_⟩
    have hbehind := (h.positions p hp).2
    unfold ParseState.Behind at hbehind
    rw [hpc] at hbehind
    rw [List.mem_singleton.mp hq]
    exact hbehind
  argv := by
    intro e he
    rcases List.mem_append.mp he with he | he
    · have hmem : e.1 ∈ s.stored.map Prod.fst := List.mem_map_of_mem he
      rw [h.indices, List.mem_range] at hmem
      simp only [CommData.storeArg, if_neg (Nat.ne_of_lt hmem)]
      exact h.argv e he
    · rw [List.mem_singleton.mp he]
      simp [CommData.storeArg]
  room := by
    have houter := h.room.outer hpc
    have htmpc := h.tmpc
    refine Or.inr ⟨?_, hsep, ?_⟩
    · show s.tmpi < s.d.tmpc
      omega
    · show 2 * (s.argi + 1) ≤ s.tmpi + 2
      omega

/-- An argument ends at the separator at `tmpi`, which is overwritten. -/
theorem ParseInv.cut (h : ParseInv d s) (hsize : d.tmpc ≤ commTempBufSize)
    (hpc : s.pc = .inner) (hmore : s.tmpi < d.tmpc) (hsep : isSep (s.d.temp s.tmpi) = true) :
    ParseInv d { s.read with
      d := s.d.store s.tmpi commAsciiEof, pc := .outer, tmpi := s.tmpi + 1,
      writes := s.writes ++ [s.tmpi] } := by
  rw [store_inside _ _ (Nat.lt_of_lt_of_le hmore hsize)]
  refine ⟨h.tmpc, hmore, forall_mem_snoc h.reads hmore, forall_mem_snoc h.writes hmore,
    h.indices, ?_, h.rising, h.argv, ?_⟩
  · intro p hp
    obtain ⟨hlt, hbehind⟩ := h.positions p hp
    exact ⟨hlt, Nat.lt_succ_of_le hbehind.le⟩
  · have hinner := h.room.inner hpc
    rw [hsep] at hinner
    refine Or.inl ?_
    show 2 * s.argi ≤ s.tmpi + 1
    exact hinner.resolve_right (by simp)

/-- The last argument ends with the text. -/
theorem ParseInv.last (h : ParseInv d s) (hpc : s.pc = .inner) (hend : s.d.tmpc ≤ s.tmpi) :
    ParseInv d { s with pc := .outer } where
  tmpc := h.tmpc
  within := h.within
  reads := h.reads
  writes := h.writes
  indices := h.indices
  positions := by
    intro p hp
    obtain ⟨hlt, -⟩ := h.positions p hp
    rw [h.tmpc] at hend
    exact ⟨hlt, Nat.lt_of_lt_of_le hlt hend⟩
  rising := h.rising
  argv := h.argv
  room := by
    have hinner := h.room.inner hpc
    have hwithin := h.within
    rw [h.tmpc] at hinner hend
    refine Or.inr ⟨?_, ?_⟩
    · show s.tmpi = s.d.tmpc
      rw [h.tmpc]
      omega
    · show 2 * s.argi ≤ s.tmpi + 1
      omega

/-- A step keeps the invariant, one case for each pass. -/
theorem parseInv_step (hsize : d.tmpc ≤ commTempBufSize) (h : ParseInv d s)
    (hstep : parseStep s () = some t) : ParseInv d t := by
  have htmpc := h.tmpc
  cases parseStep_cases hstep with
  | finish hpc hend => exact h.leave hpc s.reads h.reads
  | nul hpc hmore hnul => exact h.leave hpc _ (forall_mem_snoc h.reads (htmpc ▸ hmore))
  | skip hpc hmore hsep =>
      have houter := h.room.outer hpc
      refine h.advance (htmpc ▸ hmore) ?_
      simp only [ParseState.Room, ParseState.read, hpc]
      omega
  | begin hpc hmore hsep hne => exact h.begin hpc (htmpc ▸ hmore) hsep
  | last hpc hend => exact h.last hpc hend
  | cut hpc hmore hsep => exact h.cut hsize hpc (htmpc ▸ hmore) hsep
  | walk hpc hmore hsep =>
      have hinner := h.room.inner hpc
      refine h.advance (htmpc ▸ hmore) ?_
      simp only [ParseState.Room, ParseState.read, hpc]
      omega

/-- The invariant holds in every state reached. -/
theorem parseInv_reach (hsize : d.tmpc ≤ commTempBufSize) (h : ParseReach d s) : ParseInv d s := by
  apply Reach.invariant _ _ h
  · rintro s rfl
    exact parseInv_start d
  · intro s a t _ hinv _ hstep
    exact parseInv_step hsize hinv hstep

/-- Two bytes for every argument but the last. -/
theorem ParseInv.two_mul_argi_le (h : ParseInv d s) : 2 * s.argi ≤ d.tmpc + 1 := by
  have hroom := h.room
  have hwithin := h.within
  unfold ParseState.Room at hroom
  rw [h.tmpc] at hroom
  split at hroom <;> omega

/-- Under the invariant every access is where it may be. -/
theorem ParseInv.stepsInside (h : ParseInv d s) (hsize : d.tmpc ≤ commTempBufSize) :
    StepsInside d s := by
  refine ⟨h.reads, h.writes, fun e he => ⟨?_, ?_⟩, h.rising⟩
  · have hroom := h.two_mul_argi_le
    have hmem : e.1 ∈ s.stored.map Prod.fst := List.mem_map_of_mem he
    rw [h.indices, List.mem_range] at hmem
    unfold commTempBufSize at hsize
    unfold commArgvBufSize
    omega
  · exact (h.positions e.2 (List.mem_map_of_mem he)).1

/-- The steps from `s` end, with the command data `d'`. -/
def HaltsWith (s : ParseState) (d' : CommData) : Prop :=
  ∃ n t, exec parseStep (fun _ _ => true) s (List.replicate n ()) = some t ∧ t.pc = .done ∧
    t.d = d'

/-- If the steps end from the next state, they end from this one. -/
theorem HaltsWith.step {d' : CommData} (h : HaltsWith t d') (hstep : parseStep s () = some t) :
    HaltsWith s d' := by
  obtain ⟨n, u, hrun, hdone, hd⟩ := h
  refine ⟨n + 1, u, ?_, hdone, hd⟩
  rw [List.replicate_succ, exec, if_pos rfl, hstep]
  exact hrun

/-- A state that left the loops has halted. -/
theorem haltsWith_leave (s : ParseState) : HaltsWith s.leave { s.d with argc := s.argi } :=
  ⟨0, s.leave, rfl, rfl, rfl⟩

/-- Storing a byte leaves the length alone. -/
theorem store_tmpc (d : CommData) (i : Nat) (b : UInt8) : (d.store i b).tmpc = d.tmpc := by
  unfold CommData.store; split <;> rfl

/-- **The loops end.**  From either loop head the steps end, with what `commParseLoop`
computes from there. -/
theorem parse_halts (left : Nat) (s : ParseState) (hleft : s.tmpi + left = s.d.tmpc) :
    (s.pc = .outer → HaltsWith s (commParseLoop s.d false s.tmpi s.argi left)) ∧
      (s.pc = .inner → HaltsWith s (commParseLoop s.d true s.tmpi s.argi left)) := by
  induction left generalizing s with
  | zero =>
      have hend : s.d.tmpc ≤ s.tmpi := by omega
      have houter : ∀ u : ParseState, u.pc = .outer → u.d.tmpc ≤ u.tmpi →
          HaltsWith u { u.d with argc := u.argi } := by
        intro u hpc hu
        apply (haltsWith_leave u).step
        simp only [parseStep, hpc, if_pos hu]
      refine ⟨fun hpc => houter s hpc hend, fun hpc => ?_⟩
      apply (houter { s with pc := .outer } rfl hend).step
      simp only [parseStep, hpc, if_pos hend]
  | succ left ih =>
      have hmore : ¬ s.d.tmpc ≤ s.tmpi := by omega
      constructor
      · intro hpc
        rw [commParseLoop]
        by_cases heof : s.d.temp s.tmpi = commAsciiEof
        · rw [if_pos heof]
          apply (haltsWith_leave s.read).step
          simp only [parseStep, hpc, if_neg hmore, if_pos heof]
        · rw [if_neg heof]
          by_cases hsep : isSep (s.d.temp s.tmpi) = true
          · rw [if_pos hsep]
            have hrest := (ih { s.read with tmpi := s.tmpi + 1 }
              (by simp only [ParseState.read]; omega)).1 hpc
            apply hrest.step
            simp only [parseStep, hpc, if_neg hmore, if_neg heof, if_pos hsep]
          · rw [if_neg hsep]
            -- the inner loop looks at the first byte of the argument again
            let begun : ParseState := { s.read with
              d := s.d.storeArg s.argi s.tmpi, pc := .inner, argi := s.argi + 1,
              stored := s.stored ++ [(s.argi, s.tmpi)] }
            have hrest : HaltsWith { begun.read with tmpi := begun.tmpi + 1 } _ :=
              (ih { begun.read with tmpi := begun.tmpi + 1 }
                (by show s.tmpi + 1 + left = s.d.tmpc; omega)).2 rfl
            have hbegun : parseStep begun () = some { begun.read with tmpi := begun.tmpi + 1 } := by
              have hmore' : ¬ begun.d.tmpc ≤ begun.tmpi := hmore
              have hsep' : ¬ isSep (begun.d.temp begun.tmpi) = true := hsep
              simp only [parseStep, show begun.pc = .inner from rfl, if_neg hmore', if_neg hsep']
            apply (hrest.step hbegun).step
            simp only [parseStep, hpc, if_neg hmore, if_neg heof, if_neg hsep]
            rfl
      · intro hpc
        rw [commParseLoop]
        by_cases hsep : isSep (s.d.temp s.tmpi) = true
        · rw [if_pos hsep]
          have hrest := (ih { s.read with
              d := s.d.store s.tmpi commAsciiEof, pc := .outer, tmpi := s.tmpi + 1,
              writes := s.writes ++ [s.tmpi] }
            (by simp only [store_tmpc]; omega)).1 rfl
          apply hrest.step
          simp only [parseStep, hpc, if_neg hmore, if_pos hsep]
        · rw [if_neg hsep]
          have hrest := (ih { s.read with tmpi := s.tmpi + 1 }
            (by simp only [ParseState.read]; omega)).2 hpc
          apply hrest.step
          simp only [parseStep, hpc, if_neg hmore, if_neg hsep]

/-- **The tokenizer and its buffers.**  Whatever `temp` holds: every step made is inside
`temp[0..tmpc)` and `argv`, the steps end, and what they leave is
`commParseCommand`, whose entries point at rising positions below `tmpc`, two bytes
apart on the average. -/
theorem commParseCommand_inside (hsize : d.tmpc ≤ commTempBufSize) :
    (∀ s, ParseReach d s → StepsInside d s) ∧
      HaltsWith (parseStart d) (commParseCommand d) ∧
      (commParseCommand d).argc ≤ (d.tmpc + 1) / 2 ∧
      (commParseCommand d).argc ≤ commArgvBufSize ∧
      ∃ ps : List Nat, ps.length = (commParseCommand d).argc ∧ ps.Pairwise (· < ·) ∧
        (∀ p ∈ ps, p < d.tmpc) ∧
        ∀ (k : Nat) (hk : k < ps.length), (commParseCommand d).argv k = .temp ps[k] := by
  have hhalts : HaltsWith (parseStart d) (commParseCommand d) :=
    (parse_halts d.tmpc (parseStart d) (Nat.zero_add _)).1 rfl
  refine ⟨fun s hs => (parseInv_reach hsize hs).stepsInside hsize, hhalts, ?_⟩
  obtain ⟨n, t, hrun, hdone, hd⟩ := hhalts
  have hreach : ParseReach d t := Reach.of_exec (fun _ _ _ => trivial) (.start rfl) hrun
  have hinv := parseInv_reach hsize hreach
  have hroom := hinv.two_mul_argi_le
  have hargc : t.d.argc = t.argi := by
    have hroom' := hinv.room
    unfold ParseState.Room at hroom'
    rw [hdone] at hroom'
    exact hroom'.2
  have hlen : t.stored.length = t.argi := by
    have hcount := congrArg List.length hinv.indices
    rwa [List.length_map, List.length_range] at hcount
  rw [← hd, hargc]
  unfold commTempBufSize at hsize
  unfold commArgvBufSize
  refine ⟨by omega, by omega, t.stored.map Prod.snd, by rw [List.length_map, hlen], hinv.rising,
    fun p hp => (hinv.positions p hp).1, fun k hk => ?_⟩
  rw [List.length_map] at hk
  have hindex : t.stored[k].1 = k := by
    have hk' : k < (t.stored.map Prod.fst).length := by rwa [List.length_map]
    have hget := List.getElem_of_eq hinv.indices hk'
    rwa [List.getElem_map, List.getElem_range] at hget
  have hentry := hinv.argv t.stored[k] (List.getElem_mem hk)
  rw [hindex] at hentry
  rw [hentry, List.getElem_map]

/-- The text of two words, parsed step by step. -/
theorem commParseCommand_inside_twoWords :
    HaltsWith (parseStart twoWords) (commParseCommand twoWords) ∧
      (commParseCommand twoWords).argc ≤ 4 := by
  obtain ⟨-, hhalts, hargc, -⟩ := commParseCommand_inside (d := twoWords) (by decide)
  exact ⟨hhalts, hargc⟩

end Steps

end Comm

import Alp.CommBox
import Alp.CommTokens

/-!
# Does the next line depend on the lines before it?

`comm_exec_command` looks a line up by its first word, or by its first two, and
the second word is `argv[1]` whether or not the line had one.  The command data
is never cleared between lines, so on a one-word line `argv[1]` is the second
argument of some earlier line, read through whatever the later lines left in
`temp`; before the first two-word line it is NULL.

`NextLineFixed` says that this does not show: the handler and its arguments are
a function of the table and the words of the line.  `nextLineFixed_iff` gives
the exact condition on table and line.  The positive half rests on
`commExecScan_congr`: two data agreeing on the arguments a search used make the
same search.
-/

set_option autoImplicit false

namespace Comm

open CString

/-- The command data `comm_main` starts its loop with. -/
def commStart : CommData :=
  { CommData.zeroed with argsize := commArgvBufSize, tmpsize := commTempBufSize }

/-- The command data after some lines. -/
def commHistory (lines : List Line) : CommData :=
  lines.foldl commRunLine commStart

/-- Reading lines leaves the size of the buffer alone. -/
theorem commHistory_tmpsize (lines : List Line) :
    (commHistory lines).tmpsize = commTempBufSize := by
  have hfold : ∀ d : CommData, (lines.foldl commRunLine d).tmpsize = d.tmpsize := by
    induction lines with
    | nil => intro d; rfl
    | cons l lines ih => intro d; rw [List.foldl_cons, ih, commRunLine_tmpsize]
  exact hfold commStart

/-- The string a handler finds behind `argv[i]`. -/
def CommData.argStr (d : CommData) (i : Nat) : Option (List UInt8) :=
  match d.argv i with
  | .temp off => readStr d.temp (commTempBufSize - off) off
  | _ => none

/-- What running a line shows: the handler call and the arguments passed on. -/
structure Observed where
  call : Option HandlerCall
  args : List (Option (List UInt8))
  deriving DecidableEq

/-- The observation of `comm_exec_command`; `none` where it is undefined. -/
def commObserve (cmds : CmdMem) (tbl : CmdTable) (cdatas : Addr → CommData) (d : CommData) :
    Option Observed :=
  (commExecCommand cmds tbl d cdatas).map
    (fun r => ⟨r.call, (List.range d.argc).map d.argStr⟩)

/-- The `argv` indices whose strings `comm_exec_command` compares. -/
def commExecUsed (cmds : CmdMem) (tbl : CmdTable) (d : CommData) : List Nat :=
  if d.argc = 0 then [] else (commExecScan cmds d 0 tbl.slots).used

/-- The line `l` is run independently of the lines before it: any two histories,
and any two lines with the same words, give the same observation, and no `argv`
entry at `argc` or above is compared with a name. -/
def NextLineFixed (cmds : CmdMem) (tbl : CmdTable) (l : Line) : Prop :=
  (∀ (h₁ h₂ : List Line) (l' : Line) (m₁ m₂ : Addr → CommData),
    l'.Fits → l'.tokens = l.tokens →
    commObserve cmds tbl m₁ (commRunLine (commHistory h₁) l) =
      commObserve cmds tbl m₂ (commRunLine (commHistory h₂) l')) ∧
  ∀ h : List Line, ∀ i ∈ commExecUsed cmds tbl (commRunLine (commHistory h) l),
    i < (commRunLine (commHistory h) l).argc

/-- Looking up the word `t`, command `c` is compared with the second word. -/
def CommCmd.TakesSecond (c : CommCmd) (t : List UInt8) : Prop :=
  c.live ≠ none ∧ c.nogroup ≠ 1 ∧ (c.nogroup = 0 → c.group.map CStr.bytes = some t)

/-- Looking up the word `t`, the search does not go past command `c`: it matches,
or it is a grouped command without a group name. -/
def CommCmd.Ends (c : CommCmd) (t : List UInt8) : Prop :=
  (c.nogroup = 1 ∧ c.live.map CStr.bytes = some t) ∨
    (c.live ≠ none ∧ c.nogroup = 0 ∧ c.group = none)

/-- Looking up the word `t` alone reaches a command that wants a second word. -/
def WantsSecondWord (cmds : CmdMem) (t : List UInt8) (slots : List (Option Addr)) : Prop :=
  ∃ k a, slots[k]? = some (some a) ∧ (cmds a).TakesSecond t ∧
    ∀ (j : Nat) (b : Addr), j < k → slots[j]? = some (some b) → ¬ (cmds b).Ends t

/-- An empty table wants no second word. -/
theorem not_wantsSecondWord_nil (cmds : CmdMem) (t : List UInt8) :
    ¬ WantsSecondWord cmds t [] := by
  rintro ⟨k, a, h, _⟩
  simp at h

/-- A table wants a second word in its first slot, or behind one that does not end the scan. -/
theorem wantsSecondWord_cons {cmds : CmdMem} {t : List UInt8} {o : Option Addr}
    {slots : List (Option Addr)} :
    WantsSecondWord cmds t (o :: slots) ↔
      (∃ a, o = some a ∧ (cmds a).TakesSecond t) ∨
      ((∀ b, o = some b → ¬ (cmds b).Ends t) ∧ WantsSecondWord cmds t slots) := by
  constructor
  · rintro ⟨k, a, hk, htake, hends⟩
    cases k with
    | zero => exact Or.inl ⟨a, by simpa using hk, htake⟩
    | succ k =>
        refine Or.inr ⟨fun b hb => hends 0 b (by omega) (by simp [hb]), k, a, by simpa using hk,
          htake, fun j b hj hb => hends (j + 1) b (by omega) (by simpa using hb)⟩
  · rintro (⟨a, ho, htake⟩ | ⟨hends, k, a, hk, htake, hrest⟩)
    · exact ⟨0, a, by simp [ho], htake, fun j b hj _ => absurd hj (by omega)⟩
    · refine ⟨k + 1, a, by simpa using hk, htake, ?_⟩
      intro j b hj hb
      cases j with
      | zero => exact hends b (by simpa using hb)
      | succ j => exact hrest j b (by omega) (by simpa using hb)

/-- What a scan used is what it used before and since. -/
theorem Scan.mem_after {s : Scan} {u : List Nat} {i : Nat} :
    i ∈ (s.after u).used ↔ i ∈ u ∨ i ∈ s.used := by
  simp [Scan.after]

/-- A match depends on the arguments that it uses only. -/
theorem matchCmd_congr {d₁ d₂ : CommData} {n : Nat} (hn : 0 < n)
    (hagree : ∀ j, j < n → ∀ s, d₂.strcmpArg j s = d₁.strcmpArg j s)
    (c : CommCmd) (name : CStr) (hused : ∀ j ∈ (d₁.matchCmd c name).1, j < n) :
    d₂.matchCmd c name = d₁.matchCmd c name := by
  unfold CommData.matchCmd at hused ⊢
  split
  · rw [hagree 0 hn]
  · next hone =>
      rw [if_neg hone] at hused
      split
      · next hgrp =>
          rw [if_pos hgrp] at hused
          rw [hagree 0 hn]
          split
          · rfl
          · rfl
          · next hcmp =>
              simp only [hcmp] at hused
              rw [hagree 1 (hused 1 (by simp))]
      · next hgrp =>
          rw [if_neg hgrp] at hused
          rw [hagree 1 (hused 1 (by simp))]

/-- Two command data with the same first `n` arguments make the same search, when
the search on the first uses only those. -/
theorem commExecScan_congr {cmds : CmdMem} {d₁ d₂ : CommData} {n : Nat} (hn : 0 < n)
    (hagree : ∀ j, j < n → ∀ s, d₂.strcmpArg j s = d₁.strcmpArg j s)
    (slots : List (Option Addr)) (i : Nat)
    (hused : ∀ j ∈ (commExecScan cmds d₁ i slots).used, j < n) :
    commExecScan cmds d₂ i slots = commExecScan cmds d₁ i slots := by
  induction slots generalizing i with
  | nil => rfl
  | cons o slots ih =>
      cases o with
      | none => exact ih _ hused
      | some a =>
          cases hlive : (cmds a).live with
          | none =>
              simp only [commExecScan, hlive] at hused ⊢
              exact ih _ hused
          | some name =>
              simp only [commExecScan, hlive] at hused ⊢
              have htest : d₂.matchCmd (cmds a) name = d₁.matchCmd (cmds a) name := by
                apply matchCmd_congr hn hagree
                intro j hj
                apply hused
                split
                · exact hj
                · exact hj
                · exact Scan.mem_after.mpr (Or.inl hj)
              rw [htest]
              split
              · rfl
              · rfl
              · next hfalse =>
                  simp only [hfalse] at hused
                  rw [ih _ (fun j hj => hused j (Scan.mem_after.mpr (Or.inr hj)))]

/-- The search compares first and second words only. -/
theorem commExecScan_used_lt_two (cmds : CmdMem) (d : CommData) (slots : List (Option Addr))
    (i : Nat) : ∀ j ∈ (commExecScan cmds d i slots).used, j < 2 := by
  have htest : ∀ c name, ∀ j ∈ (d.matchCmd c name).1, j < 2 := by
    intro c name j hj
    unfold CommData.matchCmd at hj
    split at hj
    · simp_all
    · split at hj
      · split at hj <;> simp at hj <;> omega
      · simp at hj; omega
  induction slots generalizing i with
  | nil => simp [commExecScan]
  | cons o slots ih =>
      cases o with
      | none => exact ih _
      | some a =>
          intro j hj
          simp only [commExecScan] at hj
          split at hj
          · exact ih _ j hj
          · split at hj
            · exact htest _ _ j hj
            · exact htest _ _ j hj
            · rcases Scan.mem_after.mp hj with hj | hj
              · exact htest _ _ j hj
              · exact ih _ j hj

/-- Comparing an argument compares the word it holds. -/
theorem ArgsAt.strcmpArg {d : CommData} {ts : List (List UInt8)} (h : ArgsAt d 0 ts)
    {j : Nat} (hj : j < ts.length) (hnul : nul ∉ ts[j]) (s : Option CStr) :
    d.strcmpArg j s = s.map (fun s => decide (ts[j] = s.bytes)) := by
  obtain ⟨p, hptr, hstr, hroom⟩ := h.getElem hj
  rw [Nat.zero_add] at hptr
  cases s with
  | none => simp [CommData.strcmpArg, hptr]
  | some s =>
      simp only [CommData.strcmpArg, hptr, Option.map_some]
      exact strEq_of_holds hstr hnul s.noNul (by omega)

/-- An argument read back is the word it holds. -/
theorem ArgsAt.argStr {d : CommData} {ts : List (List UInt8)} (h : ArgsAt d 0 ts)
    {j : Nat} (hj : j < ts.length) (hnul : nul ∉ ts[j]) :
    d.argStr j = some ts[j] := by
  obtain ⟨p, hptr, hstr, hroom⟩ := h.getElem hj
  rw [Nat.zero_add] at hptr
  simp only [CommData.argStr, hptr]
  exact readStr_of_holds hstr hnul (by omega)

/-- On a one-word line the test of a live command either compares the second
word, or ends the search, or goes on. -/
theorem matchCmd_one_word {d : CommData} {t : List UInt8} (h : ArgsAt d 0 [t])
    (hnul : nul ∉ t) {c : CommCmd} {name : CStr} (hlive : c.live = some name) :
    (c.TakesSecond t ∧ 1 ∈ (d.matchCmd c name).1) ∨
    (¬ c.TakesSecond t ∧ (d.matchCmd c name).1 = [0] ∧
      ((d.matchCmd c name).2 = some false ↔ ¬ c.Ends t)) := by
  have hcmp : ∀ s, d.strcmpArg 0 s = s.map (fun s => decide (t = s.bytes)) :=
    fun s => h.strcmpArg (j := 0) (by simp) hnul s
  by_cases hone : c.nogroup = 1
  · right
    have hgrp : c.nogroup ≠ 0 := by omega
    refine ⟨fun hk => hk.2.1 hone, by simp [CommData.matchCmd, hone], ?_⟩
    simp [CommData.matchCmd, CommCmd.Ends, hone, hcmp, hlive, eq_comm]
  · by_cases hgrp : c.nogroup = 0
    · cases hg : c.group with
      | none =>
          right
          refine ⟨fun hk => ?_, ?_, ?_⟩
          · have := hk.2.2 hgrp
            simp [hg] at this
          · simp [CommData.matchCmd, hgrp, hcmp, hg]
          · simp [CommData.matchCmd, CommCmd.Ends, hgrp, hcmp, hg, hlive]
      | some g =>
          by_cases ht : t = g.bytes
          · left
            refine ⟨⟨by simp [hlive], hone, fun _ => by simp [hg, ht]⟩, ?_⟩
            simp [CommData.matchCmd, hgrp, hcmp, hg, decide_eq_true ht]
          · right
            refine ⟨fun hk => ?_, ?_, ?_⟩
            · have := hk.2.2 hgrp
              simp only [hg, Option.map_some, Option.some.injEq] at this
              exact ht this.symm
            · simp [CommData.matchCmd, hgrp, hcmp, hg, decide_eq_false ht]
            · simp [CommData.matchCmd, CommCmd.Ends, hgrp, hcmp, hg, decide_eq_false ht]
    · left
      refine ⟨⟨by simp [hlive], hone, fun hk => absurd hk hgrp⟩, ?_⟩
      simp [CommData.matchCmd, hone, hgrp]

/-- On a one-word line the search compares `argv[1]` exactly when it reaches a
command that wants a second word. -/
theorem one_mem_commExecScan_used_iff {cmds : CmdMem} {d : CommData} {t : List UInt8}
    (h : ArgsAt d 0 [t]) (hnul : nul ∉ t) (slots : List (Option Addr)) (i : Nat) :
    1 ∈ (commExecScan cmds d i slots).used ↔ WantsSecondWord cmds t slots := by
  induction slots generalizing i with
  | nil => simp [commExecScan, not_wantsSecondWord_nil]
  | cons o slots ih =>
      rw [wantsSecondWord_cons]
      cases o with
      | none => simpa [commExecScan] using ih (i + 1)
      | some a =>
          simp only [Option.some.injEq, exists_eq_left', forall_eq']
          cases hlive : (cmds a).live with
          | none =>
              have htake : ¬ (cmds a).TakesSecond t := fun ht => ht.1 hlive
              have hends : ¬ (cmds a).Ends t := by simp [CommCmd.Ends, hlive]
              simpa [commExecScan, hlive, htake, hends] using ih (i + 1)
          | some name =>
              simp only [commExecScan, hlive]
              rcases matchCmd_one_word h hnul hlive with ⟨htake, hused⟩ | ⟨htake, hused, hgo⟩
              · refine iff_of_true ?_ (Or.inl htake)
                split
                · exact hused
                · exact hused
                · exact Scan.mem_after.mpr (Or.inl hused)
              · rw [or_iff_right htake, ← hgo]
                split
                · next hr => simp [hused, hr]
                · next hr => simp [hused, hr]
                · next hr => simp [Scan.mem_after, hused, hr, ih (i + 1)]

/-- A line whose search stays below `argc` is run the same from any command data,
and so is any other line with the same words. -/
theorem commObserve_congr {cmds : CmdMem} {tbl : CmdTable} {d₁ d₂ : CommData}
    {ts : List (List UInt8)} (hnul : ∀ t ∈ ts, nul ∉ t)
    (hc₁ : d₁.argc = ts.length) (h₁ : ArgsAt d₁ 0 ts)
    (hc₂ : d₂.argc = ts.length) (h₂ : ArgsAt d₂ 0 ts)
    (hused : ∀ i ∈ commExecUsed cmds tbl d₁, i < d₁.argc) (m₁ m₂ : Addr → CommData) :
    commObserve cmds tbl m₁ d₁ = commObserve cmds tbl m₂ d₂ := by
  by_cases hzero : ts.length = 0
  · simp [commObserve, commExecCommand, hc₁, hc₂, hzero]
  · have hargs : (List.range ts.length).map d₁.argStr = (List.range ts.length).map d₂.argStr := by
      apply List.map_congr_left
      intro j hj
      have hj' := List.mem_range.mp hj
      have hn := hnul _ (List.getElem_mem hj')
      rw [h₁.argStr hj' hn, h₂.argStr hj' hn]
    have hscan : commExecScan cmds d₂ 0 tbl.slots = commExecScan cmds d₁ 0 tbl.slots := by
      apply commExecScan_congr (n := ts.length) (by omega)
      · intro j hj s
        have hn := hnul _ (List.getElem_mem hj)
        rw [h₁.strcmpArg hj hn, h₂.strcmpArg hj hn]
      · simpa [commExecUsed, hc₁, hzero] using hused
    simp only [commObserve, commExecCommand, hc₁, hc₂, if_neg hzero, hscan, hargs]
    cases (commExecScan cmds d₁ 0 tbl.slots).result <;> rfl

/-- The search stays below `argc` exactly unless a one-word line reaches a command
that wants a second word. -/
theorem commExecUsed_lt_argc_iff {cmds : CmdMem} {tbl : CmdTable} {d : CommData}
    {ts : List (List UInt8)} (hnul : ∀ t ∈ ts, nul ∉ t)
    (hc : d.argc = ts.length) (h : ArgsAt d 0 ts) :
    (∀ i ∈ commExecUsed cmds tbl d, i < d.argc) ↔
      ∀ t, ts = [t] → ¬ WantsSecondWord cmds t tbl.slots := by
  match ts, hc, h, hnul with
  | [], hc, _, _ => simp [commExecUsed, hc]
  | [t], hc, h, hnul =>
      have hiff : 1 ∈ (commExecScan cmds d 0 tbl.slots).used ↔
          WantsSecondWord cmds t tbl.slots :=
        one_mem_commExecScan_used_iff h (hnul t (by simp)) tbl.slots 0
      have hbound := commExecScan_used_lt_two cmds d tbl.slots 0
      simp only [commExecUsed, hc, List.length_singleton, Nat.one_ne_zero, if_false,
        List.cons.injEq, and_true, forall_eq', ← hiff]
      constructor
      · intro hlt hone
        exact absurd (hlt 1 hone) (by omega)
      · intro hone i hi
        have hi2 := hbound i hi
        have hne : i ≠ 1 := fun h => hone (h ▸ hi)
        omega
  | t :: u :: ts, hc, _, _ =>
      have hbound := commExecScan_used_lt_two cmds d tbl.slots 0
      refine iff_of_true ?_ (by simp)
      intro i hi
      have hi' : i ∈ (commExecScan cmds d 0 tbl.slots).used := by
        simpa [commExecUsed, hc] using hi
      have := hbound i hi'
      simp only [hc, List.length_cons]
      omega

/-- **When the next line is run on its own words.**  For a line that fits the
buffer: exactly unless it has one word and looking that word up reaches a command
that wants two. -/
theorem nextLineFixed_iff (cmds : CmdMem) (tbl : CmdTable) (l : Line) (hl : l.Fits) :
    NextLineFixed cmds tbl l ↔
      ∀ t, l.tokens = [t] → ¬ WantsSecondWord cmds t tbl.slots := by
  have hrun : ∀ (h : List Line) (l' : Line), l'.Fits →
      (commRunLine (commHistory h) l').argc = l'.tokens.length ∧
      ArgsAt (commRunLine (commHistory h) l') 0 l'.tokens :=
    fun h l' hl' => argsAt_commRunLine (commHistory_tmpsize h) hl'
  have hnul : ∀ t ∈ l.tokens, nul ∉ t :=
    fun t ht => nul_notMem_of_tokens (l.nul_notMem_text hl.2) ht
  have hused : ∀ h : List Line, (∀ i ∈ commExecUsed cmds tbl (commRunLine (commHistory h) l),
      i < (commRunLine (commHistory h) l).argc) ↔
      ∀ t, l.tokens = [t] → ¬ WantsSecondWord cmds t tbl.slots :=
    fun h => commExecUsed_lt_argc_iff hnul (hrun h l hl).1 (hrun h l hl).2
  constructor
  · intro hfixed
    exact (hused []).mp (hfixed.2 [])
  · intro hcond
    refine ⟨?_, fun h => (hused h).mpr hcond⟩
    intro h₁ h₂ l' m₁ m₂ hl' hwords
    have h2 := hrun h₂ l' hl'
    rw [hwords] at h2
    exact commObserve_congr hnul (hrun h₁ l hl).1 (hrun h₁ l hl).2 h2.1 h2.2
      ((hused h₁).mpr hcond) m₁ m₂

/-- The registered usb commands. -/
def usbOnly : CmdState :=
  (usbRegisterLoop (CmdState.start commInitCommand)).2

/-- `usb list` has two words, so no earlier line shows. -/
theorem usb_list_fixed : NextLineFixed usbOnly.cmds usbOnly.tbl (Line.lit "usb list") := by
  have htwo : (Line.lit "usb list").tokens.length = 2 := by decide +kernel
  refine (nextLineFixed_iff usbOnly.cmds usbOnly.tbl (Line.lit "usb list")
    ⟨by decide, by decide⟩).mpr ?_
  intro t ht
  simp [ht] at htwo

/-- `usb` alone runs the usb command of the line before it: after `usb bind` it
binds, after `usb list` it lists. -/
theorem usb_alone_not_fixed :
    ¬ ∀ (cmds : CmdMem) (tbl : CmdTable) (l : Line), l.Fits → NextLineFixed cmds tbl l := by
  intro hall
  have hfits : (Line.lit "usb").Fits := ⟨by decide, by decide⟩
  have hsame := (hall usbOnly.cmds usbOnly.tbl (Line.lit "usb") hfits).1
    [Line.lit "usb bind"] [Line.lit "usb list"] (Line.lit "usb")
    usbOnly.cdatas usbOnly.cdatas hfits rfl
  exact absurd hsame (by decide +kernel)

end Comm

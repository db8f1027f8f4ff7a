import Alp.CommDispatch

/-!
# Dispatch runs the first match

For the words `t` and `u` behind `argv[0]` and `argv[1]` a command is passed over, or it
matches, or comparing it is undefined: a command with `nogroup` 0 whose group is NULL
(`CommCmd.Nameless`; the search tests the name for NULL, not the group).

`commExecScan_first` runs the search up to the first match.  `FirstMatch` is a fact about
the slots up to the match, so nothing behind it is consulted.
-/

set_option autoImplicit false

namespace Comm

open CString

/-- The command takes part in dispatch and matches the words. -/
def CommCmd.Matches (c : CommCmd) (t u : List UInt8) : Prop :=
  (c.nogroup = 1 ∧ c.live.map CStr.bytes = some t) ∨
    (c.nogroup = 0 ∧ c.group.map CStr.bytes = some t ∧ c.live.map CStr.bytes = some u)

/-- The command takes part in dispatch, is grouped and has no group. -/
def CommCmd.Nameless (c : CommCmd) : Prop :=
  c.live ≠ none ∧ c.nogroup = 0 ∧ c.group = none

/-- The lowest slot whose command matches. -/
def FirstMatch (cmds : CmdMem) (t u : List UInt8) (slots : List (Option Addr)) (i : Nat)
    (a : Addr) : Prop :=
  slots[i]? = some (some a) ∧ (cmds a).Matches t u ∧
    ∀ (j : Nat) (b : Addr), j < i → slots[j]? = some (some b) → ¬ (cmds b).Matches t u

/-- The handler of `c` is run once, on its id, its `priv` and its own copy of `d`. -/
structure RunsCmd (c : CommCmd) (d : CommData) (cdatas : Addr → CommData) (r : ExecResult) :
    Prop where
  call : r.call = c.handler.map fun h => ⟨h, c.id, c.cdata, c.priv⟩
  copied : ∀ p, c.cdata = some p → r.cdatas p = d
  others : ∀ p, c.cdata ≠ some p → r.cdatas p = cdatas p

/-- `comm_exec_command` runs exactly the first match and returns 0. -/
def RunsFirstMatch (cmds : CmdMem) (tbl : CmdTable) (d : CommData) (t u : List UInt8) : Prop :=
  ∀ cdatas : Addr → CommData, ∃ r, commExecCommand cmds tbl d cdatas = some r ∧ r.ret = 0 ∧
    (∀ i a, FirstMatch cmds t u tbl.slots i a → RunsCmd (cmds a) d cdatas r ∧
      ∀ tbl' : CmdTable, (∀ j, j ≤ i → tbl'.slots[j]? = tbl.slots[j]?) →
        commExecCommand cmds tbl' d cdatas = some r) ∧
    ((∀ i a, ¬ FirstMatch cmds t u tbl.slots i a) → r.call = none ∧ r.cdatas = cdatas)

/-- Every grouped command without a group stands behind the first match. -/
def GroupsNamed (cmds : CmdMem) (t u : List UInt8) (slots : List (Option Addr)) : Prop :=
  ∀ (j : Nat) (b : Addr), slots[j]? = some (some b) → (cmds b).Nameless →
    ∃ i a, i < j ∧ FirstMatch cmds t u slots i a

/-- A command that matches has a name. -/
theorem CommCmd.Matches.not_nameless {c : CommCmd} {t u : List UInt8} (h : c.Matches t u) :
    ¬ c.Nameless := by
  rintro ⟨-, hgroup, hnone⟩
  rcases h with ⟨hone, -⟩ | ⟨-, hsome, -⟩
  · omega
  · rw [hnone] at hsome
    cases hsome

section Search

variable {cmds : CmdMem} {d : CommData} {t u : List UInt8}

/-- There is one first match. -/
theorem FirstMatch.unique {slots : List (Option Addr)} {i j : Nat} {a b : Addr}
    (hi : FirstMatch cmds t u slots i a) (hj : FirstMatch cmds t u slots j b) : i = j ∧ a = b := by
  have hij : i = j := by
    rcases Nat.lt_trichotomy i j with h | h | h
    · exact absurd hi.2.1 (hj.2.2 i a h hi.1)
    · exact h
    · exact absurd hj.2.1 (hi.2.2 j b h hj.1)
  subst hij
  refine ⟨rfl, ?_⟩
  have hsame := hi.1.symm.trans hj.1
  simpa using hsame

/-- The test of one command. -/
theorem matchCmd_words (hargs : ArgsAt d 0 [t, u]) (ht : nul ∉ t) (hu : nul ∉ u) {c : CommCmd}
    {name : CStr} (hlive : c.live = some name) (hgroup : c.nogroup = 0 ∨ c.nogroup = 1) :
    ((d.matchCmd c name).2 = none ↔ c.Nameless) ∧
      ((d.matchCmd c name).2 = some true ↔ c.Matches t u) := by
  have hfirst : ∀ s, d.strcmpArg 0 s = s.map fun s => decide (t = s.bytes) :=
    fun s => hargs.strcmpArg (j := 0) (by simp) ht s
  have hsecond : ∀ s, d.strcmpArg 1 s = s.map fun s => decide (u = s.bytes) :=
    fun s => hargs.strcmpArg (j := 1) (by simp) hu s
  rcases hgroup with hzero | hone
  · cases hg : c.group with
    | none =>
        simp [CommData.matchCmd, hzero, hfirst, hg, CommCmd.Nameless, CommCmd.Matches, hlive]
    | some g =>
        by_cases hcmp : t = g.bytes
        · simp [CommData.matchCmd, hzero, hfirst, hsecond, hg, hcmp, CommCmd.Nameless,
            CommCmd.Matches, hlive, eq_comm]
        · simp [CommData.matchCmd, hzero, hfirst, hg, hcmp, CommCmd.Nameless, CommCmd.Matches,
            Ne.symm hcmp]
  · simp [CommData.matchCmd, hone, hfirst, CommCmd.Nameless, CommCmd.Matches, hlive, eq_comm]

/-- A command that takes no part neither matches nor is in the way. -/
theorem not_matches_of_dead {c : CommCmd} (hlive : c.live = none) :
    ¬ c.Matches t u ∧ ¬ c.Nameless := by
  simp [CommCmd.Matches, CommCmd.Nameless, hlive]

/-- What the end of a search from slot `k` on says about the slots. -/
def SearchEnds (cmds : CmdMem) (t u : List UInt8) (slots : List (Option Addr)) (k : Nat) :
    ScanEnd → Prop
  | .found m a => ∃ i, m = k + i ∧ FirstMatch cmds t u slots i a ∧
    ∀ (j : Nat) (b : Addr), j < i → slots[j]? = some (some b) → ¬ (cmds b).Nameless
  | .noMatch => ∀ (j : Nat) (b : Addr), slots[j]? = some (some b) →
    ¬ (cmds b).Matches t u ∧ ¬ (cmds b).Nameless
  | .undefined => ∃ (j : Nat) (b : Addr), slots[j]? = some (some b) ∧ (cmds b).Nameless ∧
    ∀ (i : Nat) (a : Addr), i < j → slots[i]? = some (some a) → ¬ (cmds a).Matches t u

/-- A slot passed over in front. -/
theorem SearchEnds.skip {o : Option Addr} {slots : List (Option Addr)} {k : Nat} {e : ScanEnd}
    (h : SearchEnds cmds t u slots (k + 1) e)
    (ho : ∀ a, o = some a → ¬ (cmds a).Matches t u ∧ ¬ (cmds a).Nameless) :
    SearchEnds cmds t u (o :: slots) k e := by
  cases e with
  | found m a =>
      obtain ⟨i, hm, ⟨hslot, hmatch, hfirst⟩, hnamed⟩ := h
      refine ⟨i + 1, by omega, ⟨hslot, hmatch, fun j b hj hb => ?_⟩, fun j b hj hb => ?_⟩
      · cases j with
        | zero => exact (ho b (by simpa using hb)).1
        | succ j => exact hfirst j b (by omega) (by simpa using hb)
      · cases j with
        | zero => exact (ho b (by simpa using hb)).2
        | succ j => exact hnamed j b (by omega) (by simpa using hb)
  | noMatch =>
      intro j b hb
      cases j with
      | zero => exact ho b (by simpa using hb)
      | succ j => exact h j b (by simpa using hb)
  | undefined =>
      obtain ⟨j, b, hb, hnameless, hfirst⟩ := h
      refine ⟨j + 1, b, by simpa using hb, hnameless, fun i a hi ha => ?_⟩
      cases i with
      | zero => exact (ho a (by simpa using ha)).1
      | succ i => exact hfirst i a (by omega) (by simpa using ha)

/-- **The search.**  It ends at the first match or at the first nameless command,
whichever comes first. -/
theorem commExecScan_first (hargs : ArgsAt d 0 [t, u]) (ht : nul ∉ t) (hu : nul ∉ u)
    (slots : List (Option Addr))
    (hgroup : ∀ a, some a ∈ slots → (cmds a).nogroup = 0 ∨ (cmds a).nogroup = 1) (k : Nat) :
    SearchEnds cmds t u slots k (commExecScan cmds d k slots).result := by
  induction slots generalizing k with
  | nil =>
      intro j b hb
      cases hb
  | cons o slots ih =>
      have hrest := ih (fun a ha => hgroup a (List.mem_cons_of_mem _ ha)) (k + 1)
      cases o with
      | none => exact hrest.skip nofun
      | some a =>
          rw [commExecScan]
          split
          · next hlive =>
              refine hrest.skip fun b hb => ?_
              cases hb
              exact not_matches_of_dead hlive
          · next name hlive =>
              obtain ⟨hnone, htrue⟩ :=
                matchCmd_words hargs ht hu hlive (hgroup a List.mem_cons_self)
              dsimp only
              split
              · next htest =>
                  exact ⟨0, a, rfl, hnone.mp htest, fun i b hi _ => absurd hi (Nat.not_lt_zero i)⟩
              · next htest =>
                  refine ⟨0, rfl, ⟨rfl, htrue.mp htest, fun j b hj => ?_⟩, fun j b hj => ?_⟩
                  · exact absurd hj (Nat.not_lt_zero j)
                  · exact absurd hj (Nat.not_lt_zero j)
              · next htest =>
                  refine hrest.skip fun b hb => ?_
                  cases hb
                  refine ⟨fun hm => ?_, fun hn => ?_⟩
                  · rw [htrue.mpr hm] at htest
                    cases htest
                  · rw [hnone.mpr hn] at htest
                    cases htest

/-- The search passes the first slot over or ends at it, whatever comes behind. -/
theorem commExecScan_head (cmds : CmdMem) (d : CommData) (k : Nat) (o : Option Addr) :
    (∀ rest, (commExecScan cmds d k (o :: rest)).result =
      (commExecScan cmds d (k + 1) rest).result) ∨
    (∀ rest, (commExecScan cmds d k (o :: rest)).result = .undefined) ∨
    ∃ a, ∀ rest, (commExecScan cmds d k (o :: rest)).result = .found k a := by
  cases o with
  | none => exact Or.inl fun _ => rfl
  | some a =>
      cases hlive : (cmds a).live with
      | none => exact Or.inl fun rest => by simp only [commExecScan, hlive]
      | some name =>
          cases htest : (d.matchCmd (cmds a) name).2 with
          | none => exact Or.inr (Or.inl fun rest => by simp only [commExecScan, hlive, htest])
          | some res =>
              cases res with
              | true =>
                  refine Or.inr (Or.inr ⟨a, fun rest => ?_⟩)
                  simp only [commExecScan, hlive, htest]
              | false =>
                  refine Or.inl fun rest => ?_
                  simp only [commExecScan, hlive, htest, Scan.after]

/-- The slots behind the one found do not count. -/
theorem commExecScan_local {slots : List (Option Addr)} {k m : Nat} {a : Addr}
    (h : (commExecScan cmds d k slots).result = .found m a) :
    ∃ i, m = k + i ∧ ∀ slots' : List (Option Addr), (∀ j, j ≤ i → slots'[j]? = slots[j]?) →
      (commExecScan cmds d k slots').result = .found m a := by
  induction slots generalizing k with
  | nil => cases h
  | cons o slots ih =>
      have hcons : ∀ slots' : List (Option Addr), slots'[0]? = (o :: slots)[0]? →
          ∃ rest, slots' = o :: rest := by
        intro slots' hhead
        cases slots' with
        | nil => cases hhead
        | cons o' rest => exact ⟨rest, by rw [show o' = o by simpa using hhead]⟩
      rcases commExecScan_head cmds d k o with hpass | hundefined | ⟨b, hfound⟩
      · rw [hpass] at h
        obtain ⟨i, hm, hlocal⟩ := ih h
        refine ⟨i + 1, by omega, fun slots' hagree => ?_⟩
        obtain ⟨rest, rfl⟩ := hcons slots' (hagree 0 (Nat.zero_le _))
        rw [hpass]
        exact hlocal rest fun j hj => by simpa using hagree (j + 1) (by omega)
      · rw [hundefined] at h
        cases h
      · rw [hfound] at h
        obtain ⟨rfl, rfl⟩ : k = m ∧ b = a := by simpa using h
        refine ⟨0, rfl, fun slots' hagree => ?_⟩
        obtain ⟨rest, rfl⟩ := hcons slots' (hagree 0 (Nat.le_refl 0))
        exact hfound rest

/-- Running a command copies its data and calls its handler. -/
theorem runsCmd_call (c : CommCmd) (d : CommData) (cdatas : Addr → CommData) :
    RunsCmd c d cdatas ⟨0, c.call, c.copyData d cdatas⟩ where
  call := rfl
  copied := by
    intro p hp
    simp [CommCmd.copyData, hp]
  others := by
    intro p hp
    unfold CommCmd.copyData
    cases hc : c.cdata with
    | none => rfl
    | some q =>
        have hne : p ≠ q := fun heq => hp (by rw [hc, heq])
        exact if_neg hne

/-- A command found is copied its data and called. -/
theorem commExecCommand_found {tbl : CmdTable} {m : Nat} {a : Addr} (hargc : 0 < d.argc)
    (h : (commExecScan cmds d 0 tbl.slots).result = .found m a) (cdatas : Addr → CommData) :
    commExecCommand cmds tbl d cdatas =
      some ⟨0, (cmds a).call, (cmds a).copyData d cdatas⟩ := by
  rw [commExecCommand, if_neg (Nat.ne_of_gt hargc), h]

/-- Where none matches nothing is called. -/
theorem commExecCommand_noMatch {tbl : CmdTable} (hargc : 0 < d.argc)
    (h : (commExecScan cmds d 0 tbl.slots).result = .noMatch) (cdatas : Addr → CommData) :
    commExecCommand cmds tbl d cdatas = some ⟨0, none, cdatas⟩ := by
  rw [commExecCommand, if_neg (Nat.ne_of_gt hargc), h]

/-- Where the scan is undefined so is the call. -/
theorem commExecCommand_undefined {tbl : CmdTable} (hargc : 0 < d.argc)
    (h : (commExecScan cmds d 0 tbl.slots).result = .undefined) (cdatas : Addr → CommData) :
    commExecCommand cmds tbl d cdatas = none := by
  rw [commExecCommand, if_neg (Nat.ne_of_gt hargc), h]

/-- **Dispatch runs the first match.**  For every table of grouped and ungrouped
commands and every two words: exactly when each grouped command without a group
stands behind the first match. -/
theorem runsFirstMatch_iff {tbl : CmdTable} (hargc : 0 < d.argc) (hargs : ArgsAt d 0 [t, u])
    (ht : nul ∉ t) (hu : nul ∉ u)
    (hgroup : ∀ a, some a ∈ tbl.slots → (cmds a).nogroup = 0 ∨ (cmds a).nogroup = 1) :
    RunsFirstMatch cmds tbl d t u ↔ GroupsNamed cmds t u tbl.slots := by
  have hends := commExecScan_first hargs ht hu tbl.slots hgroup 0
  constructor
  · intro h j b hb hnameless
    obtain ⟨r, hr, -⟩ := h fun _ => d
    cases hres : (commExecScan cmds d 0 tbl.slots).result with
    | found m a =>
        rw [hres] at hends
        obtain ⟨i, -, hfirst, hnamed⟩ := hends
        refine ⟨i, a, ?_, hfirst⟩
        rcases Nat.lt_trichotomy i j with hlt | rfl | hlt
        · exact hlt
        · have hsame := hfirst.1.symm.trans hb
          obtain rfl : a = b := by simpa using hsame
          exact absurd hnameless hfirst.2.1.not_nameless
        · exact absurd hnameless (hnamed j b hlt hb)
    | noMatch =>
        rw [hres] at hends
        exact absurd hnameless (hends j b hb).2
    | undefined =>
        rw [commExecCommand_undefined hargc hres] at hr
        cases hr
  · intro hnamed cdatas
    cases hres : (commExecScan cmds d 0 tbl.slots).result with
    | found m a =>
        rw [hres] at hends
        obtain ⟨i, hm, hfirst, -⟩ := hends
        obtain ⟨i', hm', hlocal⟩ := commExecScan_local hres
        obtain rfl : i' = i := by omega
        refine ⟨_, commExecCommand_found hargc hres cdatas, rfl, fun j b hb => ?_,
          fun hno => absurd hfirst (hno i' a)⟩
        obtain ⟨rfl, rfl⟩ := hfirst.unique hb
        refine ⟨runsCmd_call _ _ _, fun tbl' hagree => ?_⟩
        exact commExecCommand_found hargc (hlocal tbl'.slots hagree) cdatas
    | noMatch =>
        rw [hres] at hends
        refine ⟨_, commExecCommand_noMatch hargc hres cdatas, rfl, fun i a hfirst => ?_,
          fun _ => ⟨rfl, rfl⟩⟩
        exact absurd hfirst.2.1 (hends i a hfirst.1).1
    | undefined =>
        rw [hres] at hends
        obtain ⟨j, b, hb, hnameless, hbefore⟩ := hends
        obtain ⟨i, a, hlt, hfirst⟩ := hnamed j b hb hnameless
        exact absurd hfirst.2.1 (hbefore i a hlt hfirst.1)

end Search

instance (c : CommCmd) : Decidable c.Nameless :=
  inferInstanceAs (Decidable (_ ∧ _))

/-- The command data after the line `usb list`. -/
def usbListData : CommData :=
  commRunLine commStart (Line.lit "usb list")

/-- The arguments are `usb list`. -/
theorem argsAt_usbListData :
    0 < usbListData.argc ∧ ArgsAt usbListData 0 [asciiBytes "usb", asciiBytes "list"] := by
  have htokens : (Line.lit "usb list").tokens = [asciiBytes "usb", asciiBytes "list"] := by
    decide +kernel
  have hline := argsAt_commRunLine (d := commStart) rfl (l := Line.lit "usb list")
    ⟨by decide, by decide⟩
  rw [htokens] at hline
  refine ⟨?_, hline.2⟩
  rw [usbListData, hline.1]
  decide

/-- `usb list` on the registered usb commands. -/
theorem runsFirstMatch_usbList :
    RunsFirstMatch usbOnly.cmds usbOnly.tbl usbListData (asciiBytes "usb") (asciiBytes "list") := by
  have hslots : ∀ o ∈ usbOnly.tbl.slots, ∀ a ∈ o,
      (usbOnly.cmds a).nogroup = 0 ∧ ¬ (usbOnly.cmds a).Nameless := by decide +kernel
  refine (runsFirstMatch_iff argsAt_usbListData.1 argsAt_usbListData.2 (by decide) (by decide)
    fun a ha => Or.inl (hslots _ ha a rfl).1).mpr fun j b hb hnameless => ?_
  exact absurd hnameless (hslots _ (List.mem_of_getElem? hb) b rfl).2

/-- A grouped command without a group. -/
def namelessCmd : CommCmd :=
  ⟨0, some (lit "list"), none, none, none, none, 0⟩

/-- A grouped command without a group in the way of the search is undefined. -/
theorem nameless_undefined :
    ¬ ∀ (cmds : CmdMem) (tbl : CmdTable) (d : CommData) (t u : List UInt8), 0 < d.argc →
      ArgsAt d 0 [t, u] → nul ∉ t → nul ∉ u →
      (∀ a, some a ∈ tbl.slots → (cmds a).nogroup = 0 ∨ (cmds a).nogroup = 1) →
      RunsFirstMatch cmds tbl d t u := by
  intro hclaim
  obtain ⟨r, hr, -⟩ := hclaim (fun _ => namelessCmd) ((SlotTable.empty commMaxCmds).set 0 (some 0))
    usbListData _ _ argsAt_usbListData.1 argsAt_usbListData.2 (by decide) (by decide)
    (fun _ _ => Or.inl rfl) fun _ => usbListData
  rw [commExecCommand_undefined argsAt_usbListData.1 (by decide +kernel)] at hr
  cases hr

end Comm

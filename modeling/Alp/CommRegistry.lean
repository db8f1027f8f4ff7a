import Alp.CommCmd

/-!
# The command registry is a bounded multiset

`comm_cmd_register` and `comm_cmd_unregister` share one search,
`comm_match_command`, used once for an empty slot and once for the command.
`commMatchCommand_eq` says that it is `SlotTable.lowest` for both: the name test
behind the pointer test never fails.  The two calls are then read off
(`commCmdRegister_eq`, `commCmdUnregister_eq`), and the table refines a
multiset of at most 100 commands with `bagInsert` and `bagRemove`.
-/

set_option autoImplicit false

namespace Comm

/-- The loop finds the first slot that holds the command. -/
theorem commMatchLoop_eq (cmds : CmdMem) (c : Option Addr) (slots : List (Option Addr))
    (i : Nat) : commMatchLoop cmds c i slots = (slots.idxOf? c).map (· + i) := by
  induction slots generalizing i with
  | nil => rfl
  | cons o slots ih =>
      by_cases h : o = c
      · subst h
        cases o <;> simp [commMatchLoop, List.idxOf?_cons]
      · have hshift : (· + i) ∘ (· + 1) = (· + (i + 1)) := by
          funext k
          simp only [Function.comp_apply]
          omega
        simp only [commMatchLoop, List.idxOf?_cons, beq_iff_eq, h, if_false, ih,
          Option.map_map, hshift]

/-- Matching a command finds its lowest slot. -/
theorem commMatchCommand_eq (cmds : CmdMem) (tbl : CmdTable) (c : Option Addr) :
    commMatchCommand cmds tbl c = tbl.lowest c := by
  simp [commMatchCommand, commMatchLoop_eq, SlotTable.lowest]

/-- A command pointer the registry accepts. -/
def ValidCmd (cmds : CmdMem) (cmd : Option Addr) : Prop :=
  ∃ a, cmd = some a ∧ 0 ≤ (cmds a).id ∧ (cmds a).name ≠ none

/-- The check answers 0 exactly for a valid command. -/
theorem commCheckCommand_eq_zero_iff (cmds : CmdMem) (cmd : Option Addr) :
    commCheckCommand cmds cmd = 0 ↔ ValidCmd cmds cmd := by
  cases cmd with
  | none => simp [commCheckCommand, ValidCmd]
  | some a =>
      by_cases hid : (cmds a).id < 0
      · simp [commCheckCommand, ValidCmd, hid]
      · by_cases hname : (cmds a).name = none
        · simp [commCheckCommand, ValidCmd, hid, hname]
        · simp [commCheckCommand, ValidCmd, hid, hname, Int.not_lt.mp hid]

/-- Setting a slot the search returned. -/
theorem commSetCommand_lowest {tbl : CmdTable} {o : Option Addr} {i : Nat}
    (h : tbl.lowest o = some i) (cmd : Option Addr) :
    commSetCommand tbl cmd i = (0, tbl.set i cmd) := by
  have hi := (SlotTable.lowest_eq_some_iff.mp h).1
  rw [commSetCommand, if_neg (by omega)]

/-- Registering fails on an invalid command and on a full table, and otherwise takes the lowest free
slot. -/
theorem commCmdRegister_eq (cmds : CmdMem) (tbl : CmdTable) (cmd : Option Addr) :
    (¬ ValidCmd cmds cmd ∧ commCmdRegister cmds tbl cmd = (commCheckCommand cmds cmd, tbl)) ∨
    (ValidCmd cmds cmd ∧ tbl.lowest none = none ∧
      commCmdRegister cmds tbl cmd = (-1, tbl)) ∨
    ∃ i, ValidCmd cmds cmd ∧ tbl.lowest none = some i ∧
      commCmdRegister cmds tbl cmd = (0, tbl.set i cmd) := by
  unfold commCmdRegister commFindEmptyCommand
  rw [commMatchCommand_eq]
  by_cases hv : ValidCmd cmds cmd
  · rw [if_neg (by rw [not_not, commCheckCommand_eq_zero_iff]; exact hv)]
    right
    cases hlow : tbl.lowest none with
    | none => exact Or.inl ⟨hv, rfl, rfl⟩
    | some i => exact Or.inr ⟨i, hv, rfl, commSetCommand_lowest hlow cmd⟩
  · rw [if_pos (fun h => hv ((commCheckCommand_eq_zero_iff cmds cmd).mp h))]
    exact Or.inl ⟨hv, rfl⟩

/-- Unregistering fails on an invalid and on an absent command, and otherwise clears its lowest
slot. -/
theorem commCmdUnregister_eq (cmds : CmdMem) (tbl : CmdTable) (cmd : Option Addr) :
    (¬ ValidCmd cmds cmd ∧ commCmdUnregister cmds tbl cmd = (commCheckCommand cmds cmd, tbl)) ∨
    (ValidCmd cmds cmd ∧ tbl.lowest cmd = none ∧
      commCmdUnregister cmds tbl cmd = (-1, tbl)) ∨
    ∃ i, ValidCmd cmds cmd ∧ tbl.lowest cmd = some i ∧
      commCmdUnregister cmds tbl cmd = (0, tbl.set i none) := by
  unfold commCmdUnregister
  rw [commMatchCommand_eq]
  by_cases hv : ValidCmd cmds cmd
  · rw [if_neg (by rw [not_not, commCheckCommand_eq_zero_iff]; exact hv)]
    right
    cases hlow : tbl.lowest cmd with
    | none => exact Or.inl ⟨hv, rfl, rfl⟩
    | some i => exact Or.inr ⟨i, hv, rfl, commSetCommand_lowest hlow none⟩
  · rw [if_pos (fun h => hv ((commCheckCommand_eq_zero_iff cmds cmd).mp h))]
    exact Or.inl ⟨hv, rfl⟩

/-- The check answers an error for an invalid command. -/
theorem commCheckCommand_ne_zero {cmds : CmdMem} {cmd : Option Addr}
    (h : ¬ ValidCmd cmds cmd) : commCheckCommand cmds cmd ≠ 0 :=
  fun h0 => h ((commCheckCommand_eq_zero_iff cmds cmd).mp h0)

/-- `cmd` sits in slot `i` of `tbl'`, the lowest slot of `tbl` with content `o`,
and no other slot differs. -/
def PutAtLowest (tbl tbl' : CmdTable) (o cmd : Option Addr) : Prop :=
  ∃ i, i < commMaxCmds ∧ tbl.slot i = o ∧ (∀ j, j < i → tbl.slot j ≠ o) ∧
    tbl'.slot i = cmd ∧ ∀ j, j ≠ i → tbl'.slot j = tbl.slot j

/-- Setting the lowest slot puts the command there. -/
theorem putAtLowest_set {tbl : CmdTable} {o : Option Addr} {i : Nat}
    (h : tbl.lowest o = some i) (cmd : Option Addr) :
    PutAtLowest tbl (tbl.set i cmd) o cmd := by
  obtain ⟨hi, ho, hmin⟩ := SlotTable.lowest_eq_some_iff.mp h
  exact ⟨i, hi, ho, hmin, tbl.slot_set_same cmd hi, fun j hj => tbl.slot_set_other cmd hj⟩

/-- What a call of `comm_cmd_register` returns and does to the table. -/
structure RegisterSpec (cmds : CmdMem) (tbl : CmdTable) (cmd : Option Addr)
    (res : Int × CmdTable) : Prop where
  ok_iff : res.1 = 0 ↔ ValidCmd cmds cmd ∧ tbl.occupied < commMaxCmds
  ok : res.1 = 0 → PutAtLowest tbl res.2 none cmd
  error : res.1 ≠ 0 → res.2 = tbl

/-- What a call of `comm_cmd_unregister` returns and does to the table. -/
structure UnregisterSpec (cmds : CmdMem) (tbl : CmdTable) (cmd : Option Addr)
    (res : Int × CmdTable) : Prop where
  ok_iff : res.1 = 0 ↔ ValidCmd cmds cmd ∧ ∃ i, i < commMaxCmds ∧ tbl.slot i = cmd
  ok : res.1 = 0 → PutAtLowest tbl res.2 cmd none
  error : res.1 ≠ 0 → res.2 = tbl

/-- Registering does what its specification says. -/
theorem commCmdRegister_spec (cmds : CmdMem) (tbl : CmdTable) (cmd : Option Addr) :
    RegisterSpec cmds tbl cmd (commCmdRegister cmds tbl cmd) := by
  have hroom := SlotTable.lowest_none_isSome_iff (t := tbl)
  rcases commCmdRegister_eq cmds tbl cmd with ⟨hv, h⟩ | ⟨hv, hlow, h⟩ | ⟨i, hv, hlow, h⟩
  · have hne := commCheckCommand_ne_zero hv
    rw [h]
    exact ⟨by simp [hv, hne], fun h0 => absurd h0 hne, fun _ => rfl⟩
  · have hfull : ¬ tbl.occupied < commMaxCmds := by simp [← hroom, hlow]
    rw [h]
    exact ⟨by simp [hfull], fun h0 => absurd h0 (by simp), fun _ => rfl⟩
  · have hfree : tbl.occupied < commMaxCmds := by simp [← hroom, hlow]
    rw [h]
    exact ⟨by simp [hv, hfree], fun _ => putAtLowest_set hlow cmd, fun h0 => absurd rfl h0⟩

/-- Unregistering does what its specification says. -/
theorem commCmdUnregister_spec (cmds : CmdMem) (tbl : CmdTable) (cmd : Option Addr) :
    UnregisterSpec cmds tbl cmd (commCmdUnregister cmds tbl cmd) := by
  rcases commCmdUnregister_eq cmds tbl cmd with ⟨hv, h⟩ | ⟨hv, hlow, h⟩ | ⟨i, hv, hlow, h⟩
  · have hne := commCheckCommand_ne_zero hv
    rw [h]
    exact ⟨by simp [hv, hne], fun h0 => absurd h0 hne, fun _ => rfl⟩
  · have habsent : ¬ ∃ i, i < commMaxCmds ∧ tbl.slot i = cmd := by
      rintro ⟨i, hi, hslot⟩
      exact SlotTable.lowest_eq_none_iff.mp hlow i hi hslot
    rw [h]
    exact ⟨by simp [habsent], fun h0 => absurd h0 (by simp), fun _ => rfl⟩
  · obtain ⟨hi, hslot, _⟩ := SlotTable.lowest_eq_some_iff.mp hlow
    rw [h]
    exact ⟨iff_of_true rfl ⟨hv, i, hi, hslot⟩, fun _ => putAtLowest_set hlow none,
      fun h0 => absurd rfl h0⟩

/-- A call on the registry.  Commands are ordinary memory, so each call comes with
the memory it finds. -/
inductive RegOp
  | init
  | register (cmds : CmdMem) (cmd : Option Addr)
  | unregister (cmds : CmdMem) (cmd : Option Addr)

/-- One call: its return value (0 for the void `comm_init_command`) and the table
after it. -/
def RegOp.run : RegOp → CmdTable → Int × CmdTable
  | .init, _ => (0, commInitCommand)
  | .register cmds cmd, tbl => commCmdRegister cmds tbl cmd
  | .unregister cmds cmd, tbl => commCmdUnregister cmds tbl cmd

/-- The table after some calls, the newest first in the list.  The static table
starts out empty. -/
def registryAfter : List RegOp → CmdTable
  | [] => SlotTable.empty commMaxCmds
  | op :: earlier => (op.run (registryAfter earlier)).2

/-- The calls with their return values, the newest first. -/
def registryLog : List RegOp → List (RegOp × Int)
  | [] => []
  | op :: earlier => (op, (op.run (registryAfter earlier)).1) :: registryLog earlier

/-- The part of a log since the last `comm_init_command`. -/
def sinceInit (log : List (RegOp × Int)) : List (RegOp × Int) :=
  log.takeWhile (fun e => match e.1 with | .init => false | _ => true)

/-- A logged call registered `a`. -/
def registered (a : Addr) : RegOp × Int → Bool
  | (.register _ cmd, r) => cmd == some a && r == 0
  | _ => false

/-- A logged call unregistered `a`. -/
def unregistered (a : Addr) : RegOp × Int → Bool
  | (.unregister _ cmd, r) => cmd == some a && r == 0
  | _ => false

/-- Insertion into a multiset of at most `n` items. -/
def bagInsert {α : Type*} (n : Nat) (a : α) (bag : Multiset α) : Option (Multiset α) :=
  if bag.card < n then some (a ::ₘ bag) else none

/-- Removal of one copy. -/
def bagRemove {α : Type*} [DecidableEq α] (a : α) (bag : Multiset α) : Option (Multiset α) :=
  if a ∈ bag then some (bag.erase a) else none

/-- Registering a valid command inserts it, and is refused when insertion is. -/
theorem commCmdRegister_bag {cmds : CmdMem} {a : Addr} (hv : ValidCmd cmds (some a))
    (tbl : CmdTable) :
    bagInsert commMaxCmds a tbl.toMultiset =
      if (commCmdRegister cmds tbl (some a)).1 = 0
      then some (commCmdRegister cmds tbl (some a)).2.toMultiset else none := by
  have hroom : tbl.toMultiset.card < commMaxCmds ↔ (tbl.lowest none).isSome := by
    rw [SlotTable.card_toMultiset, SlotTable.lowest_none_isSome_iff]
  rcases commCmdRegister_eq cmds tbl (some a) with ⟨hn, _⟩ | ⟨_, hlow, h⟩ | ⟨i, _, hlow, h⟩
  · exact absurd hv hn
  · rw [bagInsert, if_neg (by simp [hroom, hlow]), h, if_neg (by simp)]
  · rw [bagInsert, if_pos (by simp [hroom, hlow]), h, if_pos rfl,
      SlotTable.toMultiset_fill hlow]

/-- Unregistering a valid command removes one copy, and is refused when there is
none. -/
theorem commCmdUnregister_bag {cmds : CmdMem} {a : Addr} (hv : ValidCmd cmds (some a))
    (tbl : CmdTable) :
    bagRemove a tbl.toMultiset =
      if (commCmdUnregister cmds tbl (some a)).1 = 0
      then some (commCmdUnregister cmds tbl (some a)).2.toMultiset else none := by
  have hthere : a ∈ tbl.toMultiset ↔ (tbl.lowest (some a)).isSome := by
    rw [← Multiset.count_pos, SlotTable.count_toMultiset, SlotTable.lowest_some_isSome_iff]
  rcases commCmdUnregister_eq cmds tbl (some a) with ⟨hn, _⟩ | ⟨_, hlow, h⟩ | ⟨i, _, hlow, h⟩
  · exact absurd hv hn
  · rw [bagRemove, if_neg (by simp [hthere, hlow]), h, if_neg (by simp)]
  · rw [bagRemove, if_pos (by simp [hthere, hlow]), h, if_pos rfl,
      SlotTable.toMultiset_clear hlow]

/-- A successful registration adds one slot holding the command, any other leaves
the counts alone. -/
theorem holding_register (cmds : CmdMem) (tbl : CmdTable) (cmd : Option Addr) (a : Addr) :
    (commCmdRegister cmds tbl cmd).2.holding a = tbl.holding a +
      if registered a (.register cmds cmd, (commCmdRegister cmds tbl cmd).1) then 1 else 0 := by
  rcases commCmdRegister_eq cmds tbl cmd with ⟨hv, h⟩ | ⟨_, _, h⟩ | ⟨i, hv, hlow, h⟩
  · simp [h, registered, commCheckCommand_ne_zero hv]
  · simp [h, registered]
  · obtain ⟨b, rfl, _⟩ := hv
    rw [h, ← SlotTable.count_toMultiset, SlotTable.toMultiset_fill hlow, Multiset.count_cons,
      SlotTable.count_toMultiset]
    by_cases hab : a = b
    · simp [registered, hab]
    · simp [registered, hab, Ne.symm hab]

/-- A successful unregistration takes away one slot holding the command. -/
theorem holding_unregister (cmds : CmdMem) (tbl : CmdTable) (cmd : Option Addr) (a : Addr) :
    tbl.holding a = (commCmdUnregister cmds tbl cmd).2.holding a +
      if unregistered a (.unregister cmds cmd, (commCmdUnregister cmds tbl cmd).1)
      then 1 else 0 := by
  rcases commCmdUnregister_eq cmds tbl cmd with ⟨hv, h⟩ | ⟨_, _, h⟩ | ⟨i, hv, hlow, h⟩
  · simp [h, unregistered, commCheckCommand_ne_zero hv]
  · simp [h, unregistered]
  · obtain ⟨b, rfl, _⟩ := hv
    rw [h, ← SlotTable.count_toMultiset (tbl.set i none), SlotTable.toMultiset_clear hlow]
    by_cases hab : a = b
    · subst hab
      have hpos : 0 < tbl.holding a := by
        rw [← SlotTable.lowest_some_isSome_iff, hlow]
        rfl
      rw [Multiset.count_erase_self, SlotTable.count_toMultiset]
      simp [unregistered]
      omega
    · rw [Multiset.count_erase_of_ne hab, SlotTable.count_toMultiset]
      simp [unregistered, Ne.symm hab]

/-- **The counting law.**  The slots holding a command are its successful
registrations less its successful unregistrations since the last
`comm_init_command`. -/
theorem holding_registryAfter (ops : List RegOp) (a : Addr) :
    (registryAfter ops).holding a + (sinceInit (registryLog ops)).countP (unregistered a) =
      (sinceInit (registryLog ops)).countP (registered a) := by
  induction ops with
  | nil => simp [registryAfter, registryLog, sinceInit]
  | cons op earlier ih =>
      cases op with
      | init => simp [registryAfter, registryLog, sinceInit, RegOp.run, commInitCommand]
      | register cmds cmd =>
          have hstep := holding_register cmds (registryAfter earlier) cmd a
          have hnot : unregistered a (.register cmds cmd,
              (commCmdRegister cmds (registryAfter earlier) cmd).1) = false := rfl
          simp only [sinceInit, registryLog, registryAfter, RegOp.run, List.takeWhile_cons,
            if_true, List.countP_cons, hnot, Bool.false_eq_true, if_false] at ih ⊢
          omega
      | unregister cmds cmd =>
          have hstep := holding_unregister cmds (registryAfter earlier) cmd a
          have hnot : registered a (.unregister cmds cmd,
              (commCmdUnregister cmds (registryAfter earlier) cmd).1) = false := rfl
          simp only [sinceInit, registryLog, registryAfter, RegOp.run, List.takeWhile_cons,
            if_true, List.countP_cons, hnot, Bool.false_eq_true, if_false] at ih ⊢
          omega

/-- **The registry is a bounded multiset.**  Whatever calls came before: a
registration succeeds exactly for a valid command and a table that is not full,
and fills the lowest empty slot; an unregistration succeeds exactly for a valid
command that is in the table, and clears the lowest slot holding it; every other
return leaves the table as it was; and the slots count the calls. -/
theorem registry_bounded_multiset (ops : List RegOp) :
    (∀ cmds cmd, RegisterSpec cmds (registryAfter ops) cmd
      (commCmdRegister cmds (registryAfter ops) cmd)) ∧
    (∀ cmds cmd, UnregisterSpec cmds (registryAfter ops) cmd
      (commCmdUnregister cmds (registryAfter ops) cmd)) ∧
    ∀ a : Addr,
      (registryAfter ops).holding a + (sinceInit (registryLog ops)).countP (unregistered a) =
        (sinceInit (registryLog ops)).countP (registered a) :=
  ⟨fun cmds cmd => commCmdRegister_spec cmds (registryAfter ops) cmd,
    fun cmds cmd => commCmdUnregister_spec cmds (registryAfter ops) cmd,
    fun a => holding_registryAfter ops a⟩

end Comm

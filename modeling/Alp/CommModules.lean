import Alp.CommMain
import Alp.CommRegistry
import Alp.UsbCmd

/-!
# A module that does not fit is registered in part

`usb_cmd_register` and `sock_cmd_register` hand their commands to `comm_cmd_register`
one by one and stop at the first that is refused; nothing takes back the ones before.
The static commands always pass `comm_check_command` (`StaticCmds`), so the only refusal
is a full table: the loops fill the empty slots with the list, lowest first
(`Fills`, by `SlotTable.fill`).  The loop over the modules then fills them with the
lists one after the other (`Fills.append`), and a module that finds no room left adds
nothing to a full table.
-/

set_option autoImplicit false

namespace Comm

/-- A usb command once it is named. -/
def CommCmd.named (c : CommCmd) : CommCmd :=
  { c with name := (cmdsInfo[c.id.toNat]?).map Prod.fst }

/-- The static commands, of the usb commands some named by an earlier registration. -/
def StaticCmds (cmds : CmdMem) : Prop :=
  ∀ a, cmds a = staticCmds a ∨ a ∈ usbCmds ∧ cmds a = (staticCmds a).named

/-- At the start the commands are as they are written. -/
theorem StaticCmds.start (tbl : CmdTable) : StaticCmds (CmdState.start tbl).cmds :=
  fun _ => Or.inl rfl

/-- Initialising the data leaves the commands alone. -/
theorem CmdState.initData_cmds (s : CmdState) (a : Addr) :
    (s.initData a).cmds = s.cmds := by
  unfold CmdState.initData
  split
  · rfl
  · split <;> rfl

/-- Initialising the data leaves the table alone. -/
theorem CmdState.initData_tbl (s : CmdState) (a : Addr) :
    (s.initData a).tbl = s.tbl := by
  unfold CmdState.initData
  split
  · rfl
  · split <;> rfl

/-- Naming a USB command gives it its name. -/
theorem CmdState.nameUsb_same (s : CmdState) (a : Addr) :
    (s.nameUsb a).cmds a = (s.cmds a).named :=
  if_pos rfl

/-- Naming a USB command leaves the others alone. -/
theorem CmdState.nameUsb_other (s : CmdState) {a b : Addr} (h : b ≠ a) :
    (s.nameUsb a).cmds b = s.cmds b :=
  if_neg h

/-- Naming a static usb command, named before or not. -/
theorem StaticCmds.nameUsb_same {s : CmdState} (hs : StaticCmds s.cmds) (a : Addr) :
    (s.nameUsb a).cmds a = (staticCmds a).named := by
  rw [CmdState.nameUsb_same]
  rcases hs a with h | ⟨-, h⟩
  · rw [h]
  · rw [h]
    rfl

/-- Naming a USB command keeps the commands as they are written. -/
theorem StaticCmds.nameUsb {s : CmdState} (hs : StaticCmds s.cmds) {a : Addr}
    (ha : a ∈ usbCmds) : StaticCmds (s.nameUsb a).cmds := by
  intro b
  by_cases hb : b = a
  · subst hb
    exact Or.inr ⟨ha, hs.nameUsb_same b⟩
  · rw [CmdState.nameUsb_other s hb]
    exact hs b

/-- Every id of a usb command is an index of `cmds_info`. -/
theorem usbCmds_named : ∀ a ∈ usbCmds,
    0 ≤ (staticCmds a).named.id ∧ (staticCmds a).named.name ≠ none := by
  decide

/-- The socket commands are no USB commands and have an id and a name. -/
theorem sockCmds_static : ∀ a ∈ sockCmds,
    a ∉ usbCmds ∧ 0 ≤ (staticCmds a).id ∧ (staticCmds a).name ≠ none := by
  decide

/-- A USB command that was named is valid. -/
theorem StaticCmds.validUsb {s : CmdState} (hs : StaticCmds s.cmds) {a : Addr}
    (ha : a ∈ usbCmds) : ValidCmd (s.nameUsb a).cmds (some a) := by
  refine ⟨a, rfl, ?_⟩
  rw [hs.nameUsb_same a]
  exact usbCmds_named a ha

/-- A socket command is valid. -/
theorem StaticCmds.validSock {cmds : CmdMem} (hs : StaticCmds cmds) {a : Addr}
    (ha : a ∈ sockCmds) : ValidCmd cmds (some a) := by
  obtain ⟨husb, hvalid⟩ := sockCmds_static a ha
  refine ⟨a, rfl, ?_⟩
  rcases hs a with h | ⟨hmem, -⟩
  · rw [h]
    exact hvalid
  · exact absurd hmem husb

/-- Registering the commands `as` one by one, all of them valid. -/
structure Fills (as : List Addr) (tbl : CmdTable) (ret : Int) (tbl' : CmdTable) : Prop where
  ret_eq : ret = if tbl.occupied + as.length ≤ commMaxCmds then 0 else -1
  tbl_eq : tbl' = tbl.fill as

/-- Registering nothing changes nothing. -/
theorem Fills.nil (tbl : CmdTable) : Fills [] tbl 0 tbl where
  ret_eq := by
    have hle := tbl.occupied_le
    rw [if_pos (by simpa using hle)]
  tbl_eq := tbl.fill_nil.symm

/-- A first command that is accepted. -/
theorem Fills.cons {a : Addr} {as : List Addr} {tbl tbl' : CmdTable} {ret : Int} {i : Nat}
    (hi : tbl.lowest none = some i) (h : Fills as (tbl.set i (some a)) ret tbl') :
    Fills (a :: as) tbl ret tbl' where
  ret_eq := by
    rw [h.ret_eq, SlotTable.occupied_set hi, List.length_cons, Nat.add_right_comm,
      Nat.add_assoc]
  tbl_eq := by rw [h.tbl_eq, SlotTable.fill_cons hi]

/-- A first command that is refused. -/
theorem Fills.full {tbl : CmdTable} (hfull : tbl.lowest none = none) (a : Addr)
    (as : List Addr) : Fills (a :: as) tbl (-1) tbl where
  ret_eq := by
    have hocc := SlotTable.lowest_none_eq_none_iff.mp hfull
    rw [if_neg (by rw [hocc, List.length_cons]; omega)]
  tbl_eq := (SlotTable.fill_full hfull _).symm

/-- A list that fits, and the next one. -/
theorem Fills.append {as bs : List Addr} {tbl mid tbl' : CmdTable} {ret : Int}
    (h : Fills as tbl 0 mid) (h' : Fills bs mid ret tbl') : Fills (as ++ bs) tbl ret tbl' where
  ret_eq := by
    have hfits : tbl.occupied + as.length ≤ commMaxCmds := by
      by_contra hnot
      have hret := h.ret_eq
      rw [if_neg hnot] at hret
      cases hret
    have hocc : mid.occupied = tbl.occupied + as.length := by
      rw [h.tbl_eq, SlotTable.occupied_fill]
      exact Nat.min_eq_right hfits
    rw [h'.ret_eq, hocc, List.length_append, Nat.add_assoc]
  tbl_eq := by rw [h'.tbl_eq, h.tbl_eq, SlotTable.fill_append]

/-- After a list that does not fit the next one would change nothing. -/
theorem Fills.stop {as : List Addr} {tbl tbl' : CmdTable} {ret : Int}
    (h : Fills as tbl ret tbl') (hret : ret ≠ 0) (bs : List Addr) :
    Fills (as ++ bs) tbl ret tbl' := by
  have hover : ¬ tbl.occupied + as.length ≤ commMaxCmds := by
    intro hfits
    exact hret (by rw [h.ret_eq, if_pos hfits])
  have hfull : (tbl.fill as).lowest none = none := by
    rw [SlotTable.lowest_none_eq_none_iff, SlotTable.occupied_fill]
    omega
  constructor
  · rw [h.ret_eq, if_neg hover, List.length_append, if_neg (by omega)]
  · rw [h.tbl_eq, SlotTable.fill_append, SlotTable.fill_full hfull]

/-- Preparing `a` keeps the table and the static commands, and leaves `a` valid. -/
def Prepares (prepare : CmdState → Addr → CmdState) (a : Addr) : Prop :=
  ∀ s, StaticCmds s.cmds → (prepare s a).tbl = s.tbl ∧ StaticCmds (prepare s a).cmds ∧
    ValidCmd (prepare s a).cmds (some a)

/-- The loop registers its commands one after another, up to the first failure. -/
theorem registerLoop_fills {prepare : CmdState → Addr → CmdState} {as : List Addr}
    (hprep : ∀ a ∈ as, Prepares prepare a) {s : CmdState} (hs : StaticCmds s.cmds) :
    Fills as s.tbl (registerLoop prepare as s).1 (registerLoop prepare as s).2.tbl ∧
      StaticCmds (registerLoop prepare as s).2.cmds := by
  induction as generalizing s with
  | nil => exact ⟨Fills.nil s.tbl, hs⟩
  | cons a as ih =>
      obtain ⟨htbl, hstatic, hvalid⟩ := hprep a (by simp) s hs
      rcases commCmdRegister_eq (prepare s a).cmds (prepare s a).tbl (some a) with
        ⟨hnot, -⟩ | ⟨-, hlow, heq⟩ | ⟨i, -, hlow, heq⟩
      · exact absurd hvalid hnot
      · rw [htbl] at hlow heq
        simp only [registerLoop, htbl, heq]
        exact ⟨Fills.full hlow a as, hstatic⟩
      · rw [htbl] at hlow heq
        simp only [registerLoop, htbl, heq]
        obtain ⟨hfills, hkeeps⟩ := ih (fun b hb => hprep b (by simp [hb]))
          (s := { prepare s a with tbl := s.tbl.set i (some a) }) hstatic
        exact ⟨Fills.cons hlow hfills, hkeeps⟩

/-- The init function of a module registers the list `as`. -/
def CmdModule.Registers (m : CmdModule) (as : List Addr) : Prop :=
  ∀ s, StaticCmds s.cmds →
    Fills as s.tbl (m.init s).1 (m.init s).2.tbl ∧ StaticCmds (m.init s).2.cmds

/-- The USB module registers its commands one after another, up to the first failure. -/
theorem usbRegisterLoop_fills {s : CmdState} (hs : StaticCmds s.cmds) :
    Fills usbCmds s.tbl (usbRegisterLoop s).1 (usbRegisterLoop s).2.tbl ∧
      StaticCmds (usbRegisterLoop s).2.cmds := by
  refine registerLoop_fills (fun a ha s hs => ⟨?_, ?_⟩) hs
  · rw [CmdState.initData_tbl]
    rfl
  · rw [CmdState.initData_cmds]
    exact ⟨hs.nameUsb ha, hs.validUsb ha⟩

/-- The socket module registers its commands one after another, up to the first failure. -/
theorem sockCmdRegister_fills {s : CmdState} (hs : StaticCmds s.cmds) :
    Fills sockCmds s.tbl (sockCmdRegister s).1 (sockCmdRegister s).2.tbl ∧
      StaticCmds (sockCmdRegister s).2.cmds := by
  refine registerLoop_fills (fun a ha s hs => ⟨s.initData_tbl a, ?_⟩) hs
  rw [CmdState.initData_cmds]
  exact ⟨hs, hs.validSock ha⟩

/-- The commands of the modules compiled in, in the order they are registered. -/
def moduleCmds (usb sock : Bool) : List (List Addr) :=
  (if usb then [usbCmds] else []) ++ (if sock then [sockCmds] else [])

/-- Every module of a build registers the commands that are its own. -/
theorem commCmdModules_register (usb sock : Bool) :
    List.Forall₂ CmdModule.Registers (commCmdModules usb sock) (moduleCmds usb sock) := by
  have husb : CmdModule.Registers ⟨usbRegisterLoop, unregisterLoop usbCmds⟩ usbCmds :=
    fun _ hs => usbRegisterLoop_fills hs
  have hsock : CmdModule.Registers ⟨sockCmdRegister, sockCmdUnregister⟩ sockCmds :=
    fun _ hs => sockCmdRegister_fills hs
  cases usb <;> cases sock <;> simp [commCmdModules, moduleCmds, husb, hsock]

/-- The loop over the modules registers their lists one after the other. -/
theorem commModuleLoop_fills {ms : List CmdModule} {lists : List (List Addr)}
    (h : List.Forall₂ CmdModule.Registers ms lists) {s : CmdState} (hs : StaticCmds s.cmds) :
    Fills lists.flatten s.tbl (commModuleLoop CmdModule.init ms s).1
      (commModuleLoop CmdModule.init ms s).2.tbl := by
  induction h generalizing s with
  | nil => exact Fills.nil s.tbl
  | @cons m as ms lists hm _ ih =>
      obtain ⟨hfills, hkeeps⟩ := hm s hs
      simp only [commModuleLoop, List.flatten_cons]
      split
      · next hret => exact hfills.stop hret _
      · next hret =>
          rw [not_not] at hret
          rw [hret] at hfills
          exact hfills.append (ih hkeeps)

/-- What registering the commands `as` returns and does to the table. -/
structure ModuleSpec (as : List Addr) (tbl : CmdTable) (ret : Int) (tbl' : CmdTable) :
    Prop where
  /-- It succeeds exactly when there is an empty slot for each command. -/
  ok_iff : ret = 0 ↔ tbl.occupied + as.length ≤ commMaxCmds
  /-- The slots in use keep their commands, the empty ones take the commands in order. -/
  slots : ∀ i, i < commMaxCmds → tbl'.slot i = (tbl.slot i).or as[tbl.emptyBelow i]?
  /-- A failure leaves the table as it was exactly when it was full. -/
  unchanged_iff : ret ≠ 0 → (tbl' = tbl ↔ ∀ i, i < commMaxCmds → tbl.slot i ≠ none)
  /-- A failure leaves a full table. -/
  full : ret ≠ 0 → ∀ i, i < commMaxCmds → tbl'.slot i ≠ none

/-- What the loop leaves is what the module is said to leave. -/
theorem Fills.spec {as : List Addr} {tbl tbl' : CmdTable} {ret : Int}
    (h : Fills as tbl ret tbl') : ModuleSpec as tbl ret tbl' := by
  have hok : ret = 0 ↔ tbl.occupied + as.length ≤ commMaxCmds := by
    rw [h.ret_eq]
    split <;> simp_all
  refine ⟨hok, ?_, ?_, ?_⟩
  · intro i hi
    rw [h.tbl_eq]
    exact tbl.slot_fill as hi
  · intro hret
    have hne : as ≠ [] := by
      rintro rfl
      exact hret (hok.mpr (by simpa using tbl.occupied_le))
    rw [h.tbl_eq, SlotTable.fill_eq_self_iff hne, SlotTable.lowest_eq_none_iff]
  · intro hret
    have hover := mt hok.mpr hret
    rw [← SlotTable.lowest_eq_none_iff, SlotTable.lowest_none_eq_none_iff, h.tbl_eq,
      SlotTable.occupied_fill]
    omega

/-- **A registration that fails fills the table.**  For every content of the table:
`usb_cmd_register`, `sock_cmd_register` and `comm_user_cmd_register` over the modules
compiled in succeed exactly when their commands fit.  They put the commands into the
empty slots, lowest first, as far as these go, so a failure leaves the table as it was
only if it was full. -/
theorem registration_fills_table {σ : Type} {s : CmdState} (hs : StaticCmds s.cmds) :
    (∀ w : Usb.World σ, ModuleSpec usbCmds s.tbl (Usb.usbCmdRegister s w).1.1
      (Usb.usbCmdRegister s w).1.2.tbl) ∧
    ModuleSpec sockCmds s.tbl (sockCmdRegister s).1 (sockCmdRegister s).2.tbl ∧
    ∀ usb sock : Bool, ModuleSpec (moduleCmds usb sock).flatten s.tbl
      (commUserCmdRegister usb sock s).1 (commUserCmdRegister usb sock s).2.tbl := by
  refine ⟨?_, ?_, ?_⟩
  · intro w
    exact (usbRegisterLoop_fills hs).1.spec
  · exact (sockCmdRegister_fills hs).1.spec
  · intro usb sock
    exact (commModuleLoop_fills (commCmdModules_register usb sock) hs).spec

/-- A table with `help` in 99 slots and one slot left. -/
def oneFree : CmdTable :=
  commInitCommand.fill (List.replicate 99 cmdHelp)

/-- With one slot left `sock_cmd_register` fails and registers `echo`. -/
theorem registration_fills_oneFree :
    (sockCmdRegister (CmdState.start oneFree)).1 ≠ 0 ∧
      (sockCmdRegister (CmdState.start oneFree)).2.tbl.slot 99 = some cmdEcho := by
  have hspec := (registration_fills_table (σ := Unit) (StaticCmds.start oneFree)).2.1
  have hfail : (sockCmdRegister (CmdState.start oneFree)).1 ≠ 0 := by
    rw [Ne, hspec.ok_iff]
    decide +kernel
  refine ⟨hfail, ?_⟩
  rw [hspec.slots 99 (by decide)]
  decide +kernel

/-- A registration that fails leaves the table as it was. -/
def AllOrNothing (register : CmdState → Int × CmdState) : Prop :=
  ∀ tbl : CmdTable, (register (CmdState.start tbl)).1 ≠ 0 →
    (register (CmdState.start tbl)).2.tbl = tbl

/-- A registration that fails and yet fills the one free slot is not all or nothing. -/
theorem not_allOrNothing {register : CmdState → Int × CmdState}
    (hret : (register (CmdState.start oneFree)).1 ≠ 0)
    (hslot : (register (CmdState.start oneFree)).2.tbl.slot 99 ≠ none) :
    ¬ AllOrNothing register := by
  intro hclaim
  have hfree : oneFree.slot 99 = none := by decide +kernel
  rw [hclaim oneFree hret] at hslot
  exact hslot hfree

/-- With one slot left each of the three fails and fills it. -/
theorem registration_not_atomic :
    (∀ w : Usb.World Unit, ¬ AllOrNothing fun s => (Usb.usbCmdRegister s w).1) ∧
      ¬ AllOrNothing sockCmdRegister ∧ ¬ AllOrNothing (commUserCmdRegister true true) := by
  refine ⟨?_, ?_, ?_⟩
  · intro w
    have hloop : (fun s => (Usb.usbCmdRegister s w).1) = usbRegisterLoop :=
      funext fun _ => rfl
    rw [hloop]
    exact not_allOrNothing (by decide +kernel) (by decide +kernel)
  · exact not_allOrNothing (by decide +kernel) (by decide +kernel)
  · exact not_allOrNothing (by decide +kernel) (by decide +kernel)

end Comm

import Alp.UsbTransfers

/-!
# Bursts

A read of `nr` words is a burst: the start address is checked once, and from there the
address advances by one register or by four bytes for each transfer.  This file says
which addresses a line accesses.

A burst of registers can run past the last one, `ANA_REG_MAX_ADDR - 1`: the number of
transfers is not checked (`usb_access_inRange_iff`).  A burst of words stays aligned, but
`nr * 4 / 4` is computed in 32 bits, so from `2 ^ 30` words on the burst is too short
(`burstCovers_iff`).
-/

set_option autoImplicit false

namespace Usb

open CString

variable {σ : Type}

/-- The address a request names. -/
def ControlSetup.address (s : ControlSetup) : Nat :=
  s.wValue.toNat + 65536 * s.wIndex.toNat

@[simp] theorem accessSetup_address (request : BitVec 8) (cmd : RwCmd) (addr : BitVec 32)
    (len : BitVec 8) : (accessSetup request cmd addr len).address = addr.toNat := by
  have hlow : (addr &&& 0xFFFF#32).toNat = addr.toNat % 65536 := by
    rw [BitVec.toNat_and]
    exact Nat.and_two_pow_sub_one_eq_mod addr.toNat 16
  have hhigh : (addr >>> 16).toNat = addr.toNat / 65536 := by
    rw [BitVec.toNat_ushiftRight, Nat.shiftRight_eq_div_pow]
  have hlt := addr.isLt
  show ((addr &&& 0xFFFF#32).setWidth 16).toNat + 65536 * ((addr >>> 16).setWidth 16).toNat = _
  rw [BitVec.toNat_setWidth, BitVec.toNat_setWidth, hlow, hhigh]
  omega

/-- The alignment test asks whether 4 divides the address. -/
theorem and_three_eq_zero (addr : BitVec 32) : addr &&& 3 = 0 ↔ addr.toNat % 4 = 0 := by
  have hlow : (addr &&& 3#32).toNat = addr.toNat % 4 := by
    rw [BitVec.toNat_and]
    exact Nat.and_two_pow_sub_one_eq_mod addr.toNat 2
  rw [← BitVec.toNat_inj]
  show (addr &&& 3#32).toNat = 0 ↔ _
  rw [hlow]

/-- The subcommand of a line. -/
def rwSubCmd (argv : List (List UInt8)) : Option RwCmd :=
  argv[usbIdxArgc1]?.bind fun cmdName =>
    (rwSubCmds.find? fun c => c.1.bytes == cmdName).map Prod.snd

/-- The address of a line. -/
def rwAddr (argv : List (List UInt8)) : BitVec 32 :=
  argOr argv usbIdxArgc2 0

/-- The count or the data of a line. -/
def rwArgv3 (argv : List (List UInt8)) : BitVec 32 :=
  argOr argv usbIdxArgc3 1

/-- A line that names a module plans a read or a write of it. -/
theorem rwPlan_eq {argv : List (List UInt8)} {cmd : RwCmd} (h : rwSubCmd argv = some cmd)
    (read : Bool) :
    rwPlan argv read =
      if read then readPlan cmd (rwAddr argv) (rwArgv3 argv)
      else writePlan argv cmd (rwAddr argv) (rwArgv3 argv) := by
  obtain ⟨cmdName, hname, hfind⟩ := Option.bind_eq_some_iff.mp h
  obtain ⟨c, hc, rfl⟩ := Option.map_eq_some_iff.mp hfind
  simp only [rwPlan, hname, hc]
  rfl

/-- A line that names no module plans no transfer. -/
theorem rwPlan_none {argv : List (List UInt8)} (h : rwSubCmd argv = none) (read : Bool) :
    (rwPlan argv read).setups = [] := by
  unfold rwPlan
  cases hname : argv[usbIdxArgc1]? with
  | none => rfl
  | some cmdName =>
      rw [rwSubCmd, hname, Option.bind_some, Option.map_eq_none_iff] at h
      simp only [h]
      rfl

/-- A register is one of the first `ANA_REG_MAX_ADDR`, a word is aligned. -/
def InRange (s : ControlSetup) : Prop :=
  (s.bRequest = RwCmd.ana.opcode ∨ s.bRequest = RwCmd.pmu.opcode →
      s.address < anaRegMaxAddr.toNat) ∧
    (s.bRequest = RwCmd.dig.opcode ∨ s.bRequest = RwCmd.mem.opcode → s.address % 4 = 0)

/-- The line reads registers, from one of them on and past the last. -/
def PastRegisters (argv : List (List UInt8)) : Prop :=
  (rwSubCmd argv = some .ana ∨ rwSubCmd argv = some .pmu) ∧ rwAddr argv < anaRegMaxAddr ∧
    anaRegMaxAddr.toNat < (rwAddr argv).toNat + (rwArgv3 argv * 4 / 2).toNat

/-- A register is in range below the last address. -/
theorem inRange_register {cmd : RwCmd} (hcmd : cmd = .ana ∨ cmd = .pmu) (request : BitVec 8)
    (addr : BitVec 32) (len : BitVec 8) :
    InRange (accessSetup request cmd addr len) ↔ addr.toNat < anaRegMaxAddr.toNat := by
  unfold InRange
  rw [accessSetup_address]
  rcases hcmd with rfl | rfl <;> simp [accessSetup, RwCmd.opcode]

/-- A word is in range at an aligned address. -/
theorem inRange_word {cmd : RwCmd} (hcmd : cmd = .dig ∨ cmd = .mem) (request : BitVec 8)
    (addr : BitVec 32) (len : BitVec 8) :
    InRange (accessSetup request cmd addr len) ↔ addr.toNat % 4 = 0 := by
  unfold InRange
  rw [accessSetup_address]
  rcases hcmd with rfl | rfl <;> simp [accessSetup, RwCmd.opcode]

/-- The reset commands have no range. -/
theorem inRange_reset {cmd : RwCmd} (hcmd : cmd.isMod = false) (request : BitVec 8)
    (addr : BitVec 32) (len : BitVec 8) : InRange (accessSetup request cmd addr len) := by
  unfold InRange
  cases cmd <;> simp_all [accessSetup, RwCmd.opcode, RwCmd.isMod]

/-- A burst of registers stays among them if it ends there. -/
theorem burst_inRange_iff {cmd : RwCmd} (hcmd : cmd = .ana ∨ cmd = .pmu) {times : Nat}
    (htimes : times ≤ 2 ^ 32 - 1) {addr : BitVec 32} (haddr : addr.toNat < anaRegMaxAddr.toNat) :
    (∀ s ∈ burstSetups cmd 2 1 times addr, InRange s) ↔
      addr.toNat + times ≤ anaRegMaxAddr.toNat := by
  have hmax : anaRegMaxAddr.toNat = 0x400 := rfl
  have hstep : ∀ i, (addr + 1 * BitVec.ofNat 32 i).toNat = (addr.toNat + i) % 2 ^ 32 := by
    intro i
    show (addr + 1#32 * BitVec.ofNat 32 i).toNat = _
    rw [BitVec.one_mul, BitVec.toNat_add, BitVec.toNat_ofNat, Nat.add_mod_mod]
  simp only [burstSetups, List.forall_mem_map, List.mem_range, inRange_register hcmd]
  constructor
  · intro hall
    by_contra hpast
    -- the first register past the last one is read
    have hlast := hall (0x400 - addr.toNat) (by omega)
    rw [hstep] at hlast
    omega
  · intro hend i hi
    rw [hstep]
    omega

/-- A burst of words stays aligned. -/
theorem burst_aligned {cmd : RwCmd} (hcmd : cmd = .dig ∨ cmd = .mem) (times : Nat)
    {addr : BitVec 32} (haddr : addr.toNat % 4 = 0) :
    ∀ s ∈ burstSetups cmd 4 4 times addr, InRange s := by
  simp only [burstSetups, List.forall_mem_map, List.mem_range, inRange_word hcmd]
  intro i _
  rw [BitVec.toNat_add, BitVec.toNat_mul]
  show (addr.toNat + 4 * _ % 2 ^ 32) % 2 ^ 32 % 4 = 0
  omega

/-- Every write that is planned is in range. -/
theorem writePlan_inRange (argv : List (List UInt8)) (cmd : RwCmd) (addr data : BitVec 32) :
    ∀ s ∈ (writePlan argv cmd addr data).setups, InRange s := by
  intro s hs
  unfold writePlan at hs
  split at hs
  · cases hs
  cases cmd with
  | ana | pmu =>
      simp only at hs
      split at hs
      · cases hs
      · next haddr =>
          obtain rfl := List.mem_singleton.mp hs
          exact (inRange_register (by simp) _ _ _).mpr (by
            rw [BitVec.not_le, BitVec.lt_def] at haddr
            exact haddr)
  | dig | mem =>
      simp only at hs
      split at hs
      · cases hs
      · next haddr =>
          obtain rfl := List.mem_singleton.mp hs
          exact (inRange_word (by simp) _ _ _).mpr
            ((and_three_eq_zero addr).mp (not_not.mp haddr))
  | exec | reset | resetCdc =>
      obtain rfl := List.mem_singleton.mp hs
      exact inRange_reset rfl _ _ _

/-- A read of registers stays among them if it ends there. -/
theorem readPlan_register_inRange {cmd : RwCmd} (hcmd : cmd = .ana ∨ cmd = .pmu)
    (addr argv3 : BitVec 32) :
    (∀ s ∈ (readPlan cmd addr argv3).setups, InRange s) ↔
      ¬ (addr < anaRegMaxAddr ∧
        anaRegMaxAddr.toNat < addr.toNat + (argv3 * 4 / 2).toNat) := by
  rw [readPlan_register hcmd]
  by_cases haddr : anaRegMaxAddr ≤ addr
  · rw [if_pos haddr]
    have hnot : ¬ addr < anaRegMaxAddr := BitVec.not_lt.mpr haddr
    simp [RwPlan.setups, hnot]
  · rw [if_neg haddr]
    have hlt : addr < anaRegMaxAddr := BitVec.not_le.mp haddr
    have htimes := (argv3 * 4 / 2).isLt
    refine (burst_inRange_iff hcmd (by omega) (BitVec.lt_def.mp hlt)).trans ?_
    rw [not_and, Nat.not_lt]
    exact ⟨fun hend _ => hend, fun hend => hend hlt⟩

/-- Every read of words that is planned is in range. -/
theorem readPlan_word_inRange {cmd : RwCmd} (hcmd : cmd = .dig ∨ cmd = .mem)
    (addr argv3 : BitVec 32) : ∀ s ∈ (readPlan cmd addr argv3).setups, InRange s := by
  rw [readPlan_word hcmd]
  by_cases haddr : addr &&& 3 ≠ 0
  · rw [if_pos haddr]
    exact fun s hs => by cases hs
  · rw [if_neg haddr]
    exact burst_aligned hcmd _ ((and_three_eq_zero addr).mp (not_not.mp haddr))

/-- **USB accesses stay in range.**  Every transfer a line issues is in range, unless the
line reads registers past the last one on a bound device. -/
theorem usb_access_inRange_iff (lib : Libusb σ) (w : World σ) (argv : List (List UInt8))
    (read : Bool) :
    (∀ a ∈ issued lib (rwCmd read) argv w, InRange a.setup) ↔
      w.usbctrl.bind = 0 ∨ read = false ∨ ¬ PastRegisters argv := by
  by_cases hbind : w.usbctrl.bind = 0
  · simp [issued_unbound lib argv read hbind, hbind]
  have hplan : (∀ a ∈ issued lib (rwCmd read) argv w, InRange a.setup) ↔
      ∀ s ∈ (rwPlan argv read).setups, InRange s := by
    rw [← (issued_rw lib argv read hbind).1, List.forall_mem_map]
  rw [hplan, or_iff_right hbind]
  cases hsub : rwSubCmd argv with
  | none =>
      rw [rwPlan_none hsub]
      simp [PastRegisters, hsub]
  | some cmd =>
      rw [rwPlan_eq hsub]
      cases read with
      | false =>
          simp only [Bool.false_eq_true, if_false, true_or, iff_true]
          exact writePlan_inRange argv cmd _ _
      | true =>
          simp only [if_true, Bool.true_eq_false, false_or, PastRegisters, hsub, Option.some.injEq]
          by_cases hreg : cmd = .ana ∨ cmd = .pmu
          · rw [readPlan_register_inRange hreg, and_iff_right hreg]
          refine ⟨fun _ hpast => hreg hpast.1, fun _ => ?_⟩
          by_cases hword : cmd = .dig ∨ cmd = .mem
          · exact readPlan_word_inRange hword _ _
          · cases cmd <;> simp_all [readPlan, RwPlan.setups]

/-- `usb read ana 0x3ff` reads the registers `0x3FF` and `0x400`. -/
theorem usb_read_past_registers :
    ¬ ∀ (w : World Unit) (argv : List (List UInt8)) (read : Bool),
      ∀ a ∈ issued (quietBus Unit) (rwCmd read) argv w, InRange a.setup := by
  intro hclaim
  let argv := [asciiBytes "usb", asciiBytes "read", asciiBytes "ana", asciiBytes "0x3ff"]
  obtain ⟨a, ha, hana, hpast⟩ : ∃ a ∈ issued (quietBus Unit) (rwCmd true) argv (boundWorld ()),
      a.setup.bRequest = RwCmd.ana.opcode ∧ a.setup.address = 0x400 := by decide +kernel
  have hrange := (hclaim (boundWorld ()) argv true a ha).1 (Or.inl hana)
  rw [hpast] at hrange
  exact absurd hrange (by decide)

/-- The line reads the `nr` words from its address on, in order, and its result counts
the transfers that failed. -/
structure BurstCovers (lib : Libusb σ) (w : World σ) (argv : List (List UInt8)) (cmd : RwCmd) :
    Prop where
  requests : ∀ a ∈ issued lib .read argv w,
    a.setup.bmRequestType = reqTypeOthRd ∧ a.setup.bRequest = cmd.opcode ∧ a.setup.wLength = 4
  addresses : (issued lib .read argv w).map (fun a => a.setup.address) =
    (List.range (rwArgv3 argv).toNat).map fun i => ((rwAddr argv).toNat + 4 * i) % 2 ^ 32
  result : (execUsbCmd lib .read argv w).1 =
    (BitVec.ofNat 32 (failures (issued lib .read argv w))).toInt

/-- The number of words, as it is computed. -/
theorem words_toNat (nr : BitVec 32) : (nr * 4 / 4).toNat = nr.toNat % 2 ^ 30 := by
  show (nr * 4#32 / 4#32).toNat = _
  rw [BitVec.toNat_udiv, BitVec.toNat_mul]
  show nr.toNat * 4 % 2 ^ 32 / 4 = _
  omega

/-- The addresses of a burst of words. -/
theorem burstSetups_addresses (cmd : RwCmd) (times : Nat) (addr : BitVec 32) :
    (burstSetups cmd 4 4 times addr).map ControlSetup.address =
      (List.range times).map fun i => (addr.toNat + 4 * i) % 2 ^ 32 := by
  rw [burstSetups, List.map_map]
  refine List.map_congr_left fun i _ => ?_
  rw [Function.comp_apply, accessSetup_address, BitVec.toNat_add, BitVec.toNat_mul,
    BitVec.toNat_ofNat]
  show (addr.toNat + 4 * (i % 2 ^ 32) % 2 ^ 32) % 2 ^ 32 = _
  omega

/-- **A burst read covers the request.**  A read of words on a bound device covers them
if and only if they are fewer than `2 ^ 30`. -/
theorem burstCovers_iff (lib : Libusb σ) {w : World σ} (hbind : w.usbctrl.bind ≠ 0)
    {argv : List (List UInt8)} {cmd : RwCmd} (hcmd : cmd = .dig ∨ cmd = .mem)
    (hsub : rwSubCmd argv = some cmd) (haligned : (rwAddr argv).toNat % 4 = 0) :
    BurstCovers lib w argv cmd ↔ (rwArgv3 argv).toNat < 2 ^ 30 := by
  have haddr : ¬ rwAddr argv &&& 3 ≠ 0 := not_not.mpr ((and_three_eq_zero _).mpr haligned)
  have hplan : rwPlan argv true =
      .burst cmd 4 4 (rwArgv3 argv * 4 / 4) (rwAddr argv) [0, 0, 0, 0] := by
    rw [rwPlan_eq hsub, if_pos rfl, readPlan_word hcmd, if_neg haddr]
  obtain ⟨hsetups, hresult⟩ := issued_rw lib argv true hbind
  rw [hplan] at hsetups hresult
  have haddresses : (issued lib .read argv w).map (fun a => a.setup.address) =
      (List.range ((rwArgv3 argv).toNat % 2 ^ 30)).map
        fun i => ((rwAddr argv).toNat + 4 * i) % 2 ^ 32 := by
    rw [← words_toNat, ← burstSetups_addresses cmd]
    exact (List.map_map).symm.trans (congrArg (List.map ControlSetup.address) hsetups)
  constructor
  · intro hcovers
    have hlength := congrArg List.length (haddresses.symm.trans hcovers.addresses)
    simp only [List.length_map, List.length_range] at hlength
    omega
  · intro hfew
    refine ⟨?_, ?_, hresult⟩
    · intro a ha
      have hmem : a.setup ∈ burstSetups cmd 4 4 (rwArgv3 argv * 4 / 4).toNat (rwAddr argv) := by
        rw [← show _ = burstSetups cmd 4 4 _ _ from hsetups]
        exact List.mem_map_of_mem ha
      obtain ⟨i, -, hi⟩ := List.mem_map.mp hmem
      rw [← hi]
      exact ⟨rfl, rfl, rfl⟩
    · rw [haddresses, Nat.mod_eq_of_lt hfew]

/-- `usb read mem 0x20000000 8`. -/
def readEight : List (List UInt8) :=
  [asciiBytes "usb", asciiBytes "read", asciiBytes "mem", asciiBytes "0x20000000",
    asciiBytes "8"]

/-- A burst over eight words. -/
theorem burstCovers_readEight :
    BurstCovers (quietBus Unit) (boundWorld ()) readEight .mem :=
  (burstCovers_iff (quietBus Unit) (by decide) (Or.inr rfl) (by decide +kernel)
    (by decide +kernel)).mpr (by decide +kernel)

/-- `usb read mem 0x20000000 0x40000000` reads nothing. -/
theorem usb_read_too_many :
    ¬ ∀ (w : World Unit) (argv : List (List UInt8)), w.usbctrl.bind ≠ 0 →
      rwSubCmd argv = some .mem → (rwAddr argv).toNat % 4 = 0 →
      BurstCovers (quietBus Unit) w argv .mem := by
  intro hclaim
  let argv := [asciiBytes "usb", asciiBytes "read", asciiBytes "mem", asciiBytes "0x20000000",
    asciiBytes "0x40000000"]
  have hcovers := hclaim (boundWorld ()) argv (by decide) (by decide +kernel) (by decide +kernel)
  have hnothing : issued (quietBus Unit) .read argv (boundWorld ()) = [] := by decide +kernel
  have hnr : (rwArgv3 argv).toNat = 2 ^ 30 := by decide +kernel
  have hlength := congrArg List.length hcovers.addresses
  rw [hnothing, hnr, List.length_map, List.length_map, List.length_range] at hlength
  exact absurd hlength (by decide)

end Usb

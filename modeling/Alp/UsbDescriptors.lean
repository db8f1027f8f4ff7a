import Mathlib.Data.List.Basic
import Mathlib.Data.List.Induction

/-!
# Printing a configuration descriptor

A configuration has interfaces, and an interface has alternate settings.
`usb_config_desc_print` prints them through `usb_itf_print` and `usb_itf_desc_print`.
A pointer is the position of what it points to, with what is there; `NULL` is `none`.

The walk takes `desc->interface`, the first interface, in every round of its loop.  So
it reports every alternate setting once and in order if there is at most one interface
or nothing to report (`walk_iff`).
-/

set_option autoImplicit false

namespace Usb

/-- The fields of `struct libusb_interface_descriptor` that are printed. -/
structure InterfaceDescriptor where
  bInterfaceNumber : BitVec 8
  bAlternateSetting : BitVec 8
  bNumEndpoints : BitVec 8
  deriving DecidableEq

/-- `struct libusb_interface`: an array with its length. -/
structure Interface where
  altsetting : List InterfaceDescriptor
  numAltsetting : Nat
  sized : altsetting.length = numAltsetting

/-- The fields of `struct libusb_config_descriptor` that are printed. -/
structure ConfigDescriptor where
  wTotalLength : BitVec 16
  bNumInterfaces : BitVec 8
  bConfigurationValue : BitVec 8
  bmAttributes : BitVec 8
  maxPower : BitVec 8
  interface : List Interface
  sized : interface.length = bNumInterfaces.toNat

/-- Where an alternate setting stands: its interface, and its index there. -/
abbrev AltPos := Nat × Nat

/-- What is printed. -/
inductive Line
  | config (wTotalLength : BitVec 16) (bNumInterfaces bConfigurationValue bmAttributes
      maxPower : BitVec 8)
  | interface (pos numAltsetting : Nat)
  /-- The lines of one alternate setting. -/
  | alt (pos : AltPos) (desc : InterfaceDescriptor)
  | interfaceEnd (pos : Nat)
  | configEnd

/-- `usb_itf_desc_print`. -/
def usbItfDescPrint : Option (AltPos × InterfaceDescriptor) → List Line
  | none => []
  | some (pos, alt) => [.alt pos alt]

/-- `itf->altsetting + i`. -/
def Interface.altAt (pos : Nat) (itf : Interface) (i : Nat) :
    Option (AltPos × InterfaceDescriptor) :=
  itf.altsetting[i]?.map fun alt => ((pos, i), alt)

/-- `usb_itf_print`. -/
def usbItfPrint : Option (Nat × Interface) → List Line
  | none => []
  | some (pos, itf) =>
    .interface pos itf.numAltsetting ::
      (List.range itf.numAltsetting).flatMap (fun i => usbItfDescPrint (itf.altAt pos i)) ++
      [.interfaceEnd pos]

/-- `desc->interface`. -/
def ConfigDescriptor.base (desc : ConfigDescriptor) : Option (Nat × Interface) :=
  desc.interface[0]?.map fun itf => (0, itf)

/-- `usb_config_desc_print`; the loop does not use its index. -/
def usbConfigDescPrint : Option ConfigDescriptor → List Line
  | none => []
  | some desc =>
    .config desc.wTotalLength desc.bNumInterfaces desc.bConfigurationValue desc.bmAttributes
        desc.maxPower ::
      (List.range desc.bNumInterfaces.toNat).flatMap (fun _ => usbItfPrint desc.base) ++
      [.configEnd]

/-- The alternate settings reported, in order. -/
def reported (lines : List Line) : List (AltPos × InterfaceDescriptor) :=
  lines.filterMap fun l =>
    match l with
    | .alt pos desc => some (pos, desc)
    | _ => none

/-- The alternate settings of the interface at `pos`, in order. -/
def Interface.settings (pos : Nat) (itf : Interface) : List (AltPos × InterfaceDescriptor) :=
  itf.altsetting.zipIdx.map fun alt => ((pos, alt.2), alt.1)

/-- All alternate settings, by interface and then by index. -/
def ConfigDescriptor.settings (desc : ConfigDescriptor) : List (AltPos × InterfaceDescriptor) :=
  desc.interface.zipIdx.flatMap fun itf => itf.1.settings itf.2

/-- Every alternate setting is reported once, in order. -/
def Walks (desc : ConfigDescriptor) : Prop :=
  reported (usbConfigDescPrint (some desc)) = desc.settings

/-- What two lists of lines report is what each reports. -/
theorem reported_append (xs ys : List Line) : reported (xs ++ ys) = reported xs ++ reported ys :=
  List.filterMap_append

/-- What lines joined report is what each of them reports. -/
theorem reported_flatMap (xs : List Nat) (f : Nat → List Line) :
    reported (xs.flatMap f) = xs.flatMap fun i => reported (f i) :=
  List.filterMap_flatMap ..

/-- A loop over the indices of a list goes through its elements. -/
theorem range_flatMap_getElem? {α β : Type} (xs : List α) (f : Nat → α → β) :
    (List.range xs.length).flatMap (fun i => (xs[i]?.map (f i)).toList) =
      xs.zipIdx.map fun x => f x.2 x.1 := by
  induction xs using List.reverseRecOn with
  | nil => rfl
  | append_singleton xs a ih =>
      have hold : (List.range xs.length).flatMap (fun i => ((xs ++ [a])[i]?.map (f i)).toList) =
          (List.range xs.length).flatMap fun i => (xs[i]?.map (f i)).toList := by
        apply List.flatMap_congr
        intro i hi
        rw [List.getElem?_append_left (List.mem_range.mp hi)]
      rw [List.length_append, List.length_singleton, List.range_succ, List.flatMap_append, hold,
        ih, List.zipIdx_append, List.map_append]
      simp

/-- Printing a setting reports it; without one nothing is reported. -/
theorem usbItfDescPrint_reported (alt : Option (AltPos × InterfaceDescriptor)) :
    reported (usbItfDescPrint alt) = alt.toList := by
  cases alt <;> rfl

/-- An interface is reported setting by setting. -/
theorem usbItfPrint_reported (pos : Nat) (itf : Interface) :
    reported (usbItfPrint (some (pos, itf))) = itf.settings pos := by
  have hloop := range_flatMap_getElem? itf.altsetting fun i alt => ((pos, i), alt)
  rw [itf.sized] at hloop
  have hends : reported (usbItfPrint (some (pos, itf))) =
      reported ((List.range itf.numAltsetting).flatMap fun i =>
        usbItfDescPrint (itf.altAt pos i)) := by
    rw [usbItfPrint, reported_append]
    exact List.append_nil _
  rw [hends, reported_flatMap]
  simp only [usbItfDescPrint_reported]
  exact hloop

/-- The first interface is reported once for each. -/
theorem usbConfigDescPrint_reported (desc : ConfigDescriptor) :
    reported (usbConfigDescPrint (some desc)) =
      (List.range desc.interface.length).flatMap fun _ => reported (usbItfPrint desc.base) := by
  have hends : reported (usbConfigDescPrint (some desc)) =
      reported ((List.range desc.bNumInterfaces.toNat).flatMap fun _ =>
        usbItfPrint desc.base) := by
    rw [usbConfigDescPrint, reported_append]
    exact List.append_nil _
  rw [hends, reported_flatMap, desc.sized]

/-- The settings of an interface stand at its position. -/
theorem mem_settings {pos : Nat} {itf : Interface} {s : AltPos × InterfaceDescriptor}
    (hs : s ∈ itf.settings pos) : s.1.1 = pos := by
  obtain ⟨alt, -, rfl⟩ := List.mem_map.mp hs
  rfl

/-- The settings of later interfaces stand at later positions. -/
theorem le_of_mem_settings {pos : Nat} {itfs : List Interface}
    {s : AltPos × InterfaceDescriptor}
    (hs : s ∈ (itfs.zipIdx pos).flatMap fun itf => itf.1.settings itf.2) : pos ≤ s.1.1 := by
  obtain ⟨itf, hitf, hmem⟩ := List.mem_flatMap.mp hs
  rw [mem_settings hmem]
  exact List.le_snd_of_mem_zipIdx hitf

/-- An interface has no settings exactly when its list is empty. -/
theorem settings_eq_nil {pos : Nat} {itf : Interface} :
    itf.settings pos = [] ↔ itf.altsetting = [] := by
  simp [Interface.settings]

/-- A configuration has no settings exactly when no interface has one. -/
theorem flatMap_settings_eq_nil (itfs : List Interface) (pos : Nat) :
    ((itfs.zipIdx pos).flatMap fun itf => itf.1.settings itf.2) = [] ↔
      ∀ itf ∈ itfs, itf.altsetting = [] := by
  simp only [List.flatMap_eq_nil_iff, settings_eq_nil]
  constructor
  · intro hall itf hitf
    obtain ⟨i, hi⟩ := List.getElem?_of_mem hitf
    exact hall (itf, pos + i) (List.mk_add_mem_zipIdx_iff_getElem?.mpr hi)
  · intro hall itf hitf
    exact hall itf.1 (List.fst_mem_of_mem_zipIdx hitf)

/-- **The descriptor walk.**  Every alternate setting is reported once, in order, if and
only if there is at most one interface or none has an alternate setting. -/
theorem walk_iff (desc : ConfigDescriptor) :
    Walks desc ↔
      desc.interface.length ≤ 1 ∨ ∀ itf ∈ desc.interface, itf.altsetting = [] := by
  unfold Walks ConfigDescriptor.settings
  rw [usbConfigDescPrint_reported]
  cases hitfs : desc.interface with
  | nil => simp
  | cons first rest =>
      have hbase : desc.base = some (0, first) := by
        rw [ConfigDescriptor.base, hitfs]
        rfl
      rw [hbase, usbItfPrint_reported, List.length_cons, List.range_succ_eq_map,
        List.flatMap_cons, List.zipIdx_cons, List.flatMap_cons, List.append_cancel_left_eq,
        Nat.zero_add]
      cases rest with
      | nil => simp
      | cons second rest =>
          have hmany : ¬ (second :: rest).length + 1 ≤ 1 := by simp
          rw [or_iff_right hmany]
          constructor
          · intro hwalk
            -- the second block is of the first interface, what it stands for is of later ones
            have hfirst : first.settings 0 = [] := by
              by_contra hne
              obtain ⟨s, hs⟩ := List.exists_mem_of_ne_nil _ hne
              have hlater : s ∈ ((second :: rest).zipIdx 1).flatMap fun itf =>
                  itf.1.settings itf.2 := by
                rw [← hwalk, List.length_cons, List.range_succ_eq_map, List.map_cons,
                  List.flatMap_cons]
                exact List.mem_append_left _ hs
              have hle := le_of_mem_settings hlater
              rw [mem_settings hs] at hle
              omega
            have hrest : ((second :: rest).zipIdx 1).flatMap (fun itf => itf.1.settings itf.2) =
                [] := by
              rw [← hwalk, hfirst]
              simp
            intro itf hitf
            rcases List.mem_cons.mp hitf with rfl | hitf
            · exact settings_eq_nil.mp hfirst
            · exact (flatMap_settings_eq_nil _ _).mp hrest itf hitf
          · intro hall
            have hfirst : first.settings 0 = [] :=
              settings_eq_nil.mpr (hall first (List.mem_cons_self))
            rw [hfirst, (flatMap_settings_eq_nil _ _).mpr fun itf hitf =>
              hall itf (List.mem_cons_of_mem _ hitf)]
            simp

/-- Two interfaces with one alternate setting each. -/
def twoInterfaces : ConfigDescriptor where
  wTotalLength := 27
  bNumInterfaces := 2
  bConfigurationValue := 1
  bmAttributes := 0x80
  maxPower := 50
  interface := [⟨[⟨0, 0, 1⟩], 1, rfl⟩, ⟨[⟨1, 0, 2⟩], 1, rfl⟩]
  sized := rfl

/-- The first interface is reported twice, and the second not at all. -/
theorem walk_twoInterfaces :
    reported (usbConfigDescPrint (some twoInterfaces)) =
        [((0, 0), ⟨0, 0, 1⟩), ((0, 0), ⟨0, 0, 1⟩)] ∧
      ¬ Walks twoInterfaces := by
  have hreported : reported (usbConfigDescPrint (some twoInterfaces)) =
      [((0, 0), ⟨0, 0, 1⟩), ((0, 0), ⟨0, 0, 1⟩)] := by decide +kernel
  refine ⟨hreported, fun hwalk => ?_⟩
  unfold Walks at hwalk
  rw [hreported] at hwalk
  exact absurd hwalk (by decide +kernel)

end Usb

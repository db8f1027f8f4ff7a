import Alp.UsbHandle

/-!
# Which device is bound

A handle is opened for a vid and a pid, and the log says which.  In every state
reached, the handle of a bound device was opened for `usbctrl.vid` and `usbctrl.pid`
(`Named`).  A `bind` that succeeds has opened it for the ids of its line, unless a
device was bound already: then it leaves everything as it is and returns 0 too
(`bind_names_device`).
-/

set_option autoImplicit false

namespace Usb

open CString Hoare Ownership Transition

variable {σ : Type}

/-- The handle was opened for these ids. -/
def World.openedFor (w : World σ) (n : Nat) (vid pid : BitVec 16) : Prop :=
  Event.openDevice vid pid (some n) ∈ w.log

/-- Handles are numbered in the order of their opening, each was opened for one device,
and the bound one for the ids in `usbctrl`. -/
structure Named (w : World σ) : Prop where
  fresh : ∀ n vid pid, w.openedFor n vid pid → n < w.opened
  one : ∀ n vid pid vid' pid', w.openedFor n vid pid → w.openedFor n vid' pid' →
    vid = vid' ∧ pid = pid'
  bound : ∀ n, w.usbctrl.handle = some n → w.openedFor n w.usbctrl.vid w.usbctrl.pid

/-- The invariant with the given `usbctrl`. -/
def NamedAt (c : UsbCtrl) (w : World σ) : Prop :=
  Named w ∧ w.usbctrl = c

/-- An event that opens no handle. -/
theorem Named.silent {w : World σ} (h : Named w) (bus : σ) {e : Event}
    (he : ∀ vid pid n, e ≠ .openDevice vid pid (some n)) :
    Named { w with bus := bus, log := w.log ++ [e] } := by
  have hsame : ∀ n vid pid,
      World.openedFor { w with bus := bus, log := w.log ++ [e] } n vid pid ↔
        w.openedFor n vid pid := by
    intro n vid pid
    unfold World.openedFor
    rw [List.mem_append, List.mem_singleton]
    exact or_iff_left fun heq => he vid pid n heq.symm
  refine ⟨?_, ?_, ?_⟩
  · intro n vid pid hopened
    exact h.fresh n vid pid ((hsame n vid pid).mp hopened)
  · intro n vid pid vid' pid' hopened hopened'
    exact h.one n vid pid vid' pid' ((hsame n vid pid).mp hopened) ((hsame n _ _).mp hopened')
  · intro n hn
    exact (hsame n _ _).mpr (h.bound n hn)

/-- Opening a handle and binding it. -/
theorem Named.open {w : World σ} (h : Named w) (bus : σ) (bind : Int) (vid pid : BitVec 16) :
    Named (World.mk ⟨bind, some w.opened, vid, pid⟩ bus (w.opened + 1)
      (w.log ++ [.openDevice vid pid (some w.opened)])) := by
  have hcases : ∀ n v p, World.openedFor (World.mk ⟨bind, some w.opened, vid, pid⟩ bus
      (w.opened + 1) (w.log ++ [.openDevice vid pid (some w.opened)])) n v p →
        w.openedFor n v p ∨ (v = vid ∧ p = pid ∧ n = w.opened) := by
    intro n v p hopened
    rcases List.mem_append.mp hopened with hold | hnew
    · exact Or.inl hold
    · have heq := Event.openDevice.inj (List.mem_singleton.mp hnew)
      exact Or.inr ⟨heq.1, heq.2.1, Option.some.inj heq.2.2⟩
  refine ⟨?_, ?_, ?_⟩
  · intro n v p hopened
    rcases hcases n v p hopened with hold | ⟨-, -, rfl⟩
    · exact Nat.lt_succ_of_lt (h.fresh n v p hold)
    · exact Nat.lt_succ_self _
  · intro n v p v' p' hopened hopened'
    rcases hcases n v p hopened with hold | ⟨rfl, rfl, rfl⟩
    · rcases hcases n v' p' hopened' with hold' | ⟨-, -, rfl⟩
      · exact h.one n v p v' p' hold hold'
      · exact absurd (h.fresh _ v p hold) (Nat.lt_irrefl _)
    · rcases hcases _ v' p' hopened' with hold' | ⟨rfl, rfl, -⟩
      · exact absurd (h.fresh _ v' p' hold') (Nat.lt_irrefl _)
      · exact ⟨rfl, rfl⟩
  · rintro n hn
    obtain rfl : w.opened = n := Option.some.inj hn
    exact List.mem_append_right _ (List.mem_singleton_self _)

/-- Being named is an invariant of transfers. -/
theorem namedAt_transferFrame {c : UsbCtrl} : TransferFrame c (NamedAt (σ := σ) c) where
  usbctrl := fun _ hw => hw.2
  transfer := fun _ bus _ _ _ _ hw => ⟨hw.1.silent bus fun _ _ _ h => (by cases h), hw.2⟩
  output := by
    intro w e he hw
    refine ⟨hw.1.silent w.bus ?_, hw.2⟩
    rintro vid pid n rfl
    cases he

/-- Being named is an invariant of list commands. -/
theorem namedAt_listFrame {c : UsbCtrl} : ListFrame (NamedAt (σ := σ) c) where
  call := by
    intro w bus e he hw
    refine ⟨hw.1.silent bus ?_, hw.2⟩
    rintro vid pid n rfl
    cases he
  bus := fun _ _ hw => ⟨⟨hw.1.fresh, hw.1.one, hw.1.bound⟩, hw.2⟩

section Keeps

variable (lib : Libusb σ)

/-- `libusb_init` keeps the names. -/
theorem libusbInit_named {w : World σ} (h : Named w) : Named (libusbInit lib w).2 :=
  h.silent (lib.init w.bus).2 fun _ _ _ heq => (by cases heq)

/-- A bind keeps the names. -/
theorem bindRun_named {vid pid : BitVec 16} {w w' : World σ} {r : Int} (h : Named w)
    (hrun : BindRun lib vid pid w r w') : Named w' := by
  cases hrun with
  | already hbind => exact h
  | badIds hbind hids => exact h
  | noInit hbind hids hinit => exact libusbInit_named lib h
  | noOpen hbind hids hinit hopen =>
      rcases libusbOpenDeviceWithVidPid_cases lib vid pid (libusbInit lib w).2 with
        ⟨-, hfail⟩ | ⟨-, hok⟩
      · rw [hfail]
        exact (libusbInit_named lib h).silent _ fun _ _ _ heq => by cases heq
      · rw [hok] at hopen
        cases hopen
  | opened hbind hids hinit hopen =>
      rcases libusbOpenDeviceWithVidPid_cases lib vid pid (libusbInit lib w).2 with
        ⟨-, hfail⟩ | ⟨-, hok⟩
      · rw [hfail] at hopen
        cases hopen
      · rw [hok]
        exact (libusbInit_named lib h).open _ 1 vid pid

/-- An unbind keeps the names. -/
theorem unbindRun_named {vid pid : BitVec 16} {w w' : World σ} (h : Named w)
    (hrun : UnbindRun lib vid pid w w') : Named w' := by
  cases hrun with
  | already hbind => exact h
  | closed hbind hhandle =>
      have hclosed : Named (libusbClose lib w.usbctrl.handle w).2 :=
        h.silent (lib.close w.usbctrl.handle w.bus) fun _ _ _ heq => (by cases heq)
      exact ⟨hclosed.fresh, hclosed.one, fun n hn => (by cases hn)⟩
  | noHandle hbind hhandle => exact ⟨h.fresh, h.one, fun n hn => (by cases hn)⟩

/-- Every command keeps the names. -/
theorem execUsbCmd_named {w : World σ} (h : Named w) (id : UsbCmd) (argv : List (List UInt8)) :
    Named (execUsbCmd lib id argv w).2 := by
  have hat : NamedAt w.usbctrl w := ⟨h, rfl⟩
  cases id with
  | list | list1 => exact (usbHandleCmdList_frame lib namedAt_listFrame w hat).1
  | bind => exact bindRun_named lib h (usbHandleCmdBind_run lib argv w)
  | unbind => exact unbindRun_named lib h (usbHandleCmdUnbind_run lib argv w).2
  | read | write => exact (usbHandleCmdRw_frame lib namedAt_transferFrame argv _ w hat).1
  | test => exact (usbHandleCmdTest_frame lib namedAt_listFrame argv w hat).1
  | fm => exact (usbHandleCmdFm_frame lib namedAt_transferFrame argv w hat).1

end Keeps

/-- After registering nothing is bound. -/
theorem Registered.named {w : World σ} (h : Registered w) : Named w := by
  obtain ⟨before, s, hlog, rfl⟩ := h
  have hnone : ∀ n vid pid, ¬ World.openedFor (usbCmdRegister s before).2 n vid pid := by
    intro n vid pid hopened
    have hmem : Event.openDevice vid pid (some n) ∈ before.log := hopened
    rw [hlog] at hmem
    cases hmem
  exact ⟨fun n vid pid hopened => absurd hopened (hnone n vid pid),
    fun n vid pid _ _ hopened => absurd hopened (hnone n vid pid), fun n hn => (by cases hn)⟩

/-- The names hold in every state reached. -/
theorem reach_named {lib : Libusb σ} {w : World σ}
    (h : Reach (usbStep lib) Registered anyStep w) : Named w := by
  refine h.invariant (fun _ => Registered.named) ?_
  intro w a t _ hw _ hstep
  cases hstep
  exact execUsbCmd_named lib hw a.1 a.2

/-- The handle of the world was opened for exactly these ids, and `usbctrl` holds them. -/
structure BoundTo (w : World σ) (vid pid : BitVec 16) : Prop where
  ids : w.usbctrl.vid = vid ∧ w.usbctrl.pid = pid
  handle : ∃ n, w.usbctrl.handle = some n ∧ ∀ v p, w.openedFor n v p ↔ v = vid ∧ p = pid

/-- The handle is open on the device that `usbctrl` names. -/
theorem Named.boundTo {w : World σ} (h : Named w) {n : Nat} (hn : w.usbctrl.handle = some n) :
    BoundTo w w.usbctrl.vid w.usbctrl.pid := by
  refine ⟨⟨rfl, rfl⟩, n, hn, fun v p => ⟨fun hopened => ?_, ?_⟩⟩
  · exact h.one n v p _ _ hopened (h.bound n hn)
  · rintro ⟨rfl, rfl⟩
    exact h.bound n hn

/-- **A successful bind.**  In every state reached, a `bind` that returns 0 has bound
the device of its line if none was bound before; else it has left everything as it
was, the device bound before included. -/
theorem bind_names_device {lib : Libusb σ} {w : World σ}
    (h : Reach (usbStep lib) Registered anyStep w) {argv : List (List UInt8)}
    (hret : (execUsbCmd lib .bind argv w).1 = 0) :
    (w.usbctrl.bind = 0 → BoundTo (execUsbCmd lib .bind argv w).2
        (argOr argv usbIdxArgc1 bindDefVid) (argOr argv usbIdxArgc2 bindDefPid)) ∧
      (w.usbctrl.bind ≠ 0 → (execUsbCmd lib .bind argv w).2 = w ∧
        BoundTo w w.usbctrl.vid w.usbctrl.pid) := by
  have howned := reach_owned h
  have hnamed := reach_named h
  have hrun := usbHandleCmdBind_run lib argv w
  have hnamed' := bindRun_named lib hnamed hrun
  change (usbHandleCmdBind lib argv 1 w).1 = 0 at hret
  change (w.usbctrl.bind = 0 → BoundTo (usbHandleCmdBind lib argv 1 w).2 _ _) ∧
    (w.usbctrl.bind ≠ 0 → (usbHandleCmdBind lib argv 1 w).2 = w ∧ _)
  generalize (usbHandleCmdBind lib argv 1 w).1 = r at *
  generalize (usbHandleCmdBind lib argv 1 w).2 = w' at *
  cases hrun with
  | already hbind =>
      obtain ⟨n, hn⟩ := Option.ne_none_iff_exists'.mp (howned.handle.mp hbind)
      exact ⟨fun hzero => by omega, fun _ => ⟨rfl, hnamed.boundTo hn⟩⟩
  | badIds | noInit | noOpen => exact absurd hret (by decide)
  | opened hbind hids hinit hopen =>
      refine ⟨fun _ => hnamed'.boundTo rfl, fun hne => ?_⟩
      have := howned.bind
      omega

/-- `usb bind vid pid`. -/
def bindLine (vid pid : List UInt8) : List (List UInt8) :=
  [asciiBytes "usb", asciiBytes "bind", vid, pid]

/-- A bind right after registering. -/
theorem bind_names_device_first :
    BoundTo (execUsbCmd (quietBus Unit) .bind (bindLine (asciiBytes "0x12") (asciiBytes "0x34"))
      registeredWorld).2 0x12 0x34 :=
  (bind_names_device (Reach.start registered_registeredWorld) (by decide +kernel)).1 rfl

/-- A second bind returns 0 and leaves the first device bound. -/
theorem second_bind_keeps_first :
    ¬ ∀ (w : World Unit) (argv : List (List UInt8)),
      Reach (usbStep (quietBus Unit)) Registered anyStep w →
        (execUsbCmd (quietBus Unit) .bind argv w).1 = 0 →
          BoundTo (execUsbCmd (quietBus Unit) .bind argv w).2
            (argOr argv usbIdxArgc1 bindDefVid) (argOr argv usbIdxArgc2 bindDefPid) := by
  intro hclaim
  let first := bindLine (asciiBytes "0x12") (asciiBytes "0x34")
  let second := bindLine (asciiBytes "0x56") (asciiBytes "0x78")
  let w := (execUsbCmd (quietBus Unit) .bind first registeredWorld).2
  have hreach : Reach (usbStep (quietBus Unit)) Registered anyStep w :=
    (Reach.start registered_registeredWorld).next (a := (UsbCmd.bind, first)) trivial rfl
  have hbound := hclaim w second hreach (by decide +kernel)
  have hvid : (execUsbCmd (quietBus Unit) .bind second w).2.usbctrl.vid = 0x12 := by
    decide +kernel
  have hline : (argOr second usbIdxArgc1 bindDefVid) = (0x56 : BitVec 16) := by decide +kernel
  have hids := hbound.ids.1
  rw [hvid, hline] at hids
  exact absurd hids (by decide)

end Usb

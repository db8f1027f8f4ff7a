import Alp.Hoare
import Alp.Ownership
import Alp.Transition
import Alp.UsbFrame

/-!
# Ownership of the USB handle

The `log` of a world, read as operations on handles (`World.ops`), is a history of
the one-handle automaton of `Ownership`: `usb bind` acquires, `usb unbind` and the
shutdown release, every control transfer uses.  `Owned` says that the automaton
accepts the history and owns exactly `usbctrl.handle`; every command keeps it.
-/

set_option autoImplicit false

namespace Usb

open CString Hoare Ownership Transition

variable {σ : Type}

/-- What an event does with a handle. -/
def Event.op? : Event → Option (Op Handle)
  | .openDevice _ _ (some n) => some (.acquire (some n))
  | .close h => some (.release h)
  | .transfer h _ _ _ => some (.use h)
  | _ => none

/-- What was done with handles. -/
def World.ops (w : World σ) : List (Op Handle) :=
  w.log.filterMap Event.op?

/-- Ownership of the handle: `bind` says whether `handle` is the one open handle, at
most one handle was open at any time, none was closed twice, and every transfer
went to the handle that was open. -/
structure OneHandle (w : World σ) : Prop where
  bind : w.usbctrl.bind = 0 ∨ w.usbctrl.bind = 1
  bound : w.usbctrl.bind = 1 ↔ w.usbctrl.handle ≠ none ∧ live w.ops = [w.usbctrl.handle]
  unbound : w.usbctrl.bind = 0 → w.usbctrl.handle = none ∧ live w.ops = []
  one : ∀ ops rest, w.ops = ops ++ rest → (live ops).length ≤ 1
  once : (released w.ops).Nodup
  used : ∀ ops h rest, w.ops = ops ++ .use h :: rest → h ≠ none ∧ live ops = [h]

/-- The automaton accepts the history and owns `own` at its end; handles are fresh. -/
structure History (w : World σ) (own : Handle) : Prop where
  accepted : Accepted w.ops (own.map some)
  fresh : ∀ h ∈ acquired w.ops, ∃ n < w.opened, h = some n
  nodup : (acquired w.ops).Nodup

/-- What is owned is `usbctrl.handle`, and `bind` says whether there is one. -/
structure Owned (w : World σ) : Prop where
  bind : w.usbctrl.bind = 0 ∨ w.usbctrl.bind = 1
  handle : w.usbctrl.bind = 1 ↔ w.usbctrl.handle ≠ none
  history : History w w.usbctrl.handle

/-- The invariant with the given `usbctrl`. -/
def OwnedAt (c : UsbCtrl) (w : World σ) : Prop :=
  Owned w ∧ w.usbctrl = c

/-- Where the handle is owned there was one handle at a time. -/
theorem Owned.oneHandle {w : World σ} (h : Owned w) : OneHandle w := by
  obtain ⟨hcases, hbind, hacc, hfresh, hnodup⟩ := h
  have hlive := hacc.live_eq
  constructor
  · exact hcases
  · rw [hlive, hbind]
    cases w.usbctrl.handle <;> simp
  · intro hzero
    rw [hlive]
    cases hh : w.usbctrl.handle with
    | none => simp
    | some n =>
        rw [hh] at hbind
        have hone := hbind.mpr (by simp)
        omega
  · intro ops rest hops
    rw [hops] at hacc
    exact hacc.live_le_one
  · exact hacc.released_nodup hnodup
  · intro ops a rest hops
    rw [hops] at hacc
    have huse := hacc.use_live
    refine ⟨?_, huse⟩
    -- what is live was acquired, and what was acquired is no NULL
    obtain ⟨mid, hmid⟩ := accepted_prefix hacc
    have hmem : a ∈ acquired ops := by
      rw [hmid.acquired_eq, ← hmid.live_eq, huse]
      simp
    obtain ⟨n, -, hn⟩ := hfresh a (by rw [hops, acquired_append]; simp [hmem])
    simp [hn]

/-- An event at the end of the log adds its own operation and no other. -/
theorem World.ops_snoc (w : World σ) (bus : σ) (opened : Nat) (e : Event) :
    World.ops { w with bus := bus, opened := opened, log := w.log ++ [e] } =
      w.ops ++ e.op?.toList := by
  cases h : e.op? <;> simp [World.ops, h]

/-- An event that touches no handle. -/
theorem History.silent {w : World σ} {own : Handle} (h : History w own) (bus : σ) {e : Event}
    (he : e.op? = none) : History { w with bus := bus, log := w.log ++ [e] } own := by
  have hops := w.ops_snoc bus w.opened e
  rw [he, Option.toList_none, List.append_nil] at hops
  constructor <;> rw [hops]
  · exact h.accepted
  · exact h.fresh
  · exact h.nodup

/-- A transfer to the owned handle. -/
theorem History.transfer {w : World σ} {n : Nat} (h : History w (some n)) (bus : σ) {e : Event}
    (he : e.op? = some (.use (some n))) :
    History { w with bus := bus, log := w.log ++ [e] } (some n) := by
  have hops := w.ops_snoc bus w.opened e
  rw [he, Option.toList_some] at hops
  constructor <;> rw [hops]
  · exact h.accepted.use
  · simpa [acquired_append, acquired] using h.fresh
  · simpa [acquired_append, acquired] using h.nodup

/-- Closing the owned handle. -/
theorem History.close {w : World σ} {n : Nat} (h : History w (some n)) (bus : σ) {e : Event}
    (he : e.op? = some (.release (some n))) :
    History { w with bus := bus, log := w.log ++ [e] } none := by
  have hops := w.ops_snoc bus w.opened e
  rw [he, Option.toList_some] at hops
  constructor <;> rw [hops]
  · exact h.accepted.release
  · simpa [acquired_append, acquired] using h.fresh
  · simpa [acquired_append, acquired] using h.nodup

/-- A new handle is none of those before it. -/
theorem History.open {w : World σ} (h : History w none) (bus : σ) {e : Event}
    (he : e.op? = some (.acquire (some w.opened))) :
    History { w with bus := bus, opened := w.opened + 1, log := w.log ++ [e] }
      (some w.opened) := by
  have hops := w.ops_snoc bus (w.opened + 1) e
  rw [he, Option.toList_some] at hops
  constructor <;> rw [hops]
  · exact h.accepted.acquire (some w.opened)
  · intro a ha
    rw [acquired_append] at ha
    rcases List.mem_append.mp ha with hold | hnew
    · obtain ⟨n, hn, ha⟩ := h.fresh a hold
      exact ⟨n, Nat.lt_succ_of_lt hn, ha⟩
    · exact ⟨w.opened, Nat.lt_succ_self _, by simpa [acquired] using hnew⟩
  · rw [acquired_append, List.nodup_append]
    refine ⟨h.nodup, by simp [acquired], ?_⟩
    rintro a ha b hb rfl
    obtain ⟨n, hn, hsome⟩ := h.fresh a ha
    have hnew : a = some w.opened := by simpa [acquired] using hb
    have heq : n = w.opened := Option.some.inj (hsome.symm.trans hnew)
    omega

/-- An event without an operation keeps the ownership. -/
theorem Owned.silent {w : World σ} (h : Owned w) (bus : σ) {e : Event} (he : e.op? = none) :
    Owned { w with bus := bus, log := w.log ++ [e] } :=
  ⟨h.bind, h.handle, h.history.silent bus he⟩

section Keeps

variable (lib : Libusb σ) {c : UsbCtrl}

/-- The ownership is an invariant of list commands. -/
theorem ownedAt_listFrame : ListFrame (OwnedAt (σ := σ) c) where
  call := by
    intro w bus e he hw
    have hop : e.op? = none := by
      cases e <;> first | rfl | cases he
    exact ⟨hw.1.silent bus hop, hw.2⟩
  bus := fun w bus hw => ⟨⟨hw.1.bind, hw.1.handle, ⟨hw.1.history.accepted, hw.1.history.fresh,
    hw.1.history.nodup⟩⟩, hw.2⟩

/-- A bound device has its handle. -/
theorem OwnedAt.handle {w : World σ} (h : OwnedAt c w) (hbind : c.bind ≠ 0) :
    ∃ n, c.handle = some n := by
  obtain ⟨howned, rfl⟩ := h
  have hone : w.usbctrl.bind = 1 := by
    have := howned.bind
    omega
  exact Option.ne_none_iff_exists'.mp (howned.handle.mp hone)

/-- The ownership is an invariant of transfers. -/
theorem ownedAt_transferFrame : TransferFrame c (OwnedAt (σ := σ) c) where
  usbctrl := fun _ hw => hw.2
  transfer := by
    intro w bus setup data r hbind hw
    obtain ⟨n, hn⟩ := hw.handle hbind
    obtain ⟨⟨hcases, hhandle, hist⟩, rfl⟩ := hw
    rw [hn] at hist
    refine ⟨⟨hcases, hhandle, ?_⟩, rfl⟩
    show History _ w.usbctrl.handle
    rw [hn]
    exact hist.transfer bus rfl
  output := by
    intro w e he hw
    have hop : e.op? = none := by
      cases e <;> first | rfl | cases he
    exact ⟨hw.1.silent w.bus hop, hw.2⟩

/-- Opening acquires a fresh handle, or none. -/
theorem libusbOpen_history (hc : c.handle = none) (vid pid : BitVec 16) :
    Triple (OwnedAt c) (libusbOpenDeviceWithVidPid lib vid pid)
      fun h w => w.usbctrl = c ∧ History w h := by
  intro w hw
  obtain ⟨howned, rfl⟩ := hw
  have hist := howned.history
  rw [hc] at hist
  simp only [libusbOpenDeviceWithVidPid]
  split
  · exact ⟨rfl, hist.open _ rfl⟩
  · exact ⟨rfl, hist.silent _ rfl⟩

/-- Storing the outcome of a bind or an unbind. -/
theorem setUsbctrl_owned (c' : UsbCtrl) (hbind : c'.bind = 0 ∨ c'.bind = 1)
    (hhandle : c'.bind = 1 ↔ c'.handle ≠ none) :
    Triple (fun w : World σ => History w c'.handle) (setUsbctrl c')
      fun _ w => Owned w ∧ w.usbctrl = c' :=
  fun _ hist => ⟨⟨hbind, hhandle, hist.accepted, hist.fresh, hist.nodup⟩, rfl⟩

/-- `usb bind` keeps the ownership, and leaves `usbctrl` alone if it fails. -/
theorem usbHandleCmdBind_one (argv : List (List UInt8)) :
    Triple (OwnedAt c) (usbHandleCmdBind lib argv 1)
      fun r w => Owned w ∧ (r ≠ 0 → w.usbctrl = c) := by
  have hback : ∀ r : Int, Triple (OwnedAt c) (pure r : UsbM σ Int)
      fun r w => Owned w ∧ (r ≠ 0 → w.usbctrl = c) :=
    fun r => Triple.pure fun _ hw => ⟨hw.1, fun _ => hw.2⟩
  refine Triple.get fun w hw => ?_
  refine Triple.ite (fun _ => hback 0) fun hone => ?_
  have hc : c.handle = none := by
    obtain ⟨howned, rfl⟩ := hw
    by_contra hh
    exact hone (howned.handle.mpr hh)
  refine Triple.ite (fun _ => ?_) fun hz => (hz (by decide)).elim
  refine Triple.ite (fun _ => hback (-1)) fun _ => ?_
  refine Triple.bind (libusbInit_frame lib ownedAt_listFrame) fun r => ?_
  refine Triple.ite (fun _ => hback (-1)) fun _ => ?_
  refine Triple.bind (libusbOpen_history lib hc _ _) fun h => ?_
  refine Triple.ite (fun hnull => ?_) fun hh => ?_
  · refine Triple.pure fun u hu => ?_
    obtain ⟨rfl, hist⟩ := hu
    refine ⟨⟨?_, ?_, ?_⟩, fun _ => rfl⟩
    · obtain ⟨howned, hctrl⟩ := hw
      rw [← hctrl]
      exact howned.bind
    · obtain ⟨howned, hctrl⟩ := hw
      rw [← hctrl]
      exact howned.handle
    · rw [hc, ← hnull]
      exact hist
  · refine Triple.bind ((setUsbctrl_owned ⟨1, h, _, _⟩ (Or.inr rfl) (by simp [hh])).conseq
      (fun _ hu => hu.2) fun _ _ hu => hu.1) fun _ => ?_
    exact Triple.pure fun _ hu => ⟨hu, fun hr => absurd rfl hr⟩

/-- `usb unbind` keeps the ownership and leaves no handle. -/
theorem usbHandleCmdBind_zero (argv : List (List UInt8)) :
    Triple (OwnedAt c) (usbHandleCmdBind lib argv 0)
      fun _ w => Owned w ∧ w.usbctrl.handle = none := by
  refine Triple.get fun w hw => ?_
  refine Triple.ite (fun hzero => ?_) fun hbind => ?_
  · refine Triple.pure fun u hu => ⟨hu.1, ?_⟩
    by_contra hh
    obtain ⟨howned, rfl⟩ := hu
    obtain ⟨-, hctrl⟩ := hw
    have hone := howned.handle.mpr hh
    rw [hctrl] at hzero
    omega
  refine Triple.ite (fun hz => absurd rfl hz) fun _ => ?_
  rw [hw.2] at hbind ⊢
  obtain ⟨n, hn⟩ := hw.handle hbind
  refine Triple.ite (fun _ => ?_) fun hnull => absurd (by rw [hn]; simp) hnull
  have hclose : Triple (OwnedAt c) (libusbClose lib c.handle)
      fun _ u => History u none := by
    intro u hu
    have hist := hu.1.history
    rw [hu.2, hn] at hist
    rw [hn]
    exact hist.close _ rfl
  refine Triple.bind hclose fun _ => ?_
  refine Triple.bind (setUsbctrl_owned ⟨0, none, _, _⟩ (Or.inl rfl) (by simp)) fun _ => ?_
  exact Triple.pure fun u hu => ⟨hu.1, by rw [hu.2]⟩

/-- Every command keeps the ownership. -/
theorem execUsbCmd_owned (id : UsbCmd) (argv : List (List UInt8)) :
    Triple (OwnedAt c) (execUsbCmd lib id argv) fun _ w => Owned w := by
  cases id with
  | list | list1 =>
      exact (usbHandleCmdList_frame lib ownedAt_listFrame).conseq (fun _ h => h) fun _ _ h => h.1
  | bind => exact (usbHandleCmdBind_one lib argv).conseq (fun _ h => h) fun _ _ h => h.1
  | unbind => exact (usbHandleCmdBind_zero lib argv).conseq (fun _ h => h) fun _ _ h => h.1
  | read | write =>
      exact (usbHandleCmdRw_frame lib ownedAt_transferFrame argv _).conseq (fun _ h => h)
        fun _ _ h => h.1
  | test =>
      exact (usbHandleCmdTest_frame lib ownedAt_listFrame argv).conseq (fun _ h => h)
        fun _ _ h => h.1
  | fm =>
      exact (usbHandleCmdFm_frame lib ownedAt_transferFrame argv).conseq (fun _ h => h)
        fun _ _ h => h.1

/-- After the shutdown nothing is open. -/
theorem usbCmdUnregister_owned (s : Comm.CmdState) :
    Triple (OwnedAt c) (usbCmdUnregister lib s)
      fun _ w => Owned w ∧ w.usbctrl.handle = none := by
  refine Triple.get fun w hw => ?_
  refine Triple.ite (fun _ => ?_) fun hzero => ?_
  · exact Triple.bind (usbHandleCmdBind_zero lib []) fun _ => Triple.pure fun _ h => h
  · refine Triple.pure fun u hu => ⟨hu.1, ?_⟩
    by_contra hh
    have hone := hu.1.handle.mpr hh
    rw [hu.2, ← hw.2] at hone
    omega

end Keeps

/-- The world after `usb_cmd_register`, nothing having been done yet. -/
def Registered (w : World σ) : Prop :=
  ∃ (before : World σ) (s : Comm.CmdState), before.log = [] ∧ w = (usbCmdRegister s before).2

/-- The world after `usb_cmd_register`. -/
def registeredWorld : World Unit :=
  (usbCmdRegister (Comm.CmdState.start Comm.commInitCommand)
    (⟨⟨0, none, 0, 0⟩, (), 0, []⟩ : World Unit)).2

/-- `registeredWorld` is registered. -/
theorem registered_registeredWorld : Registered registeredWorld :=
  ⟨_, _, rfl, rfl⟩

/-- One usb command. -/
def usbStep (lib : Libusb σ) (w : World σ) (a : UsbCmd × List (List UInt8)) :
    Option (World σ) :=
  some (execUsbCmd lib a.1 a.2 w).2

/-- After registering nothing is owned. -/
theorem Registered.owned {w : World σ} (h : Registered w) : Owned w := by
  obtain ⟨before, s, hlog, rfl⟩ := h
  have hops : World.ops (usbCmdRegister s before).2 = [] := by
    show List.filterMap Event.op? before.log = []
    rw [hlog]
    rfl
  refine ⟨Or.inl rfl, ?_, ?_, ?_, ?_⟩
  · show (0 : Int) = 1 ↔ (none : Handle) ≠ none
    simp
  · rw [hops]
    exact accepted_nil
  · simp [hops, acquired]
  · simp [hops, acquired]

/-- The ownership holds in every state reached. -/
theorem reach_owned {lib : Libusb σ} {w : World σ}
    (h : Reach (usbStep lib) Registered anyStep w) : Owned w := by
  refine h.invariant (fun _ => Registered.owned) ?_
  intro w a t _ hw _ hstep
  cases hstep
  exact execUsbCmd_owned lib a.1 a.2 w ⟨hw, rfl⟩

/-- **Ownership of the USB handle.**  From `usb_cmd_register` on, whatever commands
are run and whatever libusb answers: the handle is owned, a `bind` that fails leaves
`usbctrl` alone, and after `usb_cmd_unregister` the handle is still in order and none
is open. -/
theorem usb_handle_owned {lib : Libusb σ} {w : World σ}
    (h : Reach (usbStep lib) Registered anyStep w) :
    OneHandle w ∧
      (∀ argv, (execUsbCmd lib .bind argv w).1 ≠ 0 →
        (execUsbCmd lib .bind argv w).2.usbctrl = w.usbctrl) ∧
      ∀ s, OneHandle (usbCmdUnregister lib s w).2 ∧
        live (usbCmdUnregister lib s w).2.ops = [] := by
  have howned := reach_owned h
  refine ⟨howned.oneHandle, ?_, ?_⟩
  · intro argv
    exact (usbHandleCmdBind_one lib argv w ⟨howned, rfl⟩).2
  · intro s
    obtain ⟨hfinal, hnone⟩ := usbCmdUnregister_owned lib s w ⟨howned, rfl⟩
    refine ⟨hfinal.oneHandle, ?_⟩
    rw [hfinal.history.accepted.live_eq, hnone]
    rfl

/-- `usb bind`, then `usb write ana 0x60 1`. -/
def bindWrite : List (UsbCmd × List (List UInt8)) :=
  [(.bind, [asciiBytes "usb", asciiBytes "bind"]),
    (.write, [asciiBytes "usb", asciiBytes "write", asciiBytes "ana", asciiBytes "0x60",
      asciiBytes "1"])]

/-- After a bind and a write the handle is open, and closed by the shutdown. -/
theorem usb_handle_owned_bindWrite :
    ∃ w : World Unit, Reach (usbStep (quietBus Unit)) Registered anyStep w ∧
      w.usbctrl = ⟨1, some 0, 0xBE57, 0x0238⟩ ∧ OneHandle w ∧
      ∀ s, live (usbCmdUnregister (quietBus Unit) s w).2.ops = [] := by
  obtain ⟨w, hrun, hctrl⟩ : ∃ w,
      exec (usbStep (quietBus Unit)) (fun _ _ => true)
          (usbCmdRegister (Comm.CmdState.start Comm.commInitCommand)
            (⟨⟨7, some 5, 1, 1⟩, (), 0, []⟩ : World Unit)).2 bindWrite = some w ∧
        w.usbctrl = ⟨1, some 0, 0xBE57, 0x0238⟩ := ⟨_, rfl, by decide +kernel⟩
  have hreach : Reach (usbStep (quietBus Unit)) Registered anyStep w :=
    Reach.of_exec (fun _ _ _ => trivial) (.start ⟨_, _, rfl, rfl⟩) hrun
  have howned := usb_handle_owned hreach
  exact ⟨w, hreach, hctrl, howned.1, fun s => (howned.2.2 s).2⟩

end Usb

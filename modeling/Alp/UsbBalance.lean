import Alp.UsbHandle

/-!
# The balance of libusb's resources

`held` counts the successful `libusb_init` calls of a log against its `libusb_exit`
calls, and the device lists obtained and freed are a history of the one-handle
automaton of `Ownership`.  `Balanced` says that libusb is held once while a device is
bound and not otherwise, and that no device list is left.

Several ways out of the commands leave something behind: an `unbind` of a bound device
does not call `libusb_exit`, and a `bind`, `list` or `test` whose later libusb call
fails returns without it.  `Releases` is the condition that a step takes none of them;
it is exactly when the step keeps the balance (`balanced_iff_releases`).
-/

set_option autoImplicit false

namespace Usb

open CString Hoare Ownership Transition

variable {σ : Type}

/-- What an event adds to the balance of `libusb_init` and `libusb_exit`. -/
def Event.initDelta : Event → Int
  | .init r => if r = 0 then 1 else 0
  | .exit => -1
  | _ => 0

/-- What an event does with a device list. -/
def Event.listOp? : Event → Option (Op Unit)
  | .getDeviceList r => if 0 ≤ r then some (.acquire ()) else none
  | .freeDeviceList => some (.release ())
  | _ => none

/-- Successful `libusb_init` calls less `libusb_exit` calls. -/
def held : List Event → Int
  | [] => 0
  | e :: log => e.initDelta + held log

/-- What was done with device lists. -/
def listOps (log : List Event) : List (Op Unit) :=
  log.filterMap Event.listOp?

@[simp] theorem held_append (log rest : List Event) :
    held (log ++ rest) = held log + held rest := by
  induction log with
  | nil => exact (Int.zero_add _).symm
  | cons e log ih =>
      rw [List.cons_append, held, held, ih]
      omega

@[simp] theorem listOps_append (log rest : List Event) :
    listOps (log ++ rest) = listOps log ++ listOps rest :=
  List.filterMap_append

/-- libusb is held while a device is bound, and every device list was freed once. -/
structure Balanced (w : World σ) : Prop where
  held : held w.log = if w.usbctrl.bind = 0 then 0 else 1
  lists : Accepted (listOps w.log) none

/-- What a world's `bind` says libusb should be held for. -/
def World.holds (w : World σ) : Int :=
  if w.usbctrl.bind = 0 then 0 else 1

/-- Events around no device list: the balance is about their `libusb_init` and
`libusb_exit` calls. -/
theorem Balanced.extend_iff {w w' : World σ} (h : Balanced w) {events : List Event}
    (hlog : w'.log = w.log ++ events) (hops : listOps events = []) :
    Balanced w' ↔ w.holds + Usb.held events = w'.holds := by
  have hheld : Usb.held w'.log = w.holds + Usb.held events := by
    rw [hlog, held_append, h.held]
    rfl
  constructor
  · intro h'
    exact hheld.symm.trans h'.held
  · intro hsum
    refine ⟨hheld.trans hsum, ?_⟩
    rw [hlog, listOps_append, hops, List.append_nil]
    exact h.lists

/-- No descriptor of the list fails to be read. -/
def descriptorsRead (lib : Libusb σ) : List Nat → σ → Bool
  | [], _ => true
  | dev :: rest, s =>
    let desc := lib.getDeviceDescriptor dev s
    decide (0 ≤ desc.1.1) &&
      descriptorsRead lib rest (lib.getActiveConfigDescriptor dev desc.2).2

/-- The device list is obtained once libusb is. -/
def listObtained (lib : Libusb σ) (s : σ) : Bool :=
  decide (0 ≤ (lib.getDeviceList (lib.init s).2).1.1)

/-- The condition on a step: it is no `unbind` of a bound device, and once libusb is
initialised the device list is obtained, its descriptors are read, and the device of a
`bind` is opened. -/
def Releases (lib : Libusb σ) (w : World σ) (a : UsbCmd × List (List UInt8)) : Prop :=
  match a.1 with
  | .list | .list1 => (lib.init w.bus).1 = 0 → listObtained lib w.bus = true ∧
      descriptorsRead lib (lib.getDeviceList (lib.init w.bus).2).1.2
        (lib.getDeviceList (lib.init w.bus).2).2 = true
  | .test => ¬ ((argOr a.2 usbIdxArgc1 0 : BitVec 16) = 0 ∨
      (argOr a.2 usbIdxArgc2 0 : BitVec 16) = 0) →
        (lib.init w.bus).1 = 0 → listObtained lib w.bus = true
  | .bind =>
    let vid := argOr a.2 usbIdxArgc1 bindDefVid
    let pid := argOr a.2 usbIdxArgc2 bindDefPid
    w.usbctrl.bind ≠ 1 → ¬ (vid = 0 ∨ pid = 0) → (lib.init w.bus).1 = 0 →
      (lib.openDeviceWithVidPid vid pid (lib.init w.bus).2).1 = true
  | .unbind => w.usbctrl.bind = 0
  | .read | .write | .fm => True

/-- What `list` and `test` do with libusb, all the way through or not. -/
inductive ListEvents (through : Prop) : List Event → Prop
  | nothing (h : through) : ListEvents through []
  | noInit (h : through) (r : Int) (hr : r ≠ 0) : ListEvents through [.init r]
  | left (h : ¬ through) (r : Int) : ListEvents through [.init 0, .getDeviceList r]
  | done (h : through) (r : Int) (hr : 0 ≤ r) :
      ListEvents through [.init 0, .getDeviceList r, .freeDeviceList, .exit]

/-- The balance survives if and only if the command went all the way through. -/
theorem ListEvents.balanced_iff {w w' : World σ} (h : Balanced w) (hctrl : w'.usbctrl = w.usbctrl)
    {through : Prop} {events : List Event} (hevents : ListEvents through events)
    (hlog : w'.log = w.log ++ events) : Balanced w' ↔ through := by
  have hheld := h.held
  have hlists := h.lists
  constructor
  · intro h'
    cases hevents with
    | nothing hthrough | noInit hthrough | done hthrough => exact hthrough
    | left hnot r =>
        have hheld' := h'.held
        rw [hlog, hctrl, held_append, hheld] at hheld'
        have hone : held [.init 0, .getDeviceList r] = 1 := rfl
        omega
  · intro hthrough
    refine ⟨?_, ?_⟩
    · rw [hlog, hctrl, held_append, hheld]
      cases hevents with
      | nothing | done => simp [held, Event.initDelta]
      | noInit _ r hr => simp [held, Event.initDelta, hr]
      | left hnot => exact absurd hthrough hnot
    · rw [hlog, listOps_append]
      cases hevents with
      | nothing =>
          have hops : listOps [] = [] := rfl
          rw [hops, List.append_nil]
          exact hlists
      | noInit _ r hr =>
          have hops : listOps [.init r] = [] := rfl
          rw [hops, List.append_nil]
          exact hlists
      | left hnot => exact absurd hthrough hnot
      | done _ r hr =>
          have hops : listOps [.init 0, .getDeviceList r, .freeDeviceList, .exit] =
              [.acquire ()] ++ [.release ()] := by
            simp [listOps, List.filterMap_cons, Event.listOp?, hr]
          rw [hops, ← List.append_assoc]
          exact (hlists.acquire ()).release

section Commands

variable (lib : Libusb σ)

/-- The log and `usbctrl` are as before. -/
def SameLog (w : World σ) (u : World σ) : Prop :=
  u.log = w.log ∧ u.usbctrl = w.usbctrl

/-- The loop of `list` leaves the function if a descriptor fails. -/
theorem usbListLoop_none (devs : List Nat) (w : World σ) :
    (usbListLoop lib devs w).1 = none ↔ descriptorsRead lib devs w.bus = true := by
  induction devs generalizing w with
  | nil => exact iff_of_true rfl rfl
  | cons dev rest ih =>
      let wd := (libusbGetDeviceDescriptor lib dev w).2
      simp only [descriptorsRead, Bool.and_eq_true, decide_eq_true_eq]
      by_cases hfail : (lib.getDeviceDescriptor dev w.bus).1.1 < 0
      · have hrun : usbListLoop lib (dev :: rest) w = (some (-1), wd) :=
          congrFun (if_pos hfail) wd
        rw [hrun]
        exact iff_of_false (fun h => by cases h) fun h => absurd h.1 (Int.not_le.mpr hfail)
      · have hrun : usbListLoop lib (dev :: rest) w =
            usbListLoop lib rest (libusbGetActiveConfigDescriptor lib dev wd).2 :=
          congrFun (if_neg hfail) wd
        rw [hrun, and_iff_right (Int.not_lt.mp hfail)]
        exact ih _

/-- The state of the bus is no part of the log. -/
theorem sameLog_bus {w : World σ} (u : World σ) (bus : σ) (h : SameLog w u) :
    SameLog w { u with bus := bus } :=
  h

/-- How `list` and `test` begin: libusb is initialised and the device list obtained. -/
def withDeviceList (k : Int → List Nat → UsbM σ Int) : UsbM σ Int := do
  let r ← libusbInit lib
  if r ≠ 0 then return r
  let devs ← libusbGetDeviceList lib
  if devs.1 < 0 then return -1
  k r devs.2

/-- What such a command does with libusb, if `k` frees the list and exits exactly when
`through` holds. -/
theorem withDeviceList_events (k : Int → List Nat → UsbM σ Int) {through : Prop} (w : World σ)
    (hinit : (lib.init w.bus).1 ≠ 0 → through)
    (hlist : (lib.init w.bus).1 = 0 → through → listObtained lib w.bus = true)
    (hk : (lib.init w.bus).1 = 0 → listObtained lib w.bus = true → ∀ wl : World σ,
      wl = (libusbGetDeviceList lib (libusbInit lib w).2).2 →
        let wk := (k (lib.init w.bus).1 (lib.getDeviceList (lib.init w.bus).2).1.2 wl).2
        wk.usbctrl = wl.usbctrl ∧
          (through ∧ wk.log = wl.log ++ [.freeDeviceList, .exit] ∨
            ¬ through ∧ wk.log = wl.log)) :
    ∃ events, (withDeviceList lib k w).2.log = w.log ++ events ∧
      (withDeviceList lib k w).2.usbctrl = w.usbctrl ∧ ListEvents through events := by
  let wi := (libusbInit lib w).2
  by_cases hfail : (lib.init w.bus).1 ≠ 0
  · have hrun : withDeviceList lib k w = ((lib.init w.bus).1, wi) := congrFun (if_pos hfail) wi
    rw [hrun]
    exact ⟨[.init (lib.init w.bus).1], rfl, rfl, .noInit (hinit hfail) _ hfail⟩
  have hzero : (lib.init w.bus).1 = 0 := not_not.mp hfail
  have hwi : wi.log = w.log ++ [.init 0] := by
    rw [← hzero]
    rfl
  let devs := (libusbGetDeviceList lib wi).1
  let wl := (libusbGetDeviceList lib wi).2
  have hwl : wl.log = w.log ++ [.init 0, .getDeviceList devs.1] := by
    show wi.log ++ [.getDeviceList devs.1] = _
    rw [hwi, List.append_assoc]
    rfl
  by_cases hnone : devs.1 < 0
  · have hrun : withDeviceList lib k w = (-1, wl) :=
      (congrFun (if_neg hfail) wi).trans (congrFun (if_pos hnone) wl)
    rw [hrun]
    refine ⟨_, hwl, rfl, .left (fun hthrough => ?_) _⟩
    exact absurd (of_decide_eq_true (hlist hzero hthrough)) (Int.not_le.mpr hnone)
  · have hrun : withDeviceList lib k w = k (lib.init w.bus).1 devs.2 wl :=
      (congrFun (if_neg hfail) wi).trans (congrFun (if_neg hnone) wl)
    have hobtained : (0 : Int) ≤ devs.1 := Int.not_lt.mp hnone
    obtain ⟨hctrl, hlog⟩ := hk hzero (decide_eq_true hobtained) wl rfl
    rw [hrun]
    rcases hlog with ⟨hthrough, hlog⟩ | ⟨hnot, hlog⟩
    · refine ⟨[.init 0, .getDeviceList devs.1, .freeDeviceList, .exit], ?_, hctrl,
        .done hthrough _ hobtained⟩
      refine hlog.trans ?_
      rw [hwl, List.append_assoc]
      rfl
    · exact ⟨_, hlog.trans hwl, hctrl, .left hnot _⟩

/-- How `list` ends. -/
def listRest : Option Int → UsbM σ Int
  | some r => pure r
  | none => do
    libusbFreeDeviceList lib
    libusbExit lib
    return 0

/-- The events of `usb list`: balanced unless libusb is initialised and then the list or a
descriptor fails. -/
theorem usbHandleCmdList_events (w : World σ) :
    ∃ events, (usbHandleCmdList lib w).2.log = w.log ++ events ∧
      (usbHandleCmdList lib w).2.usbctrl = w.usbctrl ∧
      ListEvents ((lib.init w.bus).1 = 0 → listObtained lib w.bus = true ∧
        descriptorsRead lib (lib.getDeviceList (lib.init w.bus).2).1.2
          (lib.getDeviceList (lib.init w.bus).2).2 = true) events := by
  refine withDeviceList_events lib (fun _ devs => usbListLoop lib devs >>= listRest lib) w
    (fun hfail hzero => absurd hzero hfail) (fun hzero h => (h hzero).1) ?_
  rintro hzero hobtained wl rfl
  generalize (lib.getDeviceList (lib.init w.bus).2).1.2 = devs
  let wl := (libusbGetDeviceList lib (libusbInit lib w).2).2
  have hnone : (usbListLoop lib devs wl).1 = none ↔
      descriptorsRead lib devs (lib.getDeviceList (lib.init w.bus).2).2 = true :=
    usbListLoop_none lib devs wl
  have hsame : SameLog wl (usbListLoop lib devs wl).2 :=
    usbListLoop_frame lib sameLog_bus devs wl ⟨rfl, rfl⟩
  show (listRest lib (usbListLoop lib devs wl).1 (usbListLoop lib devs wl).2).2.usbctrl = _ ∧
    (_ ∧ (listRest lib (usbListLoop lib devs wl).1 (usbListLoop lib devs wl).2).2.log = _ ∨
      _ ∧ (listRest lib (usbListLoop lib devs wl).1 (usbListLoop lib devs wl).2).2.log = _)
  generalize (usbListLoop lib devs wl).2 = wk at *
  cases hleft : (usbListLoop lib devs wl).1 with
  | none =>
      refine ⟨hsame.2, Or.inl ⟨fun _ => ⟨hobtained, hnone.mp hleft⟩, ?_⟩⟩
      show (wk.log ++ [.freeDeviceList]) ++ [.exit] = _
      rw [hsame.1, List.append_assoc]
      rfl
  | some r =>
      refine ⟨hsame.2, Or.inr ⟨fun hthrough => ?_, hsame.1⟩⟩
      rw [hnone.mpr (hthrough hzero).2] at hleft
      cases hleft

/-- The events of `usb test`: balanced unless libusb is initialised and then the list fails. -/
theorem usbHandleCmdTest_events (argv : List (List UInt8)) (w : World σ) :
    ∃ events, (usbHandleCmdTest lib argv w).2.log = w.log ++ events ∧
      (usbHandleCmdTest lib argv w).2.usbctrl = w.usbctrl ∧
      ListEvents (¬ ((argOr argv usbIdxArgc1 0 : BitVec 16) = 0 ∨
        (argOr argv usbIdxArgc2 0 : BitVec 16) = 0) →
          (lib.init w.bus).1 = 0 → listObtained lib w.bus = true) events := by
  let vid : BitVec 16 := argOr argv usbIdxArgc1 0
  let pid : BitVec 16 := argOr argv usbIdxArgc2 0
  by_cases hids : vid = 0 ∨ pid = 0
  · have hrun : usbHandleCmdTest lib argv w = (-1, w) := congrFun (if_pos hids) w
    rw [hrun]
    exact ⟨[], (List.append_nil _).symm, rfl, .nothing fun hne => absurd hids hne⟩
  let k := fun (r : Int) devs => do
    let r ← usbTestLoop lib vid pid r devs
    libusbFreeDeviceList lib
    libusbExit lib
    return r
  have hrun : usbHandleCmdTest lib argv w = withDeviceList lib k w := congrFun (if_neg hids) w
  rw [hrun]
  refine withDeviceList_events lib k w (fun hfail _ hzero => absurd hzero hfail)
    (fun hzero h => h hids hzero) ?_
  rintro hzero hobtained wl rfl
  generalize (lib.getDeviceList (lib.init w.bus).2).1.2 = devs
  let wl := (libusbGetDeviceList lib (libusbInit lib w).2).2
  have hsame : SameLog wl (usbTestLoop lib vid pid (lib.init w.bus).1 devs wl).2 :=
    usbTestLoop_frame lib sameLog_bus vid pid devs (lib.init w.bus).1 wl ⟨rfl, rfl⟩
  refine ⟨hsame.2, Or.inl ⟨fun _ _ => hobtained, ?_⟩⟩
  show ((usbTestLoop lib vid pid (lib.init w.bus).1 devs wl).2.log ++ [.freeDeviceList]) ++
    [.exit] = _
  rw [hsame.1, List.append_assoc]
  rfl

/-- What follows a successful `libusb_init` in the log. -/
theorem libusbInit_log {w : World σ} (hzero : (lib.init w.bus).1 = 0) (e : Event) :
    (libusbInit lib w).2.log ++ [e] = w.log ++ [.init 0, e] := by
  have hlog : (libusbInit lib w).2.log = w.log ++ [.init 0] := by
    rw [← hzero]
    rfl
  rw [hlog, List.append_assoc]
  rfl

/-- A bind keeps the balance unless it initialises libusb and opens no device. -/
theorem bindRun_balanced_iff {vid pid : BitVec 16} {w w' : World σ} {r : Int} (h : Balanced w)
    (howned : Owned w) (hrun : BindRun lib vid pid w r w') :
    Balanced w' ↔ (w.usbctrl.bind ≠ 1 → ¬ (vid = 0 ∨ pid = 0) → (lib.init w.bus).1 = 0 →
      (lib.openDeviceWithVidPid vid pid (lib.init w.bus).2).1 = true) := by
  cases hrun with
  | already hbind => exact iff_of_true h fun hne => absurd hbind hne
  | badIds hbind hids => exact iff_of_true h fun _ hne => absurd hids hne
  | noInit hbind hids hinit =>
      have hfail : (lib.init w.bus).1 ≠ 0 := hinit
      have hnone : held [.init (lib.init w.bus).1] = 0 := by simp [held, Event.initDelta, hfail]
      have hlog : (libusbInit lib w).2.log = w.log ++ [.init (lib.init w.bus).1] := rfl
      refine iff_of_true ((h.extend_iff hlog rfl).mpr ?_) fun _ _ hzero => absurd hzero hinit
      rw [hnone, Int.add_zero]
      rfl
  | noOpen hbind hids hinit hopen =>
      have hzero : (lib.init w.bus).1 = 0 := hinit
      rcases libusbOpenDeviceWithVidPid_cases lib vid pid (libusbInit lib w).2 with
        ⟨hfalse, hfail⟩ | ⟨-, hok⟩
      · refine iff_of_false (fun h' => ?_) fun hopens => ?_
        · -- libusb stays initialised and nothing is bound to it
          rw [hfail, h.extend_iff (libusbInit_log lib hzero (.openDevice vid pid none)) rfl] at h'
          have hone : held [.init 0, .openDevice vid pid none] = 1 := rfl
          have hsame : w.holds + 1 = w.holds := by
            rw [hone] at h'
            exact h'
          omega
        · have htrue := hopens hbind hids hzero
          rw [show (lib.openDeviceWithVidPid vid pid (lib.init w.bus).2).1 = false from hfalse]
            at htrue
          cases htrue
      · rw [hok] at hopen
        cases hopen
  | opened hbind hids hinit hopen =>
      have hzero : (lib.init w.bus).1 = 0 := hinit
      rcases libusbOpenDeviceWithVidPid_cases lib vid pid (libusbInit lib w).2 with
        ⟨-, hfail⟩ | ⟨htrue, hok⟩
      · rw [hfail] at hopen
        cases hopen
      · refine iff_of_true ?_ fun _ _ _ => htrue
        rw [hok, h.extend_iff (libusbInit_log lib hzero (.openDevice vid pid (some w.opened))) rfl]
        have hunbound : w.usbctrl.bind = 0 := by
          have := howned.bind
          omega
        rw [World.holds, if_pos hunbound]
        rfl

/-- An unbind keeps the balance only where nothing was bound. -/
theorem unbindRun_balanced_iff {vid pid : BitVec 16} {w w' : World σ} (h : Balanced w)
    (hrun : UnbindRun lib vid pid w w') : Balanced w' ↔ w.usbctrl.bind = 0 := by
  cases hrun with
  | already hbind => exact iff_of_true h hbind
  | closed hbind hhandle =>
      refine iff_of_false (fun h' => ?_) hbind
      have hone := h.held
      rw [if_neg hbind] at hone
      have hzero : held (w.log ++ [.close w.usbctrl.handle]) = 0 := h'.held
      have hclose : held [.close w.usbctrl.handle] = 0 := rfl
      rw [held_append] at hzero
      omega
  | noHandle hbind hhandle =>
      refine iff_of_false (fun h' => ?_) hbind
      have hone := h.held
      rw [if_neg hbind] at hone
      have hzero : held w.log = 0 := h'.held
      omega

/-- Transfers and output do not touch the balance. -/
theorem balanced_transferFrame {c : UsbCtrl} :
    TransferFrame c fun w : World σ => Balanced w ∧ w.usbctrl = c where
  usbctrl := fun _ hw => hw.2
  transfer := by
    intro w bus setup data r _ hw
    exact ⟨(hw.1.extend_iff rfl rfl).mpr (Int.add_zero _), hw.2⟩
  output := by
    intro w e he hw
    have hops : listOps [e] = [] := by
      cases e <;> first | rfl | cases he
    have hnone : held [e] = 0 := by
      cases e <;> first | rfl | cases he
    have hlog : w.log ++ [e] = w.log ++ [e] := rfl
    refine ⟨(hw.1.extend_iff hlog hops).mpr ?_, hw.2⟩
    rw [hnone]
    exact Int.add_zero _

/-- **One command.**  It keeps the balance if and only if it releases what it takes. -/
theorem execUsbCmd_balanced_iff {w : World σ} (h : Balanced w) (howned : Owned w) (id : UsbCmd)
    (argv : List (List UInt8)) :
    Balanced (execUsbCmd lib id argv w).2 ↔ Releases lib w (id, argv) := by
  cases id with
  | list | list1 =>
      obtain ⟨events, hlog, hctrl, hevents⟩ := usbHandleCmdList_events lib w
      exact ListEvents.balanced_iff h hctrl hevents hlog
  | test =>
      obtain ⟨events, hlog, hctrl, hevents⟩ := usbHandleCmdTest_events lib argv w
      exact ListEvents.balanced_iff h hctrl hevents hlog
  | bind => exact bindRun_balanced_iff lib h howned (usbHandleCmdBind_run lib argv w)
  | unbind => exact unbindRun_balanced_iff lib h (usbHandleCmdUnbind_run lib argv w).2
  | read | write =>
      exact iff_of_true
        (usbHandleCmdRw_frame lib balanced_transferFrame argv _ w ⟨h, rfl⟩).1 trivial
  | fm =>
      exact iff_of_true
        (usbHandleCmdFm_frame lib balanced_transferFrame argv w ⟨h, rfl⟩).1 trivial

end Commands

/-- After registering nothing is held. -/
theorem Registered.balanced {w : World σ} (h : Registered w) : Balanced w := by
  obtain ⟨before, s, hlog, rfl⟩ := h
  have hempty : (usbCmdRegister s before).2.log = [] := hlog
  refine ⟨?_, ?_⟩
  · rw [hempty]
    rfl
  · rw [hempty]
    exact accepted_nil

/-- **libusb's resources are balanced.**  In every run whose commands release what they
take, the balance holds in every state reached; a next command keeps it only if it
releases what it takes too. -/
theorem balanced_iff_releases {lib : Libusb σ} {w : World σ}
    (h : Reach (usbStep lib) Registered (Releases lib) w) :
    Balanced w ∧ ∀ a u, usbStep lib w a = some u → (Balanced u ↔ Releases lib w a) := by
  have hinit : ∀ s : World σ, Registered s → Balanced s ∧ Owned s :=
    fun _ hr => ⟨hr.balanced, hr.owned⟩
  have hkeep : ∀ (s : World σ) (a : UsbCmd × List (List UInt8)) (t : World σ),
      Reach (usbStep lib) Registered (Releases lib) s → Balanced s ∧ Owned s →
        Releases lib s a → usbStep lib s a = some t → Balanced t ∧ Owned t := by
    rintro s a t _ ⟨hbal, howned⟩ hrel hstep
    cases hstep
    exact ⟨(execUsbCmd_balanced_iff lib hbal howned a.1 a.2).mpr hrel,
      execUsbCmd_owned lib a.1 a.2 s ⟨howned, rfl⟩⟩
  have hinv : Balanced w ∧ Owned w := Reach.invariant hinit hkeep h
  refine ⟨hinv.1, fun a u hstep => ?_⟩
  cases hstep
  exact execUsbCmd_balanced_iff lib hinv.1 hinv.2 a.1 a.2

/-- `usb list`, then `usb bind`. -/
theorem balanced_list_bind :
    ∃ w : World Unit, Reach (usbStep (quietBus Unit)) Registered (Releases (quietBus Unit)) w ∧
      w.usbctrl.bind = 1 ∧ held w.log = 1 ∧ Balanced w := by
  let lib := quietBus Unit
  have hlist : Releases lib registeredWorld (.list, []) := fun _ => ⟨rfl, rfl⟩
  have hreach : Reach (usbStep lib) Registered (Releases lib)
      (execUsbCmd lib .list [] registeredWorld).2 :=
    (Reach.start registered_registeredWorld).next hlist rfl
  have hbind : Releases lib (execUsbCmd lib .list [] registeredWorld).2 (.bind, []) :=
    fun _ _ _ => rfl
  have hreach' : Reach (usbStep lib) Registered (Releases lib)
      (execUsbCmd lib .bind [] (execUsbCmd lib .list [] registeredWorld).2).2 :=
    hreach.next hbind rfl
  exact ⟨_, hreach', by decide +kernel, by decide +kernel, (balanced_iff_releases hreach').1⟩

/-- After `usb bind` and `usb unbind` libusb is still initialised. -/
theorem unbind_keeps_libusb :
    ¬ ∀ w : World Unit, Reach (usbStep (quietBus Unit)) Registered anyStep w → Balanced w := by
  intro hclaim
  let lib := quietBus Unit
  let bound := (execUsbCmd lib .bind [] registeredWorld).2
  have hreach : Reach (usbStep lib) Registered anyStep bound :=
    (Reach.start registered_registeredWorld).next (a := (UsbCmd.bind, [])) trivial rfl
  have hunbound : Reach (usbStep lib) Registered anyStep (execUsbCmd lib .unbind [] bound).2 :=
    hreach.next (a := (UsbCmd.unbind, [])) trivial rfl
  have hheld := (hclaim _ hunbound).held
  exact absurd hheld (by decide +kernel)

end Usb

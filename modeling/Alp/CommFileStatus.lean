import Alp.CommFile
import Alp.Ownership
import Alp.Transition

/-!
# Status and descriptor of the file object

The runs of a `struct comm_file` under any kernel.  `Owned` says that `fd` is a
descriptor that this object opened and has not closed exactly while `status` is not zero;
every method keeps it, except for an `open` whose second system call gets no descriptor.
-/

set_option autoImplicit false

namespace CommFile

open CString Hoare Ownership Transition

variable {σ : Type}

/-- A method call; `fuel` bounds the `read` calls that are looked at. -/
inductive Call
  | openFile (path : Option CStr)
  | close
  | read (buf : Mem) (nbytes tmsec : Int) (fuel : Nat)
  | write (buf : Buf)
  | append (buf : Buf)
  | insert (pos : Int) (buf : Buf)
  | atStart
  | atEnd
  | atMid (offs : Int)
  | destroy

/-- The world, what the last call returned, and whether there are no more calls: after
`comm_file_destroy`, and in a `comm_file_read` that has not ended. -/
structure Run (σ : Type) where
  world : World σ
  ret : Option Int
  ended : Bool

/-- One method call. -/
def step (K : Kernel σ) (s : Run σ) (c : Call) : Option (Run σ) :=
  let done (r : Int × World σ) : Run σ := ⟨r.2, some r.1, false⟩
  if s.ended then none
  else
    some <| match c with
    | .openFile path => done (commFileOpen K path s.world)
    | .close => let r := commFileClose K s.world; ⟨r.2, r.1, false⟩
    | .read buf nbytes tmsec fuel =>
      let r := commFileRead K buf nbytes tmsec fuel s.world
      ⟨r.2, r.1.map (·.1), r.1.isNone⟩
    | .write buf => done (commFileWrite K buf s.world)
    | .append buf => done (commFileAppend K buf s.world)
    | .insert pos buf => done (commFileInsert K pos buf s.world)
    | .atStart => done (commFileAtStart K s.world)
    | .atEnd => done (commFileAtEnd K s.world)
    | .atMid offs => done (commFileAtMid K offs s.world)
    | .destroy => ⟨(commFileDestroy K s.world).2, none, true⟩

/-- After `comm_file_create`. -/
def IsStart (s : Run σ) : Prop :=
  s.world.file = commFileCreate ∧ s.world.log = [] ∧ s.ended = false

/-- What an event does with a descriptor. -/
def Event.op? : Event → Option (Op Fd)
  | .opened fd => if 0 ≤ fd.num then some (.acquire fd) else none
  | .probed fd => some (.release fd)
  | .onFd .close fd _ => some (.release fd)
  | .onFd _ fd _ => some (.use fd)

/-- What was done with descriptors. -/
def World.ops (w : World σ) : List (Op Fd) :=
  w.log.filterMap Event.op?

/-- `status` says whether `fd` is open, and every system call on `fd` was made by a method
that found a status other than zero. -/
structure StatusOk (w : World σ) : Prop where
  status : w.file.status ≠ 0 ↔ w.file.fd ∈ live w.ops
  guarded : ∀ call fd status, .onFd call fd status ∈ w.log → status ≠ 0

/-- The object had a descriptor, or the last system call of the method got one. -/
def GotFd (w w' : World σ) : Prop :=
  w.file.status ≠ 0 ∨ ∃ es fd, w'.log = w.log ++ es ++ [.opened fd] ∧ 0 ≤ fd.num

/-- `open` returns 0 only with a descriptor, and otherwise leaves the object alone. -/
def OpenOk (s : Run σ) (c : Call) (t : Run σ) : Prop :=
  ∀ path, c = .openFile path →
    (t.ret = some 0 → t.world.file.status ≠ 0) ∧
    (¬ GotFd s.world t.world → t.ret ≠ some 0 ∧ t.world.file = s.world.file)

/-- What the second `open` of `comm_file_open` returns. -/
def reopenFd (K : Kernel σ) (path : CStr) (w : World σ) : Fd :=
  let r := commFileProbe K path w
  (commFileReopen K path r.1 r.2).1

/-- An `open` of an object without a descriptor gets one from its second system call. -/
def Reopens (K : Kernel σ) (s : Run σ) (c : Call) : Prop :=
  ∀ path, c = .openFile (some path) → s.world.file.status = 0 →
    0 ≤ (reopenFd K path s.world).num

/-- `StatusOk` for descriptors with different names, all given out before. -/
structure Owned (w : World σ) : Prop extends StatusOk w where
  fresh : ∀ fd ∈ live w.ops, ∃ n < w.opens, fd.name = some n
  nodup : (live w.ops).Nodup
  known : ∀ n, w.file.fd.name = some n → n < w.opens

/-- `Owned`, and the object is `f`. -/
def OwnedAt (f : File) (w : World σ) : Prop :=
  Owned w ∧ w.file = f

/-- An event at the end of the log adds its own operation and no other. -/
theorem World.ops_snoc (w : World σ) (file : File) (kernel : σ) (opens : Nat) (e : Event) :
    World.ops { w with
      file := file, kernel := kernel, opens := opens, log := w.log ++ [e] } =
      w.ops ++ e.op?.toList := by
  cases h : e.op? <;> simp [World.ops, h]

/-- A name that was not given out is not live. -/
theorem Owned.not_live {w : World σ} (h : Owned w) {fd : Fd} (hfd : fd.name = some w.opens) :
    fd ∉ live w.ops := by
  intro hmem
  obtain ⟨n, hn, hname⟩ := h.fresh fd hmem
  rw [hfd] at hname
  cases hname
  exact Nat.lt_irrefl _ hn

/-- A call on the open descriptor. -/
theorem sysOnFd_owned {α : Type} {f : File} (hf : f.status ≠ 0) {call : FdCall}
    (hcall : call ≠ .close) (run : σ → α × σ) :
    Triple (OwnedAt f) (sysOnFd f call run) fun _ => OwnedAt f := by
  intro w hw
  obtain ⟨howned, rfl⟩ := hw
  have hop : (Event.onFd call w.file.fd w.file.status).op? = some (.use w.file.fd) := by
    cases call with
    | close => exact absurd rfl hcall
    | read nbytes => rfl
    | write buf => rfl
    | lseek offs whence => rfl
  have hlive : live (World.ops { w with
      kernel := (run w.kernel).2,
      log := w.log ++ [.onFd call w.file.fd w.file.status] }) = live w.ops := by
    rw [World.ops_snoc, hop]
    exact live_use _ _
  refine ⟨⟨⟨?_, ?_⟩, ?_, ?_, howned.known⟩, rfl⟩
  · rw [sysOnFd, hlive]
    exact howned.status
  · intro call' fd status hmem
    rcases List.mem_append.mp hmem with hold | hnew
    · exact howned.guarded call' fd status hold
    · cases List.mem_singleton.mp hnew
      exact hf
  · rw [sysOnFd, hlive]
    exact howned.fresh
  · rw [sysOnFd, hlive]
    exact howned.nodup

/-- An event that is no call on a descriptor keeps the calls on descriptors guarded. -/
theorem snoc_guarded {w : World σ} (h : StatusOk w) {e : Event}
    (he : ∀ call fd status, e ≠ .onFd call fd status) :
    ∀ call fd status, .onFd call fd status ∈ w.log ++ [e] → status ≠ 0 := by
  intro call fd status hmem
  rcases List.mem_append.mp hmem with hold | hnew
  · exact h.guarded call fd status hold
  · exact absurd (List.mem_singleton.mp hnew).symm (he call fd status)

/-- A name that was given out stays known. -/
theorem Owned.known_succ {w : World σ} (h : Owned w) :
    ∀ n, w.file.fd.name = some n → n < w.opens + 1 := by
  intro n hn
  exact Nat.lt_succ_of_lt (h.known n hn)

/-- `open` itself makes no call on a descriptor. -/
theorem sysOpen_guarded (K : Kernel σ) {w : World σ} (h : StatusOk w) (path : CStr)
    (flag mode : Nat) :
    ∀ call fd status, .onFd call fd status ∈ (sysOpen K path flag mode w).2.log → status ≠ 0 :=
  snoc_guarded h (e := .opened (sysOpen K path flag mode w).1)
    (by intro call fd status he; cases he)

/-- An `open` that gets a descriptor. -/
theorem sysOpen_got (K : Kernel σ) {w : World σ} (howned : Owned w) (path : CStr)
    (flag mode : Nat) (hnum : 0 ≤ (K.openFile path flag mode w.kernel).1) :
    Owned (sysOpen K path flag mode w).2 ∧
      (sysOpen K path flag mode w).1.name = some w.opens ∧
      (sysOpen K path flag mode w).1 ∈ live (sysOpen K path flag mode w).2.ops := by
  have hfd : (sysOpen K path flag mode w).1 =
      ⟨(K.openFile path flag mode w.kernel).1, some w.opens⟩ := by
    rw [sysOpen, if_pos hnum]
  have hname : (sysOpen K path flag mode w).1.name = some w.opens := by rw [hfd]
  have hnew := howned.not_live hname
  have hlive : live (sysOpen K path flag mode w).2.ops =
      live w.ops ++ [(sysOpen K path flag mode w).1] := by
    have hop : (Event.opened (sysOpen K path flag mode w).1).op? =
        some (.acquire (sysOpen K path flag mode w).1) := by
      rw [Event.op?, if_pos (by rw [hfd]; exact hnum)]
    have hops := World.ops_snoc w w.file (K.openFile path flag mode w.kernel).2 (w.opens + 1)
      (.opened (sysOpen K path flag mode w).1)
    rw [hop] at hops
    exact (congrArg live hops).trans (live_acquire _ _)
  refine ⟨⟨⟨?_, sysOpen_guarded K howned.toStatusOk path flag mode⟩, ?_, ?_,
    howned.known_succ⟩, hname, ?_⟩
  · rw [hlive]
    have hne : w.file.fd ≠ (sysOpen K path flag mode w).1 := by
      intro heq
      have hlt := howned.known w.opens (by rw [heq, hfd])
      exact Nat.lt_irrefl _ hlt
    rw [List.mem_append, List.mem_singleton]
    exact howned.status.trans (or_iff_left hne).symm
  · rw [hlive]
    intro fd hmem
    rcases List.mem_append.mp hmem with hold | hlast
    · obtain ⟨n, hn, hname⟩ := howned.fresh fd hold
      exact ⟨n, Nat.lt_succ_of_lt hn, hname⟩
    · rw [List.mem_singleton.mp hlast, hfd]
      exact ⟨w.opens, Nat.lt_succ_self _, rfl⟩
  · rw [hlive]
    refine List.nodup_append.mpr ⟨howned.nodup, by simp, ?_⟩
    intro fd hold fd' hlast heq
    rw [List.mem_singleton.mp hlast] at heq
    rw [heq] at hold
    exact hnew hold
  · rw [hlive]
    simp

/-- An `open` that gets none. -/
theorem sysOpen_none (K : Kernel σ) {w : World σ} (howned : Owned w) (path : CStr)
    (flag mode : Nat) (hnum : ¬ 0 ≤ (K.openFile path flag mode w.kernel).1) :
    Owned (sysOpen K path flag mode w).2 ∧
      (sysOpen K path flag mode w).1.name = none ∧
      (sysOpen K path flag mode w).1 ∉ live (sysOpen K path flag mode w).2.ops := by
  have hfd : (sysOpen K path flag mode w).1 =
      ⟨(K.openFile path flag mode w.kernel).1, none⟩ := by
    rw [sysOpen, if_neg hnum]
  have hlive : live (sysOpen K path flag mode w).2.ops = live w.ops := by
    have hop : (Event.opened (sysOpen K path flag mode w).1).op? = none := by
      rw [Event.op?, if_neg (by rw [hfd]; exact hnum)]
    have hops := World.ops_snoc w w.file (K.openFile path flag mode w.kernel).2 (w.opens + 1)
      (.opened (sysOpen K path flag mode w).1)
    rw [hop, Option.toList_none, List.append_nil] at hops
    exact congrArg live hops
  refine ⟨⟨⟨?_, sysOpen_guarded K howned.toStatusOk path flag mode⟩, ?_, ?_,
    howned.known_succ⟩, by rw [hfd], ?_⟩
  · rw [hlive]
    exact howned.status
  · rw [hlive]
    intro fd hmem
    obtain ⟨n, hn, hname⟩ := howned.fresh fd hmem
    exact ⟨n, Nat.lt_succ_of_lt hn, hname⟩
  · rw [hlive]
    exact howned.nodup
  · rw [hlive, hfd]
    intro hmem
    obtain ⟨n, -, hname⟩ := howned.fresh _ hmem
    cases hname

/-- Every `open` keeps the invariant; what it returns is live if it is a descriptor. -/
theorem sysOpen_owned (K : Kernel σ) (f : File) (path : CStr) (flag mode : Nat) :
    Triple (OwnedAt f) (sysOpen K path flag mode) fun fd w =>
      OwnedAt f w ∧ (∀ n, fd.name = some n → n < w.opens) ∧ (0 ≤ fd.num ↔ fd ∈ live w.ops) := by
  intro w hw
  obtain ⟨howned, rfl⟩ := hw
  by_cases hnum : 0 ≤ (K.openFile path flag mode w.kernel).1
  · obtain ⟨hafter, hname, hlive⟩ := sysOpen_got K howned path flag mode hnum
    refine ⟨⟨hafter, rfl⟩, ?_, iff_of_true hnum hlive⟩
    intro n hn
    rw [hname] at hn
    cases hn
    exact Nat.lt_succ_self _
  · obtain ⟨hafter, hname, hlive⟩ := sysOpen_none K howned path flag mode hnum
    refine ⟨⟨hafter, rfl⟩, ?_, iff_of_false hnum hlive⟩
    intro n hn
    rw [hname] at hn
    cases hn

/-- The `close` of the probe. -/
theorem sysCloseProbe_owned (K : Kernel σ) {f : File} {fd : Fd} (hne : fd ≠ f.fd) :
    Triple (OwnedAt f) (sysCloseProbe K fd) fun _ => OwnedAt f := by
  intro w hw
  obtain ⟨howned, rfl⟩ := hw
  have hlive : live (sysCloseProbe K fd w).2.ops = (live w.ops).erase fd :=
    (congrArg live (World.ops_snoc w w.file (K.close fd.num w.kernel).2 w.opens
      (.probed fd))).trans (live_release _ _)
  refine ⟨⟨⟨?_, ?_⟩, ?_, ?_, howned.known⟩, rfl⟩
  · rw [hlive]
    exact howned.status.trans (List.mem_erase_of_ne hne.symm).symm
  · exact snoc_guarded howned.toStatusOk (by intro call fd status h; cases h)
  · rw [hlive]
    intro fd' hmem
    exact howned.fresh fd' (List.mem_of_mem_erase hmem)
  · rw [hlive]
    exact howned.nodup.erase fd

/-- A method that starts by reading the object runs on the object it read. -/
theorem getFile_bind {α : Type} {f : File} {m : File → FileM σ α} {post : α → World σ → Prop}
    (h : Triple (OwnedAt f) (m f) post) : Triple (OwnedAt f) (getFile >>= m) post := by
  intro w hw
  obtain ⟨howned, rfl⟩ := hw
  exact h w ⟨howned, rfl⟩

/-- Setting the position. -/
theorem setPos_owned {f : File} (pos : Int) :
    Triple (OwnedAt (σ := σ) f) (setFile { f with pos := pos })
      fun _ => OwnedAt { f with pos := pos } := by
  intro w hw
  obtain ⟨howned, rfl⟩ := hw
  exact ⟨⟨⟨howned.status, howned.guarded⟩, howned.fresh, howned.nodup, howned.known⟩, rfl⟩

/-- `at` keeps the ownership. -/
theorem commFileAt_owned (K : Kernel σ) (f : File) (offs : Int) (whence : Whence) :
    Triple (OwnedAt f) (commFileAt K offs whence) fun _ => Owned := by
  apply getFile_bind
  apply Triple.ite
  · intro _
    exact Triple.pure fun w hw => hw.1
  · intro hf
    refine Triple.bind (sysOnFd_owned hf (by intro h; cases h) _) fun r => ?_
    refine Triple.bind (setPos_owned (cInt r)) fun _ => ?_
    exact Triple.pure fun w hw => hw.1

/-- `write` keeps the ownership. -/
theorem commFileWrite_owned (K : Kernel σ) (f : File) (buf : Buf) :
    Triple (OwnedAt f) (commFileWrite K buf) fun _ => Owned := by
  apply getFile_bind
  apply Triple.ite
  · intro _
    exact Triple.pure fun w hw => hw.1
  · intro hf
    refine Triple.bind (sysOnFd_owned hf (by intro h; cases h) _) fun r => ?_
    exact Triple.pure fun w hw => hw.1

/-- Any object will do. -/
theorem owned_of_ownedAt {α : Type} {m : FileM σ α}
    (h : ∀ f, Triple (OwnedAt f) m fun _ => Owned) : Triple Owned m fun _ => Owned :=
  fun w hw => h w.file w ⟨hw, rfl⟩

/-- `append` keeps the ownership. -/
theorem commFileAppend_owned (K : Kernel σ) (buf : Buf) :
    Triple Owned (commFileAppend K buf) fun _ => Owned := by
  refine Triple.bind (owned_of_ownedAt fun f => commFileAt_owned K f 0 .seekEnd) fun r => ?_
  apply Triple.ite
  · intro _
    exact Triple.pure fun w hw => hw
  · intro _
    exact owned_of_ownedAt fun f => commFileWrite_owned K f buf

/-- `insert` keeps the ownership. -/
theorem commFileInsert_owned (K : Kernel σ) (pos : Int) (buf : Buf) :
    Triple Owned (commFileInsert K pos buf) fun _ => Owned := by
  refine Triple.bind (owned_of_ownedAt fun f => commFileAt_owned K f pos .seekSet) fun r => ?_
  apply Triple.ite
  · intro _
    exact Triple.pure fun w hw => hw
  · intro _
    exact owned_of_ownedAt fun f => commFileWrite_owned K f buf

/-- The read loop of an open object keeps the ownership, by induction on the fuel. -/
theorem readLoop_owned (K : Kernel σ) {f : File} (hf : f.status ≠ 0) (fuel : Nat)
    (last usCnt len : Int) (pd : Mem) :
    Triple (OwnedAt f) (readLoop K f fuel last usCnt len pd) fun _ => Owned := by
  induction fuel generalizing last usCnt len pd with
  | zero =>
      unfold readLoop
      apply Triple.ite
      · intro _
        exact Triple.pure fun w hw => hw.1
      · intro _
        exact Triple.pure fun w hw => hw.1
  | succ fuel ih =>
      unfold readLoop
      dsimp only
      apply Triple.ite
      · intro _
        exact Triple.pure fun w hw => hw.1
      intro _
      refine Triple.bind (sysOnFd_owned hf (by intro h; cases h) _) fun res => ?_
      cases res with
      | error => exact ih _ _ _ _
      | bytes bs =>
          apply Triple.ite
          · intro _
            exact ih _ _ _ _
          intro _
          apply Triple.ite
          · intro _
            exact ih _ _ _ _
          intro _
          apply Triple.ite
          · intro _
            exact Triple.pure fun w hw => hw.1
          · intro _
            exact ih _ _ _ _

/-- `read` keeps the ownership. -/
theorem commFileRead_owned (K : Kernel σ) (f : File) (buf : Mem) (nbytes tmsec : Int)
    (fuel : Nat) : Triple (OwnedAt f) (commFileRead K buf nbytes tmsec fuel) fun _ => Owned := by
  apply getFile_bind
  apply Triple.ite
  · intro _
    exact Triple.pure fun w hw => hw.1
  · intro hf
    exact readLoop_owned K hf fuel _ _ _ _

/-- `close` does its work only when the status says open. -/
theorem commFileClose_branch (K : Kernel σ) (w : World σ) :
    commFileClose K w =
      (if w.file.status ≠ 0 then do
        setFile { w.file with status := 0 }
        let r ← sysOnFd w.file .close (K.close w.file.fd.num)
        return some r
      else return none : FileM σ (Option Int)) w :=
  rfl

/-- `close` of an open object gives the descriptor back and clears the object. -/
theorem commFileClose_eq (K : Kernel σ) {w : World σ} (h : w.file.status ≠ 0) :
    (commFileClose K w).2 = { w with
      file := { w.file with status := 0 }
      kernel := (K.close w.file.fd.num w.kernel).2
      log := w.log ++ [.onFd .close w.file.fd w.file.status] } := by
  rw [commFileClose_branch, if_pos h]
  rfl

/-- `close` of a closed object does nothing. -/
theorem commFileClose_idle (K : Kernel σ) {w : World σ} (h : w.file.status = 0) :
    commFileClose K w = (none, w) := by
  rw [commFileClose_branch, if_neg (not_not.mpr h)]
  rfl

/-- `close` keeps the ownership. -/
theorem commFileClose_owned (K : Kernel σ) :
    Triple (Owned (σ := σ)) (commFileClose K) fun _ => Owned := by
  intro w howned
  by_cases h : w.file.status = 0
  · rw [commFileClose_idle K h]
    exact howned
  · have hlive : live (commFileClose K w).2.ops = (live w.ops).erase w.file.fd := by
      rw [commFileClose_eq K h]
      exact (congrArg live (World.ops_snoc w { w.file with status := 0 }
        (K.close w.file.fd.num w.kernel).2 w.opens
        (.onFd .close w.file.fd w.file.status))).trans (live_release _ _)
    have hfile : (commFileClose K w).2.file = { w.file with status := 0 } := by
      rw [commFileClose_eq K h]
    have hlog : (commFileClose K w).2.log =
        w.log ++ [.onFd .close w.file.fd w.file.status] := by
      rw [commFileClose_eq K h]
    have hopens : (commFileClose K w).2.opens = w.opens := by
      rw [commFileClose_eq K h]
    refine ⟨⟨?_, ?_⟩, ?_, ?_, ?_⟩
    · rw [hlive, hfile]
      have hgone : w.file.fd ∉ (live w.ops).erase w.file.fd := howned.nodup.not_mem_erase
      simp [hgone]
    · rw [hlog]
      intro call fd status hmem
      rcases List.mem_append.mp hmem with hold | hnew
      · exact howned.guarded call fd status hold
      · cases List.mem_singleton.mp hnew
        exact h
    · rw [hlive, hopens]
      intro fd hmem
      exact howned.fresh fd (List.mem_of_mem_erase hmem)
    · rw [hlive]
      exact howned.nodup.erase _
    · rw [hfile, hopens]
      exact howned.known

/-- `destroy` keeps the ownership. -/
theorem commFileDestroy_owned (K : Kernel σ) :
    Triple (Owned (σ := σ)) (commFileDestroy K) fun _ => Owned := by
  apply owned_of_ownedAt
  intro f
  apply getFile_bind
  apply Triple.ite
  · intro _
    refine Triple.bind (Triple.conseq (commFileClose_owned K) (fun w hw => hw.1)
      fun _ _ hw => hw) fun _ => ?_
    exact Triple.pure fun w hw => hw
  · intro _
    exact Triple.pure fun w hw => hw.1

/-- The probe of `open` gives back what it opened. -/
theorem commFileProbe_owned (K : Kernel σ) {f : File} (hf : f.status = 0) (path : CStr) :
    Triple (OwnedAt f) (commFileProbe K path) fun _ => OwnedAt f := by
  refine Triple.bind (sysOpen_owned K f path O_RDONLY 0) fun fd => ?_
  apply Triple.ite
  · intro hnum w hw
    obtain ⟨hat, -, hlive⟩ := hw
    have hne : fd ≠ f.fd := by
      rintro rfl
      have hmem := hlive.mp (Int.le_of_lt hnum)
      obtain ⟨howned, rfl⟩ := hat
      exact howned.status.mpr hmem hf
    exact sysCloseProbe_owned K hne w hat
  · intro _
    exact Triple.pure fun w hw => hw.1

/-- The second open leaves a descriptor that is live exactly when it is not negative. -/
theorem commFileReopen_owned (K : Kernel σ) (f : File) (path : CStr) (find : Bool) :
    Triple (OwnedAt f) (commFileReopen K path find) fun fd w =>
      OwnedAt f w ∧ (∀ n, fd.name = some n → n < w.opens) ∧ (0 ≤ fd.num ↔ fd ∈ live w.ops) := by
  apply Triple.ite
  · intro _
    exact sysOpen_owned K f _ _ _
  · intro _
    exact sysOpen_owned K f _ _ _

/-- The world before the object is set. -/
def reopened (K : Kernel σ) (path : CStr) (w : World σ) : World σ :=
  let r := commFileProbe K path w
  (commFileReopen K path r.1 r.2).2

/-- `open` of a path does its work only when the status says closed. -/
theorem commFileOpen_branch (K : Kernel σ) (path : CStr) (w : World σ) :
    commFileOpen K (some path) w =
      (if w.file.status ≠ 0 then return 0
      else do
        let find ← commFileProbe K path
        let fd ← commFileReopen K path find
        setFile (openedFile w.file path find fd)
        return 0 : FileM σ Int) w :=
  rfl

/-- `open` without a path fails on a closed object and answers 0 on an open one. -/
theorem commFileOpen_branch_null (K : Kernel σ) (w : World σ) :
    commFileOpen K none w =
      (if w.file.status ≠ 0 then return 0 else return -1 : FileM σ Int) w :=
  rfl

/-- `open` of a path on a closed object answers 0 and stores what the second open gave. -/
theorem commFileOpen_some (K : Kernel σ) {w : World σ} (h : w.file.status = 0) (path : CStr) :
    commFileOpen K (some path) w =
      (0, { reopened K path w with
        file := openedFile w.file path (commFileProbe K path w).1 (reopenFd K path w) }) := by
  rw [commFileOpen_branch, if_neg (not_not.mpr h)]
  rfl

/-- `open` on an open object answers 0 and does nothing. -/
theorem commFileOpen_open (K : Kernel σ) {w : World σ} (h : w.file.status ≠ 0)
    (path : Option CStr) : commFileOpen K path w = (0, w) := by
  cases path with
  | none =>
      rw [commFileOpen_branch_null, if_pos h]
      rfl
  | some path =>
      rw [commFileOpen_branch, if_pos h]
      rfl

/-- `open` without a path on a closed object answers -1 and does nothing. -/
theorem commFileOpen_null (K : Kernel σ) {w : World σ} (h : w.file.status = 0) :
    commFileOpen K none w = (-1, w) := by
  rw [commFileOpen_branch_null, if_neg (not_not.mpr h)]
  rfl

/-- What is known when the object is set. -/
theorem reopened_owned (K : Kernel σ) {w : World σ} (hw : Owned w) (h : w.file.status = 0)
    (path : CStr) :
    Owned (reopened K path w) ∧ (reopened K path w).file = w.file ∧
      (∀ n, (reopenFd K path w).name = some n → n < (reopened K path w).opens) ∧
      (0 ≤ (reopenFd K path w).num ↔ reopenFd K path w ∈ live (reopened K path w).ops) := by
  have hprobe := commFileProbe_owned K h path w ⟨hw, rfl⟩
  obtain ⟨⟨howned, hfile⟩, hknown, hlive⟩ := commFileReopen_owned K w.file path _ _ hprobe
  exact ⟨howned, hfile, hknown, hlive⟩

/-- The last event of an `open` is its second system call. -/
theorem reopened_log (K : Kernel σ) (path : CStr) (w : World σ) :
    ∃ es, (reopened K path w).log = w.log ++ es ++ [.opened (reopenFd K path w)] := by
  have hprobe : ∃ es, (commFileProbe K path w).2.log = w.log ++ es := by
    have hbranch : commFileProbe K path w =
        (if 0 < (sysOpen K path O_RDONLY 0 w).1.num then do
          let _ ← sysCloseProbe K (sysOpen K path O_RDONLY 0 w).1
          return true
        else return false : FileM σ Bool) (sysOpen K path O_RDONLY 0 w).2 := rfl
    rw [hbranch]
    split
    · refine ⟨[.opened (sysOpen K path O_RDONLY 0 w).1,
        .probed (sysOpen K path O_RDONLY 0 w).1], ?_⟩
      rw [List.append_cons]
      rfl
    · exact ⟨[.opened (sysOpen K path O_RDONLY 0 w).1], rfl⟩
  obtain ⟨es, hes⟩ := hprobe
  refine ⟨es, ?_⟩
  rw [reopened, reopenFd, ← hes]
  unfold commFileReopen
  split <;> rfl

/-- A second system call that gets a descriptor keeps the invariant. -/
theorem commFileOpen_owned (K : Kernel σ) {w : World σ} (hw : Owned w)
    (h : w.file.status = 0) (path : CStr) (hnum : 0 ≤ (reopenFd K path w).num) :
    Owned (commFileOpen K (some path) w).2 := by
  obtain ⟨howned, -, hknown, hlive⟩ := reopened_owned K hw h path
  rw [commFileOpen_some K h]
  constructor
  · constructor
    · exact iff_of_true (by simp [openedFile]) (hlive.mp hnum)
    · exact howned.guarded
  · exact howned.fresh
  · exact howned.nodup
  · exact hknown

/-- One that gets none leaves an object whose status is wrong. -/
theorem commFileOpen_failed (K : Kernel σ) {w : World σ} (hw : Owned w)
    (h : w.file.status = 0) (path : CStr) (hnum : ¬ 0 ≤ (reopenFd K path w).num) :
    ¬ StatusOk (commFileOpen K (some path) w).2 := by
  obtain ⟨-, -, -, hlive⟩ := reopened_owned K hw h path
  rw [commFileOpen_some K h]
  intro hok
  have hmem := hok.status.mp (by simp [openedFile])
  exact hnum (hlive.mpr hmem)

def OwnedRun (s : Run σ) : Prop :=
  Owned s.world

/-- At the start nothing is owned and nothing is live. -/
theorem start_owned {s : Run σ} (h : IsStart s) : Owned s.world := by
  obtain ⟨hfile, hlog, -⟩ := h
  have hlive : live s.world.ops = [] := by
    rw [World.ops, hlog]
    rfl
  constructor
  · constructor
    · rw [hlive, hfile]
      simp [commFileCreate]
    · intro call fd status hmem
      rw [hlog] at hmem
      cases hmem
  · rw [hlive]
    intro fd hmem
    cases hmem
  · rw [hlive]
    exact List.nodup_nil
  · intro n hn
    rw [hfile] at hn
    cases hn

/-- Calls of the other methods keep the invariant. -/
theorem step_owned (K : Kernel σ) {s t : Run σ} {c : Call} (h : Owned s.world)
    (hstep : step K s c = some t) (hc : ∀ path, c ≠ .openFile path) : Owned t.world := by
  unfold step at hstep
  dsimp only at hstep
  split at hstep
  · cases hstep
  cases hstep
  cases c with
  | openFile path => exact absurd rfl (hc path)
  | close => exact commFileClose_owned K _ h
  | read buf nbytes tmsec fuel => exact commFileRead_owned K _ _ _ _ _ _ ⟨h, rfl⟩
  | write buf => exact commFileWrite_owned K _ _ _ ⟨h, rfl⟩
  | append buf => exact commFileAppend_owned K _ _ h
  | insert pos buf => exact commFileInsert_owned K _ _ _ h
  | atStart => exact commFileAt_owned K _ _ _ _ ⟨h, rfl⟩
  | atEnd => exact commFileAt_owned K _ _ _ _ ⟨h, rfl⟩
  | atMid offs => exact commFileAt_owned K _ _ _ _ ⟨h, rfl⟩
  | destroy => exact commFileDestroy_owned K _ h

/-- A step `openFile` is one call of `open`. -/
theorem step_openFile {K : Kernel σ} {s t : Run σ} {path : Option CStr}
    (hstep : step K s (.openFile path) = some t) :
    t.world = (commFileOpen K path s.world).2 ∧ t.ret = some (commFileOpen K path s.world).1 := by
  unfold step at hstep
  dsimp only at hstep
  split at hstep
  · cases hstep
  · cases hstep
    exact ⟨rfl, rfl⟩

/-- An `open` whose second system call gets a descriptor has got one. -/
theorem gotFd_reopened (K : Kernel σ) {w : World σ} (h : w.file.status = 0) (path : CStr)
    (hnum : 0 ≤ (reopenFd K path w).num) : GotFd w (commFileOpen K (some path) w).2 := by
  right
  obtain ⟨es, hes⟩ := reopened_log K path w
  refine ⟨es, reopenFd K path w, ?_, hnum⟩
  rw [commFileOpen_some K h]
  exact hes

/-- What the `open` of an object without a descriptor returns is right if it reopens. -/
theorem openOk_reopens (K : Kernel σ) {s t : Run σ} {path : Option CStr}
    (h : s.world.file.status = 0) (hstep : step K s (.openFile path) = some t)
    (hopen : Reopens K s (.openFile path)) : OpenOk s (.openFile path) t := by
  obtain ⟨hworld, hret⟩ := step_openFile hstep
  rintro _ ⟨⟩
  rw [hworld, hret]
  cases path with
  | none =>
      rw [commFileOpen_null K h]
      constructor
      · intro hzero
        cases hzero
      · intro _
        exact ⟨by simp, rfl⟩
  | some path =>
      constructor
      · intro _
        rw [commFileOpen_some K h]
        simp [openedFile]
      · intro hgot
        exact absurd (gotFd_reopened K h path (hopen path rfl h)) hgot

/-- An `open` that reopens keeps the invariant and returns what it should. -/
theorem open_ok (K : Kernel σ) {s t : Run σ} {c : Call} (h : Owned s.world)
    (hstep : step K s c = some t) (hopen : Reopens K s c) : Owned t.world ∧ OpenOk s c t := by
  by_cases hc : ∀ path, c ≠ .openFile path
  · refine ⟨step_owned K h hstep hc, ?_⟩
    intro path hpath
    exact absurd hpath (hc path)
  obtain ⟨path, rfl⟩ : ∃ path, c = .openFile path := by
    by_contra hnone
    exact hc fun path hpath => hnone ⟨path, hpath⟩
  obtain ⟨hworld, -⟩ := step_openFile hstep
  by_cases hstatus : s.world.file.status = 0
  · refine ⟨?_, openOk_reopens K hstatus hstep hopen⟩
    rw [hworld]
    cases path with
    | none =>
        rw [commFileOpen_null K hstatus]
        exact h
    | some path => exact commFileOpen_owned K h hstatus path (hopen path rfl hstatus)
  · rw [commFileOpen_open K hstatus] at hworld
    rw [hworld]
    refine ⟨h, ?_⟩
    intro path _
    constructor
    · intro _
      rw [hworld]
      exact hstatus
    · intro hgot
      exact absurd (Or.inl hstatus) hgot

/-- **Status.**  In every run whose `open` calls get a descriptor from their second system
call, `status` and `fd` are right and every `open` returns what it should; the first
`open` that gets none breaks this. -/
theorem status_iff_reopens (K : Kernel σ) :
    (∀ s, Reach (step K) IsStart (Reopens K) s → StatusOk s.world) ∧
    (∀ s c t, Reach (step K) IsStart (Reopens K) s → step K s c = some t →
      (StatusOk t.world ∧ OpenOk s c t ↔ Reopens K s c)) := by
  have howned : ∀ s, Reach (step K) IsStart (Reopens K) s → OwnedRun s := by
    intro s hs
    apply hs.invariant
    · intro s hstart
      exact start_owned hstart
    · intro s c t _ h hopen hstep
      exact (open_ok K h hstep hopen).1
  constructor
  · intro s hs
    exact (howned s hs).toStatusOk
  · intro s c t hs hstep
    constructor
    · rintro ⟨hok, -⟩ path hc hstatus
      by_contra hnum
      subst hc
      rw [(step_openFile hstep).1] at hok
      exact commFileOpen_failed K (howned s hs) hstatus path hnum hok
    · intro hopen
      obtain ⟨ht, hret⟩ := open_ok K (howned s hs) hstep hopen
      exact ⟨ht.toStatusOk, hret⟩

/-- A system whose `open` always answers `n`. -/
def answering (n : Int) : Kernel Unit where
  openFile := fun _ _ _ s => (n, s)
  close := fun _ s => (0, s)
  read := fun _ _ s => (.bytes [], s)
  write := fun _ bs s => (bs.length, s)
  lseek := fun _ _ _ s => (0, s)
  read_le := by
    intro fd nbytes s bs h
    cases h
    exact Nat.zero_le _

/-- A new object. -/
def newRun : Run Unit :=
  ⟨⟨commFileCreate, (), 0, []⟩, none, false⟩

/-- The run after an `open` of a new object. -/
def openRun (n : Int) : Run Unit :=
  let r := commFileOpen (answering n) (some (lit "cf.txt")) newRun.world
  ⟨r.2, some r.1, false⟩

/-- The first `open` finds the file, and the second one gets descriptor 3 again. -/
theorem openRun_three :
    (openRun 3).world.file.fd.num = 3 ∧ StatusOk (openRun 3).world := by
  have hstart : Reach (step (answering 3)) IsStart (Reopens (answering 3)) newRun :=
    .start ⟨rfl, rfl, rfl⟩
  have hopen : Reopens (answering 3) newRun (.openFile (some (lit "cf.txt"))) := by
    intro path hpath _
    cases hpath
    decide +kernel
  have hok := ((status_iff_reopens (answering 3)).2 newRun _ (openRun 3) hstart rfl).mpr hopen
  exact ⟨by decide +kernel, hok.1⟩

/-- Where no file can be opened, `open` returns 0, and the status is 1 with descriptor -1. -/
theorem openRun_none :
    Reach (step (answering (-1))) IsStart anyStep (openRun (-1)) ∧
      (openRun (-1)).ret = some 0 ∧ (openRun (-1)).world.file.status = 1 ∧
      (openRun (-1)).world.file.fd.num = -1 ∧ ¬ StatusOk (openRun (-1)).world := by
  have hstart : Reach (step (answering (-1))) IsStart anyStep newRun :=
    .start ⟨rfl, rfl, rfl⟩
  refine ⟨hstart.next (a := .openFile (some (lit "cf.txt"))) trivial rfl, ?_, ?_, ?_, ?_⟩
  · decide +kernel
  · decide +kernel
  · decide +kernel
  · intro hok
    have hmem := hok.status.mp (by decide +kernel)
    have hnone : live (openRun (-1)).world.ops = [] := by decide +kernel
    rw [hnone] at hmem
    cases hmem

end CommFile

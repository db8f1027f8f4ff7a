import Alp.LineRoundTrip
import Alp.Ownership
import Alp.Transition

/-!
# Serving one client after another

`server_scan` of `c5-4/server.c` waits on two listening sockets in turn: after a second
without a client it goes on to the other one.  `server_accept` takes one client and stays
with it until it has sent `quit`; it closes the client's descriptor and the scan goes on.

A step of the program is one system call with its result.  `scan_inOrder` is about the
descriptors, in every order of clients, timeouts and failures: one client's is open at a
time, and everything read and written goes through it.  `scan_sessions` is about what the
clients get: each is answered for what it sent itself.
-/

set_option autoImplicit false

namespace LineScan

open CString LineServer LocalSocket Ownership Transition

/-- Where the program stands. -/
inductive Pc
  /-- `server_setup` of the second server, or of the first -/
  | setup (second : Bool)
  /-- `select` -/
  | scan
  /-- `accept` in `server_accept` -/
  | accept (ser_fd : Int)
  /-- `server_run`, having read `bytes` -/
  | run (ser_fd fd : Int) (bytes : List UInt8) (server : Server)
  /-- `server_scan` has returned. -/
  | returned (ret : Int)
  /-- `exit(-1)` in `server_run` -/
  | exited (fd : Int)
  deriving DecidableEq

/-- A client that was served: the socket it came to, and its descriptor. -/
structure Session where
  ser_fd : Int
  fd : Int
  bytes : List UInt8
  server : Server
  deriving DecidableEq

/-- `ser_info`, `r` and `id`; with the sockets that are open, what was done with the clients'
descriptors, and who was served. -/
structure State where
  pc : Pc
  first : Int
  second : Int
  r : Int
  id : Bool
  listening : List Int
  ops : List (Op Int)
  served : List Session

/-- The results of the system calls. -/
inductive Call
  /-- `socket`, `bind` and `listen` in `server_setup` -/
  | setup (fd r₁ r₂ : Int)
  | select (r : Int)
  | accept (fd : Int)
  | read (cnt : ReadResult)
  deriving DecidableEq

def scanStart : State where
  pc := .setup false
  first := 0
  second := 0
  r := 0
  id := false
  listening := []
  ops := []
  served := []

/-- `server_setup`: what it returns, and the sockets it leaves open. -/
def serverSetup (fd r₁ r₂ : Int) : Int × List Int :=
  if fd < 0 then (-1, [])
  else if r₁ ≠ 0 then (-1, [fd])
  else if r₂ ≠ 0 then (-1, [fd])
  else (0, [fd])

/-- The byte read. -/
def readBytes : ReadResult → List UInt8
  | .char t => [t]
  | .zero | .error => []

/-- One system call of the program with its result. -/
def step (s : State) (c : Call) : Option State :=
  match s.pc, c with
  | .setup false, .setup fd r₁ r₂ =>
    let res := serverSetup fd r₁ r₂
    some { s with
      pc := .setup true, first := if fd < 0 then s.first else fd, r := res.1,
      listening := s.listening ++ res.2 }
  | .setup true, .setup fd r₁ r₂ =>
    let res := serverSetup fd r₁ r₂
    some { s with
      pc := if s.r + res.1 ≠ 0 then .returned (-1) else .scan,
      second := if fd < 0 then s.second else fd, r := s.r + res.1,
      listening := s.listening ++ res.2 }
  | .scan, .select r =>
    if r < 0 then
      some { s with
        pc := .returned 0, listening := (s.listening.erase s.first).erase s.second }
    else if r = 0 then some { s with id := !s.id }
    else some { s with pc := .accept (if s.id then s.second else s.first) }
  | .accept ser_fd, .accept fd =>
    if fd < 0 then some s
    else some { s with pc := .run ser_fd fd [] start, ops := s.ops ++ [.acquire fd] }
  | .run ser_fd fd bytes server, .read cnt =>
    if server.status = .running then
      let after := server.turn cnt
      let written := after.writes.length - server.writes.length
      let s : State := { s with
        ops := s.ops ++ [.use fd] ++ List.replicate written (.use fd) }
      let bytes := bytes ++ readBytes cnt
      match after.status with
      | .returned => some { s with
          pc := .scan, ops := s.ops ++ [.release fd],
          served := s.served ++ [⟨ser_fd, fd, bytes, after⟩] }
      | .exited => some { s with pc := .exited fd }
      | .running | .undefined => some { s with pc := .run ser_fd fd bytes after }
    else none
  | _, _ => none

/-- The client's descriptor that is open. -/
def Pc.client : Pc → Option Int
  | .run _ fd _ _ | .exited fd => some fd
  | .setup _ | .scan | .accept _ | .returned _ => none

/-- The client was taken from one of the two sockets, and its server has read these bytes. -/
def Pc.ClientOk (s : State) : Pc → Prop
  | .accept ser_fd => ser_fd = s.first ∨ ser_fd = s.second
  | .run ser_fd _ bytes server =>
    (ser_fd = s.first ∨ ser_fd = s.second) ∧ server = start.feed bytes
  | .setup _ | .scan | .returned _ | .exited _ => True

/-- The sockets open: both of them, from the set-up to the end. -/
def Pc.SocketsOk (s : State) : Pc → Prop
  | .setup false => s.listening = []
  | .setup true => s.r ≤ 0 ∧ (s.r = 0 → s.listening = [s.first])
  | .scan | .accept _ | .run .. | .exited _ => s.listening = [s.first, s.second]
  | .returned ret => ret = 0 → s.listening = []

/-- What was served: a client of one of the sockets, by what it sent, up to the end. -/
structure Served (first second : Int) (c : Session) : Prop where
  socket : c.ser_fd = first ∨ c.ser_fd = second
  fed : c.server = start.feed c.bytes
  status : c.server.status = .returned

structure Inv (s : State) : Prop where
  accepted : Accepted s.ops s.pc.client
  closed : released s.ops = s.served.map Session.fd
  client : s.pc.ClientOk s
  sockets : s.pc.SocketsOk s
  served : ∀ c ∈ s.served, Served s.first s.second c
  early : ∀ second, s.pc = .setup second → s.served = []

/-- The invariant holds at the start. -/
theorem inv_start : Inv scanStart :=
  ⟨accepted_nil, rfl, trivial, rfl, fun _ hc => (List.not_mem_nil hc).elim, fun _ _ => rfl⟩

/-- The setup answers 0 only with a socket to listen on, and never more. -/
theorem serverSetup_ret (fd r₁ r₂ : Int) : (serverSetup fd r₁ r₂).1 ≤ 0 ∧
    ((serverSetup fd r₁ r₂).1 = 0 → 0 ≤ fd ∧ (serverSetup fd r₁ r₂).2 = [fd]) := by
  unfold serverSetup
  split
  · simp
  split
  · simp
  split
  · simp
  · simp
    omega

section Step

variable {s t : State}

/-- The first setup keeps the invariant. -/
theorem Inv.setup_first (h : Inv s) (hpc : s.pc = .setup false) {fd r₁ r₂ : Int}
    (hstep : step s (.setup fd r₁ r₂) = some t) : Inv t := by
  have hsockets := h.sockets
  have hnone := h.early false hpc
  have haccepted := h.accepted
  rw [hpc] at hsockets haccepted
  obtain ⟨hle, hok⟩ := serverSetup_ret fd r₁ r₂
  simp only [step, hpc, Option.some.injEq] at hstep
  subst hstep
  refine ⟨haccepted, h.closed, trivial, ⟨hle, fun hzero => ?_⟩, ?_, fun _ _ => hnone⟩
  · obtain ⟨hfd, hopen⟩ := hok hzero
    rw [Pc.SocketsOk] at hsockets
    simp [hsockets, hopen, hfd]
  · simp [hnone]

/-- The second setup keeps the invariant. -/
theorem Inv.setup_second (h : Inv s) (hpc : s.pc = .setup true) {fd r₁ r₂ : Int}
    (hstep : step s (.setup fd r₁ r₂) = some t) : Inv t := by
  have hsockets := h.sockets
  have hnone := h.early true hpc
  have haccepted := h.accepted
  rw [hpc] at hsockets haccepted
  obtain ⟨hle, hok⟩ := serverSetup_ret fd r₁ r₂
  obtain ⟨hr, hfirst⟩ := hsockets
  simp only [step, hpc, Option.some.injEq] at hstep
  by_cases hfail : s.r + (serverSetup fd r₁ r₂).1 ≠ 0
  · rw [if_pos hfail] at hstep
    subst hstep
    exact ⟨haccepted, h.closed, trivial, fun hzero => by omega, by simp [hnone], nofun⟩
  · rw [if_neg hfail] at hstep
    subst hstep
    obtain ⟨hfd, hopen⟩ := hok (by omega)
    refine ⟨haccepted, h.closed, trivial, ?_, by simp [hnone], nofun⟩
    simp [Pc.SocketsOk, hfirst (by omega), hopen, hfd]

/-- Returning from `select` keeps the invariant. -/
theorem Inv.select (h : Inv s) (hpc : s.pc = .scan) {r : Int}
    (hstep : step s (.select r) = some t) : Inv t := by
  have hsockets := h.sockets
  have haccepted := h.accepted
  rw [hpc] at hsockets haccepted
  simp only [step, hpc] at hstep
  split at hstep
  · cases hstep
    refine ⟨haccepted, h.closed, trivial, fun _ => ?_, h.served, nofun⟩
    rw [Pc.SocketsOk] at hsockets
    simp [hsockets]
  split at hstep
  · cases hstep
    exact ⟨haccepted, h.closed, trivial, hsockets, h.served, nofun⟩
  · cases hstep
    refine ⟨haccepted, h.closed, ?_, hsockets, h.served, nofun⟩
    cases hid : s.id
    · exact Or.inl rfl
    · exact Or.inr rfl

/-- Accepting a client keeps the invariant. -/
theorem Inv.accept (h : Inv s) {ser_fd : Int} (hpc : s.pc = .accept ser_fd) {fd : Int}
    (hstep : step s (.accept fd) = some t) : Inv t := by
  have hsockets := h.sockets
  have haccepted := h.accepted
  have hclient := h.client
  rw [hpc] at hsockets haccepted hclient
  simp only [step, hpc] at hstep
  split at hstep
  · cases hstep
    exact h
  · cases hstep
    refine ⟨haccepted.acquire fd, ?_, ⟨hclient, rfl⟩, hsockets, h.served, nofun⟩
    rw [released_append, h.closed]
    exact List.append_nil _

/-- Reading a byte is feeding it. -/
theorem feed_readBytes {server : Server} {bytes : List UInt8} (h : server = start.feed bytes)
    (cnt : ReadResult) (hcnt : (server.turn cnt).status ≠ .exited) :
    server.turn cnt = start.feed (bytes ++ readBytes cnt) := by
  rw [feed_append, ← h]
  cases cnt with
  | error =>
      by_cases hrun : server.status = .running
      · exact absurd (by simp [Server.turn, hrun]) hcnt
      · exact turn_stopped hrun _
  | zero => exact turn_zero server
  | char c => rfl

/-- Reading from a client keeps the invariant. -/
theorem Inv.read (h : Inv s) {ser_fd fd : Int} {bytes : List UInt8} {server : Server}
    (hpc : s.pc = .run ser_fd fd bytes server) {cnt : ReadResult}
    (hstep : step s (.read cnt) = some t) : Inv t := by
  have hsockets := h.sockets
  have haccepted := h.accepted
  have hclient := h.client
  rw [hpc] at hsockets haccepted hclient
  obtain ⟨hsocket, hfed⟩ := hclient
  simp only [step, hpc] at hstep
  split at hstep
  case isFalse => cases hstep
  have huses := haccepted.use.uses ((server.turn cnt).writes.length - server.writes.length)
  have hreleased : released (s.ops ++ [.use fd] ++ List.replicate
      ((server.turn cnt).writes.length - server.writes.length) (.use fd)) =
      s.served.map Session.fd := by
    rw [released_append, released_append, released_replicate_use, List.append_nil, h.closed]
    exact List.append_nil _
  split at hstep
  · next hstatus =>
      cases hstep
      have hdone := feed_readBytes hfed cnt (by rw [hstatus]; decide)
      refine ⟨huses.release, ?_, trivial, hsockets, ?_, nofun⟩
      · rw [released_append, hreleased, List.map_append]
        rfl
      · intro c hc
        rcases List.mem_append.mp hc with hold | hnew
        · exact h.served c hold
        · obtain rfl := List.mem_singleton.mp hnew
          exact ⟨hsocket, hdone, hstatus⟩
  · cases hstep
    exact ⟨huses, hreleased, trivial, hsockets, h.served, nofun⟩
  · next hstatus =>
      cases hstep
      have hdone := feed_readBytes hfed cnt (by rw [hstatus]; decide)
      exact ⟨huses, hreleased, ⟨hsocket, hdone⟩, hsockets, h.served, nofun⟩
  · next hstatus =>
      cases hstep
      have hdone := feed_readBytes hfed cnt (by rw [hstatus]; decide)
      exact ⟨huses, hreleased, ⟨hsocket, hdone⟩, hsockets, h.served, nofun⟩

end Step

/-- The invariant holds in every state reached. -/
theorem inv_reach {s : State} (h : Reach step (· = scanStart) anyStep s) : Inv s := by
  refine h.invariant ?_ ?_
  · rintro s rfl
    exact inv_start
  · intro s c t _ hinv _ hstep
    cases hpc : s.pc with
    | setup second =>
        cases c with
        | setup fd r₁ r₂ =>
            cases second with
            | false => exact hinv.setup_first hpc hstep
            | true => exact hinv.setup_second hpc hstep
        | select r | accept fd | read cnt => cases second <;> simp [step, hpc] at hstep
    | scan =>
        cases c with
        | select r => exact hinv.select hpc hstep
        | setup fd r₁ r₂ | accept fd | read cnt => simp [step, hpc] at hstep
    | accept ser_fd =>
        cases c with
        | accept fd => exact hinv.accept hpc hstep
        | setup fd r₁ r₂ | select r | read cnt => simp [step, hpc] at hstep
    | run ser_fd fd bytes server =>
        cases c with
        | read cnt => exact hinv.read hpc hstep
        | setup fd r₁ r₂ | select r | accept fd => simp [step, hpc] at hstep
    | returned ret => simp [step, hpc] at hstep
    | exited fd => simp [step, hpc] at hstep

/-- At most one client's descriptor is open at a time, it is the only one read, written and
closed, and between clients none is open; when the scan is over the sockets are closed. -/
structure InOrder (s : State) : Prop where
  one : ∀ ops rest, s.ops = ops ++ rest → (live ops).length ≤ 1
  used : ∀ ops fd rest, s.ops = ops ++ .use fd :: rest → live ops = [fd]
  closed : ∀ ops fd rest, s.ops = ops ++ .release fd :: rest → live ops = [fd]
  left : live s.ops = s.pc.client.toList
  sockets : s.pc = .returned 0 → s.listening = []

/-- **Descriptors.**  In every run, in whatever order clients come, send, break off and
time out. -/
theorem scan_inOrder {s : State} (h : Reach step (· = scanStart) anyStep s) : InOrder s := by
  obtain ⟨haccepted, -, -, hsockets, -, -⟩ := inv_reach h
  refine ⟨?_, ?_, ?_, haccepted.live_eq, fun hpc => ?_⟩
  · intro ops rest hops
    rw [hops] at haccepted
    exact haccepted.live_le_one
  · intro ops fd rest hops
    rw [hops] at haccepted
    exact haccepted.use_live
  · intro ops fd rest hops
    rw [hops] at haccepted
    exact haccepted.release_live
  · rw [hpc] at hsockets
    exact hsockets rfl

/-- What a client that sends messages got reported when it had been served. -/
theorem Served.messages {first second : Int} {c : Session} (h : Served first second c)
    {msgs : List CStr} (hfits : ∀ msg ∈ msgs, Fits msg) (hsent : c.bytes <+: stream msgs) :
    c.server.messages = uptoQuit ((msgs.map (·.bytes)).filter (· ≠ [])) := by
  obtain ⟨rest, hrest⟩ := hsent
  have hfeed := feed_stream start_atLine hfits
  have hdone : (start.feed c.bytes).status = .returned := h.fed ▸ h.status
  rw [← hrest, feed_append, feed_returned hdone, ← h.fed] at hfeed
  exact hfeed

/-- **Clients.**  In every run, each descriptor closed is that of a client that was served,
in this order, who came to one of the two sockets, and what it was answered depends on
nothing but what it sent: of messages that fit, those that are not empty, up to `quit`. -/
theorem scan_sessions {s : State} (h : Reach step (· = scanStart) anyStep s) :
    s.served.map Session.fd = released s.ops ∧
      ∀ c ∈ s.served, (c.ser_fd = s.first ∨ c.ser_fd = s.second) ∧
        c.server = start.feed c.bytes ∧ c.server.status = .returned ∧
        ∀ msgs : List CStr, (∀ msg ∈ msgs, Fits msg) → c.bytes <+: stream msgs →
          c.server.messages = uptoQuit ((msgs.map (·.bytes)).filter (· ≠ [])) := by
  have hinv := inv_reach h
  refine ⟨hinv.closed.symm, fun c hc => ?_⟩
  have hserved := hinv.served c hc
  exact ⟨hserved.socket, hserved.fed, hserved.status,
    fun msgs hfits hsent => hserved.messages hfits hsent⟩

/-- A timeout, two clients, and the end of the scan; the second client is slow. -/
def twoClients : List Call :=
  [.setup 3 0 0, .setup 4 0 0, .select 0, .select 1, .accept (-1), .accept 5] ++
    (stream [lit "hi", lit "quit"]).map (fun t => .read (.char t)) ++
    [.select 0, .select 1, .accept 5, .read .zero] ++
    (stream [lit "quit"]).map (fun t => .read (.char t)) ++ [.select (-1)]

/-- Two clients, the second port served first. -/
theorem scan_twoClients_inOrder :
    ∃ s, Reach step (· = scanStart) anyStep s ∧ s.pc = .returned 0 ∧
      s.served.map Session.ser_fd = [4, 3] ∧ InOrder s := by
  have hrun : (exec step (fun _ _ => true) scanStart twoClients).map (fun s =>
      (s.pc, s.served.map Session.ser_fd)) = some (.returned 0, [4, 3]) := by decide +kernel
  obtain ⟨s, hs, heq⟩ := Option.map_eq_some_iff.mp hrun
  obtain ⟨hpc, hserved⟩ := Prod.mk.inj heq
  have hreach : Reach step (· = scanStart) anyStep s :=
    Reach.of_exec (fun _ _ _ => trivial) (.start rfl) hs
  exact ⟨s, hreach, hpc, hserved, scan_inOrder hreach⟩

/-- Two clients, and what each of them sent. -/
theorem scan_twoClients_sessions :
    ∃ s, Reach step (· = scanStart) anyStep s ∧ s.served.length = 2 ∧
      ∀ c ∈ s.served, c.server.messages = [asciiBytes "hi", quit] ∨ c.server.messages = [quit] := by
  have hrun : (exec step (fun _ _ => true) scanStart twoClients).map (fun s =>
      s.served.map Session.bytes) =
      some [stream [lit "hi", lit "quit"], stream [lit "quit"]] := by decide +kernel
  obtain ⟨s, hs, hbytes⟩ := Option.map_eq_some_iff.mp hrun
  have hreach : Reach step (· = scanStart) anyStep s :=
    Reach.of_exec (fun _ _ _ => trivial) (.start rfl) hs
  have hfits : ∀ msg ∈ [lit "hi", lit "quit"], Fits msg := by
    intro msg hmsg
    simp only [List.mem_cons, List.not_mem_nil, or_false] at hmsg
    rcases hmsg with rfl | rfl
    all_goals constructor <;> decide +kernel
  have hlength := congrArg List.length hbytes
  rw [List.length_map] at hlength
  refine ⟨s, hreach, hlength, fun c hc => ?_⟩
  obtain ⟨-, -, -, hmessages⟩ := (scan_sessions hreach).2 c hc
  have hmem : c.bytes ∈ s.served.map Session.bytes := List.mem_map_of_mem hc
  rw [hbytes, List.mem_cons, List.mem_singleton] at hmem
  rcases hmem with hboth | hquit
  · left
    rw [hmessages _ hfits (hboth ▸ List.prefix_refl _)]
    decide +kernel
  · right
    rw [hmessages _ (fun msg hmsg => hfits msg (List.mem_cons_of_mem _ hmsg))
      (hquit ▸ List.prefix_refl _)]
    decide +kernel

end LineScan

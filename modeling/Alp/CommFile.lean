import Mathlib.Algebra.Ring.Int.Defs
import Mathlib.Algebra.Ring.Nat
import Alp.CString
import Alp.Hoare

/-!
# The file object

This file embeds `demo-io/comm_file.c` over a kernel: a function for each system call, on
any state of the system.  A method is a function on a `World`, which has the object, the
system and the log of the system calls made.

Descriptors are numbers, and a number is used again after `close`; every successful
`open` therefore also gets a name of its own.  A call on `f->fd` is logged with the status
that its method found: `comm_file_close` clears `status` before its `close`.

`comm_file_read` goes on for ever while `read` fails, so its loop has the number of `read`
calls that are looked at.
-/

set_option autoImplicit false

namespace CommFile

open CString Hoare

/-- A descriptor: its number, and which `open` it came from; none for -1. -/
structure Fd where
  num : Int
  name : Option Nat
  deriving DecidableEq

/-- `struct comm_file`, without its name and its methods. -/
structure File where
  path : Option CStr
  fd : Fd
  status : Int
  flag : Nat
  mode : Nat
  pos : Int
  deriving DecidableEq

inductive Whence
  | seekSet
  | seekEnd
  deriving DecidableEq

/-- What `read` returns: -1, or bytes. -/
inductive ReadResult
  | error
  | bytes (bs : List UInt8)
  deriving DecidableEq

/-- The system calls over the states `σ` of the system. -/
structure Kernel (σ : Type) where
  openFile : CStr → Nat → Nat → σ → Int × σ
  close : Int → σ → Int × σ
  read : Int → Nat → σ → ReadResult × σ
  write : Int → List UInt8 → σ → Int × σ
  lseek : Int → Int → Whence → σ → Int × σ
  read_le : ∀ fd nbytes s bs, (read fd nbytes s).1 = .bytes bs → bs.length ≤ nbytes

/-- A call on `f->fd`. -/
inductive FdCall
  | close
  | read (nbytes : Nat)
  | write (buf : List UInt8)
  | lseek (offs : Int) (whence : Whence)
  deriving DecidableEq

inductive Event
  | opened (fd : Fd)
  /-- The `close` of the probe in `comm_file_open`. -/
  | probed (fd : Fd)
  /-- A call on `f->fd`, with the status that the method found. -/
  | onFd (call : FdCall) (fd : Fd) (status : Int)
  deriving DecidableEq

/-- The object, the system, the number of `open` calls and the log. -/
structure World (σ : Type) where
  file : File
  kernel : σ
  opens : Nat
  log : List Event

/-- A method of the object. -/
abbrev FileM (σ : Type) := StateM (World σ)

variable {σ : Type} (K : Kernel σ)

def O_RDONLY : Nat := 0

def O_RDWR : Nat := 2

def O_CREAT : Nat := 0o100

def sysOpen (path : CStr) (flag mode : Nat) : FileM σ Fd := fun w =>
  let r := K.openFile path flag mode w.kernel
  let fd : Fd := ⟨r.1, if 0 ≤ r.1 then some w.opens else none⟩
  (fd, { w with kernel := r.2, opens := w.opens + 1, log := w.log ++ [.opened fd] })

/-- `close(fd)` in `comm_file_open`. -/
def sysCloseProbe (fd : Fd) : FileM σ Int := fun w =>
  let r := K.close fd.num w.kernel
  (r.1, { w with kernel := r.2, log := w.log ++ [.probed fd] })

/-- A system call on `f->fd`, for a method that found the object to be `f`. -/
def sysOnFd {α : Type} (f : File) (call : FdCall) (run : σ → α × σ) : FileM σ α := fun w =>
  let r := run w.kernel
  (r.1, { w with kernel := r.2, log := w.log ++ [.onFd call f.fd f.status] })

def setFile (f : File) : FileM σ Unit := fun w =>
  ((), { w with file := f })

def getFile : FileM σ File := fun w =>
  (w.file, w)

/-- A number as an `int`. -/
def cInt (n : Int) : Int :=
  (BitVec.ofInt 32 n).toInt

/-- A number in range is kept by an `int`. -/
theorem cInt_eq {n : Int} (hlow : -2 ^ 31 ≤ n) (hhigh : n < 2 ^ 31) : cInt n = n := by
  rw [cInt, BitVec.toInt_ofInt, Int.bmod_def]
  omega

/-- An `int` is below 2^31. -/
theorem cInt_lt (n : Int) : cInt n < 2 ^ 31 := by
  rw [cInt, BitVec.toInt_ofInt, Int.bmod_def]
  omega

/-- An `int` as a `size_t`. -/
def sizeT (n : Int) : Nat :=
  (n % 2 ^ 64).toNat

/-- A buffer with its length, an `int`. -/
structure Buf where
  bytes : List UInt8
  length_lt : bytes.length < 2 ^ 31
  deriving DecidableEq

/-- `bs` are put at `m + i`. -/
def putBytes (m : Mem) (i : Nat) (bs : List UInt8) : Mem :=
  fun j => if i ≤ j ∧ j < i + bs.length then bs.getD (j - i) 0 else m j

/-- `DLY_CNT`. -/
def dlyCnt (tmsec : Int) : Int :=
  (tmsec * 1000).tdiv 20

/-- The probe of `comm_file_open`: whether the file is found.  Descriptor 0 is not. -/
def commFileProbe (path : CStr) : FileM σ Bool := do
  let fd ← sysOpen K path O_RDONLY 0
  if 0 < fd.num then
    let _ ← sysCloseProbe K fd
    return true
  else return false

/-- The second `open` of `comm_file_open`. -/
def commFileReopen (path : CStr) (find : Bool) : FileM σ Fd :=
  if find then sysOpen K path O_RDWR 0 else sysOpen K path (O_RDWR ||| O_CREAT) 0o664

/-- The fields that `comm_file_open` sets. -/
def openedFile (f : File) (path : CStr) (find : Bool) (fd : Fd) : File :=
  { f with
    fd := fd, mode := if find then 0 else 0o664, path := some path,
    flag := if find then O_RDWR else O_RDWR ||| O_CREAT, status := 1 }

/-- `comm_file_open`. -/
def commFileOpen (path : Option CStr) : FileM σ Int := do
  let f ← getFile
  if f.status ≠ 0 then return 0
  else
    match path with
    | none => return -1
    | some path =>
      let find ← commFileProbe K path
      let fd ← commFileReopen K path find
      setFile (openedFile f path find fd)
      return 0

/-- `comm_file_close`; `r` is not initialised when the status is 0. -/
def commFileClose : FileM σ (Option Int) := do
  let f ← getFile
  if f.status ≠ 0 then
    setFile { f with status := 0 }
    let r ← sysOnFd f .close (K.close f.fd.num)
    return some r
  else return none

/-- The loop of `comm_file_read`, with `fuel` calls to `read` at most; what it returns and
the buffer, if it ends. -/
def readLoop (f : File) : Nat → Int → Int → Int → Mem → FileM σ (Option (Int × Mem))
  | fuel, last, usCnt, len, pd =>
    if last = 0 then return some (len, pd)
    else
      match fuel with
      | 0 => return none
      | fuel + 1 => do
        let res ← sysOnFd f (.read (sizeT last)) (K.read f.fd.num (sizeT last))
        match res with
        | .error => readLoop f fuel last usCnt len pd
        | .bytes bs =>
          let n := cInt bs.length
          let pd := putBytes pd len.toNat bs
          if n = -1 then readLoop f fuel last usCnt len pd
          else if 0 < n then readLoop f fuel (cInt (last - n)) usCnt (cInt (len + n)) pd
          else if usCnt = 0 then return some (len, pd)
          else readLoop f fuel last (usCnt - 1) len pd

/-- `comm_file_read`. -/
def commFileRead (buf : Mem) (nbytes tmsec : Int) (fuel : Nat) :
    FileM σ (Option (Int × Mem)) := do
  let f ← getFile
  if f.status = 0 then return some (0, buf)
  else readLoop K f fuel nbytes (dlyCnt tmsec) 0 buf

/-- `comm_file_write`. -/
def commFileWrite (buf : Buf) : FileM σ Int := do
  let f ← getFile
  if f.status = 0 then return 0
  else
    let r ← sysOnFd f (.write buf.bytes) (K.write f.fd.num buf.bytes)
    return cInt r

/-- The position methods. -/
def commFileAt (offs : Int) (whence : Whence) : FileM σ Int := do
  let f ← getFile
  if f.status = 0 then return -1
  else
    let r ← sysOnFd f (.lseek offs whence) (K.lseek f.fd.num offs whence)
    setFile { f with pos := cInt r }
    return cInt r

/-- `comm_file_at_start`. -/
def commFileAtStart : FileM σ Int :=
  commFileAt K 0 .seekSet

/-- `comm_file_at_end`. -/
def commFileAtEnd : FileM σ Int :=
  commFileAt K 0 .seekEnd

/-- `comm_file_at_mid`. -/
def commFileAtMid (offs : Int) : FileM σ Int :=
  commFileAt K offs .seekSet

/-- `comm_file_append`. -/
def commFileAppend (buf : Buf) : FileM σ Int := do
  let r ← commFileAtEnd K
  if r < 0 then return r else commFileWrite K buf

/-- `comm_file_insert`. -/
def commFileInsert (pos : Int) (buf : Buf) : FileM σ Int := do
  let r ← commFileAtMid K pos
  if r < 0 then return r else commFileWrite K buf

/-- `comm_file_destroy`, up to the `free`. -/
def commFileDestroy : FileM σ Unit := do
  let f ← getFile
  if f.status ≠ 0 then
    let _ ← commFileClose K
    return
  else return

/-- A position method of an open object. -/
theorem commFileAt_eq {w : World σ} (h : w.file.status ≠ 0) (offs : Int) (whence : Whence) :
    commFileAt K offs whence w =
      let r := K.lseek w.file.fd.num offs whence w.kernel
      (cInt r.1, { w with
        file := { w.file with pos := cInt r.1 }
        kernel := r.2
        log := w.log ++ [.onFd (.lseek offs whence) w.file.fd w.file.status] }) := by
  have hbranch : commFileAt K offs whence w =
      (if w.file.status = 0 then return -1
      else do
        let r ← sysOnFd w.file (.lseek offs whence) (K.lseek w.file.fd.num offs whence)
        setFile { w.file with pos := cInt r }
        return cInt r : FileM σ Int) w := rfl
  rw [hbranch, if_neg h]
  rfl

/-- `write` on an open object writes to its descriptor. -/
theorem commFileWrite_eq {w : World σ} (h : w.file.status ≠ 0) (buf : Buf) :
    commFileWrite K buf w =
      let r := K.write w.file.fd.num buf.bytes w.kernel
      (cInt r.1, { w with
        kernel := r.2
        log := w.log ++ [.onFd (.write buf.bytes) w.file.fd w.file.status] }) := by
  have hbranch : commFileWrite K buf w =
      (if w.file.status = 0 then return 0
      else do
        let r ← sysOnFd w.file (.write buf.bytes) (K.write w.file.fd.num buf.bytes)
        return cInt r : FileM σ Int) w := rfl
  rw [hbranch, if_neg h]
  rfl

/-- The object after `comm_file_create`. -/
def commFileCreate : File :=
  ⟨none, ⟨0, none⟩, 0, 0, 0, 0⟩

end CommFile

import Alp.DirTree

/-!
# Listing a directory

This file embeds `scan_dir` of `demo-env/main.c` over a directory tree and proves what it
lists.  The recursion has no path: every call does `chdir` to its directory and `chdir` to
`..` at its end, and looks names up from where it is.  Neither `chdir` is checked.

Where every directory that can be opened can also be entered, the listing of the tree is
printed, and the call ends above the directory it started with (`scanDir_entered`).
-/

set_option autoImplicit false

namespace DirScan

open DirTree

def newline : UInt8 := 10

def space : UInt8 := 32

/-- The working directory, and what was printed. -/
structure Proc where
  cwd : List Name
  stdout : List (List UInt8)
  stderr : List String

def Proc.print (s : Proc) (text : List UInt8) : Proc :=
  { s with stdout := s.stdout ++ [text] }

def Proc.perror (s : Proc) (text : String) : Proc :=
  { s with stderr := s.stderr ++ [text] }

def Proc.chdir (s : Proc) (t : FileTree) (path : List UInt8) : Proc :=
  { s with cwd := t.chdir s.cwd path }

/-- `print_indent`, with `pre` and `post` for its second and fourth parameter. -/
def printIndent (depth : Nat) (pre : UInt8) (name : Name) (post : UInt8) : List UInt8 :=
  List.replicate depth pre ++ if post ≠ 0 then name ++ [post, newline] else name ++ [newline]

/-- The loop of `scan_dir`.  `ds` is what `lstat` stored last; a failing `lstat` leaves it,
and where nothing was stored nothing is known. -/
def scanLoop (t : FileTree) (scan : Name → Nat → Proc → Option (Int × Proc)) (depth : Nat) :
    List Name → Option Bool → Proc → Option Proc
  | [], _, s => some s
  | dn :: names, ds, s =>
    if isDot dn then scanLoop t scan depth names ds s
    else
      match (t.lstat s.cwd dn).or ds with
      | none => none
      | some true =>
        (scan dn (depth + 4) (s.print (printIndent (depth + 4) space dn slash))).bind fun r =>
          scanLoop t scan depth names (some true) r.2
      | some false =>
        scanLoop t scan depth names (some false)
          (s.print (printIndent (depth + 4) space dn 0))

/-- `scan_dir`, with `fuel` nested calls at most. -/
def scanDir (t : FileTree) : Nat → List UInt8 → Nat → Proc → Option (Int × Proc)
  | 0, _, _, _ => none
  | fuel + 1, name, depth, s =>
    match t.opendir s.cwd name with
    | none => some (-1, s.perror "opendir error:")
    | some names =>
      (scanLoop t (scanDir t fuel) depth names none (s.chdir t name)).map fun s =>
        (0, s.chdir t dotdot)

/-- The line of an entry. -/
def entryLine (level : Nat) (n : Name) (node : Node) : List UInt8 :=
  List.replicate (4 * level) space ++ n ++ (if node.isDir then [slash] else []) ++ [newline]

mutual
/-- The lines for what is in a directory that can be opened and entered. -/
def nodeLines (level : Nat) : Node → List (List UInt8)
  | .file => []
  | .dir readable searchable l => if readable && searchable then listingLines level l else []

def listingLines (level : Nat) : Listing → List (List UInt8)
  | .nil => []
  | .cons n node rest =>
    if isDot n then listingLines level rest
    else entryLine level n node :: (nodeLines (level + 1) node ++ listingLines level rest)
end

/-- The lines for what is in the directory that `path` leads to. -/
def pathLines (t : FileTree) (cwd : List Name) (path : List UInt8) : List (List UInt8) :=
  match t.lookup cwd path with
  | none => []
  | some (_, node) => nodeLines 1 node

/-- `printIndent` prints the line of an entry, one level below. -/
theorem printIndent_eq (level : Nat) (n : Name) (node : Node) :
    printIndent (4 * level + 4) space n (if node.isDir then slash else 0) =
      entryLine (level + 1) n node := by
  have hmul : 4 * level + 4 = 4 * (level + 1) := by omega
  rw [printIndent, entryLine, hmul]
  cases node with
  | file => simp [Node.isDir]
  | dir r x l => simp [Node.isDir, slash]

/-- A node that cannot be opened has no lines. -/
theorem nodeLines_of_closed {node : Node} (h : node.readdir = none) (level : Nat) :
    nodeLines level node = [] := by
  cases node with
  | file => rfl
  | dir r x l =>
      cases r with
      | false => rfl
      | true => cases h

section Round

variable {t : FileTree} {scan : Name → Nat → Proc → Option (Int × Proc)} {depth : Nat}
  {dn : Name} {names : List Name} {ds : Option Bool} {s : Proc}

/-- `.` and `..` are passed over. -/
theorem scanLoop_dot (h : isDot dn = true) :
    scanLoop t scan depth (dn :: names) ds s = scanLoop t scan depth names ds s := by
  rw [scanLoop, if_pos h]

/-- A directory is printed with a slash and scanned four columns further. -/
theorem scanLoop_dir (h : isDot dn = false) (hdir : (t.lstat s.cwd dn).or ds = some true) :
    scanLoop t scan depth (dn :: names) ds s =
      (scan dn (depth + 4) (s.print (printIndent (depth + 4) space dn slash))).bind fun r =>
        scanLoop t scan depth names (some true) r.2 := by
  rw [scanLoop, if_neg (by simp [h]), hdir]

/-- A file is printed without a slash. -/
theorem scanLoop_file (h : isDot dn = false) (hfile : (t.lstat s.cwd dn).or ds = some false) :
    scanLoop t scan depth (dn :: names) ds s =
      scanLoop t scan depth names (some false)
        (s.print (printIndent (depth + 4) space dn 0)) := by
  rw [scanLoop, if_neg (by simp [h]), hfile]

/-- A round that goes on. -/
theorem scanLoop_cases {s' : Proc} (h : scanLoop t scan depth (dn :: names) ds s = some s') :
    (isDot dn = true ∧ scanLoop t scan depth names ds s = some s') ∨
      (isDot dn = false ∧ (t.lstat s.cwd dn).or ds = some true ∧
        ∃ r, scan dn (depth + 4) (s.print (printIndent (depth + 4) space dn slash)) = some r ∧
          scanLoop t scan depth names (some true) r.2 = some s') ∨
      (isDot dn = false ∧ (t.lstat s.cwd dn).or ds = some false ∧
        scanLoop t scan depth names (some false)
          (s.print (printIndent (depth + 4) space dn 0)) = some s') := by
  cases hdot : isDot dn with
  | true =>
      rw [scanLoop_dot hdot] at h
      exact Or.inl ⟨rfl, h⟩
  | false =>
      right
      cases hds : (t.lstat s.cwd dn).or ds with
      | none =>
          rw [scanLoop, if_neg (by simp [hdot]), hds] at h
          cases h
      | some isDir =>
          cases isDir with
          | true =>
              rw [scanLoop_dir hdot hds] at h
              exact Or.inl ⟨rfl, rfl, Option.bind_eq_some_iff.mp h⟩
          | false =>
              rw [scanLoop_file hdot hds] at h
              exact Or.inr ⟨rfl, rfl, h⟩

end Round

/-- A directory that cannot be opened is told on the screen and answered with -1. -/
theorem scanDir_closed {t : FileTree} {name : List UInt8} {s : Proc}
    (h : t.opendir s.cwd name = none) (fuel depth : Nat) :
    scanDir t (fuel + 1) name depth s = some (-1, s.perror "opendir error:") := by
  rw [scanDir, h]

/-- A directory that can be opened is entered, looped over and left by `..`. -/
theorem scanDir_opened {t : FileTree} {name : List UInt8} {s : Proc} {names : List Name}
    (h : t.opendir s.cwd name = some names) (fuel depth : Nat) :
    scanDir t (fuel + 1) name depth s =
      (scanLoop t (scanDir t fuel) depth names none (s.chdir t name)).map fun s =>
        (0, s.chdir t dotdot) := by
  rw [scanDir, h]

/-- A scan that answers more often gives the same loop. -/
theorem scanLoop_mono (t : FileTree) {scan scan' : Name → Nat → Proc → Option (Int × Proc)}
    (h : ∀ n depth s r, scan n depth s = some r → scan' n depth s = some r) (depth : Nat)
    {names : List Name} {ds : Option Bool} {s s' : Proc}
    (hloop : scanLoop t scan depth names ds s = some s') :
    scanLoop t scan' depth names ds s = some s' := by
  induction names generalizing ds s with
  | nil => exact hloop
  | cons dn names ih =>
      rcases scanLoop_cases hloop with ⟨hdot, hrest⟩ | ⟨hdot, hdir, r, hscan, hrest⟩ |
        ⟨hdot, hfile, hrest⟩
      · rw [scanLoop_dot hdot]
        exact ih hrest
      · rw [scanLoop_dir hdot hdir, h _ _ _ _ hscan]
        exact ih hrest
      · rw [scanLoop_file hdot hfile]
        exact ih hrest

/-- More fuel gives the same result, by induction on the fuel. -/
theorem scanDir_succ (t : FileTree) {fuel : Nat} {name : List UInt8} {depth : Nat} {s : Proc}
    {r : Int × Proc} (h : scanDir t fuel name depth s = some r) :
    scanDir t (fuel + 1) name depth s = some r := by
  induction fuel generalizing name depth s r with
  | zero => cases h
  | succ fuel ih =>
      cases hopen : t.opendir s.cwd name with
      | none =>
          rw [scanDir_closed hopen] at h ⊢
          exact h
      | some names =>
          rw [scanDir_opened hopen] at h ⊢
          obtain ⟨s', hloop, hr⟩ := Option.map_eq_some_iff.mp h
          rw [scanLoop_mono t (fun _ _ _ _ hscan => ih hscan) depth hloop, ← hr]
          rfl

/-- More fuel does not change what `scan_dir` does. -/
theorem scanDir_mono (t : FileTree) {fuel fuel' : Nat} (hle : fuel ≤ fuel') {name : List UInt8}
    {depth : Nat} {s : Proc} {r : Int × Proc} (h : scanDir t fuel name depth s = some r) :
    scanDir t fuel' name depth s = some r := by
  induction hle with
  | refl => exact h
  | step _ ih => exact scanDir_succ t ih

/-- A call ends where it began and prints `lines`. -/
def Scans (t : FileTree) (name : List UInt8) (depth : Nat) (s : Proc)
    (lines : List (List UInt8)) : Prop :=
  ∃ fuel r s', scanDir t fuel name depth s = some (r, s') ∧ s'.cwd = s.cwd ∧
    s'.stdout = s.stdout ++ lines

/-- The rounds for `names` end where they began and print `lines`. -/
def LoopScans (t : FileTree) (depth : Nat) (names : List Name) (ds : Option Bool) (s : Proc)
    (lines : List (List UInt8)) : Prop :=
  ∃ fuel s', scanLoop t (scanDir t fuel) depth names ds s = some s' ∧ s'.cwd = s.cwd ∧
    s'.stdout = s.stdout ++ lines

section Rounds

variable {t : FileTree} {depth : Nat} {dn : Name} {names : List Name} {ds : Option Bool}
  {s : Proc} {lines : List (List UInt8)}

/-- A dot in front prints nothing. -/
theorem LoopScans.dot (hdot : isDot dn = true) (h : LoopScans t depth names ds s lines) :
    LoopScans t depth (dn :: names) ds s lines := by
  obtain ⟨fuel, s', hloop, hs'⟩ := h
  refine ⟨fuel, s', ?_, hs'⟩
  rw [scanLoop_dot hdot]
  exact hloop

/-- A file in front prints its line. -/
theorem LoopScans.file (hdot : isDot dn = false) (hfile : t.lstat s.cwd dn = some false)
    (h : LoopScans t depth names (some false)
      (s.print (printIndent (depth + 4) space dn 0)) lines) :
    LoopScans t depth (dn :: names) ds s (printIndent (depth + 4) space dn 0 :: lines) := by
  obtain ⟨fuel, s', hloop, hcwd, hstdout⟩ := h
  refine ⟨fuel, s', ?_, hcwd, ?_⟩
  · rw [scanLoop_file hdot (by rw [hfile]; rfl)]
    exact hloop
  · rw [hstdout]
    exact List.append_assoc _ _ _

/-- A directory in front prints its line and those of what is in it. -/
theorem LoopScans.dir (hdot : isDot dn = false) (hdir : t.lstat s.cwd dn = some true)
    {inside : List (List UInt8)}
    (hscan : Scans t dn (depth + 4) (s.print (printIndent (depth + 4) space dn slash)) inside)
    (h : ∀ s' : Proc, s'.cwd = s.cwd → LoopScans t depth names (some true) s' lines) :
    LoopScans t depth (dn :: names) ds s
      (printIndent (depth + 4) space dn slash :: (inside ++ lines)) := by
  obtain ⟨fuel, r, s₁, hscan, hcwd, hstdout⟩ := hscan
  obtain ⟨fuel', s₂, hloop, hcwd', hstdout'⟩ := h s₁ hcwd
  have hscan' := scanDir_mono t (Nat.le_max_left fuel fuel') hscan
  refine ⟨max fuel fuel', s₂, ?_, hcwd'.trans hcwd, ?_⟩
  · rw [scanLoop_dir hdot (by rw [hdir]; rfl), hscan']
    exact scanLoop_mono t (fun _ _ _ _ => scanDir_mono t (Nat.le_max_right fuel fuel')) depth
      hloop
  · rw [hstdout', hstdout]
    simp [Proc.print]

end Rounds

/-- A directory that cannot be opened. -/
theorem scans_closed {t : FileTree} {name : List UInt8} {s : Proc}
    (h : t.opendir s.cwd name = none) (depth : Nat) : Scans t name depth s [] :=
  ⟨1, -1, _, scanDir_closed h 0 depth, rfl, (List.append_nil _).symm⟩

mutual

/-- A call on an entry of the working directory. -/
theorem node_scans (t : FileTree) (node : Node) {n : Name} {s : Proc} (level : Nat)
    (hentered : NodeEntered node) (hcwd : t.Searchable s.cwd) (hn : Proper n)
    (hget : t.root.get? (s.cwd ++ [n]) = some node) :
    Scans t n (4 * level) s (nodeLines (level + 1) node) := by
  have hopen := FileTree.opendir_child hcwd hn hget
  match node with
  | .file => exact scans_closed hopen _
  | .dir false x l =>
      rw [nodeLines]
      exact scans_closed hopen _
  | .dir true x l =>
      obtain ⟨rfl, hlisting⟩ := hentered rfl
      have hlookup := FileTree.lookup_child hcwd hn hget
      obtain ⟨hchdir, hsearch, hfound⟩ := enter_of_lookup hlookup
      obtain ⟨fuel, s', hloop, hcwd', hstdout⟩ := listing_scans t l (s := s.chdir t n) level none
        hlisting hsearch hfound
      refine ⟨fuel + 1, 0, s'.chdir t dotdot, ?_, ?_, ?_⟩
      · rw [scanDir_opened hopen, hloop]
        rfl
      · rw [Proc.chdir, hcwd', Proc.chdir, hchdir]
        exact FileTree.chdir_up hcwd (FileTree.searchable_of_get? hget)
      · exact hstdout

/-- The rounds for entries of the working directory. -/
theorem listing_scans (t : FileTree) (l : Listing) {s : Proc} (level : Nat) (ds : Option Bool)
    (hentered : ListingEntered l) (hcwd : t.Searchable s.cwd) (hfound : Found t s.cwd l) :
    LoopScans t (4 * level) l.names ds s (listingLines (level + 1) l) := by
  match l with
  | .nil => exact ⟨0, s, rfl, rfl, (List.append_nil _).symm⟩
  | .cons n node rest =>
      rw [Listing.names, listingLines]
      by_cases hdot : isDot n = true
      · rw [if_pos hdot]
        exact (listing_scans t rest level ds hentered.2 hcwd hfound.tail).dot hdot
      · have hdot' : isDot n = false := by simpa using hdot
        obtain ⟨hn, hget⟩ := hfound.head hdot'
        have hlstat := FileTree.lstat_child hcwd hn hget
        rw [if_neg hdot, ← printIndent_eq]
        cases hdir : node.isDir with
        | false =>
            rw [hdir] at hlstat
            rw [nodeLines_of_closed (readdir_of_file hdir), List.nil_append]
            refine LoopScans.file hdot' hlstat ?_
            exact listing_scans t rest level (some false) hentered.2 hcwd hfound.tail
        | true =>
            rw [hdir] at hlstat
            refine LoopScans.dir hdot' hlstat ?_ ?_
            · exact node_scans t node (level + 1) (hentered.1 hdot') hcwd hn hget
            · intro s' hs'
              rw [← hs'] at hcwd hfound
              exact listing_scans t rest level (some true) hentered.2 hcwd hfound.tail

end

end DirScan

import Alp.CString
import Alp.DirTree

/-!
# Searching a directory

This file embeds `search_dir` of `demo-env/main.c` over a directory tree without links.  It
goes through the entries below its start in order (`nodeReached`) and stops at the first
with the name it looks for; it also stops at the first directory that it cannot open, since
it takes the -1 of the inner call for its own result (`verdict`).

The result of `chdir` is not looked at either.  From a directory that can be opened and not
entered on, names are looked up in the wrong place, and what is found there may be no entry
(`not_searches_behind_unentered`); so what is said of a search holds where the directories
up to the first entry with the name can be entered (`EnteredBefore`).
-/

set_option autoImplicit false

namespace DirSearch

open CString DirTree

/-- The working directory, `abs_path` as the entry that `realpath` was given, and what was
printed. -/
structure Proc where
  cwd : List Name
  absPath : Option (List Name)
  stdout : List (List UInt8)
  stderr : List String

def Proc.perror (s : Proc) (text : String) : Proc :=
  { s with stderr := s.stderr ++ [text] }

def Proc.chdir (s : Proc) (t : FileTree) (path : List UInt8) : Proc :=
  { s with cwd := t.chdir s.cwd path }

/-- The text of a path. -/
def pathText (p : List Name) : List UInt8 :=
  p.flatMap (slash :: ·)

/-- `realpath` and the message. -/
def Proc.find (s : Proc) (fileName : Name) : Proc :=
  let p := s.cwd ++ [fileName]
  { s with
    absPath := some p
    stdout := s.stdout ++ [asciiBytes "find " ++ fileName ++ asciiBytes ": " ++ pathText p ++
      asciiBytes "\n"] }

/-- The loop of `search_dir`, with `r` and what `lstat` stored last. -/
def searchLoop (t : FileTree) (search : Name → Proc → Option (Int × Proc)) (fileName : Name) :
    List Name → Option Bool → Int → Proc → Option (Int × Proc)
  | [], _, r, s => some (r, s)
  | dname :: names, ds, r, s =>
    if isDot dname then searchLoop t search fileName names ds r s
    else if dname = fileName then some (1, s.find dname)
    else
      match (t.lstat s.cwd dname).or ds with
      | none => none
      | some true =>
        (search dname s).bind fun (r, s) =>
          if r ≠ 0 then some (r, s) else searchLoop t search fileName names (some true) r s
      | some false => searchLoop t search fileName names (some false) r s

/-- `search_dir`, with `fuel` nested calls at most. -/
def searchDir (t : FileTree) (fileName : Name) :
    Nat → List UInt8 → Proc → Option (Int × Proc)
  | 0, _, _ => none
  | fuel + 1, dirName, s =>
    match t.opendir s.cwd dirName with
    | none => some (-1, s.perror "opendir error:")
    | some names =>
      (searchLoop t (searchDir t fileName fuel) fileName names none 0 (s.chdir t dirName)).map
        fun (r, s) => (r, s.chdir t dotdot)

mutual
/-- The entries below a directory that are reached through directories that can be opened,
in the order of the search. -/
def nodeReached (p : List Name) : Node → List (List Name × Node)
  | .file => []
  | .dir readable _ l => if readable then listingReached p l else []

def listingReached (p : List Name) : Listing → List (List Name × Node)
  | .nil => []
  | .cons n node rest =>
    if isDot n then listingReached p rest
    else (p ++ [n], node) :: (nodeReached (p ++ [n]) node ++ listingReached p rest)
end

/-- The entries below the directory that `path` leads to. -/
def pathReached (t : FileTree) (cwd : List Name) (path : List UInt8) :
    List (List Name × Node) :=
  match t.lookup cwd path with
  | none => []
  | some (p, node) => nodeReached p node

/-- An entry with the name that is looked for. -/
def Named (fileName : Name) (e : List Name × Node) : Prop :=
  e.1.getLast? = some fileName

instance (fileName : Name) (e : List Name × Node) : Decidable (Named fileName e) :=
  inferInstanceAs (Decidable (_ = _))

/-- A directory that cannot be opened. -/
def closed : Node → Bool
  | .dir readable _ _ => !readable
  | .file => false

/-- A directory that can be opened and not entered. -/
def shut : Node → Bool
  | .dir readable searchable _ => readable && !searchable
  | .file => false

/-- `search_dir` finds an entry with the name if there is one, and returns 0 if it can open
its start and there is none. -/
def Searches (t : FileTree) (fileName : Name) (path : List UInt8) (s : Proc) : Prop :=
  ∃ fuel r s', searchDir t fileName fuel path s = some (r, s') ∧
    ((∃ e ∈ pathReached t s.cwd path, Named fileName e) →
      r = 1 ∧ ∃ e ∈ pathReached t s.cwd path, Named fileName e ∧ s'.absPath = some e.1) ∧
    ((t.opendir s.cwd path).isSome → (∀ e ∈ pathReached t s.cwd path, ¬ Named fileName e) →
      r = 0)

/-- Before the first entry with the name, no entry is `bad`. -/
def NoneBefore (fileName : Name) (bad : Node → Bool) (es : List (List Name × Node)) : Prop :=
  ∀ e ∈ es.takeWhile (fun e => ¬ Named fileName e), bad e.2 = false

instance (fileName : Name) (bad : Node → Bool) (es : List (List Name × Node)) :
    Decidable (NoneBefore fileName bad es) :=
  inferInstanceAs (Decidable (∀ e ∈ es.takeWhile _, bad e.2 = false))

/-- Up to the first entry with the name every directory can be opened. -/
abbrev Unblocked (fileName : Name) (es : List (List Name × Node)) : Prop :=
  NoneBefore fileName closed es

/-- The start, and up to the first entry with the name every directory, can be entered if
it can be opened. -/
structure EnteredBefore (t : FileTree) (fileName : Name) (cwd : List Name)
    (path : List UInt8) : Prop where
  start : ∀ p node, t.lookup cwd path = some (p, node) → shut node = false
  below : NoneBefore fileName shut (pathReached t cwd path)

/-- Where the search stops. -/
def verdict (fileName : Name) : List (List Name × Node) → Int × Option (List Name)
  | [] => (0, none)
  | e :: es =>
    if Named fileName e then (1, some e.1)
    else if closed e.2 then (-1, none)
    else verdict fileName es

/-- The verdict on two lists joined is the first one's, unless that found nothing. -/
theorem verdict_append (fileName : Name) (xs ys : List (List Name × Node)) :
    verdict fileName (xs ++ ys) =
      if (verdict fileName xs).1 ≠ 0 then verdict fileName xs else verdict fileName ys := by
  induction xs with
  | nil => rfl
  | cons e xs ih =>
      rw [List.cons_append, verdict, verdict]
      by_cases hnamed : Named fileName e
      · rw [if_pos hnamed, if_pos hnamed]
        rfl
      · rw [if_neg hnamed, if_neg hnamed]
        by_cases hclosed : closed e.2 = true
        · rw [if_pos hclosed, if_pos hclosed]
          rfl
        · rw [if_neg hclosed, if_neg hclosed]
          exact ih

/-- Nothing is found without a result, and there was nothing to find. -/
theorem verdict_zero {fileName : Name} {es : List (List Name × Node)}
    (h : (verdict fileName es).1 = 0) :
    (verdict fileName es).2 = none ∧ ∀ e ∈ es, ¬ Named fileName e := by
  induction es with
  | nil => exact ⟨rfl, fun _ hmem => by cases hmem⟩
  | cons e es ih =>
      rw [verdict] at h ⊢
      by_cases hnamed : Named fileName e
      · rw [if_pos hnamed] at h
        cases h
      · rw [if_neg hnamed] at h ⊢
        by_cases hclosed : closed e.2 = true
        · rw [if_pos hclosed] at h
          cases h
        · rw [if_neg hclosed] at h ⊢
          rw [List.forall_mem_cons]
          exact ⟨(ih h).1, hnamed, (ih h).2⟩

/-- Behind an entry with another name the search goes on. -/
theorem noneBefore_cons {fileName : Name} {bad : Node → Bool} {e : List Name × Node}
    {es : List (List Name × Node)} (h : ¬ Named fileName e) :
    NoneBefore fileName bad (e :: es) ↔ bad e.2 = false ∧ NoneBefore fileName bad es := by
  have htake : (e :: es).takeWhile (fun e => ¬ Named fileName e) =
      e :: es.takeWhile (fun e => ¬ Named fileName e) :=
    List.takeWhile_cons_of_pos (by simpa using h)
  rw [NoneBefore, htake, List.forall_mem_cons, NoneBefore]

/-- Nothing is before an entry with the name. -/
theorem noneBefore_named {fileName : Name} (bad : Node → Bool) {e : List Name × Node}
    (h : Named fileName e) (es : List (List Name × Node)) :
    NoneBefore fileName bad (e :: es) := by
  have htake : (e :: es).takeWhile (fun e => ¬ Named fileName e) = [] :=
    List.takeWhile_cons_of_neg (by simpa using h)
  intro e' hmem
  rw [htake] at hmem
  cases hmem

/-- What comes first is searched first. -/
theorem NoneBefore.left {fileName : Name} {bad : Node → Bool} {xs ys : List (List Name × Node)}
    (h : NoneBefore fileName bad (xs ++ ys)) : NoneBefore fileName bad xs := by
  induction xs with
  | nil =>
      intro e hmem
      cases hmem
  | cons e xs ih =>
      by_cases hnamed : Named fileName e
      · exact noneBefore_named bad hnamed xs
      · rw [List.cons_append, noneBefore_cons hnamed] at h
        rw [noneBefore_cons hnamed]
        exact ⟨h.1, ih h.2⟩

/-- What comes second is searched where the first has no entry with the name. -/
theorem NoneBefore.right {fileName : Name} {bad : Node → Bool} {xs ys : List (List Name × Node)}
    (h : NoneBefore fileName bad (xs ++ ys)) (hxs : ∀ e ∈ xs, ¬ Named fileName e) :
    NoneBefore fileName bad ys := by
  induction xs with
  | nil => exact h
  | cons e xs ih =>
      rw [List.forall_mem_cons] at hxs
      rw [List.cons_append, noneBefore_cons hxs.1] at h
      exact ih h.2 hxs.2

section Round

variable {t : FileTree} {search : Name → Proc → Option (Int × Proc)} {fileName dname : Name}
  {names : List Name} {ds : Option Bool} {r : Int} {s : Proc}

/-- `.` and `..` are passed over. -/
theorem searchLoop_dot (h : isDot dname = true) :
    searchLoop t search fileName (dname :: names) ds r s =
      searchLoop t search fileName names ds r s := by
  rw [searchLoop, if_pos h]

/-- An entry of the name sought ends the loop with 1. -/
theorem searchLoop_named (h : isDot dname = false) (hname : dname = fileName) :
    searchLoop t search fileName (dname :: names) ds r s = some (1, s.find dname) := by
  rw [searchLoop, if_neg (by simp [h]), if_pos hname]

/-- A directory is searched, and its result ends the loop unless it is 0. -/
theorem searchLoop_dir (h : isDot dname = false) (hname : dname ≠ fileName)
    (hdir : (t.lstat s.cwd dname).or ds = some true) :
    searchLoop t search fileName (dname :: names) ds r s =
      (search dname s).bind fun (r, s) =>
        if r ≠ 0 then some (r, s) else searchLoop t search fileName names (some true) r s := by
  rw [searchLoop, if_neg (by simp [h]), if_neg hname, hdir]

/-- A file of another name is passed over. -/
theorem searchLoop_file (h : isDot dname = false) (hname : dname ≠ fileName)
    (hfile : (t.lstat s.cwd dname).or ds = some false) :
    searchLoop t search fileName (dname :: names) ds r s =
      searchLoop t search fileName names (some false) r s := by
  rw [searchLoop, if_neg (by simp [h]), if_neg hname, hfile]

end Round

/-- A directory that cannot be opened is told on the screen and answered with -1. -/
theorem searchDir_closed {t : FileTree} {dirName : List UInt8} {s : Proc}
    (h : t.opendir s.cwd dirName = none) (fileName : Name) (fuel : Nat) :
    searchDir t fileName (fuel + 1) dirName s = some (-1, s.perror "opendir error:") := by
  rw [searchDir, h]

/-- A directory that can be opened is entered, looped over and left by `..`. -/
theorem searchDir_opened {t : FileTree} {dirName : List UInt8} {s : Proc} {names : List Name}
    (h : t.opendir s.cwd dirName = some names) (fileName : Name) (fuel : Nat) :
    searchDir t fileName (fuel + 1) dirName s =
      (searchLoop t (searchDir t fileName fuel) fileName names none 0 (s.chdir t dirName)).map
        fun (r, s) => (r, s.chdir t dotdot) := by
  rw [searchDir, h]

/-- A search that answers more often gives the same loop. -/
theorem searchLoop_mono (t : FileTree) {search search' : Name → Proc → Option (Int × Proc)}
    (h : ∀ n s r, search n s = some r → search' n s = some r) {fileName : Name}
    {names : List Name} {ds : Option Bool} {r : Int} {s : Proc} {r' : Int × Proc}
    (hloop : searchLoop t search fileName names ds r s = some r') :
    searchLoop t search' fileName names ds r s = some r' := by
  induction names generalizing ds r s with
  | nil => exact hloop
  | cons dname names ih =>
      cases hdot : isDot dname with
      | true =>
          rw [searchLoop_dot hdot] at hloop ⊢
          exact ih hloop
      | false =>
          by_cases hname : dname = fileName
          · rw [searchLoop_named hdot hname] at hloop ⊢
            exact hloop
          cases hds : (t.lstat s.cwd dname).or ds with
          | none =>
              rw [searchLoop, if_neg (by simp [hdot]), if_neg hname, hds] at hloop
              cases hloop
          | some isDir =>
              cases isDir with
              | false =>
                  rw [searchLoop_file hdot hname hds] at hloop ⊢
                  exact ih hloop
              | true =>
                  rw [searchLoop_dir hdot hname hds] at hloop ⊢
                  obtain ⟨⟨r₁, s₁⟩, hsearch, hrest⟩ := Option.bind_eq_some_iff.mp hloop
                  rw [h _ _ _ hsearch, Option.bind_some]
                  dsimp only at hrest ⊢
                  by_cases hr : r₁ ≠ 0
                  · rw [if_pos hr] at hrest ⊢
                    exact hrest
                  · rw [if_neg hr] at hrest ⊢
                    exact ih hrest

/-- More fuel gives the same result, by induction on the fuel. -/
theorem searchDir_succ (t : FileTree) {fileName : Name} {fuel : Nat} {dirName : List UInt8}
    {s : Proc} {r : Int × Proc} (h : searchDir t fileName fuel dirName s = some r) :
    searchDir t fileName (fuel + 1) dirName s = some r := by
  induction fuel generalizing dirName s r with
  | zero => cases h
  | succ fuel ih =>
      cases hopen : t.opendir s.cwd dirName with
      | none =>
          rw [searchDir_closed hopen] at h ⊢
          exact h
      | some names =>
          rw [searchDir_opened hopen] at h ⊢
          obtain ⟨r', hloop, hr⟩ := Option.map_eq_some_iff.mp h
          rw [searchLoop_mono t (fun _ _ _ hsearch => ih hsearch) hloop, ← hr]
          rfl

/-- More fuel does not change what `search_dir` does. -/
theorem searchDir_mono (t : FileTree) {fileName : Name} {fuel fuel' : Nat} (hle : fuel ≤ fuel')
    {dirName : List UInt8} {s : Proc} {r : Int × Proc}
    (h : searchDir t fileName fuel dirName s = some r) :
    searchDir t fileName fuel' dirName s = some r := by
  induction hle with
  | refl => exact h
  | step _ ih => exact searchDir_succ t ih

/-- A call ends where it began, with the result `v`. -/
def Finds (t : FileTree) (fileName : Name) (dirName : List UInt8) (s : Proc)
    (v : Int × Option (List Name)) : Prop :=
  ∃ fuel s', searchDir t fileName fuel dirName s = some (v.1, s') ∧ s'.cwd = s.cwd ∧
    s'.absPath = v.2.or s.absPath

/-- The rounds for `names` end where they began, with the result `v`. -/
def LoopFinds (t : FileTree) (fileName : Name) (names : List Name) (ds : Option Bool) (s : Proc)
    (v : Int × Option (List Name)) : Prop :=
  ∃ fuel s', searchLoop t (searchDir t fileName fuel) fileName names ds 0 s = some (v.1, s') ∧
    s'.cwd = s.cwd ∧ s'.absPath = v.2.or s.absPath

/-- What a call on an entry finds: it cannot open it, or it goes through it. -/
def nodeVerdict (fileName : Name) (p : List Name) (node : Node) : Int × Option (List Name) :=
  if closed node then (-1, none) else verdict fileName (nodeReached p node)

section Rounds

variable {t : FileTree} {fileName dname : Name} {names : List Name} {ds : Option Bool}
  {s : Proc} {v : Int × Option (List Name)}

/-- A dot in front changes nothing. -/
theorem LoopFinds.dot (hdot : isDot dname = true) (h : LoopFinds t fileName names ds s v) :
    LoopFinds t fileName (dname :: names) ds s v := by
  obtain ⟨fuel, s', hloop, hs'⟩ := h
  refine ⟨fuel, s', ?_, hs'⟩
  rw [searchLoop_dot hdot]
  exact hloop

/-- An entry of the name sought is found. -/
theorem LoopFinds.named (hdot : isDot dname = false) (hname : dname = fileName) :
    LoopFinds t fileName (dname :: names) ds s (1, some (s.cwd ++ [dname])) :=
  ⟨0, s.find dname, searchLoop_named hdot hname, rfl, rfl⟩

/-- A file of another name in front changes nothing. -/
theorem LoopFinds.file (hdot : isDot dname = false) (hname : dname ≠ fileName)
    (hfile : t.lstat s.cwd dname = some false)
    (h : LoopFinds t fileName names (some false) s v) :
    LoopFinds t fileName (dname :: names) ds s v := by
  obtain ⟨fuel, s', hloop, hs'⟩ := h
  refine ⟨fuel, s', ?_, hs'⟩
  rw [searchLoop_file hdot hname (by rw [hfile]; rfl)]
  exact hloop

/-- A call that found something, or could not open its directory. -/
theorem LoopFinds.stop (hdot : isDot dname = false) (hname : dname ≠ fileName)
    (hdir : t.lstat s.cwd dname = some true) (h : Finds t fileName dname s v) (hv : v.1 ≠ 0) :
    LoopFinds t fileName (dname :: names) ds s v := by
  obtain ⟨fuel, s', hsearch, hs'⟩ := h
  refine ⟨fuel, s', ?_, hs'⟩
  rw [searchLoop_dir hdot hname (by rw [hdir]; rfl), hsearch, Option.bind_some]
  exact if_pos hv

/-- A call that found nothing. -/
theorem LoopFinds.next (hdot : isDot dname = false) (hname : dname ≠ fileName)
    (hdir : t.lstat s.cwd dname = some true) (h : Finds t fileName dname s (0, none))
    (hrest : ∀ s' : Proc, s'.cwd = s.cwd → LoopFinds t fileName names (some true) s' v) :
    LoopFinds t fileName (dname :: names) ds s v := by
  obtain ⟨fuel, s₁, hsearch, hcwd, habs⟩ := h
  obtain ⟨fuel', s₂, hloop, hcwd', habs'⟩ := hrest s₁ hcwd
  have hsearch' := searchDir_mono t (Nat.le_max_left fuel fuel') hsearch
  refine ⟨max fuel fuel', s₂, ?_, hcwd'.trans hcwd, ?_⟩
  · rw [searchLoop_dir hdot hname (by rw [hdir]; rfl), hsearch', Option.bind_some]
    exact searchLoop_mono t (fun _ _ _ => searchDir_mono t (Nat.le_max_right fuel fuel')) hloop
  · rw [habs', habs]
    rfl

end Rounds

/-- An entry has the name that its path ends in. -/
theorem named_concat (fileName : Name) (p : List Name) (n : Name) (node : Node) :
    Named fileName (p ++ [n], node) ↔ n = fileName := by
  rw [Named, List.getLast?_concat, Option.some_inj]

/-- The verdict on an entry with another name and what comes after it. -/
theorem verdict_entry {fileName n : Name} (hname : n ≠ fileName) (p : List Name) (node : Node)
    (rest : List (List Name × Node)) :
    verdict fileName ((p ++ [n], node) :: (nodeReached (p ++ [n]) node ++ rest)) =
      if (nodeVerdict fileName (p ++ [n]) node).1 ≠ 0 then nodeVerdict fileName (p ++ [n]) node
      else verdict fileName rest := by
  rw [verdict, if_neg (fun h => hname ((named_concat fileName p n node).mp h)), nodeVerdict]
  by_cases hclosed : closed node = true
  · rw [if_pos hclosed, if_pos hclosed]
    rfl
  · rw [if_neg hclosed, if_neg hclosed]
    exact verdict_append fileName _ _

/-- A call that found nothing has been through all there is. -/
theorem nodeVerdict_zero {fileName : Name} {p : List Name} {node : Node}
    (h : (nodeVerdict fileName p node).1 = 0) :
    nodeVerdict fileName p node = (0, none) ∧ ∀ e ∈ nodeReached p node, ¬ Named fileName e := by
  rw [nodeVerdict] at h ⊢
  split at h
  · cases h
  · next hclosed =>
      obtain ⟨hnone, hall⟩ := verdict_zero h
      rw [if_neg hclosed]
      exact ⟨Prod.ext h hnone, hall⟩

/-- Inside a file nothing is found. -/
theorem nodeVerdict_file {fileName : Name} {p : List Name} {node : Node}
    (h : node.isDir = false) : nodeVerdict fileName p node = (0, none) := by
  cases node with
  | file => rfl
  | dir r x l => cases h

mutual

/-- A call on a directory in the working directory. -/
theorem node_finds (t : FileTree) (fileName : Name) (node : Node) {n : Name} {s : Proc}
    (hdir : node.isDir = true) (hopened : shut node = false)
    (hentered : NoneBefore fileName shut (nodeReached (s.cwd ++ [n]) node))
    (hcwd : t.Searchable s.cwd) (hn : Proper n)
    (hget : t.root.get? (s.cwd ++ [n]) = some node) :
    Finds t fileName n s (nodeVerdict fileName (s.cwd ++ [n]) node) := by
  have hopen := FileTree.opendir_child hcwd hn hget
  match node with
  | .file => cases hdir
  | .dir false x l => exact ⟨1, _, searchDir_closed hopen fileName 0, rfl, rfl⟩
  | .dir true false l => cases hopened
  | .dir true true l =>
      have hlookup := FileTree.lookup_child hcwd hn hget
      obtain ⟨hin, hsearch, hfound⟩ := enter_of_lookup hlookup
      have hchdir : (s.chdir t n).cwd = s.cwd ++ [n] := hin
      obtain ⟨fuel, s', hloop, hcwd', habs⟩ := listing_finds t fileName l (s := s.chdir t n) none
        (by rw [hchdir]; exact hentered) hsearch hfound
      rw [hchdir] at hloop hcwd' habs
      refine ⟨fuel + 1, s'.chdir t dotdot, ?_, ?_, habs⟩
      · rw [searchDir_opened hopen, hloop]
        rfl
      · rw [Proc.chdir, hcwd']
        exact FileTree.chdir_up hcwd (FileTree.searchable_of_get? hget)

/-- The rounds for entries of the working directory. -/
theorem listing_finds (t : FileTree) (fileName : Name) (l : Listing) {s : Proc}
    (ds : Option Bool) (hentered : NoneBefore fileName shut (listingReached s.cwd l))
    (hcwd : t.Searchable s.cwd) (hfound : Found t s.cwd l) :
    LoopFinds t fileName l.names ds s (verdict fileName (listingReached s.cwd l)) := by
  match l with
  | .nil => exact ⟨0, s, rfl, rfl, rfl⟩
  | .cons n node rest =>
      rw [listingReached] at hentered
      rw [Listing.names, listingReached]
      by_cases hdot : isDot n = true
      · rw [if_pos hdot] at hentered ⊢
        exact (listing_finds t fileName rest ds hentered hcwd hfound.tail).dot hdot
      have hdot' : isDot n = false := by simpa using hdot
      obtain ⟨hn, hget⟩ := hfound.head hdot'
      have hlstat := FileTree.lstat_child hcwd hn hget
      rw [if_neg hdot] at hentered ⊢
      by_cases hname : n = fileName
      · rw [verdict, if_pos ((named_concat fileName s.cwd n node).mpr hname)]
        exact LoopFinds.named hdot' hname
      rw [noneBefore_cons (fun hnamed => hname ((named_concat fileName s.cwd n node).mp hnamed))]
        at hentered
      obtain ⟨hopened, hbelow⟩ := hentered
      rw [verdict_entry hname]
      cases hdir : node.isDir with
      | false =>
          rw [hdir] at hlstat
          have hverdict : nodeVerdict fileName (s.cwd ++ [n]) node = (0, none) :=
            nodeVerdict_file hdir
          have hrest := hbelow.right (nodeVerdict_zero (by rw [hverdict])).2
          rw [hverdict, if_neg (by simp)]
          exact (listing_finds t fileName rest (some false) hrest hcwd hfound.tail).file
            hdot' hname hlstat
      | true =>
          rw [hdir] at hlstat
          have hnode := node_finds t fileName node hdir hopened hbelow.left hcwd hn hget
          by_cases hv : (nodeVerdict fileName (s.cwd ++ [n]) node).1 = 0
          · obtain ⟨hzero, hnone⟩ := nodeVerdict_zero hv
            have hrest := hbelow.right hnone
            rw [if_neg (not_not.mpr hv)]
            rw [hzero] at hnode
            refine LoopFinds.next hdot' hname hlstat hnode ?_
            intro s' hs'
            rw [← hs'] at hcwd hfound hrest ⊢
            exact listing_finds t fileName rest (some true) hrest hcwd hfound.tail
          · rw [if_pos hv]
            exact LoopFinds.stop hdot' hname hlstat hnode hv

end

/-- Unblocked, the verdict is on the first entry with the name. -/
theorem verdict_unblocked {fileName : Name} {es : List (List Name × Node)}
    (h : Unblocked fileName es) :
    ((∃ e ∈ es, Named fileName e) → (verdict fileName es).1 = 1 ∧
      ∃ e ∈ es, Named fileName e ∧ (verdict fileName es).2 = some e.1) ∧
    ((∀ e ∈ es, ¬ Named fileName e) → (verdict fileName es).1 = 0) := by
  induction es with
  | nil =>
      constructor
      · rintro ⟨e, hmem, -⟩
        cases hmem
      · intro _
        rfl
  | cons e es ih =>
      rw [verdict]
      by_cases hnamed : Named fileName e
      · rw [if_pos hnamed]
        constructor
        · intro _
          exact ⟨rfl, e, List.mem_cons_self, hnamed, rfl⟩
        · intro hnone
          exact absurd hnamed (hnone e List.mem_cons_self)
      · rw [Unblocked, noneBefore_cons hnamed] at h
        obtain ⟨hfirst, hnone⟩ := ih h.2
        rw [if_neg hnamed, if_neg (by simp [h.1])]
        constructor
        · rintro ⟨e', hmem, hnamed'⟩
          have hrest : e' ∈ es := by
            rcases List.mem_cons.mp hmem with rfl | hrest
            · exact absurd hnamed' hnamed
            · exact hrest
          obtain ⟨hone, e₁, hmem₁, he₁⟩ := hfirst ⟨e', hrest, hnamed'⟩
          exact ⟨hone, e₁, List.mem_cons_of_mem _ hmem₁, he₁⟩
        · intro hall
          exact hnone fun e' hmem => hall e' (List.mem_cons_of_mem _ hmem)

/-- Blocked, it is -1. -/
theorem verdict_blocked {fileName : Name} {es : List (List Name × Node)}
    (h : ¬ Unblocked fileName es) : (verdict fileName es).1 = -1 := by
  induction es with
  | nil =>
      exfalso
      apply h
      intro e hmem
      cases hmem
  | cons e es ih =>
      rw [verdict]
      by_cases hnamed : Named fileName e
      · exact absurd (noneBefore_named closed hnamed es) h
      · rw [Unblocked, noneBefore_cons hnamed] at h
        rw [if_neg hnamed]
        by_cases hclosed : closed e.2 = true
        · rw [if_pos hclosed]
        · rw [if_neg hclosed]
          exact ih fun hrest => h ⟨by simpa using hclosed, hrest⟩

section Start

variable {t : FileTree} {fileName : Name} {path : List UInt8} {s : Proc}

/-- A start that can be opened. -/
theorem start_finds (hentered : EnteredBefore t fileName s.cwd path) {names : List Name}
    (hopen : t.opendir s.cwd path = some names) :
    ∃ fuel s', searchDir t fileName fuel path s =
        some ((verdict fileName (pathReached t s.cwd path)).1, s') ∧
      s'.absPath = (verdict fileName (pathReached t s.cwd path)).2.or s.absPath := by
  obtain ⟨p, x, l, hlookup, rfl⟩ := FileTree.opendir_some hopen
  have hopened := hentered.start p _ hlookup
  obtain rfl : x = true := by
    cases x with
    | true => rfl
    | false => cases hopened
  have hreached : pathReached t s.cwd path = listingReached p l := by
    rw [pathReached, hlookup]
    rfl
  obtain ⟨hin, hsearch, hfound⟩ := enter_of_lookup hlookup
  have hchdir : (s.chdir t path).cwd = p := hin
  have hbelow := hentered.below
  rw [hreached] at hbelow
  obtain ⟨fuel, s', hloop, -, habs⟩ := listing_finds t fileName l (s := s.chdir t path) none
    (by rw [hchdir]; exact hbelow) hsearch hfound
  rw [hchdir] at hloop habs
  rw [hreached]
  refine ⟨fuel + 1, s'.chdir t dotdot, ?_, habs⟩
  rw [searchDir_opened hopen, hloop]
  rfl

/-- A directory that cannot be opened reaches nothing. -/
theorem pathReached_closed (h : t.opendir s.cwd path = none) :
    pathReached t s.cwd path = [] := by
  rw [pathReached]
  cases hlookup : t.lookup s.cwd path with
  | none => rfl
  | some found =>
      obtain ⟨p, node⟩ := found
      have hread : node.readdir = none := (opendir_of_lookup hlookup).symm.trans h
      match node with
      | .file => rfl
      | .dir false x l => rfl
      | .dir true x l => cases hread

/-- A start that cannot be opened. -/
theorem searches_closed (h : t.opendir s.cwd path = none) : Searches t fileName path s := by
  refine ⟨1, -1, _, searchDir_closed h fileName 0, ?_, ?_⟩
  · rintro ⟨e, hmem, -⟩
    rw [pathReached_closed h] at hmem
    cases hmem
  · intro hsome
    rw [h] at hsome
    cases hsome

/-- A directory that cannot be opened ends the search. -/
theorem not_searches_of_blocked (hentered : EnteredBefore t fileName s.cwd path) {names : List Name}
    (hopen : t.opendir s.cwd path = some names)
    (hblocked : ¬ Unblocked fileName (pathReached t s.cwd path)) :
    ¬ Searches t fileName path s := by
  rintro ⟨fuel, r, s', hsearch, hfound, hnone⟩
  obtain ⟨fuel', s₁, hrun, -⟩ := start_finds hentered hopen
  rw [verdict_blocked hblocked] at hrun
  have hsearch' := searchDir_mono t (Nat.le_max_left fuel fuel') hsearch
  have hrun' := searchDir_mono t (Nat.le_max_right fuel fuel') hrun
  rw [hsearch'] at hrun'
  cases hrun'
  by_cases hnamed : ∃ e ∈ pathReached t s.cwd path, Named fileName e
  · cases (hfound hnamed).1
  · have hall : ∀ e ∈ pathReached t s.cwd path, ¬ Named fileName e :=
      fun e hmem he => hnamed ⟨e, hmem, he⟩
    cases hnone (by rw [hopen]; rfl) hall

end Start

/-- **Searching.**  Where the start and every directory before the first entry with the name
can be entered if it can be opened, `search_dir` gives the right answer exactly when each of
these directories can be opened. -/
theorem searches_iff (t : FileTree) (fileName : Name) (path : List UInt8) (s : Proc)
    (hentered : EnteredBefore t fileName s.cwd path) :
    Searches t fileName path s ↔ Unblocked fileName (pathReached t s.cwd path) := by
  cases hopen : t.opendir s.cwd path with
  | none =>
      refine iff_of_true (searches_closed hopen) ?_
      rw [pathReached_closed hopen]
      intro e hmem
      cases hmem
  | some names =>
      constructor
      · intro hsearches
        by_contra hblocked
        exact not_searches_of_blocked hentered hopen hblocked hsearches
      · intro hunblocked
        obtain ⟨hfound, hnone⟩ := verdict_unblocked hunblocked
        obtain ⟨fuel, s', hrun, habs⟩ := start_finds hentered hopen
        refine ⟨fuel, _, s', hrun, ?_, fun _ => hnone⟩
        intro hnamed
        obtain ⟨hone, e, hmem, he, hv⟩ := hfound hnamed
        refine ⟨hone, e, hmem, he, ?_⟩
        rw [habs, hv]
        rfl

/-- A directory with `first` and then the directory `b`, in which there is the file `c`. -/
def searchRoot (first : Node) : Node :=
  .dir true true (.cons dot .file (.cons [122] first
    (.cons [98] (.dir true true (.cons [99] .file .nil)) .nil)))

/-- The tree of the example is well formed if its first entry is. -/
theorem searchRoot_wf {first : Node} (h : first.Wf) : (searchRoot first).Wf := by
  refine ⟨fun hdot => absurd hdot (by decide), fun _ => ⟨⟨by decide, by decide, by decide⟩,
    by decide, h⟩, fun _ => ⟨⟨by decide, by decide, by decide⟩, by decide, ?_⟩, trivial⟩
  exact ⟨fun _ => ⟨⟨by decide, by decide, by decide⟩, by decide, trivial⟩, trivial⟩

def searchTree (first : Node) (h : first.Wf) : FileTree :=
  ⟨searchRoot first, searchRoot_wf h⟩

/-- From `/` the directories are entered where none of them is shut. -/
theorem searchTree_entered (first : Node) (hwf : first.Wf)
    (h : NoneBefore [99] shut (pathReached (searchTree first hwf) [] [slash])) :
    EnteredBefore (searchTree first hwf) [99] [] [slash] := by
  refine ⟨?_, h⟩
  rintro p node hlookup
  cases hlookup
  rfl

/-- Behind a file `z` the file `c` is found. -/
theorem searches_behind_file :
    Searches (searchTree .file trivial) [99] [slash] ⟨[], none, [], []⟩ := by
  have hentered : EnteredBefore (searchTree .file trivial) [99] [] [slash] :=
    searchTree_entered .file trivial (by decide +kernel)
  refine (searches_iff _ _ _ ⟨[], none, [], []⟩ hentered).mpr ?_
  decide +kernel

/-- Behind a directory `z` that cannot be opened it is not. -/
theorem not_searches_behind_closed :
    ¬ Searches (searchTree (.dir false false .nil) trivial) [99] [slash]
      ⟨[], none, [], []⟩ := by
  have hentered : EnteredBefore (searchTree (.dir false false .nil) trivial) [99] [] [slash] :=
    searchTree_entered (.dir false false .nil) trivial (by decide +kernel)
  refine not_searches_of_blocked (s := ⟨[], none, [], []⟩) hentered rfl ?_
  decide +kernel

/-- A directory with the file `c`, which can be opened and not entered. -/
def shutDir : Node :=
  .dir true false (.cons [99] .file .nil)

/-- The directory that cannot be entered is well formed. -/
theorem shutDir_wf : shutDir.Wf :=
  ⟨fun _ => ⟨⟨by decide, by decide, by decide⟩, by decide, trivial⟩, trivial⟩

/-- Where `z` is such a directory, every directory can be opened, and the answer is `/c`,
which is no entry. -/
theorem not_searches_behind_unentered :
    Unblocked [99] (pathReached (searchTree shutDir shutDir_wf) [] [slash]) ∧
      ¬ Searches (searchTree shutDir shutDir_wf) [99] [slash] ⟨[], none, [], []⟩ := by
  refine ⟨by decide +kernel, ?_⟩
  rintro ⟨fuel, r, s', hsearch, hfound, -⟩
  obtain ⟨-, e, hmem, -, habs⟩ := hfound (by decide +kernel)
  obtain ⟨s₁, hrun, habs₁⟩ : ∃ s₁, searchDir (searchTree shutDir shutDir_wf) [99] 2 [slash]
      ⟨[], none, [], []⟩ = some (1, s₁) ∧ s₁.absPath = some [[99]] := ⟨_, rfl, rfl⟩
  have hsearch' := searchDir_mono _ (Nat.le_max_left fuel 2) hsearch
  rw [searchDir_mono _ (Nat.le_max_right fuel 2) hrun] at hsearch'
  cases hsearch'
  have hno : ∀ e ∈ pathReached (searchTree shutDir shutDir_wf) [] [slash], e.1 ≠ [[99]] := by
    decide +kernel
  exact hno e hmem (Option.some.inj (habs.symm.trans habs₁))

end DirSearch

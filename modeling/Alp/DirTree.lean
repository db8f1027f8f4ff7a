import Mathlib.Data.List.Basic

/-!
# Directory trees

A file system as a tree, for programs that find their way through it by names and by
their working directory.  A directory can be read or not, and searched or not: `opendir`
needs the first, and `chdir` and every step of a path through it the second.

A working directory is the list of the names that lead to it from the root.  In a
directory that can be searched the name of an entry leads to the entry
(`FileTree.lookup_child`), and `..` leads back from it (`FileTree.chdir_up`); anywhere else
`..` leads up at most (`FileTree.chdir_dotdot_above`).
-/

set_option autoImplicit false

namespace DirTree

abbrev Name := List UInt8

def slash : UInt8 := 47

def dot : Name := [46]

def dotdot : Name := [46, 46]

/-- Whether a name is one of the two that every directory has. -/
def isDot (n : Name) : Bool :=
  n == dot || n == dotdot

/-- The name of an entry. -/
structure Proper (n : Name) : Prop where
  ne_nil : n ≠ []
  no_slash : slash ∉ n
  not_dot : isDot n = false

mutual
/-- A file that is no directory, or a directory: whether it can be read, whether it can
be searched, and what is in it. -/
inductive Node
  | file
  | dir (readable searchable : Bool) (listing : Listing)

/-- A directory in the order in which it is read.  `.` and `..` are read at any place, and
what stands beside them is not looked at. -/
inductive Listing
  | nil
  | cons (name : Name) (node : Node) (rest : Listing)
end

namespace Listing

/-- The names read. -/
def names : Listing → List Name
  | nil => []
  | cons n _ rest => n :: rest.names

/-- The entries. -/
def entries : Listing → List (Name × Node)
  | nil => []
  | cons n node rest => if isDot n then rest.entries else (n, node) :: rest.entries

/-- The entry of a name. -/
def find? : Listing → Name → Option Node
  | nil, _ => none
  | cons m node rest, n =>
    if isDot m then rest.find? n else if m = n then some node else rest.find? n

end Listing

namespace Node

def isDir : Node → Bool
  | file => false
  | dir _ _ _ => true

def searchable : Node → Bool
  | file => false
  | dir _ x _ => x

/-- What `readdir` reads, if the directory can be read. -/
def readdir : Node → Option (List Name)
  | dir true _ l => some l.names
  | _ => none

def child : Node → Name → Option Node
  | file, _ => none
  | dir _ _ l, n => l.find? n

/-- The node at the end of some names. -/
def get? : Node → List Name → Option Node
  | node, [] => some node
  | node, n :: p => (node.child n).bind (·.get? p)

end Node

mutual
/-- Entries have names, and different ones. -/
def Node.Wf : Node → Prop
  | .file => True
  | .dir _ _ l => l.Wf

def Listing.Wf : Listing → Prop
  | .nil => True
  | .cons n node rest => (isDot n = false → Proper n ∧ n ∉ rest.names ∧ node.Wf) ∧ rest.Wf
end

/-- A file system. -/
structure FileTree where
  root : Node
  wf : root.Wf

/-- The names in a path. -/
def components (path : List UInt8) : List Name :=
  (path.splitOn slash).filter (· ≠ [])

namespace FileTree

variable (t : FileTree)

/-- Whether `p` is a directory that can be searched. -/
def Searchable (p : List Name) : Prop :=
  ∃ node, t.root.get? p = some node ∧ node.searchable = true

/-- A step of a path. -/
def walk (p : List Name) (n : Name) : Option (List Name) :=
  match t.root.get? p with
  | none => none
  | some node =>
    if node.searchable then
      if n = dot then some p
      else if n = dotdot then some p.dropLast
      else some (p ++ [n])
    else none

/-- Where a path leads from the working directory `cwd`, if it leads to something. -/
def lookup (cwd : List Name) (path : List UInt8) : Option (List Name × Node) :=
  if path = [] then none
  else do
    let p ← (components path).foldlM t.walk (if path.head? = some slash then [] else cwd)
    let node ← t.root.get? p
    return (p, node)

/-- `opendir`, with what `readdir` reads after it. -/
def opendir (cwd : List Name) (path : List UInt8) : Option (List Name) :=
  (t.lookup cwd path).bind fun r => r.2.readdir

/-- `chdir`: the working directory after it, which is the one before if it fails. -/
def chdir (cwd : List Name) (path : List UInt8) : List Name :=
  match t.lookup cwd path with
  | some (p, .dir _ true _) => p
  | _ => cwd

/-- `lstat`: whether the file is a directory. -/
def lstat (cwd : List Name) (path : List UInt8) : Option Bool :=
  (t.lookup cwd path).map fun r => r.2.isDir

end FileTree

/-- Walking down a joined path is walking down one part after the other. -/
theorem get?_append (node : Node) (p q : List Name) :
    node.get? (p ++ q) = (node.get? p).bind (·.get? q) := by
  induction p generalizing node with
  | nil => rfl
  | cons n p ih =>
      rw [List.cons_append, Node.get?, Node.get?, Option.bind_assoc]
      exact congrArg _ (funext fun child => ih child)

/-- One more name at the end of a path leads to the child of that name. -/
theorem get?_concat (node : Node) (p : List Name) (n : Name) :
    node.get? (p ++ [n]) = (node.get? p).bind (·.child n) := by
  rw [get?_append]
  refine congrArg _ (funext fun child => ?_)
  rw [Node.get?]
  cases child.child n with
  | none => rfl
  | some node => rfl

/-- The name of an entry is among the names of the listing. -/
theorem mem_names_of_entries {n : Name} {node : Node} :
    ∀ {l : Listing}, (n, node) ∈ l.entries → n ∈ l.names
  | .cons m node' rest, h => by
      rw [Listing.entries] at h
      split at h
      · exact List.mem_cons_of_mem _ (mem_names_of_entries h)
      · rcases List.mem_cons.mp h with heq | hrest
        · cases heq
          exact List.mem_cons_self
        · exact List.mem_cons_of_mem _ (mem_names_of_entries hrest)

/-- An entry has a name of its own, and is found by it. -/
theorem find?_of_entries {n : Name} {node : Node} :
    ∀ {l : Listing}, l.Wf → (n, node) ∈ l.entries → Proper n ∧ l.find? n = some node
  | .cons m node' rest, hwf, h => by
      obtain ⟨hhead, hrest⟩ := hwf
      rw [Listing.entries] at h
      rw [Listing.find?]
      by_cases hm : isDot m = true
      · rw [if_pos hm] at h ⊢
        exact find?_of_entries hrest h
      · rw [if_neg hm] at h ⊢
        obtain ⟨hproper, hnew, -⟩ := hhead (by simpa using hm)
        rcases List.mem_cons.mp h with heq | hmem
        · cases heq
          exact ⟨hproper, if_pos rfl⟩
        · have hne : m ≠ n := by
            rintro rfl
            exact hnew (mem_names_of_entries hmem)
          rw [if_neg hne]
          exact find?_of_entries hrest hmem

/-- What a well-formed listing holds is well formed. -/
theorem find?_wf {n : Name} {node : Node} :
    ∀ {l : Listing}, l.Wf → l.find? n = some node → node.Wf
  | .cons m node' rest, hwf, h => by
      obtain ⟨hhead, hrest⟩ := hwf
      rw [Listing.find?] at h
      split at h
      · exact find?_wf hrest h
      · next hm =>
          split at h
          · cases h
            exact (hhead (by simpa using hm)).2.2
          · exact find?_wf hrest h

/-- The names that are read are `.`, `..` and the names of the entries. -/
theorem proper_of_names {n : Name} (hn : isDot n = false) :
    ∀ {l : Listing}, l.Wf → n ∈ l.names → Proper n
  | .cons m node rest, hwf, h => by
      obtain ⟨hhead, hrest⟩ := hwf
      rcases List.mem_cons.mp h with rfl | hmem
      · exact (hhead hn).1
      · exact proper_of_names hn hrest hmem

/-- What lies below a well-formed node is well formed. -/
theorem get?_wf {p : List Name} {node node' : Node} (hwf : node.Wf)
    (h : node.get? p = some node') : node'.Wf := by
  induction p generalizing node with
  | nil =>
      cases h
      exact hwf
  | cons n p ih =>
      obtain ⟨child, hchild, hrest⟩ := Option.bind_eq_some_iff.mp h
      cases node with
      | file => cases hchild
      | dir r x l => exact ih (find?_wf hwf hchild) hrest

namespace FileTree

variable {t : FileTree}

/-- A directory with its search bit can be searched. -/
theorem searchable_of_get? {p : List Name} {r : Bool} {l : Listing}
    (h : t.root.get? p = some (.dir r true l)) : t.Searchable p :=
  ⟨_, h, rfl⟩

/-- In a directory that can be searched a name leads to itself, to the parent or to an entry. -/
theorem walk_searchable {p : List Name} (h : t.Searchable p) (n : Name) :
    t.walk p n =
      some (if n = dot then p else if n = dotdot then p.dropLast else p ++ [n]) := by
  obtain ⟨node, hnode, hx⟩ := h
  rw [walk, hnode]
  dsimp only
  rw [if_pos hx]
  split_ifs <;> rfl

/-- In a directory that cannot be searched no name leads anywhere. -/
theorem walk_not_searchable {p : List Name} (h : ¬ t.Searchable p) (n : Name) :
    t.walk p n = none := by
  rw [walk]
  cases hnode : t.root.get? p with
  | none => rfl
  | some node =>
      have hx : ¬ node.searchable = true := fun hx => h ⟨node, hnode, hx⟩
      exact if_neg hx

/-- A path that is a single name. -/
theorem lookup_name {n : Name} (hnil : n ≠ []) (hslash : slash ∉ n) (cwd : List Name) :
    t.lookup cwd n =
      (t.walk cwd n).bind fun p => (t.root.get? p).map fun node => (p, node) := by
  have hcomponents : components n = [n] := by
    rw [components, List.splitOn_eq_singleton hslash]
    simp [hnil]
  have hhead : n.head? ≠ some slash := by
    intro h
    exact hslash (List.mem_of_mem_head? h)
  rw [lookup, if_neg hnil, hcomponents, if_neg hhead]
  simp only [List.foldlM_cons, List.foldlM_nil]
  cases t.walk cwd n with
  | none => rfl
  | some p =>
      simp only [Option.bind_eq_bind, Option.bind_some, Option.pure_def]
      cases t.root.get? p with
      | none => rfl
      | some node => rfl

/-- A proper name leads one entry down. -/
theorem walk_proper {p : List Name} {n : Name} (h : t.Searchable p) (hn : Proper n) :
    t.walk p n = some (p ++ [n]) := by
  have hdots := hn.not_dot
  rw [isDot, Bool.or_eq_false_iff, beq_eq_false_iff_ne, beq_eq_false_iff_ne] at hdots
  rw [walk_searchable h, if_neg hdots.1, if_neg hdots.2]

/-- An entry of the working directory. -/
theorem lookup_child {cwd : List Name} {n : Name} {node : Node} (h : t.Searchable cwd)
    (hn : Proper n) (hnode : t.root.get? (cwd ++ [n]) = some node) :
    t.lookup cwd n = some (cwd ++ [n], node) := by
  rw [lookup_name hn.ne_nil hn.no_slash, walk_proper h hn, Option.bind_some, hnode]
  rfl

/-- A proper name that is found is an entry of a directory that can be searched. -/
theorem lookup_child_inv {cwd p : List Name} {n : Name} {node : Node} (hn : Proper n)
    (h : t.lookup cwd n = some (p, node)) :
    t.Searchable cwd ∧ p = cwd ++ [n] ∧ t.root.get? p = some node := by
  rw [lookup_name hn.ne_nil hn.no_slash] at h
  by_cases hx : t.Searchable cwd
  · rw [walk_proper hx hn, Option.bind_some, Option.map_eq_some_iff] at h
    obtain ⟨node', hnode, heq⟩ := h
    cases heq
    exact ⟨hx, rfl, hnode⟩
  · rw [walk_not_searchable hx] at h
    cases h

/-- Looking `..` up is one step of the walk. -/
theorem lookup_dotdot (cwd : List Name) :
    t.lookup cwd dotdot =
      (t.walk cwd dotdot).bind fun p => (t.root.get? p).map fun node => (p, node) :=
  lookup_name (by decide) (by decide) cwd

/-- From a directory that can be searched `..` leads to its parent. -/
theorem walk_dotdot {p : List Name} (h : t.Searchable p) :
    t.walk p dotdot = some p.dropLast := by
  rw [walk_searchable h, if_neg (by decide), if_pos rfl]

/-- `chdir` to an entry. -/
theorem chdir_child {cwd : List Name} {n : Name} (h : t.Searchable cwd) (hn : Proper n)
    (hdir : t.Searchable (cwd ++ [n])) : t.chdir cwd n = cwd ++ [n] := by
  obtain ⟨node, hnode, hx⟩ := hdir
  rw [chdir, lookup_child h hn hnode]
  cases node with
  | file => cases hx
  | dir r x l =>
      have htrue : x = true := hx
      rw [htrue]

/-- An entry that cannot be searched leaves the working directory as it was. -/
theorem chdir_child_fails {cwd : List Name} {n : Name} {node : Node} (hn : Proper n)
    (hnode : t.root.get? (cwd ++ [n]) = some node) (hx : node.searchable = false) :
    t.chdir cwd n = cwd := by
  rw [chdir]
  split
  · next p r l hlookup =>
      obtain ⟨-, rfl, hnode'⟩ := lookup_child_inv hn hlookup
      rw [hnode'] at hnode
      cases hnode
      cases hx
  · rfl

/-- It goes to the entry, or it fails. -/
theorem chdir_child_cases (t : FileTree) (cwd : List Name) {n : Name} (hn : Proper n) :
    (t.chdir cwd n = cwd ++ [n] ∧ t.Searchable cwd ∧ t.Searchable (cwd ++ [n])) ∨
      (t.chdir cwd n = cwd ∧ ¬ t.Searchable (cwd ++ [n])) ∨
      (t.chdir cwd n = cwd ∧ ¬ t.Searchable cwd) := by
  by_cases h : t.Searchable cwd
  · by_cases hdir : t.Searchable (cwd ++ [n])
    · exact Or.inl ⟨chdir_child h hn hdir, h, hdir⟩
    · refine Or.inr (Or.inl ⟨?_, hdir⟩)
      rw [chdir]
      split
      · next p r l hlookup =>
          obtain ⟨-, rfl, hnode⟩ := lookup_child_inv hn hlookup
          exact absurd (searchable_of_get? hnode) hdir
      · rfl
  · refine Or.inr (Or.inr ⟨?_, h⟩)
    rw [chdir, lookup_name hn.ne_nil hn.no_slash, walk_not_searchable h]
    rfl

/-- `chdir` back from an entry. -/
theorem chdir_up {cwd : List Name} {n : Name} (h : t.Searchable cwd)
    (hdir : t.Searchable (cwd ++ [n])) : t.chdir (cwd ++ [n]) dotdot = cwd := by
  obtain ⟨node, hnode, hx⟩ := h
  rw [chdir, lookup_dotdot, walk_dotdot hdir, List.dropLast_concat, Option.bind_some, hnode]
  cases node with
  | file => cases hx
  | dir r x l =>
      have htrue : x = true := hx
      rw [htrue]
      rfl

/-- `..` leads up, or it fails. -/
theorem chdir_dotdot_cases (t : FileTree) (cwd : List Name) :
    t.chdir cwd dotdot = cwd.dropLast ∨ t.chdir cwd dotdot = cwd := by
  rw [chdir, lookup_dotdot]
  by_cases h : t.Searchable cwd
  · rw [walk_dotdot h, Option.bind_some]
    cases hnode : t.root.get? cwd.dropLast with
    | none => exact Or.inr rfl
    | some node =>
        cases node with
        | file => exact Or.inr rfl
        | dir r x l =>
            cases x with
            | true => exact Or.inl rfl
            | false => exact Or.inr rfl
  · rw [walk_not_searchable h]
    exact Or.inr rfl

/-- After `chdir("..")` the working directory is a prefix of what it was. -/
theorem chdir_dotdot_above (t : FileTree) (cwd : List Name) :
    t.chdir cwd dotdot <+: cwd := by
  rcases chdir_dotdot_cases t cwd with h | h
  · rw [h]
    exact List.dropLast_prefix cwd
  · exact ⟨[], by rw [h, List.append_nil]⟩

/-- What is above a directory is still above it after `..`. -/
theorem chdir_dotdot_mono (t : FileTree) {p q : List Name} (h : p <+: q) :
    t.chdir p dotdot <+: t.chdir q dotdot := by
  by_cases heq : p = q
  · exact ⟨[], by rw [heq, List.append_nil]⟩
  have hdrop : p <+: q.dropLast := by
    rcases List.eq_nil_or_concat q with rfl | ⟨q, n, rfl⟩
    · exact absurd (List.prefix_nil.mp h) heq
    · rw [List.concat_eq_append] at h heq ⊢
      rw [List.dropLast_concat]
      exact (List.prefix_concat_iff.mp h).resolve_left heq
  have hp : t.chdir p dotdot <+: q.dropLast := (chdir_dotdot_above t p).trans hdrop
  rcases chdir_dotdot_cases t q with hq | hq
  · rw [hq]
    exact hp
  · rw [hq]
    exact hp.trans (List.dropLast_prefix q)

/-- From a directory that can be searched `opendir` of an entry reads that entry. -/
theorem opendir_child {cwd : List Name} {n : Name} {node : Node} (h : t.Searchable cwd)
    (hn : Proper n) (hnode : t.root.get? (cwd ++ [n]) = some node) :
    t.opendir cwd n = node.readdir := by
  rw [opendir, lookup_child h hn hnode, Option.bind_some]

/-- From a directory that can be searched `lstat` tells whether an entry is a directory. -/
theorem lstat_child {cwd : List Name} {n : Name} {node : Node} (h : t.Searchable cwd)
    (hn : Proper n) (hnode : t.root.get? (cwd ++ [n]) = some node) :
    t.lstat cwd n = some node.isDir := by
  rw [lstat, lookup_child h hn hnode]
  rfl

/-- What a lookup finds stands in the tree at the path it gives. -/
theorem lookup_get? {cwd p : List Name} {path : List UInt8} {node : Node}
    (h : t.lookup cwd path = some (p, node)) : t.root.get? p = some node := by
  rw [lookup] at h
  split at h
  · cases h
  · simp only [Option.bind_eq_bind, Option.pure_def, Option.bind_eq_some_iff] at h
    obtain ⟨q, -, node', hnode, heq⟩ := h
    cases heq
    exact hnode

/-- Only a readable directory gives names, and it gives all of them. -/
theorem readdir_some {node : Node} {names : List Name} (h : node.readdir = some names) :
    ∃ x l, node = .dir true x l ∧ names = l.names := by
  cases node with
  | file => cases h
  | dir r x l =>
      cases r with
      | false => cases h
      | true =>
          cases h
          exact ⟨x, l, rfl, rfl⟩

/-- What can be opened. -/
theorem opendir_some {cwd : List Name} {path : List UInt8} {names : List Name}
    (h : t.opendir cwd path = some names) :
    ∃ p x l, t.lookup cwd path = some (p, .dir true x l) ∧ names = l.names := by
  obtain ⟨⟨p, node⟩, hlookup, hread⟩ := Option.bind_eq_some_iff.mp h
  obtain ⟨x, l, rfl, hnames⟩ := readdir_some hread
  exact ⟨p, x, l, hlookup, hnames⟩

/-- What `readdir` reads. -/
theorem opendir_names {cwd : List Name} {path : List UInt8} {names : List Name}
    (h : t.opendir cwd path = some names) :
    ∀ n ∈ names, isDot n = false → Proper n := by
  obtain ⟨p, x, l, hlookup, rfl⟩ := opendir_some h
  have hwf : l.Wf := get?_wf t.wf (lookup_get? hlookup)
  intro n hmem hn
  exact proper_of_names hn hwf hmem

/-- The entries of a directory. -/
theorem get?_entry {p : List Name} {r x : Bool} {l : Listing}
    (h : t.root.get? p = some (.dir r x l)) {n : Name} {node : Node}
    (hmem : (n, node) ∈ l.entries) : Proper n ∧ t.root.get? (p ++ [n]) = some node := by
  have hwf : (Node.dir r x l).Wf := get?_wf t.wf h
  obtain ⟨hproper, hfind⟩ := find?_of_entries hwf hmem
  refine ⟨hproper, ?_⟩
  rw [get?_concat, h, Option.bind_some]
  exact hfind

end FileTree

mutual
/-- Every directory that can be opened can be entered, as far as these lead. -/
def NodeEntered : Node → Prop
  | .file => True
  | .dir readable searchable l => readable = true → searchable = true ∧ ListingEntered l

def ListingEntered : Listing → Prop
  | .nil => True
  | .cons n node rest => (isDot n = false → NodeEntered node) ∧ ListingEntered rest
end

/-- A file gives no names. -/
theorem readdir_of_file {node : Node} (h : node.isDir = false) : node.readdir = none := by
  cases node with
  | file => rfl
  | dir r x l => cases h

/-- A node that cannot be opened asks for nothing. -/
theorem nodeEntered_of_closed {node : Node} (h : node.readdir = none) : NodeEntered node := by
  cases node with
  | file => trivial
  | dir r x l =>
      rintro rfl
      cases h

/-- The entries of `l` are found from the directory `p`. -/
def Found (t : FileTree) (p : List Name) (l : Listing) : Prop :=
  ∀ n node, (n, node) ∈ l.entries → Proper n ∧ t.root.get? (p ++ [n]) = some node

/-- The rest of a listing that stands in the tree stands in it too. -/
theorem Found.tail {t : FileTree} {p : List Name} {n : Name} {node : Node} {rest : Listing}
    (h : Found t p (.cons n node rest)) : Found t p rest := by
  intro m child hmem
  refine h m child ?_
  rw [Listing.entries]
  split
  · exact hmem
  · exact List.mem_cons_of_mem _ hmem

/-- The first entry of a listing in the tree, when it is not a dot, is a child of the directory. -/
theorem Found.head {t : FileTree} {p : List Name} {n : Name} {node : Node} {rest : Listing}
    (h : Found t p (.cons n node rest)) (hn : isDot n = false) :
    Proper n ∧ t.root.get? (p ++ [n]) = some node := by
  refine h n node ?_
  rw [Listing.entries, if_neg (by simp [hn])]
  exact List.mem_cons_self

/-- A name that is not a dot belongs to an entry. -/
theorem exists_entry {n : Name} (hn : isDot n = false) :
    ∀ {l : Listing}, n ∈ l.names → ∃ node, (n, node) ∈ l.entries
  | .cons m node rest, h => by
      rw [Listing.entries]
      rcases List.mem_cons.mp h with rfl | hrest
      · rw [if_neg (by simp [hn])]
        exact ⟨node, List.mem_cons_self⟩
      · obtain ⟨child, hmem⟩ := exists_entry hn hrest
        refine ⟨child, ?_⟩
        split
        · exact hmem
        · exact List.mem_cons_of_mem _ hmem

/-- The names of a listing in the tree that are not dots are proper. -/
theorem Found.proper {t : FileTree} {p : List Name} {l : Listing} (h : Found t p l) :
    ∀ n ∈ l.names, isDot n = false → Proper n := by
  intro n hmem hn
  obtain ⟨node, hentry⟩ := exists_entry hn hmem
  exact (h n node hentry).1

/-- Every directory that can be opened can be entered, as far as `path` leads. -/
def PathEntered (t : FileTree) (cwd : List Name) (path : List UInt8) : Prop :=
  ∀ p node, t.lookup cwd path = some (p, node) → NodeEntered node

/-- `opendir` of what a lookup finds reads the node found. -/
theorem opendir_of_lookup {t : FileTree} {cwd p : List Name} {path : List UInt8} {node : Node}
    (h : t.lookup cwd path = some (p, node)) : t.opendir cwd path = node.readdir := by
  rw [FileTree.opendir, h, Option.bind_some]

/-- The listing of a directory that a lookup finds stands in the tree. -/
theorem found_of_lookup {t : FileTree} {cwd p : List Name} {path : List UInt8} {r x : Bool}
    {l : Listing} (h : t.lookup cwd path = some (p, .dir r x l)) : Found t p l :=
  fun _ _ hmem => FileTree.get?_entry (FileTree.lookup_get? h) hmem

/-- `chdir` to a directory that can be searched; its entries are found from there. -/
theorem enter_of_lookup {t : FileTree} {cwd p : List Name} {path : List UInt8} {r : Bool}
    {l : Listing} (h : t.lookup cwd path = some (p, .dir r true l)) :
    t.chdir cwd path = p ∧ t.Searchable (t.chdir cwd path) ∧ Found t (t.chdir cwd path) l := by
  have hchdir : t.chdir cwd path = p := by rw [FileTree.chdir, h]
  rw [hchdir]
  exact ⟨rfl, FileTree.searchable_of_get? (FileTree.lookup_get? h), found_of_lookup h⟩

end DirTree

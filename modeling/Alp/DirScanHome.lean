import Alp.DirScan

/-!
# Where a listing ends

A call of `scan_dir` never ends below the directory in which it was made
(`scanDir_above`), and one that meets a directory that it can open and not enter ends
above it (`node_lost`): the `..` at the end of the inner call is one too many.  A start path
of several names has the same effect the other way round.
-/

set_option autoImplicit false

namespace DirScan

open DirTree

/-- A loop whose scans go up at most goes up at most, by induction on the names. -/
theorem scanLoop_above {t : FileTree} {scan : Name → Nat → Proc → Option (Int × Proc)}
    (hscan : ∀ n depth s r, Proper n → scan n depth s = some r → r.2.cwd <+: s.cwd)
    {depth : Nat} {names : List Name} (hnames : ∀ n ∈ names, isDot n = false → Proper n)
    {ds : Option Bool} {s s' : Proc} (h : scanLoop t scan depth names ds s = some s') :
    s'.cwd <+: s.cwd := by
  induction names generalizing ds s with
  | nil =>
      cases h
      exact List.prefix_rfl
  | cons dn names ih =>
      have htail : ∀ n ∈ names, isDot n = false → Proper n :=
        fun n hn => hnames n (List.mem_cons_of_mem _ hn)
      rcases scanLoop_cases h with ⟨-, hrest⟩ | ⟨hdot, -, r, hr, hrest⟩ | ⟨-, -, hrest⟩
      · exact ih htail hrest
      · have hin := hscan dn _ _ r (hnames dn List.mem_cons_self hdot) hr
        exact (ih htail hrest).trans hin
      · have hin := ih htail hrest
        exact hin

/-- A call on a name ends where it was made or above it. -/
theorem scanDir_above (t : FileTree) {fuel : Nat} {n : Name} (hn : Proper n) {depth : Nat}
    {s : Proc} {r : Int × Proc} (h : scanDir t fuel n depth s = some r) :
    r.2.cwd <+: s.cwd := by
  induction fuel generalizing n depth s r with
  | zero => cases h
  | succ fuel ih =>
      cases hopen : t.opendir s.cwd n with
      | none =>
          rw [scanDir_closed hopen] at h
          cases h
          exact List.prefix_rfl
      | some names =>
          rw [scanDir_opened hopen] at h
          obtain ⟨s', hloop, rfl⟩ := Option.map_eq_some_iff.mp h
          have hloop' : s'.cwd <+: t.chdir s.cwd n :=
            scanLoop_above (fun _ _ _ _ hproper hr => ih hproper hr)
              (FileTree.opendir_names hopen) hloop
          have hup := FileTree.chdir_dotdot_mono t hloop'
          rcases FileTree.chdir_child_cases t s.cwd hn with ⟨hin, hcwd, hdir⟩ | ⟨hfail, -⟩ |
            ⟨hfail, -⟩
          · rw [hin, FileTree.chdir_up hcwd hdir] at hup
            exact hup
          · rw [hfail] at hup
            exact hup.trans (FileTree.chdir_dotdot_above t s.cwd)
          · rw [hfail] at hup
            exact hup.trans (FileTree.chdir_dotdot_above t s.cwd)

/-- Two calls from the same state do the same. -/
theorem Scans.eq {t : FileTree} {name : List UInt8} {depth : Nat} {s : Proc}
    {lines : List (List UInt8)} (h : Scans t name depth s lines) {fuel : Nat} {r : Int × Proc}
    (hr : scanDir t fuel name depth s = some r) :
    r.2.cwd = s.cwd ∧ r.2.stdout = s.stdout ++ lines := by
  obtain ⟨fuel', r', s', hscan, hcwd, hstdout⟩ := h
  have hscan' := scanDir_mono t (Nat.le_max_right fuel fuel') hscan
  have hr' := scanDir_mono t (Nat.le_max_left fuel fuel') hr
  rw [hscan'] at hr'
  cases hr'
  exact ⟨hcwd, hstdout⟩

/-- Calls on entries that hold a directory that can be opened and not entered end above. -/
def Loses (t : FileTree) (fuel : Nat) : Prop :=
  ∀ (node : Node) (n : Name) (s : Proc) (level : Nat) (r : Int × Proc), ¬ NodeEntered node →
    t.Searchable s.cwd → Proper n → t.root.get? (s.cwd ++ [n]) = some node →
    scanDir t fuel n (4 * level) s = some r → r.2.cwd <+: t.chdir s.cwd dotdot

/-- The rounds up to the first such directory stay where they are. -/
theorem listing_lost {t : FileTree} {fuel : Nat} (hlost : Loses t fuel) (level : Nat) :
    ∀ {l : Listing} {ds : Option Bool} {s s' : Proc}, ¬ ListingEntered l →
      t.Searchable s.cwd → Found t s.cwd l →
      scanLoop t (scanDir t fuel) (4 * level) l.names ds s = some s' →
      s'.cwd <+: t.chdir s.cwd dotdot
  | .nil, _, _, _, hbad, _, _, _ => absurd trivial hbad
  | .cons n node rest, ds, s, s', hbad, hcwd, hfound, h => by
      rw [Listing.names] at h
      rcases scanLoop_cases h with ⟨hdot, hrest⟩ | ⟨hdot, hdir, r, hr, hrest⟩ |
        ⟨hdot, hfile, hrest⟩
      · have hbad' : ¬ ListingEntered rest := by
          intro hgood
          exact hbad ⟨fun hn => absurd hdot (by simp [hn]), hgood⟩
        exact listing_lost hlost level hbad' hcwd hfound.tail hrest
      · obtain ⟨hn, hget⟩ := hfound.head hdot
        let s₁ := s.print (printIndent (4 * level + 4) space n slash)
        by_cases hnode : NodeEntered node
        · have hbad' : ¬ ListingEntered rest := fun hgood => hbad ⟨fun _ => hnode, hgood⟩
          have hscans := node_scans t node (s := s₁) (level + 1) hnode hcwd hn hget
          have hback : r.2.cwd = s.cwd := (hscans.eq hr).1
          rw [← hback] at hcwd hfound ⊢
          exact listing_lost hlost level hbad' hcwd hfound.tail hrest
        · have hup := hlost node n s₁ (level + 1) r hnode hcwd hn hget hr
          have hin := scanLoop_above
            (fun _ _ _ _ hproper hscan => scanDir_above t hproper hscan) hfound.tail.proper hrest
          exact hin.trans hup
      · obtain ⟨hn, hget⟩ := hfound.head hdot
        rw [FileTree.lstat_child hcwd hn hget] at hfile
        have hclosed : node.readdir = none := readdir_of_file (by simpa using hfile)
        have hnode : NodeEntered node := nodeEntered_of_closed hclosed
        have hbad' : ¬ ListingEntered rest := fun hgood => hbad ⟨fun _ => hnode, hgood⟩
        exact listing_lost (s := s.print _) hlost level hbad' hcwd hfound.tail hrest

/-- Such a call on a directory that leads to one. -/
theorem node_lost (t : FileTree) (fuel : Nat) : Loses t fuel := by
  induction fuel with
  | zero =>
      intro node n s level r _ _ _ _ h
      cases h
  | succ fuel ih =>
      intro node n s level r hbad hcwd hn hget h
      have hopen := FileTree.opendir_child hcwd hn hget
      match node with
      | .file => exact absurd trivial hbad
      | .dir false x l => exact absurd (fun hread => by cases hread) hbad
      | .dir true false l =>
          rw [scanDir_opened hopen] at h
          obtain ⟨s', hloop, rfl⟩ := Option.map_eq_some_iff.mp h
          have hfail : t.chdir s.cwd n = s.cwd := FileTree.chdir_child_fails hn hget rfl
          have hin := scanLoop_above
            (fun _ _ _ _ hproper hscan => scanDir_above t hproper hscan)
            (FileTree.opendir_names hopen) hloop
          rw [Proc.chdir, hfail] at hin
          exact FileTree.chdir_dotdot_mono t hin
      | .dir true true l =>
          rw [scanDir_opened hopen] at h
          obtain ⟨s', hloop, rfl⟩ := Option.map_eq_some_iff.mp h
          have hlookup := FileTree.lookup_child hcwd hn hget
          obtain ⟨hin, hsearch, hfound⟩ := enter_of_lookup hlookup
          have hbad' : ¬ ListingEntered l := fun hgood => hbad fun _ => ⟨rfl, hgood⟩
          have hup := listing_lost (s := s.chdir t n) ih level hbad' hsearch hfound hloop
          rw [Proc.chdir, hin, FileTree.chdir_up hcwd (FileTree.searchable_of_get? hget)] at hup
          exact FileTree.chdir_dotdot_mono t hup

/-- From the directory that `path` leads to, `..` leads back to `cwd`. -/
def LeadsBack (t : FileTree) (cwd : List Name) (path : List UInt8) : Prop :=
  ∀ p l, t.lookup cwd path = some (p, .dir true true l) → t.chdir p dotdot = cwd

section Start

variable {t : FileTree} {path : List UInt8} {s : Proc}

/-- The lines of a path are those of the node it leads to. -/
theorem pathLines_of_lookup {p : List Name} {node : Node}
    (h : t.lookup s.cwd path = some (p, node)) : pathLines t s.cwd path = nodeLines 1 node := by
  rw [pathLines, h]

/-- A directory below which every directory can be entered: the call ends above it. -/
theorem scans_start_iff {p : List Name} {l : Listing}
    (h : t.lookup s.cwd path = some (p, .dir true true l)) (hentered : ListingEntered l) :
    Scans t path 0 s (pathLines t s.cwd path) ↔ t.chdir p dotdot = s.cwd := by
  have hopen : t.opendir s.cwd path = some l.names := opendir_of_lookup h
  obtain ⟨hchdir, hsearch, hfound⟩ := enter_of_lookup h
  obtain ⟨fuel, s', hloop, hcwd, hstdout⟩ := listing_scans t l (s := s.chdir t path) 0 none
    hentered hsearch hfound
  have hscan : scanDir t (fuel + 1) path 0 s = some (0, s'.chdir t dotdot) := by
    rw [scanDir_opened hopen, hloop]
    rfl
  have hend : (s'.chdir t dotdot).cwd = t.chdir p dotdot := by
    rw [Proc.chdir, hcwd, Proc.chdir, hchdir]
  constructor
  · intro hscans
    rw [← hend]
    exact (hscans.eq hscan).1
  · intro hback
    refine ⟨fuel + 1, 0, _, hscan, hend.trans hback, ?_⟩
    rw [pathLines_of_lookup h]
    exact hstdout

/-- A call that ends above the directory it began in does not end there. -/
theorem not_scans_of_above (hmoves : t.chdir s.cwd dotdot ≠ s.cwd)
    (h : ∀ fuel r, scanDir t fuel path 0 s = some r → r.2.cwd <+: t.chdir s.cwd dotdot)
    (lines : List (List UInt8)) : ¬ Scans t path 0 s lines := by
  rintro ⟨fuel, r, s', hscan, hcwd, -⟩
  have hup : s'.cwd <+: t.chdir s.cwd dotdot := h fuel (r, s') hscan
  rw [hcwd] at hup
  have hlength := (FileTree.chdir_dotdot_above t s.cwd).length_le
  exact hmoves (hup.eq_of_length_le hlength).symm

/-- A start directory that can be opened and not entered. -/
theorem not_scans_refused {p : List Name} {l : Listing}
    (h : t.lookup s.cwd path = some (p, .dir true false l))
    (hmoves : t.chdir s.cwd dotdot ≠ s.cwd) (lines : List (List UInt8)) :
    ¬ Scans t path 0 s lines := by
  apply not_scans_of_above hmoves
  intro fuel r hr
  cases fuel with
  | zero => cases hr
  | succ fuel =>
      have hopen : t.opendir s.cwd path = some l.names := opendir_of_lookup h
      have hfail : t.chdir s.cwd path = s.cwd := by rw [FileTree.chdir, h]
      rw [scanDir_opened hopen] at hr
      obtain ⟨s', hloop, rfl⟩ := Option.map_eq_some_iff.mp hr
      have hin := scanLoop_above (fun _ _ _ _ hproper hscan => scanDir_above t hproper hscan)
        (found_of_lookup h).proper hloop
      rw [Proc.chdir, hfail] at hin
      exact FileTree.chdir_dotdot_mono t hin

/-- A start directory with such a directory below it. -/
theorem not_scans_lost {p : List Name} {l : Listing}
    (h : t.lookup s.cwd path = some (p, .dir true true l)) (hbad : ¬ ListingEntered l)
    (hback : t.chdir p dotdot = s.cwd) (hmoves : t.chdir s.cwd dotdot ≠ s.cwd)
    (lines : List (List UInt8)) : ¬ Scans t path 0 s lines := by
  apply not_scans_of_above hmoves
  intro fuel r hr
  cases fuel with
  | zero => cases hr
  | succ fuel =>
      have hopen : t.opendir s.cwd path = some l.names := opendir_of_lookup h
      obtain ⟨hchdir, hsearch, hfound⟩ := enter_of_lookup h
      rw [scanDir_opened hopen] at hr
      obtain ⟨s', hloop, rfl⟩ := Option.map_eq_some_iff.mp hr
      have hup := listing_lost (s := s.chdir t path) (node_lost t fuel) 0 hbad hsearch hfound hloop
      rw [Proc.chdir, hchdir, hback] at hup
      exact FileTree.chdir_dotdot_mono t hup

/-- A start that cannot be opened. -/
theorem scans_of_not_readable (h : t.opendir s.cwd path = none) :
    Scans t path 0 s (pathLines t s.cwd path) ∧ PathEntered t s.cwd path ∧
      LeadsBack t s.cwd path := by
  have hclosed : ∀ p node, t.lookup s.cwd path = some (p, node) → node.readdir = none := by
    intro p node hlookup
    rw [← opendir_of_lookup hlookup, h]
  have hlines : pathLines t s.cwd path = [] := by
    rw [pathLines]
    split
    · rfl
    · next p node hlookup => exact nodeLines_of_closed (hclosed p node hlookup) 1
  rw [hlines]
  refine ⟨scans_closed h 0, ?_, ?_⟩
  · intro p node hlookup
    exact nodeEntered_of_closed (hclosed p node hlookup)
  · intro p l hlookup
    cases hclosed p _ hlookup

end Start

/-- **Listing.**  Where every directory that can be opened can be entered, `scan_dir` lists
the tree and returns home exactly when `..` leads home from where it starts; and where it
does, and leads on from there, exactly when all of these can be entered. -/
theorem scanDir_lists (t : FileTree) (s : Proc) (path : List UInt8) :
    (PathEntered t s.cwd path →
      (Scans t path 0 s (pathLines t s.cwd path) ↔ LeadsBack t s.cwd path)) ∧
    (LeadsBack t s.cwd path → t.chdir s.cwd dotdot ≠ s.cwd →
      (Scans t path 0 s (pathLines t s.cwd path) ↔ PathEntered t s.cwd path)) := by
  cases hopen : t.opendir s.cwd path with
  | none =>
      obtain ⟨hscans, hentered, hback⟩ := scans_of_not_readable hopen
      exact ⟨fun _ => iff_of_true hscans hback, fun _ _ => iff_of_true hscans hentered⟩
  | some names =>
      obtain ⟨p, x, l, hlookup, -⟩ := FileTree.opendir_some hopen
      have hentered_iff : PathEntered t s.cwd path ↔ NodeEntered (.dir true x l) := by
        constructor
        · intro h
          exact h p _ hlookup
        · intro h p' node' hsome
          rw [hlookup] at hsome
          cases hsome
          exact h
      rw [hentered_iff]
      cases x with
      | false =>
          have hnot : ¬ NodeEntered (.dir true false l) := by
            intro h
            cases (h rfl).1
          refine ⟨fun h => absurd h hnot, fun _ hmoves => iff_of_false ?_ hnot⟩
          exact not_scans_refused hlookup hmoves _
      | true =>
          have hback_iff : LeadsBack t s.cwd path ↔ t.chdir p dotdot = s.cwd := by
            constructor
            · intro h
              exact h p l hlookup
            · intro h p' l' hsome
              rw [hlookup] at hsome
              cases hsome
              exact h
          rw [hback_iff]
          constructor
          · intro h
            exact scans_start_iff hlookup (h rfl).2
          · intro hback hmoves
            constructor
            · intro hscans h
              refine ⟨rfl, ?_⟩
              by_contra hbad
              exact not_scans_lost hlookup hbad hback hmoves _ hscans
            · intro h
              exact (scans_start_iff hlookup (h rfl).2).mpr hback

/-- The tree `/h/d/x`, where `d` can be entered or not. -/
def smallRoot (enter : Bool) : Node :=
  .dir true true (.cons [104]
    (.dir true true (.cons [100] (.dir true enter (.cons [120] .file .nil)) .nil)) .nil)

/-- The tree of the example is well formed. -/
theorem smallRoot_wf (enter : Bool) : (smallRoot enter).Wf := by
  refine ⟨fun _ => ⟨⟨by decide, by decide, by decide⟩, List.not_mem_nil, ?_⟩, trivial⟩
  refine ⟨fun _ => ⟨⟨by decide, by decide, by decide⟩, List.not_mem_nil, ?_⟩, trivial⟩
  exact ⟨fun _ => ⟨⟨by decide, by decide, by decide⟩, List.not_mem_nil, trivial⟩, trivial⟩

def smallTree (enter : Bool) : FileTree :=
  ⟨smallRoot enter, smallRoot_wf enter⟩

/-- From `/h` the directory `d` is listed. -/
theorem scanDir_lists_small :
    Scans (smallTree true) [100] 0 ⟨[[104]], [], []⟩ [[32, 32, 32, 32, 120, 10]] := by
  have hentered : PathEntered (smallTree true) [[104]] [100] := by
    rintro p node hlookup
    cases hlookup
    exact fun _ => ⟨rfl, fun _ => trivial, trivial⟩
  refine ((scanDir_lists (smallTree true) ⟨[[104]], [], []⟩ [100]).1 hentered).mpr ?_
  intro p l hlookup
  cases hlookup
  rfl

/-- A directory that cannot be entered, and a start path of two names. -/
theorem scanDir_not_home :
    ¬ Scans (smallTree false) [100] 0 ⟨[[104]], [], []⟩
        (pathLines (smallTree false) [[104]] [100]) ∧
      ¬ Scans (smallTree true) [104, 47, 100] 0 ⟨[], [], []⟩
        (pathLines (smallTree true) [] [104, 47, 100]) := by
  constructor
  · exact not_scans_refused (s := ⟨[[104]], [], []⟩) (p := [[104], [100]]) rfl (by decide) _
  · have hentered : ListingEntered (.cons [120] .file .nil) := ⟨fun _ => trivial, trivial⟩
    rw [scans_start_iff (s := ⟨[], [], []⟩) (p := [[104], [100]]) rfl hentered]
    decide

/-- Two defects can cancel out: from `/h` the path `x/y` is one name too long, and in it is an
empty directory `b` that cannot be entered. -/
example (t : FileTree) (h : t.root = .dir true true (.cons [104] (.dir true true (.cons [120]
    (.dir true true (.cons [121] (.dir true true (.cons [98] (.dir true false .nil) .nil))
      .nil)) .nil)) .nil)) :
    Scans t [120, 47, 121] 0 ⟨[[104]], [], []⟩ (pathLines t [[104]] [120, 47, 121]) := by
  obtain ⟨root, hwf⟩ := t
  subst h
  exact ⟨3, 0, _, rfl, rfl, rfl⟩

end DirScan

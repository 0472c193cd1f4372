import Enuwatch.Scan.Reproduction
import Mathlib.Data.Set.Finite.List

/-!
# Directories that cannot be opened

`fs::directory_iterator(path, ec)` that fails sets `ec` and gives an empty range. The loop looks at
`ec` in its body, and an empty range has no body: nothing is ever reported
(`reachable_reporting`).

So the scan of a finite tree leaves nothing out without a word exactly when every directory of
the tree can be opened (`scan_reports_iff`).
-/

set_option autoImplicit false

namespace Enuwatch.Scan

open Enuwatch.Lib

/-- The scan with the directories for which it has called `error`. -/
structure Reporting where
  work : Worklist
  errors : List Loc
deriving DecidableEq, Repr

section Definitions

variable (disk : Disk) (links : ℕ) (order : Sorting) (root : Loc)

/-- `fs::directory_iterator(path, ec)`: whether `ec` is set, and the range. -/
def directoryIterator (path : Loc) : Bool × List Bytes :=
  match disk.resolve links [] path with
  | .error _ => (true, [])
  | .ok loc =>
      match disk.listing loc with
      | none => (true, [])
      | some names => (false, names)

/-- The loop over the range, with what it has read and reported before. -/
def collect (ec : Bool) (path : Loc) (before : List M × List Loc) (name : Bytes) :
    List M × List Loc :=
  if ec then (before.1, before.2 ++ [path])
  else (before.1 ++ [readM disk links (path ++ [name])], before.2)

/-- One round of the loop of `scan_dir`, with its error path. -/
def reportStep (s : Reporting) (_ : Unit) : Option Reporting :=
  match s.work.stack with
  | [] => none
  | node :: stack =>
      let opened := directoryIterator disk links (root ++ node)
      let read := opened.2.foldl (collect disk links opened.1 (root ++ node)) ([], s.errors)
      let w := (order.sort read.1).foldl (visit root node) { s.work with stack }
      some ⟨{ w with events := w.events ++ [.unlock node] }, read.2⟩

/-- The entries of the tree below the root, links followed. -/
inductive InTree : List Bytes → Prop
  | root : InTree []
  | entry {names : List Bytes} {name : Bytes} {loc : Loc} : InTree names →
      disk.resolve links [] (root ++ names) = .ok loc → (disk.items (loc ++ [name])).isSome →
        InTree (names ++ [name])

/-- A directory of the tree that can be opened. -/
def Opens (path : Loc) : Prop :=
  ∃ loc, disk.resolve links [] path = .ok loc ∧ (disk.listing loc).isSome

/-- A directory of the tree that cannot be opened. -/
def Unopenable (names : List Bytes) : Prop :=
  InTree disk links root names ∧ (disk.status links (root ++ names)).1 = .directory ∧
    ¬ Opens disk links (root ++ names)

/-- Nothing is left out silently. -/
structure NothingSilent (s : Reporting) : Prop where
  /-- A directory that cannot be opened is reported, unless it is below one that is. -/
  reported : ∀ names, Unopenable disk links root names →
    ∃ front, front <+: names ∧ root ++ front ∈ s.errors
  /-- Every entry is a node, or is warned about, or is below a directory that is reported. -/
  accounted : ∀ names, InTree disk links root names →
    ((TrackedTree.replay (readM disk links root) s.work.events).node names).isSome ∨
      (∃ ftype, (root ++ names, ftype) ∈ warnings s.work.events) ∨
        ∃ front, front <+: names ∧ front ≠ names ∧ root ++ front ∈ s.errors

end Definitions

variable {disk : Disk} {links : ℕ} {order : Sorting} {root : Loc} {names : List Bytes}

/-! ## Nothing is reported -/

/-- A range that is not empty comes without an error. -/
theorem directoryIterator_cases (disk : Disk) (links : ℕ) (path : Loc) :
    directoryIterator disk links path = (true, []) ∧ disk.entries links path = [] ∨
      directoryIterator disk links path = (false, disk.entries links path) := by
  unfold directoryIterator Disk.entries
  cases disk.resolve links [] path with
  | error _ => exact .inl ⟨rfl, rfl⟩
  | ok loc =>
      cases found : disk.listing loc with
      | none => exact .inl (by simp [found])
      | some range => exact .inr (by simp [found])

theorem foldl_collect (path : Loc) (range : List Bytes) (before : List M × List Loc) :
    range.foldl (collect disk links false path) before =
      (before.1 ++ range.map fun name => readM disk links (path ++ [name]), before.2) := by
  induction range generalizing before with
  | nil => simp
  | cons name range ih =>
      rw [List.foldl_cons, ih]
      simp [collect]

/-- The error path changes nothing. -/
theorem reportStep_eq (errors : List Loc) (w : Worklist) :
    reportStep disk links order root ⟨w, errors⟩ () =
      (scanStep disk links order root w ()).map (⟨·, errors⟩) := by
  obtain ⟨stack, events⟩ := w
  cases stack with
  | nil => rfl
  | cons node stack =>
      rcases directoryIterator_cases disk links (root ++ node) with ⟨failed, empty⟩ | opened
      · simp [reportStep, scanStep, failed, readEntries, empty]
      · simp [reportStep, scanStep, opened, readEntries, foldl_collect]

/-- **No directory is ever reported.** -/
theorem reachable_reporting {s : Reporting} :
    Reachable (reportStep disk links order root) ⟨scanStart, []⟩ s ↔
      ∃ w, Reachable (scanStep disk links order root) scanStart w ∧ s = ⟨w, []⟩ := by
  have commutes : ∀ w i, reportStep disk links order root ⟨w, []⟩ i =
      (scanStep disk links order root w i).map (⟨·, []⟩) := fun w _ => reportStep_eq [] w
  exact reachable_map (h := fun w => Reporting.mk w []) commutes

/-! ## Which entries the scan sees -/

/-- What is read in a directory is in the tree. -/
theorem inTree_of_read {info : M} (inside : InTree disk links root names)
    (read : info ∈ readEntries disk links root names) :
    InTree disk links root (names ++ [info.name]) ∧
      info = readM disk links (root ++ (names ++ [info.name])) := by
  obtain ⟨name, listed, rfl⟩ := List.mem_map.1 read
  have named : (readM disk links (root ++ names ++ [name])).name = name := by simp [readM]
  rw [named, List.append_assoc]
  refine ⟨?_, rfl⟩
  unfold Disk.entries at listed
  cases resolved : disk.resolve links [] (root ++ names) with
  | error _ => simp [resolved] at listed
  | ok loc =>
      cases found : disk.listing loc with
      | none => simp [resolved, found] at listed
      | some range =>
          simp only [resolved, found, Option.getD_some] at listed
          exact .entry inside resolved ((disk.listed loc range found name).1 listed)

/-- The directories the scan is led to. -/
theorem inTree_of_leads (directory : (disk.status links root).1 = .directory)
    (leads : Leads (subdirs (readEntries disk links root) order) [] names) :
    InTree disk links root names ∧ (disk.status links (root ++ names)).1 = .directory := by
  induction leads with
  | refl => exact ⟨.root, by simpa using directory⟩
  | tail _ below ih =>
      obtain ⟨info, read, type, rfl⟩ := mem_subdirs.1 below
      obtain ⟨inside, same⟩ := inTree_of_read ih.1 read
      refine ⟨inside, ?_⟩
      rw [same] at type
      exact type

/-- The tree is finite. -/
def FiniteTree (disk : Disk) (links : ℕ) (root : Loc) : Prop :=
  {names | InTree disk links root names}.Finite

/-- The scan of a finite tree ends. -/
theorem FiniteTree.grounded (finite : FiniteTree disk links root)
    (directory : (disk.status links root).1 = .directory) (order : Sorting) :
    Grounded (subdirs (readEntries disk links root) order) [] := by
  obtain ⟨bound, above⟩ := (Set.Finite.image List.length finite).bddAbove
  apply grounded_of_bound
  intro node leads
  exact above ⟨node, (inTree_of_leads directory leads).1, rfl⟩

/-! ## A finite disk is a finite tree -/

section Depth

variable {depth : ℕ} (shallow : ∀ loc, disk.isDir loc = true → loc.length < depth)
  {follow : Loc → List Bytes → Except Unresolved Loc} {bound : ℕ}

include shallow

/-- A walk down names gets deeper with each name that is no link. -/
theorem length_le_of_walk_names (named : ∀ name ∈ names, FileName name)
    (followed : ∀ here path names loc, (∀ name ∈ names, FileName name) →
      follow here (path ++ names) = .ok loc → names.length ≤ bound) {here loc : Loc}
    (walked : disk.walk follow here names = .ok loc) :
    names.length ≤ bound + (depth - here.length) := by
  induction names generalizing here with
  | nil => simp
  | cons name rest ih =>
      obtain ⟨dots, up⟩ := Disk.not_dots (named name List.mem_cons_self)
      have others : ∀ name ∈ rest, FileName name := fun name among =>
        named name (List.mem_cons_of_mem _ among)
      simp only [Disk.walk, dots, up, if_false] at walked
      split at walked
      · cases walked
      · rename_i directory
        have above := shallow here (by simpa using directory)
        split at walked
        · cases walked
        · have left := followed _ _ _ _ others walked
          rw [List.length_cons]
          omega
        · have left := ih others walked
          rw [List.length_append, List.length_singleton] at left
          rw [List.length_cons]
          omega

/-- What stands before the names adds nothing to the bound. -/
theorem length_le_of_walk (named : ∀ name ∈ names, FileName name)
    (followed : ∀ here path names loc, (∀ name ∈ names, FileName name) →
      follow here (path ++ names) = .ok loc → names.length ≤ bound) {here loc : Loc}
    {path : List Bytes} (walked : disk.walk follow here (path ++ names) = .ok loc) :
    names.length ≤ bound + depth := by
  induction path generalizing here with
  | nil =>
      have left := length_le_of_walk_names shallow named followed walked
      omega
  | cons c rest ih =>
      simp only [List.cons_append, Disk.walk] at walked
      split at walked
      · cases walked
      · split at walked
        · exact ih walked
        · split at walked
          · exact ih walked
          · split at walked
            · cases walked
            · rw [← List.append_assoc] at walked
              exact (followed _ _ _ _ named walked).trans (Nat.le_add_right _ _)
            · exact ih walked

/-- A path that resolves has a bounded number of names at its end. -/
theorem length_le_of_resolve (named : ∀ name ∈ names, FileName name) {here loc : Loc}
    {path : List Bytes} (resolved : disk.resolve links here (path ++ names) = .ok loc) :
    names.length ≤ links * depth + depth := by
  induction links generalizing here path names loc with
  | zero =>
      have short : names.length ≤ 0 + depth := length_le_of_walk shallow named (by simp) resolved
      simpa using short
  | succ links ih =>
      rw [Nat.succ_mul]
      exact length_le_of_walk shallow named (fun _ _ _ _ named => ih named) resolved

end Depth

/-- Every name in the tree is the name of an entry of the disk. -/
theorem InTree.exists_item (inside : InTree disk links root names) :
    ∀ name ∈ names, ∃ loc, (disk.items (loc ++ [name])).isSome := by
  induction inside with
  | root => simp
  | entry _ _ present ih =>
      intro other among
      rcases List.mem_append.1 among with earlier | last
      · exact ih other earlier
      · rw [List.mem_singleton.1 last]
        exact ⟨_, present⟩

theorem InTree.fileName (inside : InTree disk links root names) :
    ∀ name ∈ names, FileName name := by
  intro name among
  obtain ⟨loc, present⟩ := inside.exists_item name among
  exact disk.named loc name present

/-- **A finite disk is a finite tree**, wherever its links lead. -/
theorem finiteTree_of_finite (finite : {loc | (disk.items loc).isSome}.Finite) :
    FiniteTree disk links root := by
  obtain ⟨depth, deepest⟩ := (finite.image List.length).bddAbove
  have shallow : ∀ loc, disk.isDir loc = true → loc.length < depth + 1 := by
    intro loc directory
    obtain ⟨perms, found⟩ := Disk.isDir_iff.1 directory
    exact Nat.lt_succ_of_le (deepest ⟨loc, by simp [found], rfl⟩)
  let known : Set Bytes := (fun loc => loc.getLast?.getD []) '' {loc | (disk.items loc).isSome}
  have : Finite known := (finite.image _).to_subtype
  have lists := List.finite_length_le known (links * (depth + 1) + (depth + 1) + 1)
  refine (lists.image (List.map Subtype.val)).subset ?_
  intro names inside
  have short : names.length ≤ links * (depth + 1) + (depth + 1) + 1 := by
    cases inside with
    | root => simp
    | entry above resolved _ =>
        rw [List.length_append, List.length_singleton]
        exact Nat.succ_le_succ (length_le_of_resolve shallow above.fileName resolved)
  have listed : ∀ name ∈ names, name ∈ known := by
    intro name among
    obtain ⟨loc, present⟩ := inside.exists_item name among
    exact ⟨loc ++ [name], present, by simp⟩
  lift names to List known using listed
  exact ⟨names, by simpa using short, rfl⟩

/-- An entry of a directory that can be opened is read. -/
theorem mem_read_of_opens {name : Bytes} {loc : Loc}
    (resolved : disk.resolve links [] (root ++ names) = .ok loc)
    (opens : Opens disk links (root ++ names)) (present : (disk.items (loc ++ [name])).isSome) :
    readM disk links (root ++ (names ++ [name])) ∈ readEntries disk links root names := by
  obtain ⟨loc', resolved', listed⟩ := opens
  obtain rfl : loc' = loc := by simpa [resolved'] using resolved
  obtain ⟨range, found⟩ := Option.isSome_iff_exists.1 listed
  refine List.mem_map.2 ⟨name, ?_, by rw [List.append_assoc]⟩
  simp only [Disk.entries, resolved, found, Option.getD_some]
  exact (disk.listed loc' range found name).2 present

/-- What has an entry is a directory. -/
theorem status_of_entry {name : Bytes} {path loc : Loc}
    (resolved : disk.resolve links [] path = .ok loc)
    (present : (disk.items (loc ++ [name])).isSome) : (disk.status links path).1 = .directory := by
  obtain ⟨perms, found⟩ := disk.parent loc name present
  simp [Disk.status, resolved, found]

/-- The directory that an entry is in can be opened, when all can. -/
theorem opens_of_entry {name : Bytes} {loc : Loc} (inside : InTree disk links root names)
    (opens : ∀ names, ¬ Unopenable disk links root names)
    (resolved : disk.resolve links [] (root ++ names) = .ok loc)
    (present : (disk.items (loc ++ [name])).isSome) : Opens disk links (root ++ names) := by
  by_contra closed
  exact opens names ⟨inside, status_of_entry resolved present, closed⟩

/-- When every directory can be opened the scan is led to all of them. -/
theorem leads_of_opens (inside : InTree disk links root names)
    (opens : ∀ names, ¬ Unopenable disk links root names)
    (directory : (disk.status links (root ++ names)).1 = .directory) :
    Leads (subdirs (readEntries disk links root) order) [] names := by
  induction inside with
  | root => exact .refl
  | @entry names name loc inside resolved present ih =>
      have opened := opens_of_entry inside opens resolved present
      refine (ih (status_of_entry resolved present)).tail
        (mem_subdirs.2 ⟨_, mem_read_of_opens resolved opened present, directory, ?_⟩)
      rw [readM_name]

/-- When every directory can be opened each entry becomes a node or is warned about. -/
theorem accounted_of_opens (directory : (disk.status links root).1 = .directory)
    (opens : ∀ names, ¬ Unopenable disk links root names) {f : Frontier (List Bytes)}
    (reachable : Reachable (explore (subdirs (readEntries disk links root) order)) (.start []) f)
    (over_ : f.todo = []) (inside : InTree disk links root names) :
    ((TrackedTree.replay (readM disk links root)
        (image (readEntries disk links root) order root f).events).node names).isSome ∨
      ∃ ftype, (root ++ names, ftype) ∈
        warnings (image (readEntries disk links root) order root f).events := by
  rw [(scan_tree directory reachable).nodes, Option.isSome_map]
  cases inside with
  | root => exact .inl (by simp [entryAt])
  | @entry names name loc inside resolved present =>
      have visited : names ∈ f.done := (mem_done_iff reachable over_).2
        (leads_of_opens inside opens (status_of_entry resolved present))
      have read := mem_read_of_opens resolved (opens_of_entry inside opens resolved present) present
      by_cases kept : Kept (readM disk links (root ++ (names ++ [name]))) = true
      · have among := List.mem_filter.2 ⟨(order.perm _).mem_iff.2 read, kept⟩
        exact .inl (entryAt_concat_isSome.2 ⟨visited, _, among, readM_name⟩)
      · refine .inr ⟨_, mem_warnings_image.2 ⟨names, visited, _, read, ?_, ?_, rfl⟩⟩
        · exact Bool.not_eq_true _ ▸ kept
        · rw [readM_name]

/-- **The scan leaves nothing out silently exactly when every directory can be opened.** -/
theorem scan_reports_iff (finite : FiniteTree disk links root)
    (directory : (disk.status links root).1 = .directory) (order : Sorting) :
    (∃ s, Reachable (reportStep disk links order root) ⟨scanStart, []⟩ s ∧ s.work.stack = []) ∧
      ∀ s, Reachable (reportStep disk links order root) ⟨scanStart, []⟩ s → s.work.stack = [] →
        (NothingSilent disk links root s ↔ ∀ names, ¬ Unopenable disk links root names) := by
  constructor
  · obtain ⟨w, scanned, over_⟩ := scan_terminates_iff.2 (finite.grounded directory order)
    rw [← scanStep_eq_scanWith] at scanned
    exact ⟨⟨w, []⟩, reachable_reporting.2 ⟨w, scanned, rfl⟩, over_⟩
  · intro s reachable over_
    obtain ⟨w, scanned, rfl⟩ := reachable_reporting.1 reachable
    rw [scanStep_eq_scanWith] at scanned
    obtain ⟨f, explored, rfl⟩ := reachable_image.1 scanned
    constructor
    · intro silent names closed
      obtain ⟨front, -, reported⟩ := silent.reported names closed
      simp at reported
    · intro opens
      refine ⟨fun names closed => absurd closed (opens names), fun names inside => ?_⟩
      exact (accounted_of_opens directory opens explored over_ inside).imp_right .inl

/-! ### A directory that cannot be opened -/

/-- Some directories cannot be opened. -/
def Disk.lock (disk : Disk) (locked : Loc → Bool) : Disk :=
  { disk with
    listing := fun loc => if locked loc then none else disk.listing loc
    listed := fun dir names found => disk.listed dir names (Option.ite_none_left_eq_some.1 found).2
    nodup_listing := fun dir names found =>
      disk.nodup_listing dir names (Option.ite_none_left_eq_some.1 found).2 }

/-- `/r` with a file `f` in a directory `d`, and a link `l` to the directory `/r` itself. -/
def ringDisk : Disk :=
  .ofTable [([], .dir 0o755), ([[114]], .dir 0o755), ([[114], [100]], .dir 0o700),
    ([[114], [100], [102]], .file 0o644 (some 3)), ([[114], [108]], .link [46])] (by decide)

theorem scan_reports_iff_ringDisk :
    FiniteTree ringDisk 2 [[114]] ∧ (ringDisk.status 2 [[114]]).1 = .directory ∧
      (∃ s, Reachable (reportStep ringDisk 2 ⟨id, fun _ => .refl _⟩ [[114]]) ⟨scanStart, []⟩ s ∧
        s.work.stack = [] ∧ NothingSilent ringDisk 2 [[114]] s) := by
  have finite : FiniteTree ringDisk 2 [[114]] := finiteTree_of_finite (finite_ofTable _ _)
  have directory : (ringDisk.status 2 [[114]]).1 = .directory := by decide +kernel
  have opens : ∀ names, ¬ Unopenable ringDisk 2 [[114]] names := by
    rintro names ⟨-, type, closed⟩
    obtain ⟨loc, resolved⟩ := Disk.resolve_of_status (.inr type)
    exact closed ⟨loc, resolved, rfl⟩
  obtain ⟨⟨s, reachable, over_⟩, each⟩ := scan_reports_iff finite directory ⟨id, fun _ => .refl _⟩
  exact ⟨finite, directory, s, reachable, over_, (each s reachable over_).2 opens⟩

/-- The same with the directory `d` locked, and without the link. -/
def lockedDisk : Disk :=
  .lock (.ofTable [([], .dir 0o755), ([[114]], .dir 0o755), ([[114], [100]], .dir 0o700),
    ([[114], [100], [102]], .file 0o644 (some 3))] (by decide)) (· = [[114], [100]])

/-- The file is in no node and in no warning, and nothing was reported. -/
theorem locked_directory_unreported :
    ∃ s, Reachable (reportStep lockedDisk 40 ⟨id, fun _ => .refl _⟩ [[114]]) ⟨scanStart, []⟩ s ∧
      s.work.stack = [] ∧ s.errors = [] ∧ warnings s.work.events = [] ∧
      Unopenable lockedDisk 40 [[114]] [[100]] ∧ InTree lockedDisk 40 [[114]] [[100], [102]] ∧
      (TrackedTree.replay (readM lockedDisk 40 [[114]]) s.work.events).node [[100], [102]] =
        none := by
  obtain ⟨s, reaches⟩ := Option.isSome_iff_exists.1 (show (run (reportStep lockedDisk 40
    ⟨id, fun _ => .refl _⟩ [[114]]) ⟨scanStart, []⟩ [(), ()]).isSome by decide +kernel)
  have facts : ∀ s ∈ run (reportStep lockedDisk 40 ⟨id, fun _ => .refl _⟩ [[114]]) ⟨scanStart, []⟩
      [(), ()], s.work.stack = [] ∧ s.errors = [] ∧ warnings s.work.events = [] ∧
        (TrackedTree.replay (readM lockedDisk 40 [[114]]) s.work.events).node [[100], [102]] =
          none := by decide +kernel
  obtain ⟨over_, unreported, unwarned, absent⟩ := facts s reaches
  have top : lockedDisk.resolve 40 [] ([[114]] ++ []) = .ok [[114]] := by decide +kernel
  have inner : lockedDisk.resolve 40 [] ([[114]] ++ [[100]]) = .ok [[114], [100]] := by
    decide +kernel
  have folder : InTree lockedDisk 40 [[114]] [[100]] := .entry .root top (by decide +kernel)
  have closed : ¬ Opens lockedDisk 40 [[114], [100]] := by
    rintro ⟨loc, resolved, listed⟩
    obtain rfl : [[114], [100]] = loc := Except.ok.inj (inner.symm.trans resolved)
    exact absurd listed (by decide +kernel)
  exact ⟨s, ⟨_, reaches⟩, over_, unreported, unwarned, ⟨folder, by decide +kernel, closed⟩,
    .entry folder inner (by decide +kernel), absent⟩

end Enuwatch.Scan

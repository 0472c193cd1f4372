import Enuwatch.Scan.Worklist

/-!
# The path a node is sent under

The tree is built with the names that `scan_dir` reads, and `send_datamsg` computes the path it
sends with `fs::relative`, which resolves links. A node is sent under the path the tree has for it
exactly when no entry on the way to it is a link (`relPath_eq_iff`); so all nodes are sent under
their own paths, and none of them is above the root, exactly when the tree has no links
(`sent_paths`).
-/

set_option autoImplicit false

namespace Enuwatch.Scan

open Enuwatch.Lib

/-- The path that `send_datamsg` computes for a node: relative to the parent of the root. -/
def relPath (disk : Disk) (links : ℕ) (root : Loc) (names : List Bytes) : Option Bytes :=
  (disk.relative links (root ++ names) root.dropLast).map joinPath

/-- The file name of the root and the names from there to the node. -/
def treePath (root : Loc) (names : List Bytes) : List Bytes := root.getLast?.toList ++ names

/-- No entry between the root and the node is a link, and the node is not the root directory of
the file system, which has no file name. -/
def Plain (disk : Disk) (root : Loc) (names : List Bytes) : Prop :=
  root ++ names ≠ [] ∧ disk.LinkFree root names

/-- The nodes are sent under the paths that the tree has for them. -/
structure PathsOk (disk : Disk) (links : ℕ) (root : Loc) (nodes : List (List Bytes)) : Prop where
  tree : ∀ names ∈ nodes, relPath disk links root names = some (joinPath (treePath root names))
  distinct : (nodes.map (relPath disk links root)).Nodup
  inside : ∀ names ∈ nodes, ∀ path, relPath disk links root names = some path →
    (path.splitOn 47).head? ≠ some dotdot

section Node

variable {disk : Disk} {links : ℕ} {root : Loc} {names : List Bytes}

theorem dropLast_append_treePath : root.dropLast ++ treePath root names = root ++ names := by
  induction root using List.reverseRecOn with
  | nil => rfl
  | append_singleton front name _ => simp [treePath]

theorem treePath_ne_nil (some : root ++ names ≠ []) : treePath root names ≠ [] := by
  intro empty
  obtain ⟨last, rfl⟩ := List.append_eq_nil_iff.1 empty
  have top : root = [] := List.getLast?_eq_none_iff.1 (by simpa using last)
  simp [top] at some

theorem fileName_treePath (above : ∀ name ∈ root, FileName name)
    (below : ∀ name ∈ names, FileName name) : ∀ name ∈ treePath root names, FileName name := by
  intro name among
  obtain last | later := List.mem_append.1 among
  · exact above name (List.mem_of_mem_getLast? (by simpa using last))
  · exact below name later

/-- A component of a path text. -/
theorem component_of_fileName {name : Bytes} (named : FileName name) : name ≠ [] ∧ 47 ∉ name :=
  ⟨named.1, named.2.1⟩

/-- `fs::relative` on a node of the tree. -/
theorem relative_eq {loc : Loc} (directory : disk.isDir root = true)
    (resolved : disk.resolve links [] (root ++ names) = .ok loc) :
    disk.relative links (root ++ names) root.dropLast =
      some (lexicallyRelative loc root.dropLast) := by
  have base : disk.Real ([] ++ root.dropLast) := Disk.real_of_isDir (Disk.isDir_dropLast directory)
  have itself : disk.weaklyCanonical links root.dropLast = some root.dropLast :=
    Disk.weaklyCanonical_of_resolve (Disk.resolve_of_real base)
  have canonical := Disk.weaklyCanonical_of_resolve resolved
  simp [Disk.relative, canonical, itself]

/-- The relative path of a node is its path in the tree exactly when no link is on the way. -/
theorem lexicallyRelative_eq_iff {loc : Loc} (directory : disk.isDir root = true)
    (below : ∀ name ∈ names, FileName name)
    (resolved : disk.resolve links [] (root ++ names) = .ok loc) :
    lexicallyRelative loc root.dropLast = treePath root names ↔ Plain disk root names := by
  have real := Disk.real_of_isDir directory
  have named := fileName_treePath real.fileName below
  have canonical := Disk.resolve_eq_self_iff real below resolved
  constructor
  · intro same
    have up : dotdot ∉ treePath root names := fun among => (named _ among).2.2.2.2 rfl
    have here : treePath root names ≠ [dot] := by
      intro only
      exact (named dot (by simp [only])).2.2.2.1 rfl
    have whole := eq_append_of_lexicallyRelative here up same
    rw [whole, lexicallyRelative_append] at same
    rw [dropLast_append_treePath] at whole
    refine ⟨?_, canonical.1 whole⟩
    intro nothing
    obtain ⟨rfl, rfl⟩ := List.append_eq_nil_iff.1 nothing
    simp [treePath] at same
  · rintro ⟨some, free⟩
    rw [canonical.2 free, ← dropLast_append_treePath, lexicallyRelative_append,
      if_neg (treePath_ne_nil some)]

/-- **The path of one node.** A node of the tree is sent under its path in the tree exactly when
no entry on the way to it is a link. -/
theorem relPath_eq_iff (directory : disk.isDir root = true)
    (accepted : Accepted disk links root names) :
    ∃ path, relPath disk links root names = some path ∧
      (path = joinPath (treePath root names) ↔ Plain disk root names) := by
  obtain ⟨below, type⟩ := accepted
  obtain ⟨loc, resolved⟩ := Disk.resolve_of_status type
  refine ⟨joinPath (lexicallyRelative loc root.dropLast), ?_, ?_⟩
  · simp [relPath, relative_eq directory resolved]
  rw [← lexicallyRelative_eq_iff directory below resolved]
  refine ⟨joinPath_inj ?_, congrArg joinPath⟩
  intro c among
  obtain sent | tree := List.mem_append.1 among
  · have real := Disk.resolve_real (Disk.real_of_isDir Disk.isDir_nil) resolved
    obtain inside | rfl | rfl := mem_lexicallyRelative sent
    · exact component_of_fileName (real.fileName c inside)
    · decide
    · decide
  · have real := Disk.real_of_isDir directory
    exact component_of_fileName (fileName_treePath real.fileName below c tree)

/-- The text of a path in the tree determines the node. -/
theorem treePath_inj {others : List Bytes} (directory : disk.isDir root = true)
    (below : ∀ name ∈ names, FileName name) (besides : ∀ name ∈ others, FileName name)
    (same : joinPath (treePath root names) = joinPath (treePath root others)) : names = others := by
  have above := (Disk.real_of_isDir directory).fileName
  refine List.append_cancel_left (joinPath_inj ?_ same)
  intro c among
  exact component_of_fileName ((List.mem_append.1 among).elim
    (fileName_treePath above below c) (fileName_treePath above besides c))

/-- A path in the tree does not lead above the root. -/
theorem treePath_inside (directory : disk.isDir root = true)
    (below : ∀ name ∈ names, FileName name) (nonempty : root ++ names ≠ []) :
    ((joinPath (treePath root names)).splitOn 47).head? ≠ some dotdot := by
  have named := fileName_treePath (Disk.real_of_isDir directory).fileName below
  rw [splitOn_joinPath (treePath_ne_nil nonempty) fun c among => (named c among).2.1]
  intro up
  exact (named dotdot (List.mem_of_mem_head? up)).2.2.2.2 rfl

end Node

/-- **The paths of all nodes.** Whatever the file system, the order in which directories are read
and the number of links the kernel follows: at every moment of a scan of the directory that `main`
picks, a node is sent under its path in the tree exactly when no entry on the way to it is a link
and it is not `/`, and all nodes are sent under their own paths, distinct and not above the root,
exactly when that holds for every node. -/
theorem sent_paths (disk : Disk) (links : ℕ) (order : Sorting) (cwd root : Loc) (argPath : Bytes)
    (w : Worklist) (working : disk.isDir cwd = true)
    (starts : startPath disk links cwd argPath = some root)
    (reachable : Reachable (scanStep disk links order root) scanStart w) :
    (∀ names ∈ w.nodes, ∃ path, relPath disk links root names = some path ∧
      (path = joinPath (treePath root names) ↔ Plain disk root names)) ∧
    (PathsOk disk links root w.nodes ↔ ∀ names ∈ w.nodes, Plain disk root names) := by
  have directory := isDir_startPath working starts
  have built := reachable_built directory reachable
  have each := fun names among => relPath_eq_iff directory (built.accepted names among)
  refine ⟨each, ?_, ?_⟩
  · intro ok names among
    obtain ⟨path, sent, plain⟩ := each names among
    have tree := ok.tree names among
    rw [sent] at tree
    exact plain.1 (Option.some.inj tree)
  · intro plain
    have tree : ∀ names ∈ w.nodes,
        relPath disk links root names = some (joinPath (treePath root names)) := by
      intro names among
      obtain ⟨path, sent, same⟩ := each names among
      rw [sent, same.2 (plain names among)]
    refine ⟨tree, ?_, ?_⟩
    · refine built.nodup.map_on fun a first b second same => ?_
      rw [tree a first, tree b second] at same
      exact treePath_inj directory (built.accepted a first).1 (built.accepted b second).1
        (Option.some.inj same)
    · intro names among path sent
      rw [tree names among] at sent
      obtain rfl := Option.some.inj sent
      exact treePath_inside directory (built.accepted names among).1 (plain names among).1

/-! ### A link between two directories of one tree -/

/-- The directory `/r` with a directory `d`, a file `f` in it, and a link `l` to `d`. -/
def linkedDisk : Disk :=
  .ofTable [([], .dir 0o755), ([[114]], .dir 0o755), ([[114], [100]], .dir 0o755),
    ([[114], [100], [102]], .file 0o644 (some 1)), ([[114], [108]], .link [100])] (by decide)

/-- Entries as they are read. -/
def unsorted : Sorting := ⟨id, fun _ => .refl _⟩

/-- Below `/r/d` there are no links. -/
theorem sent_paths_sample :
    ∃ w, Reachable (scanStep linkedDisk 32 unsorted [[114], [100]]) scanStart w ∧
      w.nodes = [[], [[102]]] ∧ PathsOk linkedDisk 32 [[114], [100]] w.nodes := by
  obtain ⟨w, reaches⟩ := Option.isSome_iff_exists.1 (show (run (scanStep linkedDisk 32 unsorted
    [[114], [100]]) scanStart [()]).isSome by decide +kernel)
  have facts : ∀ w ∈ run (scanStep linkedDisk 32 unsorted [[114], [100]]) scanStart [()],
      w.nodes = [[], [[102]]] := by decide +kernel
  have nodes := facts w reaches
  have paths := (sent_paths linkedDisk 32 unsorted [] [[114], [100]] [47, 114, 47, 100] w
    (by decide) (by decide +kernel) ⟨_, reaches⟩).2
  refine ⟨w, ⟨_, reaches⟩, nodes, paths.2 ?_⟩
  rw [nodes]
  have top : linkedDisk.Real ([[114], [100]] ++ []) := ⟨.dir 0o755, by decide +kernel, rfl⟩
  have file : linkedDisk.Real ([[114], [100]] ++ [[102]]) :=
    ⟨.file 0o644 (some 1), by decide +kernel, rfl⟩
  intro names among
  obtain rfl | rfl : names = [] ∨ names = [[102]] := by simpa using among
  · exact ⟨by simp, Disk.linkFree_of_real top⟩
  · exact ⟨by simp, Disk.linkFree_of_real file⟩

/-- `/r/l` is sent as `r/d`, and the file in it as `r/d/f`, as the one in `/r/d`. -/
theorem link_sent_as_target :
    startPath linkedDisk 32 [] [47, 114] = some [[114]] ∧
    ∃ w, Reachable (scanStep linkedDisk 32 unsorted [[114]]) scanStart w ∧
      [[108], [102]] ∈ w.nodes ∧ [[100], [102]] ∈ w.nodes ∧
      relPath linkedDisk 32 [[114]] [[108]] = some (joinPath [[114], [100]]) ∧
      relPath linkedDisk 32 [[114]] [[108], [102]] = relPath linkedDisk 32 [[114]] [[100], [102]] ∧
      ¬ PathsOk linkedDisk 32 [[114]] w.nodes := by
  refine ⟨by decide +kernel, ?_⟩
  have facts : ∀ w ∈ run (scanStep linkedDisk 32 unsorted [[114]]) scanStart [(), (), ()],
      [[108], [102]] ∈ w.nodes ∧ [[100], [102]] ∈ w.nodes ∧ [[108]] ∈ w.nodes := by decide +kernel
  obtain ⟨w, reaches⟩ := Option.isSome_iff_exists.1 (show (run (scanStep linkedDisk 32 unsorted
    [[114]]) scanStart [(), (), ()]).isSome by decide +kernel)
  obtain ⟨linked, direct, link⟩ := facts w reaches
  have sent : relPath linkedDisk 32 [[114]] [[108]] = some (joinPath [[114], [100]]) := by
    decide +kernel
  refine ⟨w, ⟨_, reaches⟩, linked, direct, sent, by decide +kernel, fun ok => ?_⟩
  have tree := ok.tree [[108]] link
  rw [sent] at tree
  exact absurd tree (by decide)

end Enuwatch.Scan

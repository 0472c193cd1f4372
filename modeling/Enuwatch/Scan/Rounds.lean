import Enuwatch.Lib.Exploration
import Enuwatch.Scan.Worklist

/-!
# The loop of `scan_dir` as an exploration

Which directories the scan visits depends only on what it reads in each of them. `scanWith` is
the loop for any such reading; that of a file system is `scanStep`. The loop explores the
subdirectories below the root, and its log says for each directory in turn what was done there
(`scanWith_image`). So it ends exactly when no way down is infinite (`scan_terminates_iff`).
-/

set_option autoImplicit false

namespace Enuwatch.Scan

open Enuwatch.Lib

section Definitions

variable (read : List Bytes → List M) (order : Sorting) (root : Loc)

/-- One round of the loop, for what it reads in each directory. -/
def scanWith (w : Worklist) (_ : Unit) : Option Worklist :=
  match w.stack with
  | [] => none
  | node :: stack =>
      let w := (order.sort (read node)).foldl (visit root node) { w with stack }
      some { w with events := w.events ++ [.unlock node] }

/-- The subdirectories that a round pushes, the last one on top. -/
def subdirs (node : List Bytes) : List (List Bytes) :=
  (((order.sort (read node)).filter (·.ftype = .directory)).map fun info =>
    node ++ [info.name]).reverse

/-- What the scan does with one entry of the directory `node`. -/
def entryEvents (node : List Bytes) (info : M) : List Event :=
  let child := node ++ [info.name]
  match info.ftype with
  | .directory => [.addChild child info]
  | .regular => [.addChild child info, .shiftTotal child info.fsize, .unlock child]
  | ftype => [.warn (root ++ child) ftype]

/-- What a round does to the tracked tree, and what it prints. -/
def roundEvents (node : List Bytes) : List Event :=
  (order.sort (read node)).flatMap (entryEvents root node) ++ [.unlock node]

/-- The scan that has visited some directories and has others on its stack. -/
def image (f : Frontier (List Bytes)) : Worklist :=
  ⟨f.todo, f.done.flatMap (roundEvents read order root)⟩

end Definitions

/-- No directory has two entries of one name. -/
def DistinctNames (read : List Bytes → List M) : Prop :=
  ∀ node, ((read node).map (·.name)).Nodup

variable {read : List Bytes → List M} {order : Sorting} {root : Loc}

/-- The scan of a file system. -/
theorem scanStep_eq_scanWith (disk : Disk) (links : ℕ) :
    scanStep disk links order root = scanWith (readEntries disk links root) order root :=
  rfl

theorem events_visit (node : List Bytes) (w : Worklist) (info : M) :
    (visit root node w info).events = w.events ++ entryEvents root node info := by
  cases type : info.ftype <;> simp [visit, entryEvents, type]

theorem events_visits (node : List Bytes) (infos : List M) (w : Worklist) :
    (infos.foldl (visit root node) w).events =
      w.events ++ infos.flatMap (entryEvents root node) := by
  induction infos generalizing w with
  | nil => simp
  | cons info infos ih =>
      rw [List.foldl_cons, ih, events_visit, List.flatMap_cons, List.append_assoc]

/-- **A round of the scan is a step of the exploration.** -/
theorem scanWith_image (f : Frontier (List Bytes)) :
    scanWith read order root (image read order root f) () =
      (explore (subdirs read order) f ()).map (image read order root) := by
  obtain ⟨todo, done⟩ := f
  cases todo with
  | nil => rfl
  | cons node stack =>
      let before : Worklist := ⟨stack, done.flatMap (roundEvents read order root)⟩
      have events : ((order.sort (read node)).foldl (visit root node) before).events = _ :=
        events_visits node (order.sort (read node)) before
      have onto : ((order.sort (read node)).foldl (visit root node) before).stack = _ :=
        stack_visits (order.sort (read node)) before
      simp only [scanWith, image, explore, Option.map_some, Option.some.injEq, Worklist.mk.injEq]
      refine ⟨onto, ?_⟩
      rw [events]
      simp [roundEvents, before]

/-- The states of the scan are those of the exploration. -/
theorem reachable_image {w : Worklist} :
    Reachable (scanWith read order root) scanStart w ↔
      ∃ f, Reachable (explore (subdirs read order)) (.start []) f ∧
        w = image read order root f := by
  have commutes : ∀ f i, scanWith read order root (image read order root f) i =
      (explore (subdirs read order) f i).map (image read order root) := fun f _ => scanWith_image f
  have begins : scanStart = image read order root (.start []) := rfl
  rw [begins]
  exact reachable_map commutes

/-- **The scan ends exactly when no way down from the root is infinite.** -/
theorem scan_terminates_iff :
    (∃ w, Reachable (scanWith read order root) scanStart w ∧ w.stack = []) ↔
      Grounded (subdirs read order) [] := by
  rw [← explore_terminates_iff]
  constructor
  · rintro ⟨w, reachable, over_⟩
    obtain ⟨f, explored, rfl⟩ := reachable_image.1 reachable
    exact ⟨f, explored, over_⟩
  · rintro ⟨f, explored, over_⟩
    exact ⟨image read order root f, reachable_image.2 ⟨f, explored, rfl⟩, over_⟩

/-! ## The subdirectories form a tree -/

/-- A subdirectory is an entry that is a directory. -/
theorem mem_subdirs {node child : List Bytes} : child ∈ subdirs read order node ↔
    ∃ info ∈ read node, info.ftype = .directory ∧ child = node ++ [info.name] := by
  simp only [subdirs, List.mem_reverse, List.mem_map, List.mem_filter, (order.perm _).mem_iff,
    decide_eq_true_eq]
  constructor
  · rintro ⟨info, ⟨listed, directory⟩, rfl⟩
    exact ⟨info, listed, directory, rfl⟩
  · rintro ⟨info, listed, directory, rfl⟩
    exact ⟨info, ⟨listed, directory⟩, rfl⟩

/-- Sorting keeps the names apart. -/
theorem DistinctNames.sorted (distinct : DistinctNames read) (order : Sorting) :
    DistinctNames fun node => order.sort (read node) :=
  fun node => ((order.perm _).map _).nodup_iff.2 (distinct node)

theorem subdirs_treelike (distinct : DistinctNames read) : Treelike (subdirs read order) [] where
  nodup node := List.nodup_reverse.2 (nodup_children (distinct.sorted order node) _)
  parent := by
    intro first second child below below'
    obtain ⟨info, -, -, rfl⟩ := mem_subdirs.1 below
    obtain ⟨info', -, -, same⟩ := mem_subdirs.1 below'
    exact (append_singleton_inj same).1
  root := by
    intro node below
    obtain ⟨info, -, -, same⟩ := mem_subdirs.1 below
    simp at same

/-- A finite bound on the depth of the directories ends the scan. -/
theorem grounded_of_bound {bound : ℕ}
    (bounded : ∀ node, Leads (subdirs read order) [] node → node.length ≤ bound) :
    Grounded (subdirs read order) [] := by
  have each : ∀ left node, Leads (subdirs read order) [] node → bound - node.length = left →
      Grounded (subdirs read order) node := by
    intro left
    induction left using Nat.strongRecOn with
    | ind left ih =>
        intro node leads depth
        refine Acc.intro _ fun child below => ?_
        have deeper : Leads (subdirs read order) [] child := leads.tail below
        obtain ⟨info, -, -, rfl⟩ := mem_subdirs.1 below
        have inside := bounded _ deeper
        simp only [List.length_append, List.length_singleton] at inside
        exact ih (bound - (node ++ [info.name]).length)
          (by simp only [List.length_append, List.length_singleton]; omega) _ deeper rfl
  exact each _ [] .refl rfl

end Enuwatch.Scan

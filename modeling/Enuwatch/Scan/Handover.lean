import Enuwatch.Scan.Reproduction
import Enuwatch.Scan.SentPath
import Enuwatch.Daemon.Sending

/-!
# The scanned tree as the client takes it over

`sync_with_remote` walks the tree that `scan_dir` has built, and relies on its shape: one root,
every other node on the list of one parent, nothing below a regular file, names of entries. The
tree of every scan has this shape (`grown_of_scan`), whatever the file system, so it is a `Tree`
over the names that lead to its nodes (`TrackedTree.asTree`). The path of a node there is the file
name of the root and the names from the root to the node (`path_asTree`).
-/

set_option autoImplicit false

namespace Enuwatch.Scan

open Enuwatch.Lib

/-- Nodes that hang together as a tree. -/
structure Grown (t : TrackedTree) : Prop where
  root : ∃ n, t.node [] = some n ∧ n.info.ftype = .directory ∧
    (n.info.name = [] ∨ FileName n.info.name)
  /-- A node is kept under its own name, and what it hangs under is a directory. -/
  below : ∀ front name n, t.node (front ++ [name]) = some n →
    n.info.name = name ∧ FileName name ∧ Kept n.info = true ∧
      ∃ p, t.node front = some p ∧ p.info.ftype = .directory
  children : ∀ names n, t.node names = some n → n.children.Nodup ∧ ∀ child,
    child ∈ n.children ↔ ∃ name, child = names ++ [name] ∧ (t.node child).isSome

/-- A node, known by the names that lead to it. -/
abbrev NodeOf (t : TrackedTree) := { names : List Bytes // (t.node names).isSome = true }

namespace TrackedTree

variable {t : TrackedTree}

/-- What is kept for a node. -/
def at_ (t : TrackedTree) (n : NodeOf t) : TrackedNode := (t.node n.1).get n.2

theorem node_eq (n : NodeOf t) : t.node n.1 = some (t.at_ n) := (Option.some_get n.2).symm

theorem at_eq {n : NodeOf t} {node : TrackedNode} (found : t.node n.1 = some node) :
    t.at_ n = node := by
  rw [node_eq] at found
  exact Option.some.inj found

end TrackedTree

namespace Grown

variable {t : TrackedTree} (grown : Grown t)
include grown

theorem root_isSome : (t.node []).isSome = true := by
  obtain ⟨n, found, -⟩ := grown.root
  rw [found, Option.isSome_some]

theorem parent_isSome {n : NodeOf t} (below : n.1 ≠ []) :
    (t.node n.1.dropLast).isSome = true := by
  obtain ⟨names, present⟩ := n
  obtain ⟨front, name, rfl⟩ := (List.eq_nil_or_concat' names).resolve_left below
  obtain ⟨-, -, -, p, found, -⟩ := grown.below front name _ (t.node_eq ⟨_, present⟩)
  rw [List.dropLast_concat, found, Option.isSome_some]

theorem child_isSome (n : NodeOf t) : ∀ child ∈ (t.at_ n).children, (t.node child).isSome = true := by
  intro child listed
  obtain ⟨name, -, present⟩ := ((grown.children n.1 _ (t.node_eq n)).2 child).1 listed
  exact present

end Grown

namespace TrackedTree

variable {t : TrackedTree}

/-- The parent of a node. -/
def parentOf (grown : Grown t) (n : NodeOf t) : Option (NodeOf t) :=
  if below : n.1 = [] then none else some ⟨n.1.dropLast, grown.parent_isSome below⟩

theorem parentOf_eq_some {grown : Grown t} {c p : NodeOf t} :
    parentOf grown c = some p ↔ ∃ name, c.1 = p.1 ++ [name] := by
  unfold parentOf
  split
  · rename_i top
    simp [top]
  · rename_i below
    rw [Option.some.injEq, Subtype.ext_iff]
    constructor
    · intro above
      refine ⟨c.1.getLast below, ?_⟩
      rw [← above, List.dropLast_append_getLast]
    · rintro ⟨name, same⟩
      simp [same]

/-- The tracked tree as a tree of its nodes. -/
def asTree (t : TrackedTree) (grown : Grown t) : Tree (NodeOf t) where
  root := ⟨[], grown.root_isSome⟩
  parent := parentOf grown
  children n := (t.at_ n).children.attachWith _ (grown.child_isSome n)
  info n := (t.at_ n).info
  depth n := n.1.length
  mem_children := by
    intro c p
    rw [List.mem_attachWith, (grown.children p.1 _ (t.node_eq p)).2, parentOf_eq_some]
    constructor
    · rintro ⟨name, same, -⟩
      exact ⟨name, same⟩
    · rintro ⟨name, same⟩
      exact ⟨name, same, c.2⟩
  nodup_children p := by
    refine List.Nodup.of_map Subtype.val ?_
    rw [List.attachWith_map_subtype_val]
    exact (grown.children p.1 _ (t.node_eq p)).1
  parent_eq_none := by
    intro n
    unfold parentOf
    split
    · rename_i top
      simpa [Subtype.ext_iff] using top
    · rename_i below
      simpa [Subtype.ext_iff] using below
  depth_of_parent := by
    intro c p above
    obtain ⟨name, same⟩ := parentOf_eq_some.1 above
    rw [same, List.length_append, List.length_singleton]
  kept := by
    rintro ⟨names, present⟩
    obtain rfl | ⟨front, name, rfl⟩ := List.eq_nil_or_concat' names
    · obtain ⟨n, found, directory, -⟩ := grown.root
      rw [at_eq (n := ⟨[], present⟩) found]
      exact .inr directory
    · obtain ⟨-, -, kept, -⟩ := grown.below front name _ (t.node_eq ⟨_, present⟩)
      exact (of_decide_eq_true kept).symm
  children_of_regular := by
    intro n regular
    have none_ : (t.at_ n).children = [] := by
      refine List.eq_nil_iff_forall_not_mem.2 fun child listed => ?_
      obtain ⟨name, rfl, present⟩ := ((grown.children n.1 _ (t.node_eq n)).2 child).1 listed
      obtain ⟨node, found⟩ := Option.isSome_iff_exists.1 present
      obtain ⟨-, -, -, p, above, directory⟩ := grown.below n.1 name node found
      rw [at_eq above, directory] at regular
      cases regular
    simp [none_]
  root_directory := by
    obtain ⟨n, found, directory, -⟩ := grown.root
    rw [at_eq (n := ⟨[], grown.root_isSome⟩) found]
    exact directory
  named := by
    rintro ⟨names, present⟩
    obtain rfl | ⟨front, name, rfl⟩ := List.eq_nil_or_concat' names
    · obtain ⟨n, found, -, named⟩ := grown.root
      rw [at_eq (n := ⟨[], present⟩) found]
      exact named.imp_left fun empty => ⟨rfl, empty⟩
    · obtain ⟨own, named, -⟩ := grown.below front name _ (t.node_eq ⟨_, present⟩)
      exact .inr (own.symm ▸ named)

variable (grown : Grown t)

/-- A child is reached by one name more than its parent, its own. -/
theorem eq_of_parent {c p : NodeOf t} (above : (t.asTree grown).parent c = some p) :
    c.1 = p.1 ++ [((t.asTree grown).info c).name] := by
  obtain ⟨name, here⟩ := parentOf_eq_some.1 (show parentOf grown c = some p from above)
  have own : ((t.asTree grown).info c).name = name :=
    (grown.below p.1 name _ (here ▸ t.node_eq c)).1
  rw [here, own]

theorem asTree_distinct : (t.asTree grown).Distinct := by
  intro c c' p above above' same
  refine Subtype.ext ?_
  rw [eq_of_parent grown above, eq_of_parent grown above', same]

/-- The path of a node: the name of the root, if it has one, and the names that lead to it. -/
theorem path_asTree (n : NodeOf t) :
    (t.asTree grown).path n = (t.asTree grown).nameOf (t.asTree grown).root ++ n.1 := by
  induction n using (t.asTree grown).from_root with
  | root => rw [Tree.path_root, show (t.asTree grown).root.1 = [] from rfl, List.append_nil]
  | child c p above ih =>
      rw [Tree.path_of_parent above, ih, eq_of_parent grown above, List.append_assoc]

end TrackedTree

/-! ## The tree of a scan -/

section Scans

variable {disk : Disk} {links : ℕ} {order : Sorting} {root : Loc}

/-- The name of a location of the file system. -/
theorem readM_root_name (directory : disk.isDir root = true) :
    (readM disk links root).name = [] ∨ FileName (readM disk links root).name := by
  have real := Disk.real_of_isDir directory
  cases last : root.getLast? with
  | none => exact .inl (by simp [readM, last])
  | some name =>
      refine .inr ?_
      simp only [readM, last, Option.getD_some]
      exact real.fileName name (List.mem_of_mem_getLast? last)

/-- A directory that was visited is a node, and a directory. -/
theorem TreeSoFar.visited_directory {f : Frontier (List Bytes)}
    (tree : TreeSoFar (readEntries disk links root) order root (readM disk links root) f)
    (directory : disk.isDir root = true) {names : List Bytes} (visited : names ∈ f.done) :
    ∃ n, (TrackedTree.replay (readM disk links root)
        (image (readEntries disk links root) order root f).events).node names = some n ∧
      n.info.ftype = .directory := by
  rcases tree.once.parent names (List.mem_append_left _ visited) with rfl | ⟨above, earlier, below⟩
  · rw [tree.nodes]
    refine ⟨_, rfl, ?_⟩
    rw [nodeFor_info]
    exact Disk.status_of_isDir directory
  · obtain ⟨info, listed, type, rfl⟩ := mem_subdirs.1 below
    obtain ⟨n, found, same⟩ := tree.node_of_mem distinct_readEntries earlier listed
      (by simp [Kept, type])
    exact ⟨n, found, same ▸ type⟩

/-- **At every moment of a scan the tracked tree hangs together**, whatever the file system. -/
theorem grown_of_scan (directory : disk.isDir root = true) {w : Worklist}
    (reachable : Reachable (scanStep disk links order root) scanStart w) :
    Grown (.replay (readM disk links root) w.events) := by
  rw [scanStep_eq_scanWith] at reachable
  obtain ⟨f, explored, rfl⟩ := reachable_image.1 reachable
  have type : (disk.status links root).1 = .directory := Disk.status_of_isDir directory
  have tree : TreeSoFar _ order root _ f := scan_tree type explored
  constructor
  case root =>
    rw [tree.nodes]
    refine ⟨_, rfl, ?_, ?_⟩
    · rw [nodeFor_info]
      exact type
    · rw [nodeFor_info]
      exact readM_root_name directory
  case below =>
    intro front name n found
    obtain ⟨entry, here, rfl⟩ := tree.exists_entry found
    rw [entryAt_concat] at here
    obtain ⟨visited, here⟩ := Option.ite_none_right_eq_some.1 here
    have same : name = entry.name := by simpa using List.find?_some here
    obtain ⟨listed, kept⟩ := List.mem_filter.1 (List.mem_of_find?_eq_some here)
    obtain ⟨name', named, -, own⟩ := exists_entry listed
    rw [nodeFor_info]
    exact ⟨same.symm, same ▸ own ▸ named, kept, tree.visited_directory directory visited⟩
  case children => exact fun names n => tree.children distinct_readEntries

/-- Every directory and regular file has a node. -/
theorem Describes.exists_node {t : TrackedTree}
    (described : Describes disk root t) {names : List Bytes} {item : Item}
    (found : disk.items (root ++ names) = some item)
    (kept : Kept (item.asM ((root ++ names).getLast?.getD [])) = true) :
    ∃ n : NodeOf t, n.1 = names ∧
      (t.at_ n).info = item.asM ((root ++ names).getLast?.getD []) := by
  have here := described names
  rw [found, Option.map_some, Option.filter_some, if_pos kept, Option.map_eq_some_iff] at here
  obtain ⟨node, present, same⟩ := here
  exact ⟨⟨names, by rw [present, Option.isSome_some]⟩, rfl,
    (congrArg TrackedNode.info (TrackedTree.at_eq present)).trans same⟩

/-- The tree that the scan hands over. -/
abbrev scanned (disk : Disk) (links : ℕ) (root : Loc) (w : Worklist) : TrackedTree :=
  .replay (readM disk links root) w.events

/-- A scan that has ended describes a plain tree. -/
theorem PlainTree.describes (plain : PlainTree disk root) {w : Worklist}
    (reachable : Reachable (scanStep disk links order root) scanStart w) (over_ : w.stack = []) :
    Describes disk root (scanned disk links root w) := by
  rw [scanStep_eq_scanWith] at reachable
  obtain ⟨f, explored, rfl⟩ := reachable_image.1 reachable
  exact (plain.reproduces explored over_).nodes

variable {w : Worklist} (grown : Grown (scanned disk links root w))

/-- The path of a node is the one it has on the disk, from the name of the root on. -/
theorem path_scanned (directory : disk.isDir root = true)
    (reachable : Reachable (scanStep disk links order root) scanStart w)
    (n : NodeOf (scanned disk links root w)) :
    ((scanned disk links root w).asTree grown).path n = treePath root n.1 := by
  rw [TrackedTree.path_asTree, treePath]
  congr 1
  have info : (((scanned disk links root w).asTree grown).info
      ((scanned disk links root w).asTree grown).root) = readM disk links root := by
    rw [scanStep_eq_scanWith] at reachable
    obtain ⟨f, explored, rfl⟩ := reachable_image.1 reachable
    have tree := scan_tree (Disk.status_of_isDir directory) explored
    refine (congrArg TrackedNode.info (TrackedTree.at_eq ((tree.nodes []).trans rfl))).trans ?_
    rw [nodeFor_info]
  have real := Disk.real_of_isDir directory
  rw [Tree.nameOf, info]
  cases last : root.getLast? with
  | none => simp [readM, last]
  | some name =>
      have named := (real.fileName name (List.mem_of_mem_getLast? last)).1
      simp [readM, last, named]

/-- The path that `send_datamsg` computes for a node of a plain tree. -/
theorem PlainTree.relPath_eq (plain : PlainTree disk root) {names : List Bytes}
    (present : (disk.items (root ++ names)).isSome) :
    relPath disk links root names =
      some (joinPath (if treePath root names = [] then [dot] else treePath root names)) := by
  obtain ⟨item, found⟩ := Option.isSome_iff_exists.1 present
  have real : disk.Real ([] ++ (root ++ names)) := by
    refine ⟨item, found, ?_⟩
    cases item with
    | link target => exact absurd found (plain.unlinked names target)
    | _ => rfl
  have itself : disk.resolve links [] (root ++ names) = .ok (root ++ names) :=
    Disk.resolve_of_real real
  rw [relPath, relative_eq plain.directory itself, Option.map_some, ← dropLast_append_treePath,
    lexicallyRelative_append]

end Scans

end Enuwatch.Scan

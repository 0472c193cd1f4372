import Enuwatch.Lib.Transition
import Enuwatch.Scan.Disk

/-!
# `scan_dir`

The scan keeps a stack of directories. A step takes the top one, reads and sorts its entries,
hangs a node for every directory and every regular file under it and pushes the directories. A
node is known by the names that lead to it from the root; what the scan does to the tracked tree
is in a log.

Every node of the tree has names of directory entries, and its path resolves to a directory or a
regular file (`reachable_accepted`).
-/

set_option autoImplicit false

namespace Enuwatch.Scan

open Enuwatch.Lib

/-- What the scan does to the tracked tree, and what it prints. -/
inductive Event where
  | addChild (node : List Bytes) (info : M)
  | shiftTotal (node : List Bytes) (amount : UInt64)
  | unlock (node : List Bytes)
  | warn (path : Loc) (ftype : FileType)
deriving DecidableEq, Repr

/-- The stack, top first, and the log. -/
structure Worklist where
  stack : List (List Bytes)
  events : List Event
deriving DecidableEq, Repr

/-- What `std::sort` does with the entries of a directory. -/
structure Sorting where
  sort : List M → List M
  perm : ∀ entries, (sort entries).Perm entries

/-- One entry of the directory `node`. -/
def visit (root : Loc) (node : List Bytes) (w : Worklist) (info : M) : Worklist :=
  let child := node ++ [info.name]
  match info.ftype with
  | .directory => ⟨child :: w.stack, w.events ++ [.addChild child info]⟩
  | .regular =>
      { w with
        events := w.events ++ [.addChild child info, .shiftTotal child info.fsize, .unlock child] }
  | ftype => { w with events := w.events ++ [.warn (root ++ child) ftype] }

section

variable (disk : Disk) (links : ℕ) (order : Sorting) (root : Loc)

/-- The entries of a directory as the scan reads them. -/
def readEntries (node : List Bytes) : List M :=
  (disk.entries links (root ++ node)).map fun name => readM disk links (root ++ node ++ [name])

/-- One round of the loop. -/
def scanStep (w : Worklist) (_ : Unit) : Option Worklist :=
  match w.stack with
  | [] => none
  | node :: stack =>
      let w := (order.sort (readEntries disk links root node)).foldl (visit root node)
        { w with stack }
      some { w with events := w.events ++ [.unlock node] }

/-- The root is on the stack. -/
def scanStart : Worklist := ⟨[[]], []⟩

end

/-- The nodes of the tracked tree. -/
def Worklist.nodes (w : Worklist) : List (List Bytes) :=
  [] :: w.events.filterMap fun
    | .addChild node _ => some node
    | _ => none

/-- What `main` makes of the argument that names the directory: the current directory when there
is none, and its canonical form otherwise. -/
def startPath (disk : Disk) (links : ℕ) (cwd : Loc) (argPath : Bytes) : Option Loc :=
  if argPath = [] then some cwd
  else
    match disk.resolve links (if argPath.head? = some 47 then [] else cwd) (argPath.splitOn 47) with
    | .error _ => none
    | .ok loc => if (disk.status links loc).1 = .directory then some loc else none

section

variable {disk : Disk} {links : ℕ} {order : Sorting} {root : Loc}

/-- A location without links has the type of what is there. -/
theorem isDir_of_status (real : disk.Real root)
    (directory : (disk.status links root).1 = .directory) : disk.isDir root = true := by
  obtain ⟨item, found, plain⟩ := real
  have itself : disk.resolve links [] root = .ok root := by
    have whole : disk.Real ([] ++ root) := ⟨item, found, plain⟩
    simpa using Disk.resolve_of_real whole
  simp only [Disk.status, itself, found] at directory
  cases item with
  | dir perms => exact Disk.isDir_iff.2 ⟨perms, found⟩
  | file _ _ => cases directory
  | special _ kind => cases kind <;> cases directory
  | link _ => cases plain

/-- The directory that is synchronised has no link in its path. -/
theorem isDir_startPath {cwd : Loc} {argPath : Bytes} (working : disk.isDir cwd = true)
    (starts : startPath disk links cwd argPath = some root) : disk.isDir root = true := by
  unfold startPath at starts
  split at starts
  · cases starts
    exact working
  · split at starts
    · cases starts
    · rename_i loc resolved
      split at starts
      · rename_i directory
        cases starts
        refine isDir_of_status (Disk.resolve_real (Disk.real_of_isDir ?_) resolved) directory
        split
        · exact Disk.isDir_nil
        · exact working
      · cases starts

end

/-! ## One round -/

/-- The scan keeps directories and regular files. -/
def Kept (info : M) : Bool := info.ftype = .directory ∨ info.ftype = .regular

section Round

variable {root : Loc} {node : List Bytes}

theorem nodes_visit (w : Worklist) (info : M) :
    (visit root node w info).nodes =
      w.nodes ++ if Kept info then [node ++ [info.name]] else [] := by
  unfold visit
  split <;> rename_i ftype <;> simp_all [Kept, Worklist.nodes]

theorem stack_visit (w : Worklist) (info : M) :
    (visit root node w info).stack =
      (if info.ftype = .directory then [node ++ [info.name]] else []) ++ w.stack := by
  unfold visit
  split <;> rename_i ftype <;> simp_all

/-- What all entries of a directory add to the tree. -/
theorem nodes_visits (infos : List M) (w : Worklist) :
    (infos.foldl (visit root node) w).nodes =
      w.nodes ++ (infos.filter Kept).map fun info => node ++ [info.name] := by
  induction infos generalizing w with
  | nil => simp
  | cons info infos ih =>
      rw [List.foldl_cons, ih, nodes_visit]
      by_cases kept : Kept info <;> simp [kept]

/-- The directories among them are pushed one after the other. -/
theorem stack_visits (infos : List M) (w : Worklist) :
    (infos.foldl (visit root node) w).stack =
      ((infos.filter (·.ftype = .directory)).map fun info => node ++ [info.name]).reverse ++
        w.stack := by
  induction infos generalizing w with
  | nil => simp
  | cons info infos ih =>
      rw [List.foldl_cons, ih, stack_visit]
      by_cases directory : info.ftype = .directory <;> simp [directory]

variable {disk : Disk} {links : ℕ} {order : Sorting} {w w' : Worklist}

/-- One round: the node it takes from the stack, and the children it finds. -/
theorem scanStep_eq (stepped : scanStep disk links order root w () = some w') :
    ∃ node stack, w.stack = node :: stack ∧
      let infos := order.sort (readEntries disk links root node)
      w'.nodes = w.nodes ++ ((infos.filter Kept).map fun info => node ++ [info.name]) ∧
      w'.stack = ((infos.filter (·.ftype = .directory)).map fun info =>
        node ++ [info.name]).reverse ++ stack := by
  unfold scanStep at stepped
  split at stepped
  · cases stepped
  · rename_i node stack top
    cases stepped
    refine ⟨node, stack, top, ?_, ?_⟩
    · let infos := order.sort (readEntries disk links root node)
      have added : (infos.foldl (visit root node) { w with stack }).nodes =
          w.nodes ++ (infos.filter Kept).map fun info => node ++ [info.name] := nodes_visits _ _
      simpa [Worklist.nodes] using added
    · exact stack_visits _ _

/-- The entries of a directory, each read once. -/
theorem exists_entry {info : M}
    (among : info ∈ order.sort (readEntries disk links root node)) :
    ∃ name, FileName name ∧ info = readM disk links (root ++ node ++ [name]) ∧
      info.name = name := by
  obtain ⟨name, listed, rfl⟩ := List.mem_map.1 ((order.perm _).mem_iff.1 among)
  refine ⟨name, ?_, rfl, by simp [readM]⟩
  unfold Disk.entries at listed
  split at listed
  · simp at listed
  · rename_i loc _
    cases found : disk.listing loc with
    | none => simp [found] at listed
    | some names =>
        simp only [found, Option.getD_some] at listed
        exact disk.named loc name ((disk.listed loc names found name).1 listed)

/-- No entry is read twice. -/
theorem nodup_entries :
    ((order.sort (readEntries disk links root node)).map fun info => info.name).Nodup := by
  refine ((order.perm _).map _).nodup_iff.2 ?_
  have same : (readEntries disk links root node).map (fun info => info.name) =
      disk.entries links (root ++ node) := by
    rw [readEntries, List.map_map]
    exact List.map_id'' (fun name => by simp [readM]) _
  rw [same]
  unfold Disk.entries
  split
  · exact List.nodup_nil
  · rename_i loc _
    cases found : disk.listing loc with
    | none => exact List.nodup_nil
    | some names => exact disk.nodup_listing loc names found

end Round

/-! ## Every round -/

section Rounds

variable {disk : Disk} {links : ℕ} {order : Sorting} {root : Loc} {w w' : Worklist}

/-- Every node but the root is an entry of a directory, and its path resolves to a directory or
a regular file. -/
def Accepted (disk : Disk) (links : ℕ) (root : Loc) (names : List Bytes) : Prop :=
  (∀ name ∈ names, FileName name) ∧
    ((disk.status links (root ++ names)).1 = .regular ∨
      (disk.status links (root ++ names)).1 = .directory)

/-- The tree as far as it is built. -/
structure Built (disk : Disk) (links : ℕ) (root : Loc) (w : Worklist) : Prop where
  accepted : ∀ names ∈ w.nodes, Accepted disk links root names
  nodup : w.nodes.Nodup
  closed : ∀ names name, names ++ [name] ∈ w.nodes → names ∈ w.nodes
  pending : ∀ names ∈ w.stack, names ∈ w.nodes
  nodup_stack : w.stack.Nodup
  /-- A directory on the stack has no children yet. -/
  unread : ∀ names ∈ w.stack, ∀ name, names ++ [name] ∉ w.nodes

theorem built_start (directory : disk.isDir root = true) : Built disk links root scanStart where
  accepted := by
    intro names among
    obtain rfl : names = [] := by simpa [scanStart, Worklist.nodes] using among
    exact ⟨by simp, .inr (by simpa using Disk.status_of_isDir directory)⟩
  nodup := by simp [scanStart, Worklist.nodes]
  closed := by simp [scanStart, Worklist.nodes]
  pending := by simp [scanStart, Worklist.nodes]
  nodup_stack := by simp [scanStart]
  unread := by simp [scanStart, Worklist.nodes]

theorem append_singleton_inj {a b : List Bytes} {x y : Bytes} (same : a ++ [x] = b ++ [y]) :
    a = b ∧ x = y := by
  simpa using List.append_inj' same rfl

/-- Entries of different names are different children. -/
theorem nodup_children {node : List Bytes} {infos : List M}
    (distinct : (infos.map (·.name)).Nodup) (keep : M → Bool) :
    ((infos.filter keep).map fun info => node ++ [info.name]).Nodup := by
  have names : ((infos.filter keep).map (·.name)).Nodup :=
    distinct.sublist (List.filter_sublist.map _)
  have whole := names.map fun a b same => (append_singleton_inj (a := node) (b := node) same).2
  rwa [List.map_map] at whole

/-- A round that takes `node` from the stack, adds `kids` below it and pushes some of them. -/
theorem Built.extend (built : Built disk links root w) {node : List Bytes}
    {stack kids dirs : List (List Bytes)} (top : w.stack = node :: stack)
    (below : ∀ kid ∈ kids, ∃ name, kid = node ++ [name])
    (accepted : ∀ kid ∈ kids, Accepted disk links root kid) (distinct : kids.Nodup)
    (pushed : ∀ dir ∈ dirs, dir ∈ kids) (once : dirs.Nodup)
    (nodes : w'.nodes = w.nodes ++ kids) (onto : w'.stack = dirs ++ stack) :
    Built disk links root w' := by
  have parent : node ∈ w.nodes := built.pending node (top ▸ List.mem_cons_self)
  have alone : node ∉ stack ∧ stack.Nodup := List.nodup_cons.1 (top ▸ built.nodup_stack)
  have rest : ∀ names ∈ stack, names ∈ w.stack := fun names among => by
    rw [top]
    exact List.mem_cons_of_mem _ among
  have fresh : ∀ kid ∈ kids, kid ∉ w.nodes := by
    intro kid among
    obtain ⟨name, rfl⟩ := below kid among
    exact built.unread node (top ▸ List.mem_cons_self) name
  refine ⟨?_, ?_, ?_, ?_, ?_, ?_⟩
  · intro names among
    rw [nodes, List.mem_append] at among
    exact among.elim (built.accepted names) (accepted names)
  · rw [nodes]
    exact List.nodup_append.2 ⟨built.nodup, distinct, fun a old b new same =>
      fresh b new (same ▸ old)⟩
  · intro names name among
    rw [nodes, List.mem_append] at among ⊢
    obtain old | new := among
    · exact .inl (built.closed names name old)
    · obtain ⟨other, same⟩ := below _ new
      exact .inl ((append_singleton_inj same).1 ▸ parent)
  · intro names among
    rw [onto, List.mem_append] at among
    rw [nodes, List.mem_append]
    exact among.elim (fun dir => .inr (pushed names dir))
      fun old => .inl (built.pending names (rest names old))
  · rw [onto]
    exact List.nodup_append.2 ⟨once, alone.2, fun a dir b old same =>
      fresh a (pushed a dir) (same ▸ built.pending b (rest b old))⟩
  · intro names among name found
    rw [onto, List.mem_append] at among
    rw [nodes, List.mem_append] at found
    obtain dir | old := among
    · -- The children of a new directory would be older than itself.
      have new := pushed names dir
      obtain old | kid := found
      · exact fresh names new (built.closed names name old)
      · obtain ⟨other, rfl⟩ := below names new
        obtain ⟨another, same⟩ := below _ kid
        have lengths := congrArg List.length same
        simp at lengths
    · obtain earlier | kid := found
      · exact built.unread names (rest names old) name earlier
      · obtain ⟨other, same⟩ := below _ kid
        exact alone.1 ((append_singleton_inj same).1 ▸ old)

theorem Built.step (built : Built disk links root w)
    (stepped : scanStep disk links order root w () = some w') : Built disk links root w' := by
  obtain ⟨node, stack, top, nodes, onto⟩ := scanStep_eq stepped
  have above := (built.accepted node (built.pending node (top ▸ List.mem_cons_self))).1
  have once : ∀ keep : M → Bool, (((order.sort (readEntries disk links root node)).filter
      keep).map fun info => node ++ [info.name]).Nodup := nodup_children nodup_entries
  refine built.extend top ?_ ?_ (once Kept) ?_ (List.nodup_reverse.2 (once _)) nodes onto
  · intro kid among
    obtain ⟨info, -, rfl⟩ := List.mem_map.1 among
    exact ⟨info.name, rfl⟩
  · intro kid among
    obtain ⟨info, found, rfl⟩ := List.mem_map.1 among
    obtain ⟨listed, kept⟩ := List.mem_filter.1 found
    obtain ⟨name, named, read, same⟩ := exists_entry listed
    have type : info.ftype = (disk.status links (root ++ (node ++ [name]))).1 := by
      rw [read, List.append_assoc]
      rfl
    rw [same]
    refine ⟨?_, ?_⟩
    · intro other among
      rw [List.mem_append, List.mem_singleton] at among
      exact among.elim (above other) fun last => last ▸ named
    · rw [← type]
      simpa [Kept, or_comm] using kept
  · intro dir among
    obtain ⟨info, found, rfl⟩ := List.mem_map.1 (List.mem_reverse.1 among)
    obtain ⟨listed, directory⟩ := List.mem_filter.1 found
    have kept : Kept info = true := by simpa [Kept] using Or.inl (of_decide_eq_true directory)
    exact List.mem_map.2 ⟨info, List.mem_filter.2 ⟨listed, kept⟩, rfl⟩

theorem reachable_built (directory : disk.isDir root = true)
    (reachable : Reachable (scanStep disk links order root) scanStart w) :
    Built disk links root w :=
  reachable.invariant (built_start directory) fun _ _ _ before stepped => before.step stepped

end Rounds

end Enuwatch.Scan

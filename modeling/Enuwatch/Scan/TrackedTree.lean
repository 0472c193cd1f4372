import Enuwatch.Lib.Pool
import Enuwatch.Scan.Rounds

/-!
# The tracked tree that a scan builds

`tracked.h` keeps a node for every directory and every regular file, with its children, a flag
that says whether they are all there and the number of bytes it stands for. A node is known here
by the names that lead to it. The scan's log replayed on these nodes gives the tree.

Each round hangs the entries of one directory below its node (`round_node`). So after any number
of rounds the tree holds exactly the entries of the directories that were visited (`TreeSoFar`).
-/

set_option autoImplicit false

namespace Enuwatch.Scan

open Enuwatch.Lib

structure TrackedNode where
  info : M
  ready : Bool := false
  total : UInt64 := 0
  children : List (List Bytes) := []
deriving DecidableEq, Repr

structure TrackedTree where
  node : List Bytes → Option TrackedNode
  sumTotal : UInt64 := 0

namespace TrackedTree

/-- The root alone. -/
def new (info : M) : TrackedTree :=
  { node := fun names => if names = [] then some { info } else none }

/-- Change one node. -/
def adjust (t : TrackedTree) (names : List Bytes) (f : TrackedNode → TrackedNode) : TrackedTree :=
  { t with node := Function.update t.node names ((t.node names).map f) }

/-- `add_child`: a new node at the end of its parent's list. -/
def addChild (t : TrackedTree) (child : List Bytes) (info : M) : TrackedTree :=
  let t := t.adjust child.dropLast fun n => { n with children := n.children ++ [child] }
  { t with node := Function.update t.node child (some { info }) }

/-- `shift_total`: both sums are of type `size_t`. -/
def shiftTotal (t : TrackedTree) (names : List Bytes) (delta : UInt64) : TrackedTree :=
  { t.adjust names fun n => { n with total := n.total + delta } with
    sumTotal := t.sumTotal + delta }

/-- `unlock`. -/
def unlock (t : TrackedTree) (names : List Bytes) : TrackedTree :=
  t.adjust names fun n => { n with ready := true }

/-- What a line of the log does. -/
def apply (t : TrackedTree) : Event → TrackedTree
  | .addChild child info => t.addChild child info
  | .shiftTotal names delta => t.shiftTotal names delta
  | .unlock names => t.unlock names
  | .warn _ _ => t

/-- The tree after a log. -/
def replay (info : M) (events : List Event) : TrackedTree := events.foldl apply (new info)

end TrackedTree

/-- The node of an entry that the scan has just read. -/
def freshNode (info : M) : TrackedNode :=
  if info.ftype = .regular then { info, ready := true, total := info.fsize } else { info }

@[simp] theorem freshNode_info (info : M) : (freshNode info).info = info := by
  unfold freshNode
  split <;> rfl

@[simp] theorem freshNode_children (info : M) : (freshNode info).children = [] := by
  unfold freshNode
  split <;> rfl

/-! ## One round -/

section Round

variable {root : Loc} {node : List Bytes} {t : TrackedTree}

theorem adjust_node (names other : List Bytes) (f : TrackedNode → TrackedNode) :
    (t.adjust names f).node other =
      if other = names then (t.node other).map f else t.node other := by
  by_cases same : other = names
  · subst same
    simp [TrackedTree.adjust]
  · simp [TrackedTree.adjust, same]

theorem addChild_node (info : M) (name : Bytes) (other : List Bytes) :
    (t.addChild (node ++ [name]) info).node other =
      if other = node ++ [name] then some { info }
      else if other = node then
        (t.node other).map fun n => { n with children := n.children ++ [node ++ [name]] }
      else t.node other := by
  by_cases same : other = node ++ [name]
  · simp [TrackedTree.addChild, same]
  · have parent := adjust_node (t := t) node other
      fun n => { n with children := n.children ++ [node ++ [name]] }
    simpa [TrackedTree.addChild, same] using parent

/-- What one entry does to the nodes. -/
theorem entry_node (info : M) (other : List Bytes) :
    ((entryEvents root node info).foldl TrackedTree.apply t).node other =
      if Kept info = true then
        if other = node ++ [info.name] then some (freshNode info)
        else if other = node then
          (t.node other).map fun n => { n with children := n.children ++ [node ++ [info.name]] }
        else t.node other
      else t.node other := by
  cases type : info.ftype with
  | directory =>
      simp [entryEvents, type, TrackedTree.apply, addChild_node, Kept, freshNode]
  | regular =>
      simp only [entryEvents, type, List.foldl_cons, List.foldl_nil, TrackedTree.apply,
        TrackedTree.unlock, TrackedTree.shiftTotal, adjust_node, addChild_node, Kept, freshNode]
      by_cases same : other = node ++ [info.name] <;> simp [same]
  | _ => simp [entryEvents, type, TrackedTree.apply, Kept]

/-- What the entries of a directory do to the nodes below it, or somewhere else. -/
theorem entries_node_of_ne {infos : List M} (distinct : (infos.map (·.name)).Nodup)
    {other : List Bytes} (elsewhere : other ≠ node) :
    ((infos.flatMap (entryEvents root node)).foldl TrackedTree.apply t).node other =
      (((infos.filter Kept).find? fun info => other = node ++ [info.name]).map freshNode).or
        (t.node other) := by
  induction infos generalizing t with
  | nil => simp
  | cons info infos ih =>
      obtain ⟨new, distinct⟩ := List.nodup_cons.1 distinct
      rw [List.flatMap_cons, List.foldl_append, ih distinct, entry_node]
      by_cases kept : Kept info = true
      · by_cases same : other = node ++ [info.name]
        · have later : ∀ info' ∈ infos.filter Kept, ¬ other = node ++ [info'.name] := by
            intro info' among again
            refine new (List.mem_map.2 ⟨info', (List.mem_filter.1 among).1, ?_⟩)
            exact (append_singleton_inj (again.symm.trans same)).2
          have nowhere : ((infos.filter Kept).find? fun info =>
              other = node ++ [info.name]) = none :=
            List.find?_eq_none.2 fun info' among => by simpa using later info' among
          rw [nowhere, List.filter_cons_of_pos kept, List.find?_cons_of_pos (by simpa using same)]
          simp [kept, same]
        · rw [List.filter_cons_of_pos kept, List.find?_cons_of_neg (by simpa using same)]
          simp [kept, same, elsewhere]
      · rw [List.filter_cons_of_neg kept]
        simp [kept]

/-- What they do to its own node. -/
theorem entries_node_self (infos : List M) :
    ((infos.flatMap (entryEvents root node)).foldl TrackedTree.apply t).node node =
      (t.node node).map fun n => { n with
        children := n.children ++ (infos.filter Kept).map fun info => node ++ [info.name] } := by
  induction infos generalizing t with
  | nil => simp
  | cons info infos ih =>
      rw [List.flatMap_cons, List.foldl_append, ih, entry_node]
      by_cases kept : Kept info = true
      · simp [kept, Function.comp_def]
      · simp [kept]

end Round

/-! ## The tree after some rounds -/

section Definitions

variable (read : List Bytes → List M) (order : Sorting)

/-- The entries of a directory that become nodes, in the order in which they do. -/
def keptEntries (node : List Bytes) : List M := (order.sort (read node)).filter Kept

/-- The entry that these names lead to, when the directory it is in is one of those visited. -/
def entryAt (info : M) (visited : List (List Bytes)) (names : List Bytes) : Option M :=
  if names = [] then some info
  else if names.dropLast ∈ visited then
    (keptEntries read order names.dropLast).find? fun entry =>
      names = names.dropLast ++ [entry.name]
  else none

/-- The node of an entry: a directory that was visited has its children and is ready. -/
def nodeFor (visited : List (List Bytes)) (names : List Bytes) (info : M) : TrackedNode :=
  if names ∈ visited then
    { freshNode info with
      ready := true
      children := (keptEntries read order names).map fun entry => names ++ [entry.name] }
  else freshNode info

end Definitions

variable {read : List Bytes → List M} {order : Sorting} {root : Loc} {info : M}
  {f : Frontier (List Bytes)}

/-- What a round does to the nodes. -/
theorem round_node (distinct : DistinctNames read) (t : TrackedTree) (node other : List Bytes) :
    ((roundEvents read order root node).foldl TrackedTree.apply t).node other =
      if other = node then
        (t.node node).map fun n => { n with
          ready := true
          children := n.children ++
            (keptEntries read order node).map fun entry => node ++ [entry.name] }
      else
        (((keptEntries read order node).find? fun entry => other = node ++ [entry.name]).map
          freshNode).or (t.node other) := by
  rw [roundEvents, List.foldl_append]
  simp only [List.foldl_cons, List.foldl_nil, TrackedTree.apply, TrackedTree.unlock, adjust_node]
  by_cases same : other = node
  · subst same
    rw [if_pos rfl, if_pos rfl, entries_node_self, Option.map_map]
    rfl
  · rw [if_neg same, if_neg same, entries_node_of_ne (distinct.sorted order node) same]
    rfl

/-- The entries of a directory that was not visited are not in the tree. -/
theorem entryAt_none {visited : List (List Bytes)} {names : List Bytes} (below : names ≠ [])
    (unvisited : names.dropLast ∉ visited) : entryAt read order info visited names = none := by
  rw [entryAt, if_neg below, if_neg unvisited]

/-- Names that do not end in an entry of the directory lead to none of them. -/
theorem find_entry_eq_none {node names : List Bytes}
    (elsewhere : names = [] ∨ names.dropLast ≠ node) :
    ((keptEntries read order node).find? fun entry => names = node ++ [entry.name]) = none := by
  apply List.find?_eq_none.2
  intro entry _ same
  obtain rfl := of_decide_eq_true same
  simp at elsewhere

/-- A visit brings the entries of its directory, and no others. -/
theorem entryAt_snoc {visited : List (List Bytes)} {node : List Bytes} (first : node ∉ visited)
    (names : List Bytes) : entryAt read order info (visited ++ [node]) names =
      ((keptEntries read order node).find? fun entry => names = node ++ [entry.name]).or
        (entryAt read order info visited names) := by
  by_cases top : names = []
  · rw [find_entry_eq_none (.inl top), Option.none_or, entryAt, entryAt, if_pos top, if_pos top]
  · by_cases here : names.dropLast = node
    · subst here
      have unseen : entryAt read order info visited names = none := entryAt_none top first
      rw [unseen, Option.or_none, entryAt, if_neg top, if_pos (by simp)]
    · rw [find_entry_eq_none (.inr here), Option.none_or]
      simp [entryAt, top, here]

/-- What holds of the tree after any number of rounds. -/
structure TreeSoFar (read : List Bytes → List M) (order : Sorting) (root : Loc) (info : M)
    (f : Frontier (List Bytes)) : Prop where
  once : Once (subdirs read order) [] f
  nodes : ∀ names, (TrackedTree.replay info (image read order root f).events).node names =
    (entryAt read order info f.done names).map (nodeFor read order f.done names)

theorem TreeSoFar.start (folder : info.ftype ≠ .regular) :
    TreeSoFar read order root info (.start []) where
  once := ⟨by simp [Frontier.start], by simp [Frontier.start]⟩
  nodes names := by
    by_cases top : names = [] <;>
      simp [TrackedTree.replay, TrackedTree.new, image, Frontier.start, entryAt, nodeFor,
        freshNode, folder, top]

theorem TreeSoFar.step {f' : Frontier (List Bytes)} (distinct : DistinctNames read)
    (tree : TreeSoFar read order root info f)
    (stepped : explore (subdirs read order) f () = some f') :
    TreeSoFar read order root info f' := by
  have once := tree.once.step (subdirs_treelike distinct) stepped
  obtain ⟨node, rest, top, rfl⟩ := explore_eq_some.1 stepped
  have first : node ∉ f.done := fun again =>
    (List.nodup_append.1 tree.once.nodup).2.2 node again node (by simp [top]) rfl
  refine ⟨once, fun names => ?_⟩
  have grown : (image read order root ⟨subdirs read order node ++ rest, f.done ++ [node]⟩).events =
      (image read order root f).events ++ roundEvents read order root node := by simp [image]
  rw [grown, TrackedTree.replay, List.foldl_append, round_node distinct]
  have nodes := tree.nodes names
  rw [TrackedTree.replay] at nodes
  by_cases same : names = node
  · subst same
    have outside : names = [] ∨ names.dropLast ≠ names := by
      by_cases empty : names = []
      · exact .inl empty
      · refine .inr fun shorter => ?_
        have length := congrArg List.length shorter
        have := List.length_pos_iff.2 empty
        rw [List.length_dropLast] at length
        omega
    rw [if_pos rfl, nodes, entryAt_snoc first, find_entry_eq_none outside, Option.none_or,
      Option.map_map]
    apply congrArg (Option.map · _)
    funext entry
    simp [nodeFor, first]
  · have unchanged : nodeFor read order (f.done ++ [node]) names =
        nodeFor read order f.done names := by
      funext entry
      simp [nodeFor, same]
    rw [if_neg same, nodes, entryAt_snoc first, unchanged]
    cases found : (keptEntries read order node).find? fun entry => names = node ++ [entry.name] with
    | none => simp
    | some entry =>
        have here : names = node ++ [entry.name] := by simpa using List.find?_some found
        -- A directory is visited after the one it is in.
        have later : names ∉ f.done := by
          intro visited
          rcases tree.once.parent names (List.mem_append_left _ visited) with
            empty | ⟨_, earlier, below⟩
          · simp [empty] at here
          · obtain ⟨other, -, -, there⟩ := mem_subdirs.1 below
            obtain ⟨rfl, -⟩ := append_singleton_inj (here.symm.trans there)
            exact first earlier
        simp [nodeFor, later]

theorem reachable_tree (folder : info.ftype ≠ .regular) (distinct : DistinctNames read)
    (reachable : Reachable (explore (subdirs read order)) (.start []) f) :
    TreeSoFar read order root info f :=
  reachable.invariant (.start folder) fun _ _ _ before stepped => before.step distinct stepped

/-- The nodes below a node are the entries of its directory, if it was visited. -/
theorem entryAt_concat {visited : List (List Bytes)} {node : List Bytes} {name : Bytes} :
    entryAt read order info visited (node ++ [name]) =
      if node ∈ visited then (keptEntries read order node).find? fun entry => name = entry.name
      else none := by
  simp [entryAt]

theorem entryAt_concat_isSome {visited : List (List Bytes)} {node : List Bytes} {name : Bytes} :
    (entryAt read order info visited (node ++ [name])).isSome ↔
      node ∈ visited ∧ ∃ entry ∈ keptEntries read order node, entry.name = name := by
  by_cases seen : node ∈ visited
  · simp only [entryAt_concat, seen, if_true, List.find?_isSome, decide_eq_true_eq, true_and,
      @eq_comm _ name]
  · simp [entryAt_concat, seen]

section Node

variable {names : List Bytes} {n : TrackedNode}

/-- Every node stands for an entry. -/
theorem TreeSoFar.exists_entry (tree : TreeSoFar read order root info f)
    (found : (TrackedTree.replay info (image read order root f).events).node names = some n) :
    ∃ entry, entryAt read order info f.done names = some entry ∧
      nodeFor read order f.done names entry = n := by
  rw [tree.nodes] at found
  exact Option.map_eq_some_iff.1 found

/-- The children of a node are the nodes one name further down. -/
theorem TreeSoFar.children (tree : TreeSoFar read order root info f) (distinct : DistinctNames read)
    (found : (TrackedTree.replay info (image read order root f).events).node names = some n) :
    n.children.Nodup ∧ ∀ child, child ∈ n.children ↔ ∃ name, child = names ++ [name] ∧
      ((TrackedTree.replay info (image read order root f).events).node child).isSome := by
  obtain ⟨entry, -, rfl⟩ := tree.exists_entry found
  have below : ∀ name, ((TrackedTree.replay info (image read order root f).events).node
      (names ++ [name])).isSome ↔
        names ∈ f.done ∧ ∃ entry ∈ keptEntries read order names, entry.name = name := by
    intro name
    rw [tree.nodes, Option.isSome_map, entryAt_concat_isSome]
  by_cases seen : names ∈ f.done
  · rw [nodeFor, if_pos seen]
    refine ⟨nodup_children (distinct.sorted order names) _, fun child => ?_⟩
    rw [List.mem_map]
    constructor
    · rintro ⟨entry, among, rfl⟩
      exact ⟨entry.name, rfl, (below entry.name).2 ⟨seen, entry, among, rfl⟩⟩
    · rintro ⟨name, rfl, present⟩
      obtain ⟨-, entry, among, rfl⟩ := (below name).1 present
      exact ⟨entry, among, rfl⟩
  · rw [nodeFor, if_neg seen, freshNode_children]
    refine ⟨List.nodup_nil, fun child => ⟨by simp, ?_⟩⟩
    rintro ⟨name, rfl, present⟩
    exact absurd ((below name).1 present).1 seen

@[simp] theorem nodeFor_info {visited : List (List Bytes)} (entry : M) :
    (nodeFor read order visited names entry).info = entry := by
  unfold nodeFor
  split <;> simp

@[simp] theorem nodeFor_total {visited : List (List Bytes)} (entry : M) :
    (nodeFor read order visited names entry).total =
      if entry.ftype = .regular then entry.fsize else 0 := by
  unfold nodeFor freshNode
  split <;> split <;> rfl

end Node

/-- Distinct directories have distinct entries. -/
theorem nodup_flatMap_entries (distinct : DistinctNames read) {nodes : List (List Bytes)}
    (once : nodes.Nodup) (keep : M → Bool) :
    (nodes.flatMap fun node => ((read node).filter keep).map fun entry =>
      node ++ [entry.name]).Nodup := by
  refine List.nodup_flatMap.2 ⟨?_, ?_⟩
  · exact fun node _ => nodup_children (distinct node) keep
  · refine once.imp ?_
    intro node other apart child below below'
    obtain ⟨entry, -, rfl⟩ := List.mem_map.1 below
    obtain ⟨entry', -, same⟩ := List.mem_map.1 below'
    exact apart (append_singleton_inj same).1.symm

/-! ## The sum of the sizes -/

/-- What an entry adds to the sum. -/
def fileBytes (info : M) : ℕ := if info.ftype = .regular then info.fsize.toNat else 0

theorem entry_sum (node : List Bytes) (t : TrackedTree) :
    ((entryEvents root node info).foldl TrackedTree.apply t).sumTotal.toNat =
      (t.sumTotal.toNat + fileBytes info) % 2 ^ 64 := by
  have small : t.sumTotal.toNat < 2 ^ 64 := t.sumTotal.toNat_lt
  cases type : info.ftype with
  | regular =>
      have added : ((entryEvents root node info).foldl TrackedTree.apply t).sumTotal =
          t.sumTotal + info.fsize := by
        simp [entryEvents, type, TrackedTree.apply, TrackedTree.addChild, TrackedTree.adjust,
          TrackedTree.shiftTotal, TrackedTree.unlock]
      rw [added, UInt64.toNat_add, fileBytes, if_pos type]
  | _ =>
      simp [entryEvents, type, TrackedTree.apply, TrackedTree.addChild, TrackedTree.adjust,
        fileBytes]

theorem entries_sum (node : List Bytes) (infos : List M) (t : TrackedTree) :
    ((infos.flatMap (entryEvents root node)).foldl TrackedTree.apply t).sumTotal.toNat =
      (t.sumTotal.toNat + total fileBytes infos) % 2 ^ 64 := by
  induction infos generalizing t with
  | nil => simp [Nat.mod_eq_of_lt t.sumTotal.toNat_lt]
  | cons info infos ih =>
      rw [List.flatMap_cons, List.foldl_append, ih, entry_sum, Nat.mod_add_mod, total_cons,
        Nat.add_assoc]

theorem rounds_sum (nodes : List (List Bytes)) (t : TrackedTree) :
    ((nodes.flatMap (roundEvents read order root)).foldl TrackedTree.apply t).sumTotal.toNat =
      (t.sumTotal.toNat + total (fun node => total fileBytes (read node)) nodes) % 2 ^ 64 := by
  induction nodes generalizing t with
  | nil => simp [Nat.mod_eq_of_lt t.sumTotal.toNat_lt]
  | cons node nodes ih =>
      have here : ((roundEvents read order root node).foldl TrackedTree.apply t).sumTotal.toNat =
          (t.sumTotal.toNat + total fileBytes (read node)) % 2 ^ 64 := by
        rw [roundEvents, List.foldl_append, ← total_perm (order.perm (read node))]
        exact entries_sum node (order.sort (read node)) t
      rw [List.flatMap_cons, List.foldl_append, ih, here, Nat.mod_add_mod, total_cons,
        Nat.add_assoc]

/-- **`sum_total` is what the directories that were visited hold, modulo `2 ^ 64`.** -/
theorem sumTotal_image (f : Frontier (List Bytes)) :
    (TrackedTree.replay info (image read order root f).events).sumTotal.toNat =
      total (fun node => total fileBytes (read node)) f.done % 2 ^ 64 := by
  rw [TrackedTree.replay, image, rounds_sum]
  simp [TrackedTree.new]

/-- A visited entry that is kept is found under its path. -/
theorem entryAt_of_mem (distinct : DistinctNames read) {visited : List (List Bytes)}
    {node : List Bytes} (seen : node ∈ visited) {entry : M} (listed : entry ∈ read node)
    (kept : Kept entry = true) :
    entryAt read order info visited (node ++ [entry.name]) = some entry := by
  have among : entry ∈ keptEntries read order node :=
    List.mem_filter.2 ⟨(order.perm _).mem_iff.2 listed, kept⟩
  have present : (entryAt read order info visited (node ++ [entry.name])).isSome :=
    entryAt_concat_isSome.2 ⟨seen, entry, among, rfl⟩
  obtain ⟨other, found⟩ := Option.isSome_iff_exists.1 present
  rw [found]
  rw [entryAt_concat, if_pos seen] at found
  have same : entry.name = other.name := by simpa using List.find?_some found
  have there : other ∈ read node :=
    (order.perm _).mem_iff.1 (List.mem_filter.1 (List.mem_of_find?_eq_some found)).1
  rw [List.inj_on_of_nodup_map (distinct node) there listed same.symm]

/-- The node of a regular file. -/
def TrackedTree.IsFile (t : TrackedTree) (names : List Bytes) : Prop :=
  ∃ n, t.node names = some n ∧ n.info.ftype = .regular

/-- The size that the scan has noted for a node. -/
def TrackedTree.sizeOf (t : TrackedTree) (names : List Bytes) : ℕ :=
  ((t.node names).map fun n => n.info.fsize.toNat).getD 0

section Files

variable (tree : TreeSoFar read order root info f) (distinct : DistinctNames read)

include tree distinct

/-- An entry that is kept is the one its node stands for. -/
theorem TreeSoFar.node_of_mem {node : List Bytes} (seen : node ∈ f.done) {entry : M}
    (listed : entry ∈ read node) (kept : Kept entry = true) :
    ∃ n, (TrackedTree.replay info (image read order root f).events).node (node ++ [entry.name]) =
      some n ∧ n.info = entry := by
  rw [tree.nodes, entryAt_of_mem distinct seen listed kept]
  exact ⟨_, rfl, nodeFor_info entry⟩

/-- The regular files of the tree are those that were read. -/
theorem TreeSoFar.isFile_iff (folder : info.ftype ≠ .regular) {names : List Bytes} :
    (TrackedTree.replay info (image read order root f).events).IsFile names ↔
      ∃ node ∈ f.done, ∃ entry ∈ read node, entry.ftype = .regular ∧
        node ++ [entry.name] = names := by
  constructor
  · rintro ⟨n, found, regular⟩
    obtain ⟨entry, here, rfl⟩ := tree.exists_entry found
    rw [nodeFor_info] at regular
    induction names using List.reverseRecOn with
    | nil =>
        obtain rfl : info = entry := by simpa [entryAt] using here
        exact absurd regular folder
    | append_singleton node name _ =>
        rw [entryAt_concat] at here
        obtain ⟨seen, here⟩ := Option.ite_none_right_eq_some.1 here
        have same : name = entry.name := by simpa using List.find?_some here
        have there := (List.mem_filter.1 (List.mem_of_find?_eq_some here)).1
        exact ⟨node, seen, entry, (order.perm _).mem_iff.1 there, regular, by rw [same]⟩
  · rintro ⟨node, seen, entry, listed, regular, rfl⟩
    obtain ⟨n, found, rfl⟩ := tree.node_of_mem distinct seen listed (by simp [Kept, regular])
    exact ⟨n, found, regular⟩

/-- **`sum_total` is the sum of the sizes of the regular files, modulo `2 ^ 64`**, however they
are enumerated. -/
theorem TreeSoFar.sumTotal (folder : info.ftype ≠ .regular) {files : List (List Bytes)}
    (nodup : files.Nodup) (files_iff : ∀ names, names ∈ files ↔
      (TrackedTree.replay info (image read order root f).events).IsFile names) :
    (TrackedTree.replay info (image read order root f).events).sumTotal.toNat =
      total (TrackedTree.replay info (image read order root f).events).sizeOf files % 2 ^ 64 := by
  let listed := f.done.flatMap fun node =>
    ((read node).filter (·.ftype = .regular)).map fun entry => node ++ [entry.name]
  have once : f.done.Nodup := (List.nodup_append.1 tree.once.nodup).1
  have same : files.Perm listed := by
    refine (List.perm_ext_iff_of_nodup nodup (nodup_flatMap_entries distinct once _)).2 ?_
    intro names
    rw [files_iff, tree.isFile_iff distinct folder]
    simp [and_assoc]
  rw [sumTotal_image, total_perm same, total_flatMap]
  apply congrArg (· % 2 ^ 64)
  refine total_congr fun node seen => (total_map_filter ?_ ?_).symm
  · intro entry among regular
    have regular := of_decide_eq_true regular
    obtain ⟨n, found, rfl⟩ := tree.node_of_mem distinct seen among (by simp [Kept, regular])
    simp [TrackedTree.sizeOf, found, fileBytes, regular]
  · intro entry _ other
    exact if_neg (by simpa using other)

end Files

/-! ## The warnings -/

/-- What the scan prints. -/
def warnings (events : List Event) : List (Loc × FileType) :=
  events.filterMap fun
    | .warn path ftype => some (path, ftype)
    | _ => none

theorem warnings_entry (node : List Bytes) (info : M) :
    warnings (entryEvents root node info) =
      if Kept info = true then [] else [(root ++ (node ++ [info.name]), info.ftype)] := by
  cases type : info.ftype <;> simp [entryEvents, type, warnings, Kept]

theorem warnings_round (node : List Bytes) :
    warnings (roundEvents read order root node) =
      ((order.sort (read node)).filter fun info => !Kept info).map fun info =>
        (root ++ (node ++ [info.name]), info.ftype) := by
  have entries : ∀ infos : List M, warnings (infos.flatMap (entryEvents root node)) =
      (infos.filter fun info => !Kept info).map fun info =>
        (root ++ (node ++ [info.name]), info.ftype) := by
    intro infos
    induction infos with
    | nil => rfl
    | cons info infos ih =>
        rw [List.flatMap_cons, warnings, List.filterMap_append]
        refine (congrArg₂ _ (warnings_entry node info) ih).trans ?_
        by_cases kept : Kept info = true <;> simp [kept]
  rw [roundEvents, warnings, List.filterMap_append]
  refine (congrArg₂ _ (entries _) rfl).trans ?_
  simp

/-- **Each entry of a visited directory that is neither a directory nor a regular file is warned
about.** -/
theorem warnings_image (f : Frontier (List Bytes)) :
    warnings (image read order root f).events = f.done.flatMap fun node =>
      ((order.sort (read node)).filter fun info => !Kept info).map fun info =>
        (root ++ (node ++ [info.name]), info.ftype) := by
  rw [warnings, image, List.filterMap_flatMap]
  apply congrArg (List.flatMap · f.done)
  funext node
  exact warnings_round node

theorem mem_warnings_image {path : Loc} {ftype : FileType} :
    (path, ftype) ∈ warnings (image read order root f).events ↔
      ∃ node ∈ f.done, ∃ entry ∈ read node, Kept entry = false ∧
        path = root ++ (node ++ [entry.name]) ∧ ftype = entry.ftype := by
  simp only [warnings_image, List.mem_flatMap, List.mem_map, List.mem_filter,
    (order.perm _).mem_iff, Bool.not_eq_true', and_assoc, Prod.mk.injEq, @eq_comm _ path,
    @eq_comm _ ftype]

theorem nodup_warnings_image (distinct : DistinctNames read) (once : f.done.Nodup) :
    (warnings (image read order root f).events).Nodup := by
  apply List.Nodup.of_map Prod.fst
  have children := (nodup_flatMap_entries (distinct.sorted order) once fun entry => !Kept entry).map
    (List.append_right_injective root)
  rw [warnings_image, List.map_flatMap]
  rw [List.map_flatMap] at children
  simpa only [List.map_map, Function.comp_def] using children

end Enuwatch.Scan

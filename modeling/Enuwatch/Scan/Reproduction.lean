import Enuwatch.Scan.TrackedTree
import Mathlib.Data.Set.Finite.Lattice

/-!
# The scan reproduces the directory tree

On a finite tree without links, all of whose directories can be opened and all of whose files
have a size, the loop of `scan_dir` ends, and the tracked tree is the directory tree without the
special files (`scan_reproduces`).
-/

set_option autoImplicit false

namespace Enuwatch.Scan

open Enuwatch.Lib

/-- What an entry tells `M::M`, when it is no link. -/
def Item.asM (name : Bytes) : Item → M
  | .dir perms => { name, perms, ftype := .directory, fsize := 0 }
  | .file perms size => { name, perms, ftype := .regular, fsize := size.getD (.ofNat (2 ^ 64 - 1)) }
  | .special perms kind => { name, perms, ftype := kind.ftype, fsize := 0 }
  | .link _ => { name, perms := 0xFFFF, ftype := .notFound, fsize := 0 }

@[simp] theorem Item.asM_name (name : Bytes) (item : Item) : (item.asM name).name = name := by
  cases item <;> rfl

theorem Item.asM_directory_iff {name : Bytes} {item : Item} :
    (item.asM name).ftype = .directory ↔ ∃ perms, item = .dir perms := by
  cases item with
  | special perms kind => cases kind <;> simp [Item.asM, Special.ftype]
  | _ => simp [Item.asM]

theorem Item.asM_regular_iff {name : Bytes} {item : Item} :
    (item.asM name).ftype = .regular ↔ ∃ perms size, item = .file perms size := by
  cases item with
  | special perms kind => cases kind <;> simp [Item.asM, Special.ftype]
  | _ => simp [Item.asM]

/-- A finite tree without links, where every operation succeeds. -/
structure PlainTree (disk : Disk) (root : Loc) : Prop where
  directory : disk.isDir root = true
  finite : {names | (disk.items (root ++ names)).isSome}.Finite
  unlinked : ∀ names target, disk.items (root ++ names) ≠ some (.link target)
  opened : ∀ names, disk.isDir (root ++ names) = true → (disk.listing (root ++ names)).isSome
  sized : ∀ names perms size, disk.items (root ++ names) = some (.file perms size) → size.isSome

/-- The size of a regular file. -/
def Disk.sizeAt (disk : Disk) (loc : Loc) : ℕ :=
  match disk.items loc with
  | some (.file _ (some size)) => size.toNat
  | _ => 0

/-- The nodes of a tree are the directories and the regular files, with name, permissions, type
and size. -/
def Describes (disk : Disk) (root : Loc) (t : TrackedTree) : Prop :=
  ∀ names, (t.node names).map (·.info) =
    ((disk.items (root ++ names)).map (Item.asM ((root ++ names).getLast?.getD []))).filter Kept

/-- A tracked tree is the directory tree restricted to directories and regular files. -/
structure Reproduces (disk : Disk) (root : Loc) (events : List Event) (t : TrackedTree) :
    Prop where
  nodes : Describes disk root t
  /-- Each is among the children of its parent, once. -/
  children : ∀ names n, t.node names = some n → n.children.Nodup ∧ ∀ child,
    child ∈ n.children ↔ ∃ name, child = names ++ [name] ∧ (t.node child).isSome
  ready : ∀ names n, t.node names = some n → n.ready = true
  totals : ∀ names n, t.node names = some n → n.total = if n.info.ftype = .regular then
    n.info.fsize else 0
  /-- However the regular files are enumerated. -/
  sum : ∀ files : List (List Bytes), files.Nodup →
    (∀ names, names ∈ files ↔ ∃ perms size, disk.items (root ++ names) = some (.file perms size)) →
    t.sumTotal.toNat = total (fun names => disk.sizeAt (root ++ names)) files % 2 ^ 64
  /-- Every other entry is warned about once. -/
  warned : (warnings events).Nodup ∧ ∀ path ftype, (path, ftype) ∈ warnings events ↔
    ∃ names perms kind, disk.items (root ++ names) = some (.special perms kind) ∧
      path = root ++ names ∧ ftype = kind.ftype

section Reading

variable {disk : Disk} {links : ℕ} {order : Sorting} {root : Loc} {names : List Bytes}

/-- `M::M` of an entry that is no link. -/
theorem readM_of_item {loc : Loc} {item : Item} (found : disk.items loc = some item)
    (plain : item.isLink = false) :
    readM disk links loc = item.asM (loc.getLast?.getD []) := by
  have real : disk.Real ([] ++ loc) := ⟨item, found, plain⟩
  have itself : disk.resolve links [] loc = .ok loc := Disk.resolve_of_real real
  cases item with
  | dir perms => simp [readM, Disk.status, itself, found, Item.asM]
  | file perms size =>
      cases size <;> simp [readM, Disk.status, Disk.fileSize, itself, found, Item.asM]
  | special perms kind =>
      cases kind <;> simp [readM, Disk.status, itself, found, Item.asM, Special.ftype]
  | link target => cases plain

theorem distinct_readEntries : DistinctNames (readEntries disk links root) :=
  fun node => @nodup_entries root node disk links ⟨id, fun _ => .refl _⟩

theorem readM_name {name : Bytes} : (readM disk links (root ++ (names ++ [name]))).name = name := by
  simp [readM, ← List.append_assoc]

/-- The root is no regular file. -/
theorem readM_ne_regular (directory : (disk.status links root).1 = .directory) :
    (readM disk links root).ftype ≠ .regular := by
  simp [readM, directory]

/-- The tree that a scan builds. -/
theorem scan_tree (directory : (disk.status links root).1 = .directory)
    {f : Frontier (List Bytes)} (explored : Reachable
      (explore (subdirs (readEntries disk links root) order)) (.start []) f) :
    TreeSoFar (readEntries disk links root) order root (readM disk links root) f :=
  reachable_tree (readM_ne_regular directory) distinct_readEntries explored

/-- The entries that are read in a directory that can be opened. -/
theorem mem_readEntries (directory : disk.isDir (root ++ names) = true)
    (opened : (disk.listing (root ++ names)).isSome) {info : M} :
    info ∈ readEntries disk links root names ↔
      ∃ name, (disk.items (root ++ names ++ [name])).isSome ∧
        info = readM disk links (root ++ names ++ [name]) := by
  have itself : disk.resolve links [] (root ++ names) = .ok (root ++ names) :=
    Disk.resolve_of_isDir directory
  obtain ⟨listing, opened⟩ := Option.isSome_iff_exists.1 opened
  simp only [readEntries, Disk.entries, itself, opened, Option.getD_some, List.mem_map,
    disk.listed _ _ opened, eq_comm]

namespace PlainTree

theorem readM_eq (plain : PlainTree disk root) {item : Item}
    (found : disk.items (root ++ names) = some item) :
    readM disk links (root ++ names) = item.asM ((root ++ names).getLast?.getD []) := by
  apply readM_of_item found
  cases item with
  | link target => exact absurd found (plain.unlinked names target)
  | _ => rfl

/-- What is read in a directory of such a tree. -/
theorem mem_read (plain : PlainTree disk root) (directory : disk.isDir (root ++ names) = true)
    {info : M} : info ∈ readEntries disk links root names ↔
      ∃ name item, disk.items (root ++ (names ++ [name])) = some item ∧ info = item.asM name := by
  have described : ∀ name item, disk.items (root ++ (names ++ [name])) = some item →
      readM disk links (root ++ names ++ [name]) = item.asM name := by
    intro name item found
    have read : readM disk links (root ++ (names ++ [name])) = _ := plain.readM_eq found
    simpa [← List.append_assoc] using read
  rw [mem_readEntries directory (plain.opened names directory)]
  constructor
  · rintro ⟨name, present, rfl⟩
    obtain ⟨item, found⟩ := Option.isSome_iff_exists.1 present
    rw [List.append_assoc] at found
    exact ⟨name, item, found, described name item found⟩
  · rintro ⟨name, item, found, rfl⟩
    refine ⟨name, ?_, (described name item found).symm⟩
    rw [List.append_assoc, found, Option.isSome_some]

/-- The scan is led to the directories of the tree. -/
theorem leads_iff (plain : PlainTree disk root) :
    Leads (subdirs (readEntries disk links root) order) [] names ↔
      disk.isDir (root ++ names) = true := by
  constructor
  · intro leads
    induction leads with
    | refl => simpa using plain.directory
    | tail _ below ih =>
        obtain ⟨info, listed, directory, rfl⟩ := mem_subdirs.1 below
        obtain ⟨name, item, found, rfl⟩ := (plain.mem_read ih).1 listed
        obtain ⟨perms, rfl⟩ := Item.asM_directory_iff.1 directory
        exact Disk.isDir_iff.2 ⟨perms, by simpa using found⟩
  · intro directory
    induction names using List.reverseRecOn with
    | nil => exact .refl
    | append_singleton front name ih =>
        obtain ⟨perms, found⟩ := Disk.isDir_iff.1 directory
        have present : (disk.items (root ++ front ++ [name])).isSome := by simp [found]
        have above : disk.isDir (root ++ front) = true := Disk.isDir_of_isSome present
        refine (ih above).tail (mem_subdirs.2 ⟨(Item.dir perms).asM name, ?_, rfl, by simp⟩)
        exact (plain.mem_read above).2 ⟨name, _, found, rfl⟩

/-- The scan of such a tree ends. -/
theorem grounded (plain : PlainTree disk root) (links : ℕ) (order : Sorting) :
    Grounded (subdirs (readEntries disk links root) order) [] := by
  obtain ⟨bound, above⟩ := (plain.finite.image List.length).bddAbove
  apply grounded_of_bound
  intro node leads
  obtain ⟨perms, found⟩ := Disk.isDir_iff.1 (plain.leads_iff.1 leads)
  exact above ⟨node, by simp [found], rfl⟩

variable {visited : List (List Bytes)}

/-- An entry of a directory that was visited. -/
theorem mem_keptEntries (plain : PlainTree disk root)
    (directory : disk.isDir (root ++ names) = true) {info : M} :
    info ∈ keptEntries (readEntries disk links root) order names ↔
      ∃ name item, disk.items (root ++ (names ++ [name])) = some item ∧ info = item.asM name ∧
        Kept info = true := by
  rw [keptEntries, List.mem_filter, (order.perm _).mem_iff, plain.mem_read directory]
  simp only [← and_assoc, exists_and_right]

/-- When all directories were visited, the tree holds the directories and regular files. -/
theorem entryAt_eq (plain : PlainTree disk root)
    (all : ∀ node, node ∈ visited ↔ disk.isDir (root ++ node) = true) :
    entryAt (readEntries disk links root) order (readM disk links root) visited names =
      ((disk.items (root ++ names)).map (Item.asM ((root ++ names).getLast?.getD []))).filter
        Kept := by
  induction names using List.reverseRecOn with
  | nil =>
      obtain ⟨perms, found⟩ := Disk.isDir_iff.1 plain.directory
      have read : readM disk links root = _ := readM_of_item found rfl
      simp only [entryAt, if_true, List.append_nil, found, read, Option.map_some]
      rfl
  | append_singleton front name _ =>
      have last : (root ++ (front ++ [name])).getLast?.getD [] = name := by
        simp [← List.append_assoc]
      rw [last]
      -- Names that lead to nothing that is kept are in no node.
      have absent : (∀ item, disk.items (root ++ (front ++ [name])) = some item →
          ¬ Kept (item.asM name) = true) → entryAt (readEntries disk links root) order
            (readM disk links root) visited (front ++ [name]) = none := by
        intro dropped
        by_contra present
        obtain ⟨seen, entry, among, rfl⟩ :=
          entryAt_concat_isSome.1 (Option.isSome_iff_ne_none.2 present)
        obtain ⟨name, item, found, rfl, kept⟩ :=
          (plain.mem_keptEntries ((all front).1 seen)).1 among
        rw [Item.asM_name] at dropped
        exact dropped item found kept
      cases found : disk.items (root ++ (front ++ [name])) with
      | none =>
          rw [absent (by simp [found])]
          rfl
      | some item =>
          rw [Option.map_some, Option.filter_some]
          split
          · rename_i kept
            have inside : (disk.items (root ++ front ++ [name])).isSome := by simp [found]
            have directory := Disk.isDir_of_isSome inside
            have listed : item.asM name ∈ readEntries disk links root front :=
              (plain.mem_read directory).2 ⟨name, item, found, rfl⟩
            have here : entryAt (readEntries disk links root) order (readM disk links root) visited
                (front ++ [(item.asM name).name]) = some (item.asM name) :=
              entryAt_of_mem distinct_readEntries ((all front).2 directory) listed kept
            rwa [Item.asM_name] at here
          · rename_i dropped
            refine absent fun other found' => ?_
            obtain rfl := Option.some.inj (found.symm.trans found')
            exact dropped

/-- When all directories were visited, the entries read are those of the tree. -/
theorem exists_read_iff (plain : PlainTree disk root)
    (all : ∀ node, node ∈ visited ↔ disk.isDir (root ++ node) = true) {P : List Bytes → M → Prop} :
    (∃ node ∈ visited, ∃ entry ∈ readEntries disk links root node, P (node ++ [entry.name]) entry) ↔
      ∃ node name item, disk.items (root ++ (node ++ [name])) = some item ∧
        P (node ++ [name]) (item.asM name) := by
  constructor
  · rintro ⟨node, seen, entry, listed, holds⟩
    obtain ⟨name, item, found, rfl⟩ := (plain.mem_read ((all node).1 seen)).1 listed
    rw [Item.asM_name] at holds
    exact ⟨node, name, item, found, holds⟩
  · rintro ⟨node, name, item, found, holds⟩
    have present : (disk.items (root ++ node ++ [name])).isSome := by simp [found]
    have directory := Disk.isDir_of_isSome present
    refine ⟨node, (all node).2 directory, item.asM name, ?_, by simpa using holds⟩
    exact (plain.mem_read directory).2 ⟨name, item, found, rfl⟩

/-- What is no directory is below the root. -/
theorem exists_concat (plain : PlainTree disk root) {item : Item}
    (found : disk.items (root ++ names) = some item) (other : ∀ perms, item ≠ .dir perms) :
    ∃ node name, names = node ++ [name] := by
  induction names using List.reverseRecOn with
  | nil =>
      obtain ⟨perms, directory⟩ := Disk.isDir_iff.1 plain.directory
      rw [List.append_nil, directory] at found
      exact absurd (Option.some.inj found).symm (other perms)
  | append_singleton node name _ => exact ⟨node, name, rfl⟩

/-- The warnings, when all directories were visited. -/
theorem warnings_iff (plain : PlainTree disk root) {f : Frontier (List Bytes)}
    (all : ∀ node, node ∈ f.done ↔ disk.isDir (root ++ node) = true) {path : Loc}
    {ftype : FileType} :
    (path, ftype) ∈ warnings (image (readEntries disk links root) order root f).events ↔
      ∃ names perms kind, disk.items (root ++ names) = some (.special perms kind) ∧
        path = root ++ names ∧ ftype = kind.ftype := by
  rw [mem_warnings_image, plain.exists_read_iff all (P := fun child entry =>
    Kept entry = false ∧ path = root ++ child ∧ ftype = entry.ftype)]
  constructor
  · rintro ⟨node, name, item, found, dropped, rfl, rfl⟩
    cases item with
    | special perms kind => exact ⟨node ++ [name], perms, kind, found, rfl, rfl⟩
    | link target => exact absurd found (plain.unlinked _ target)
    | _ => cases dropped
  · rintro ⟨names, perms, kind, found, rfl, rfl⟩
    obtain ⟨node, name, rfl⟩ := plain.exists_concat found (by simp)
    refine ⟨node, name, _, found, ?_, rfl, rfl⟩
    cases kind <;> rfl

end PlainTree

section Described

variable {t : TrackedTree} (described : Describes disk root t)

include described

/-- A node stands for a directory or a regular file. -/
theorem Describes.exists_item {n : TrackedNode} (found : t.node names = some n) :
    ∃ item, disk.items (root ++ names) = some item ∧
      n.info = item.asM ((root ++ names).getLast?.getD []) ∧ Kept n.info = true := by
  have here := described names
  rw [found, Option.map_some, eq_comm, Option.filter_eq_some_iff, Option.map_eq_some_iff] at here
  obtain ⟨⟨item, present, same⟩, kept⟩ := here
  exact ⟨item, present, same.symm, kept⟩

/-- Its regular files are those of the disk. -/
theorem Describes.isFile_iff :
    t.IsFile names ↔ ∃ perms size, disk.items (root ++ names) = some (.file perms size) := by
  constructor
  · rintro ⟨n, found, regular⟩
    obtain ⟨item, present, same, -⟩ := described.exists_item found
    rw [same] at regular
    obtain ⟨perms, size, rfl⟩ := Item.asM_regular_iff.1 regular
    exact ⟨perms, size, present⟩
  · rintro ⟨perms, size, present⟩
    have kept : Kept ((Item.file perms size).asM ((root ++ names).getLast?.getD [])) = true := rfl
    have here := described names
    rw [present, Option.map_some, Option.filter_some, if_pos kept, Option.map_eq_some_iff] at here
    obtain ⟨n, found, same⟩ := here
    exact ⟨n, found, by rw [same]; rfl⟩

theorem Describes.sizeOf (plain : PlainTree disk root) (file : t.IsFile names) :
    t.sizeOf names = disk.sizeAt (root ++ names) := by
  obtain ⟨perms, size, present⟩ := described.isFile_iff.1 file
  obtain ⟨size, rfl⟩ := Option.isSome_iff_exists.1 (plain.sized names perms size present)
  obtain ⟨n, found, -⟩ := file
  obtain ⟨item, present', same, -⟩ := described.exists_item found
  obtain rfl := Option.some.inj (present.symm.trans present')
  simp [TrackedTree.sizeOf, found, same, Disk.sizeAt, present, Item.asM]

end Described

/-- What the scan leaves when its stack is empty. -/
theorem PlainTree.reproduces (plain : PlainTree disk root) {f : Frontier (List Bytes)}
    (reachable : Reachable (explore (subdirs (readEntries disk links root) order)) (.start []) f)
    (over_ : f.todo = []) :
    Reproduces disk root (image (readEntries disk links root) order root f).events (.replay
      (readM disk links root) (image (readEntries disk links root) order root f).events) := by
  have all : ∀ node, node ∈ f.done ↔ disk.isDir (root ++ node) = true := fun node =>
    (mem_done_iff reachable over_).trans plain.leads_iff
  have directory : (disk.status links root).1 = .directory := Disk.status_of_isDir plain.directory
  have tree := scan_tree directory reachable
  have described : Describes disk root (.replay (readM disk links root)
      (image (readEntries disk links root) order root f).events) := by
    intro names
    have itself : (·.info) ∘ nodeFor (readEntries disk links root) order f.done names = id := by
      funext entry
      simp
    rw [tree.nodes, Option.map_map, plain.entryAt_eq all, itself, Option.map_id, id]
  refine ⟨described, fun names n => tree.children distinct_readEntries, ?_, ?_, ?_, ?_⟩
  · intro names n found
    obtain ⟨item, present, same, kept⟩ := described.exists_item found
    obtain ⟨entry, -, rfl⟩ := tree.exists_entry found
    rw [nodeFor_info] at same kept
    by_cases seen : names ∈ f.done
    · rw [nodeFor, if_pos seen]
    · rcases of_decide_eq_true kept with directory | regular
      · rw [same] at directory
        obtain ⟨perms, rfl⟩ := Item.asM_directory_iff.1 directory
        exact absurd ((all names).2 (Disk.isDir_iff.2 ⟨perms, present⟩)) seen
      · rw [nodeFor, if_neg seen, freshNode, if_pos regular]
  · intro names n found
    obtain ⟨entry, -, rfl⟩ := tree.exists_entry found
    simp
  · intro files nodup files_iff
    have listed : ∀ names, names ∈ files ↔ _ := fun names =>
      (files_iff names).trans described.isFile_iff.symm
    rw [tree.sumTotal distinct_readEntries (readM_ne_regular directory) nodup listed]
    apply congrArg (· % 2 ^ 64)
    exact total_congr fun names among => described.sizeOf plain ((listed names).1 among)
  · have once : f.done.Nodup := (List.nodup_append.1 tree.once.nodup).1
    exact ⟨nodup_warnings_image distinct_readEntries once, fun path ftype => plain.warnings_iff all⟩

/-- **The scan reproduces the directory tree.** However the entries are sorted, the loop ends, and
the tree has a node for each directory and each regular file, and for nothing else. -/
theorem scan_reproduces (plain : PlainTree disk root) (links : ℕ) (order : Sorting) :
    ∃ w, Reachable (scanStep disk links order root) scanStart w ∧ w.stack = [] ∧
      Reproduces disk root w.events (.replay (readM disk links root) w.events) := by
  obtain ⟨f, reachable, over_⟩ := explore_terminates_iff.2 (plain.grounded links order)
  refine ⟨image (readEntries disk links root) order root f, ?_, over_,
    plain.reproduces reachable over_⟩
  rw [scanStep_eq_scanWith]
  exact reachable_image.2 ⟨f, reachable, rfl⟩

end Reading

/-! ### A small tree -/

/-- An entry that is no link and, if it is a file, has a size. -/
def Item.ordinary : Item → Bool
  | .link _ => false
  | .file _ none => false
  | _ => true

theorem finite_ofTable (table : List (Loc × Item)) (ok : TableOk table) :
    {loc | ((Disk.ofTable table ok).items loc).isSome}.Finite := by
  have keys : {loc | loc ∈ table.map (·.1)}.Finite := List.finite_toSet _
  refine keys.subset ?_
  intro loc present
  obtain ⟨item, found⟩ := Option.isSome_iff_exists.1 present
  exact List.mem_map.2 ⟨_, (lookup_iff ok.1).1 found, rfl⟩

/-- A table of such entries. -/
theorem plainTree_ofTable {table : List (Loc × Item)} {ok : TableOk table} {root : Loc}
    (directory : (Disk.ofTable table ok).isDir root = true)
    (ordinary : ∀ e ∈ table, e.2.ordinary = true) : PlainTree (.ofTable table ok) root := by
  have each : ∀ loc item, (Disk.ofTable table ok).items loc = some item → item.ordinary = true :=
    fun loc item found => ordinary _ ((lookup_iff ok.1).1 found)
  refine ⟨directory, ?_, ?_, fun _ _ => rfl, ?_⟩
  · exact (finite_ofTable table ok).preimage (List.append_right_injective root).injOn
  · intro names target found
    cases each _ _ found
  · intro names perms size found
    cases size with
    | none => cases each _ _ found
    | some size => rfl

/-- The directory `/r` with a directory `d`, a file `f` in it, a file `g` and a pipe `p`. -/
def plainTable : List (Loc × Item) :=
  [([], .dir 0o755), ([[114]], .dir 0o755), ([[114], [100]], .dir 0o755),
    ([[114], [100], [102]], .file 0o644 (some 3)), ([[114], [103]], .file 0o600 (some 0)),
    ([[114], [112]], .special 0o600 .fifo)]

def plainDisk : Disk := .ofTable plainTable (by decide)

theorem scan_reproduces_plainDisk : PlainTree plainDisk [[114]] ∧
    ∃ w, Reachable (scanStep plainDisk 40 ⟨List.reverse, List.reverse_perm⟩ [[114]]) scanStart w ∧
      w.stack = [] ∧
        Reproduces plainDisk [[114]] w.events (.replay (readM plainDisk 40 [[114]]) w.events) := by
  have plain : PlainTree plainDisk [[114]] := plainTree_ofTable (by decide) (by decide)
  exact ⟨plain, scan_reproduces plain 40 _⟩

end Enuwatch.Scan

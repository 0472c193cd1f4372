import Enuwatch.FileSystem
import Enuwatch.Lib.Path
import Enuwatch.Tracked

/-!
# The file system the client reads

A tree of directories, regular files, special files and symbolic links. A path is resolved
component by component; a link is replaced by its target, up to the number of links the kernel
follows for one path.

What a path resolves to is a location without links (`resolve_real`), and a location without
links resolves to itself (`resolve_of_real`). So the canonical form of a path is the path exactly
when no entry on it is a link (`resolve_eq_self_iff`).
-/

set_option autoImplicit false

namespace Enuwatch.Scan

open Enuwatch.Lib

/-- The files that are neither regular nor directories nor links. -/
inductive Special where
  | block
  | character
  | fifo
  | socket
  | unknown
deriving DecidableEq, Repr

def Special.ftype : Special → FileType
  | .block => .block
  | .character => .character
  | .fifo => .fifo
  | .socket => .socket
  | .unknown => .unknown

/-- What an entry of a directory is. -/
inductive Item where
  | dir (perms : UInt32)
  /-- `fs::file_size` may fail. -/
  | file (perms : UInt32) (size : Option UInt64)
  | special (perms : UInt32) (kind : Special)
  | link (target : Bytes)
deriving DecidableEq, Repr

def Item.isLink : Item → Bool
  | .link _ => true
  | _ => false

/-- A file system. -/
structure Disk where
  items : Loc → Option Item
  /-- The entries of a directory, in the order in which they are read; nothing when the
  directory cannot be opened. -/
  listing : Loc → Option (List Bytes)
  root : ∃ perms, items [] = some (.dir perms)
  parent : ∀ dir name, (items (dir ++ [name])).isSome → ∃ perms, items dir = some (.dir perms)
  named : ∀ dir name, (items (dir ++ [name])).isSome → FileName name
  listed : ∀ dir names, listing dir = some names →
    ∀ name, name ∈ names ↔ (items (dir ++ [name])).isSome
  nodup_listing : ∀ dir names, listing dir = some names → names.Nodup

/-- Why a path does not resolve. -/
inductive Unresolved where
  | notFound
  | loop
deriving DecidableEq, Repr

namespace Disk

variable (disk : Disk)

def isDir (loc : Loc) : Bool :=
  match disk.items loc with
  | some (.dir _) => true
  | _ => false

/-- Follow the components of a path from a location without links. -/
def walk (follow : Loc → List Bytes → Except Unresolved Loc) :
    Loc → List Bytes → Except Unresolved Loc
  | here, [] => .ok here
  | here, c :: rest =>
      if disk.isDir here = false then .error .notFound
      else if c = [] ∨ c = dot then walk follow here rest
      else if c = dotdot then walk follow here.dropLast rest
      else
        match disk.items (here ++ [c]) with
        | none => .error .notFound
        | some (.link target) =>
            follow (if target.head? = some 47 then [] else here) (target.splitOn 47 ++ rest)
        | some _ => walk follow (here ++ [c]) rest

/-- Resolve a path with at most `links` links. -/
def resolve : (links : ℕ) → Loc → List Bytes → Except Unresolved Loc
  | 0 => disk.walk fun _ _ => .error .loop
  | links + 1 => disk.walk (resolve links)

/-- A location that is there and is no link. -/
def Real (loc : Loc) : Prop := ∃ item, disk.items loc = some item ∧ item.isLink = false

/-- No entry on the way from `root` down these names is a link. -/
def LinkFree (root : Loc) (names : List Bytes) : Prop :=
  ∀ front, front <+: names → ∀ target, disk.items (root ++ front) ≠ some (.link target)

variable {disk}

theorem isDir_iff {loc : Loc} :
    disk.isDir loc = true ↔ ∃ perms, disk.items loc = some (.dir perms) := by
  unfold isDir
  split
  · rename_i perms found
    simp [found]
  · rename_i other
    simpa using other

theorem real_of_isDir {loc : Loc} (directory : disk.isDir loc = true) : disk.Real loc := by
  obtain ⟨perms, found⟩ := isDir_iff.1 directory
  exact ⟨.dir perms, found, rfl⟩

theorem isDir_nil : disk.isDir [] = true := isDir_iff.2 disk.root

theorem isDir_of_isSome {dir : Loc} {name : Bytes} (found : (disk.items (dir ++ [name])).isSome) :
    disk.isDir dir = true :=
  isDir_iff.2 (disk.parent dir name found)

/-- Everything above an entry is a directory. -/
theorem isDir_of_append {loc : Loc} {rest : List Bytes} (below : rest ≠ [])
    (found : (disk.items (loc ++ rest)).isSome) : disk.isDir loc = true := by
  induction rest using List.reverseRecOn with
  | nil => exact absurd rfl below
  | append_singleton front name ih =>
      rw [← List.append_assoc] at found
      have directory := isDir_of_isSome found
      by_cases empty : front = []
      · simpa [empty] using directory
      · obtain ⟨perms, above⟩ := isDir_iff.1 directory
        exact ih empty (by simp [above])

theorem fileName_of_isSome {loc : Loc} (found : (disk.items loc).isSome) :
    ∀ name ∈ loc, FileName name := by
  intro name among
  obtain ⟨front, rest, rfl⟩ := List.append_of_mem among
  refine disk.named front name ?_
  by_cases last : rest = []
  · simpa [last] using found
  · have directory : disk.isDir (front ++ [name]) = true :=
      isDir_of_append last (by simpa using found)
    obtain ⟨perms, here⟩ := isDir_iff.1 directory
    simp [here]

theorem Real.fileName {loc : Loc} (real : disk.Real loc) : ∀ name ∈ loc, FileName name := by
  obtain ⟨item, found, -⟩ := real
  have some : (disk.items loc).isSome := by simp [found]
  exact fileName_of_isSome some

theorem isDir_dropLast {loc : Loc} (directory : disk.isDir loc = true) :
    disk.isDir loc.dropLast = true := by
  induction loc using List.reverseRecOn with
  | nil => exact directory
  | append_singleton front name _ =>
      obtain ⟨perms, found⟩ := isDir_iff.1 directory
      have here : (disk.items (front ++ [name])).isSome := by simp [found]
      rw [List.dropLast_concat]
      exact isDir_of_isSome here

/-! ## Resolving a path -/

section Resolve

variable {follow : Loc → List Bytes → Except Unresolved Loc} {here loc : Loc} {path : List Bytes}

/-- A walk ends at a location without links when what it does at a link does. -/
theorem walk_real
    (followed : ∀ here path loc, disk.Real here → follow here path = .ok loc → disk.Real loc)
    (real : disk.Real here) (walked : disk.walk follow here path = .ok loc) : disk.Real loc := by
  induction path generalizing here with
  | nil =>
      cases walked
      exact real
  | cons c rest ih =>
      simp only [walk] at walked
      split at walked
      · cases walked
      · rename_i directory
        simp only [Bool.not_eq_false] at directory
        split at walked
        · exact ih real walked
        · split at walked
          · exact ih (real_of_isDir (isDir_dropLast directory)) walked
          · split at walked
            · cases walked
            · refine followed _ _ _ ?_ walked
              split
              · exact real_of_isDir isDir_nil
              · exact real
            · rename_i item plain found
              refine ih ⟨item, found, ?_⟩ walked
              cases item with
              | link target => exact absurd rfl (plain target)
              | _ => rfl

/-- A path resolves to a location without links. -/
theorem resolve_real {links : ℕ} (real : disk.Real here)
    (resolved : disk.resolve links here path = .ok loc) : disk.Real loc := by
  induction links generalizing here path loc with
  | zero => exact walk_real (by simp) real resolved
  | succ links ih => exact walk_real (fun _ _ _ => ih) real resolved

/-- A name is no dot and not empty. -/
theorem not_dots {name : Bytes} (named : FileName name) :
    ¬ (name = [] ∨ name = dot) ∧ name ≠ dotdot :=
  ⟨fun special => special.elim named.1 named.2.2.2.1, named.2.2.2.2⟩

/-- A walk down names that meets no link ends where the names say. -/
theorem walk_linkFree {names : List Bytes} (named : ∀ name ∈ names, FileName name)
    (free : disk.LinkFree here names) (walked : disk.walk follow here names = .ok loc) :
    loc = here ++ names := by
  induction names generalizing here with
  | nil =>
      cases walked
      simp
  | cons name rest ih =>
      obtain ⟨dots, up⟩ := not_dots (named name List.mem_cons_self)
      simp only [walk, dots, up, if_false] at walked
      split at walked
      · cases walked
      · split at walked
        · cases walked
        · rename_i target found
          exact absurd found (free [name] (by simp) target)
        · have below : disk.LinkFree (here ++ [name]) rest := by
            intro front inside target
            have := free (name :: front) (List.cons_prefix_cons.2 ⟨rfl, inside⟩) target
            simpa using this
          have reached := ih (fun other among => named other (List.mem_cons_of_mem _ among))
            below walked
          simpa using reached

/-- A walk down to a location without links gets there. -/
theorem walk_of_real {names : List Bytes} (real : disk.Real (here ++ names)) :
    disk.walk follow here names = .ok (here ++ names) := by
  induction names generalizing here with
  | nil => simp [walk]
  | cons name rest ih =>
      obtain ⟨item, found, plain⟩ := real
      have some : (disk.items (here ++ name :: rest)).isSome := by simp [found]
      obtain ⟨dots, up⟩ := not_dots (fileName_of_isSome some name (by simp))
      have directory : disk.isDir here = true := isDir_of_append (by simp) some
      have step : disk.Real (here ++ [name]) := by
        by_cases last : rest = []
        · exact ⟨item, by simpa [last] using found, plain⟩
        · exact real_of_isDir (isDir_of_append last (by simpa using some))
      obtain ⟨next, there, unlinked⟩ := step
      have onward := ih (show disk.Real (here ++ [name] ++ rest) from
        ⟨item, by simpa using found, plain⟩)
      cases next with
      | link target => simp [Item.isLink] at unlinked
      | _ => simpa [walk, directory, dots, up, there] using onward

theorem resolve_of_real {links : ℕ} {names : List Bytes} (real : disk.Real (here ++ names)) :
    disk.resolve links here names = .ok (here ++ names) := by
  cases links with
  | zero => exact walk_of_real real
  | succ links => exact walk_of_real real

theorem resolve_linkFree {links : ℕ} {names : List Bytes} (named : ∀ name ∈ names, FileName name)
    (free : disk.LinkFree here names) (resolved : disk.resolve links here names = .ok loc) :
    loc = here ++ names := by
  cases links with
  | zero => exact walk_linkFree named free resolved
  | succ links => exact walk_linkFree named free resolved

/-- No link is on the way to a location without links. -/
theorem linkFree_of_real {root : Loc} {names : List Bytes} (real : disk.Real (root ++ names)) :
    disk.LinkFree root names := by
  rintro front ⟨rest, rfl⟩ target link
  obtain ⟨item, found, plain⟩ := real
  by_cases last : rest = []
  · obtain rfl : item = .link target := by simpa [last, link] using found.symm
    cases plain
  · have directory : disk.isDir (root ++ front) = true :=
      isDir_of_append last (by simp [found])
    simp [isDir, link] at directory

theorem LinkFree.append {root : Loc} {upper lower : List Bytes} (first : disk.LinkFree root upper)
    (second : disk.LinkFree (root ++ upper) lower) : disk.LinkFree root (upper ++ lower) := by
  intro front inside target
  obtain high | deep := List.prefix_or_prefix_of_prefix inside (List.prefix_append upper lower)
  · exact first front high target
  · obtain ⟨rest, rfl⟩ := deep
    rw [← List.append_assoc]
    exact second rest ((List.prefix_append_right_inj upper).1 inside) target

/-- A path down from a location without links is its own canonical form exactly when no entry
on it is a link. -/
theorem resolve_eq_self_iff {links : ℕ} {root : Loc} {names : List Bytes}
    (above : disk.Real root) (named : ∀ name ∈ names, FileName name)
    (resolved : disk.resolve links [] (root ++ names) = .ok loc) :
    loc = root ++ names ↔ disk.LinkFree root names := by
  constructor
  · rintro rfl
    exact linkFree_of_real (resolve_real (real_of_isDir isDir_nil) resolved)
  · intro free
    have whole : disk.LinkFree [] (root ++ names) := (linkFree_of_real above).append free
    simpa using resolve_linkFree (fun name among => (List.mem_append.1 among).elim
      (above.fileName name) (named name)) whole resolved

end Resolve

/-! ## What `std::filesystem` makes of a path -/

section Library

variable (disk) (links : ℕ)

/-- `fs::status`: the type and the permissions, with links followed. -/
def status (path : Loc) : FileType × UInt32 :=
  match disk.resolve links [] path with
  | .error .notFound => (.notFound, 0xFFFF)
  | .error .loop => (.none, 0xFFFF)
  | .ok loc =>
      match disk.items loc with
      | some (.dir perms) => (.directory, perms)
      | some (.file perms _) => (.regular, perms)
      | some (.special perms kind) => (kind.ftype, perms)
      | _ => (.notFound, 0xFFFF)

/-- `fs::file_size`. -/
def fileSize (path : Loc) : UInt64 :=
  match disk.resolve links [] path with
  | .error _ => .ofNat (2 ^ 64 - 1)
  | .ok loc =>
      match disk.items loc with
      | some (.file _ (some size)) => size
      | _ => .ofNat (2 ^ 64 - 1)

/-- The entries of a directory, as `fs::directory_iterator` gives them. One that cannot be
opened gives none. -/
def entries (path : Loc) : List Bytes :=
  match disk.resolve links [] path with
  | .error _ => []
  | .ok loc => (disk.listing loc).getD []

/-- The part of `fs::weakly_canonical` that takes components off the end of the path, last one
first, until the rest exists. -/
def canonicalFront : (reversed : List Bytes) → (tail : List Bytes) → Option Loc
  | reversed, tail =>
      match disk.resolve links [] reversed.reverse, reversed with
      | .ok loc, _ => some (tail.foldl descend loc)
      | .error .loop, _ => none
      | .error .notFound, [] => some (tail.foldl descend [])
      | .error .notFound, c :: front => canonicalFront front (c :: tail)

/-- `fs::weakly_canonical` of an absolute path; nothing when it reports an error. -/
def weaklyCanonical (path : Loc) : Option Loc := disk.canonicalFront links path.reverse []

/-- `fs::relative`. -/
def relative (path base : Loc) : Option (List Bytes) := do
  let path ← disk.weaklyCanonical links path
  let base ← disk.weaklyCanonical links base
  return lexicallyRelative path base

variable {disk} {links} {path loc : Loc}

theorem weaklyCanonical_of_resolve (resolved : disk.resolve links [] path = .ok loc) :
    disk.weaklyCanonical links path = some loc := by
  unfold weaklyCanonical canonicalFront
  simp [resolved]

/-- A directory is its own canonical form. -/
theorem resolve_of_isDir (directory : disk.isDir loc = true) :
    disk.resolve links [] loc = .ok loc := by
  have real : disk.Real ([] ++ loc) := real_of_isDir directory
  exact resolve_of_real real

theorem status_of_isDir (directory : disk.isDir loc = true) :
    (disk.status links loc).1 = .directory := by
  obtain ⟨perms, found⟩ := isDir_iff.1 directory
  simp [status, resolve_of_isDir directory, found]

/-- A path whose type the scan accepts resolves. -/
theorem resolve_of_status
    (accepted : (disk.status links path).1 = .regular ∨ (disk.status links path).1 = .directory) :
    ∃ loc, disk.resolve links [] path = .ok loc := by
  unfold status at accepted
  split at accepted
  · simp at accepted
  · simp at accepted
  · rename_i loc resolved
    exact ⟨loc, resolved⟩

end Library

end Disk

/-! ## Finite file systems -/

/-- A table lists every entry once, and above every entry a directory. -/
def TableOk (table : List (Loc × Item)) : Prop :=
  (table.map (·.1)).Nodup ∧ (∃ e ∈ table, e.1 = [] ∧ ∃ perms, e.2 = .dir perms) ∧
    ∀ e ∈ table, e.1 ≠ [] → FileName (e.1.getLast?.getD []) ∧
      ∃ above ∈ table, above.1 = e.1.dropLast ∧ ∃ perms, above.2 = .dir perms

instance (item : Item) : Decidable (∃ perms, item = .dir perms) :=
  match item with
  | .dir perms => isTrue ⟨perms, rfl⟩
  | .file _ _ => isFalse (by simp)
  | .special _ _ => isFalse (by simp)
  | .link _ => isFalse (by simp)

instance (table : List (Loc × Item)) : Decidable (TableOk table) :=
  inferInstanceAs (Decidable (_ ∧ _ ∧ _))

/-- In a table that lists every key once, an entry is found under its key. -/
theorem lookup_iff {α β : Type} [BEq α] [LawfulBEq α] {table : List (α × β)}
    (once : (table.map (·.1)).Nodup) {loc : α} {item : β} :
    table.lookup loc = some item ↔ (loc, item) ∈ table := by
  induction table with
  | nil => simp
  | cons e table ih =>
      obtain ⟨key, value⟩ := e
      obtain ⟨fresh, once⟩ := List.nodup_cons.1 once
      rw [List.lookup_cons, List.mem_cons, Prod.mk.injEq]
      by_cases same : loc = key
      · subst same
        have absent : (loc, item) ∉ table := fun among =>
          fresh (List.mem_map.2 ⟨_, among, rfl⟩)
        simp [absent, eq_comm]
      · have other : (loc == key) = false := by simpa using same
        simp [other, same, ih once]

/-- The file system of a table, all of whose directories can be read. -/
def Disk.ofTable (table : List (Loc × Item)) (ok : TableOk table) : Disk where
  items loc := table.lookup loc
  listing loc := some ((table.filter fun e => e.1 ≠ [] ∧ e.1.dropLast = loc).filterMap
    (·.1.getLast?))
  root := by
    obtain ⟨⟨loc, item⟩, among, rfl, perms, rfl⟩ := ok.2.1
    exact ⟨perms, (lookup_iff ok.1).2 among⟩
  parent := by
    intro dir name found
    obtain ⟨item, found⟩ := Option.isSome_iff_exists.1 found
    obtain ⟨-, ⟨loc, other⟩, among, above, perms, kind⟩ :=
      ok.2.2 _ ((lookup_iff ok.1).1 found) (by simp)
    obtain rfl : loc = dir := by simpa using above
    obtain rfl : other = .dir perms := kind
    exact ⟨perms, (lookup_iff ok.1).2 among⟩
  named := by
    intro dir name found
    obtain ⟨item, found⟩ := Option.isSome_iff_exists.1 found
    have named := (ok.2.2 _ ((lookup_iff ok.1).1 found) (by simp)).1
    simpa using named
  listed := by
    rintro dir names ⟨⟩ name
    simp only [List.mem_filterMap, List.mem_filter, Option.isSome_iff_exists, lookup_iff ok.1]
    constructor
    · rintro ⟨⟨loc, item⟩, ⟨among, kept⟩, last⟩
      obtain ⟨-, rfl⟩ := of_decide_eq_true kept
      rw [List.dropLast_append_getLast? name last]
      exact ⟨item, among⟩
    · rintro ⟨item, among⟩
      exact ⟨_, ⟨among, by simp⟩, by simp⟩
  nodup_listing := by
    rintro dir names ⟨⟩
    -- With the directory in front the names are keys of the table again.
    refine List.Nodup.of_map (dir ++ [·]) ?_
    have keys : ∀ e ∈ table.filter fun e => e.1 ≠ [] ∧ e.1.dropLast = dir,
        (e.1.getLast?).map (dir ++ [·]) = some e.1 := by
      intro e among
      obtain ⟨some, rfl⟩ := of_decide_eq_true (List.mem_filter.1 among).2
      obtain ⟨last, found⟩ := Option.ne_none_iff_exists'.1 (mt List.getLast?_eq_none_iff.1 some)
      rw [found, Option.map_some, List.dropLast_append_getLast? last found]
    rw [List.map_filterMap, List.filterMap_congr keys, List.filterMap_eq_map']
    exact ok.1.sublist (List.filter_sublist.map _)

/-- `M::M`. -/
def readM (disk : Disk) (links : ℕ) (path : Loc) : M :=
  let status := disk.status links path
  { name := path.getLast?.getD []
    perms := status.2
    ftype := status.1
    fsize := if status.1 = .regular then disk.fileSize links path else 0 }

end Enuwatch.Scan

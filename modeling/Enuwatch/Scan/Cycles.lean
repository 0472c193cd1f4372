import Enuwatch.Scan.Rounds
import Mathlib.Data.Set.Finite.Lattice

/-!
# Links to directories

`M::M` follows a link through `fs::status`, so a link to a directory is a directory to the scan.
The loop is driven by paths and never looks at which directory a path leads to. Here the
directories form a finite graph and no limit is set on the number of links in a path.

Each round expands the directory of the path it takes from the stack (`expanded_image`). The scan
ends and expands no directory twice exactly when no entry it comes to leads back to the root and no
two of them lead to one directory (`scan_once_iff`).
-/

set_option autoImplicit false

namespace Enuwatch.Scan

open Enuwatch.Lib

/-- What a directory entry is. A link that leads to a file is that file to `fs::status`. -/
inductive Entry (D : Type) where
  | dir (target : D)
  | link (target : D)
  | file (perms : UInt32) (size : UInt64)
  | special (perms : UInt32) (kind : Special)
  /-- A link that leads nowhere. -/
  | dangling
deriving DecidableEq, Repr

/-- The directory that an entry leads to. -/
def Entry.leadsTo {D : Type} : Entry D → Option D
  | .dir target => some target
  | .link target => some target
  | _ => none

/-- Directories and their entries. -/
structure Graph (D : Type) where
  perms : D → UInt32
  entries : D → List (Bytes × Entry D)
  distinct : ∀ d, ((entries d).map Prod.fst).Nodup

/-- The node that an event unlocks. -/
def Event.unlocked : Event → Option (List Bytes)
  | .unlock node => some node
  | _ => none

namespace Graph

variable {D : Type} (g : Graph D)

/-- `M::M`, with links followed. -/
def info (name : Bytes) : Entry D → M
  | .dir target => { name, perms := g.perms target, ftype := .directory, fsize := 0 }
  | .link target => { name, perms := g.perms target, ftype := .directory, fsize := 0 }
  | .file perms size => { name, perms, ftype := .regular, fsize := size }
  | .special perms kind => { name, perms, ftype := kind.ftype, fsize := 0 }
  | .dangling => { name, perms := 0xFFFF, ftype := .notFound, fsize := 0 }

/-- The directory that a name leads to from another. -/
def next (d : D) (name : Bytes) : Option D := ((g.entries d).lookup name).bind Entry.leadsTo

/-- The directory that a path leads to. -/
def follow (start : D) (names : List Bytes) : Option D :=
  names.foldl (fun d name => d.bind (g.next · name)) (some start)

/-- What the scan reads in the directory that a path leads to. -/
def read (start : D) (names : List Bytes) : List M :=
  match g.follow start names with
  | none => []
  | some d => (g.entries d).map fun e => g.info e.1 e.2

/-- The directories that were expanded, in this order: the round of a directory ends with the
`unlock` of its node. -/
def expanded (start : D) (w : Worklist) : List D :=
  w.events.filterMap fun e => e.unlocked.bind (g.follow start)

/-- A directory that some path leads to. -/
def Found (start d : D) : Prop := ∃ names, g.follow start names = some d

/-- No entry that can be come to leads to the root, and no two lead to one directory. -/
structure Unshared (start : D) : Prop where
  root : ∀ d name, g.Found start d → g.next d name ≠ some start
  once : ∀ d d' name name' target, g.Found start d → g.Found start d' →
    g.next d name = some target → g.next d' name' = some target → d = d' ∧ name = name'

variable {g} {start : D} {names : List Bytes} {name : Bytes}

theorem follow_concat :
    g.follow start (names ++ [name]) = (g.follow start names).bind (g.next · name) := by
  simp [follow, List.foldl_append]

theorem info_name (e : Entry D) : (g.info name e).name = name := by
  cases e <;> rfl

/-- The scan takes what leads to a directory for one. -/
theorem info_directory_iff {e : Entry D} :
    (g.info name e).ftype = .directory ↔ ∃ target, e.leadsTo = some target := by
  cases e with
  | special perms kind => cases kind <;> simp [info, Entry.leadsTo, Special.ftype]
  | _ => simp [info, Entry.leadsTo]

theorem distinct_read : DistinctNames (g.read start) := by
  intro node
  unfold read
  split
  · exact List.nodup_nil
  · rename_i d _
    have names := g.distinct d
    rw [List.map_map]
    simpa only [Function.comp_def, info_name] using names

theorem next_eq_some {d target : D} : g.next d name = some target ↔
    ∃ e, (name, e) ∈ g.entries d ∧ e.leadsTo = some target := by
  simp only [next, Option.bind_eq_some_iff, lookup_iff (g.distinct d)]

theorem mem_read {info : M} : info ∈ g.read start names ↔
    ∃ d, g.follow start names = some d ∧ ∃ name e, (name, e) ∈ g.entries d ∧
      info = g.info name e := by
  unfold read
  cases g.follow start names <;> simp [eq_comm]

/-- A round pushes the paths that lead to a directory. -/
theorem mem_subdirs_read {order : Sorting} {child : List Bytes} :
    child ∈ subdirs (g.read start) order names ↔
      ∃ name target, child = names ++ [name] ∧ g.follow start child = some target := by
  rw [mem_subdirs]
  constructor
  · rintro ⟨info, read, directory, rfl⟩
    obtain ⟨d, found, name, e, listed, rfl⟩ := mem_read.1 read
    obtain ⟨target, leads⟩ := info_directory_iff.1 directory
    rw [info_name]
    refine ⟨name, target, rfl, ?_⟩
    rw [follow_concat, found]
    exact next_eq_some.2 ⟨e, listed, leads⟩
  · rintro ⟨name, target, rfl, found⟩
    rw [follow_concat] at found
    obtain ⟨d, above, below⟩ := Option.bind_eq_some_iff.1 found
    obtain ⟨e, listed, leads⟩ := next_eq_some.1 below
    exact ⟨g.info name e, mem_read.2 ⟨d, above, name, e, listed, rfl⟩,
      info_directory_iff.2 ⟨target, leads⟩, by rw [info_name]⟩

/-- The scan is led to the paths that lead to a directory. -/
theorem leads_iff {order : Sorting} :
    Leads (subdirs (g.read start) order) [] names ↔ ∃ d, g.follow start names = some d := by
  constructor
  · intro leads
    cases leads with
    | refl => exact ⟨start, rfl⟩
    | tail _ below =>
        obtain ⟨-, target, -, found⟩ := mem_subdirs_read.1 below
        exact ⟨target, found⟩
  · rintro ⟨d, found⟩
    induction names using List.reverseRecOn generalizing d with
    | nil => exact .refl
    | append_singleton front name ih =>
        have here := found
        rw [follow_concat] at found
        obtain ⟨above, leads, -⟩ := Option.bind_eq_some_iff.1 found
        exact (ih above leads).tail (mem_subdirs_read.2 ⟨name, d, rfl, here⟩)

/-- A regular file is no way to a directory. -/
theorem follow_regular {info : M} (read : info ∈ g.read start names)
    (regular : info.ftype = .regular) : g.follow start (names ++ [info.name]) = none := by
  obtain ⟨d, found, name, e, listed, rfl⟩ := mem_read.1 read
  rw [info_name, follow_concat, found, Option.bind_some]
  by_contra leads
  obtain ⟨target, leads⟩ := Option.ne_none_iff_exists'.1 leads
  obtain ⟨e', listed', leads⟩ := next_eq_some.1 leads
  obtain rfl : e = e' := Option.some.inj
    (((lookup_iff (g.distinct d)).2 listed).symm.trans ((lookup_iff (g.distinct d)).2 listed'))
  rw [info_directory_iff.2 ⟨target, leads⟩] at regular
  cases regular

/-- **Each round expands the directory of the path it takes.** -/
theorem expanded_image {order : Sorting} {root : Loc} (f : Frontier (List Bytes)) :
    g.expanded start (image (g.read start) order root f) = f.done.filterMap (g.follow start) := by
  rw [expanded, image, List.filterMap_flatMap, List.filterMap_eq_flatMap_toList]
  apply congrArg (List.flatMap · f.done)
  funext node
  have files : ∀ info ∈ order.sort (g.read start node),
      (entryEvents root node info).filterMap (fun e => e.unlocked.bind (g.follow start)) = [] := by
    intro info among
    have read := (order.perm _).mem_iff.1 among
    cases type : info.ftype with
    | regular =>
        have nowhere := follow_regular read type
        simp [entryEvents, type, Event.unlocked, nowhere]
    | _ => simp [entryEvents, type, Event.unlocked]
  rw [roundEvents, List.filterMap_append, List.filterMap_flatMap, List.flatMap_eq_nil_iff.2 files]
  cases found : g.follow start node <;> simp [Event.unlocked, found]

/-- Without sharing a path is known by its directory. -/
theorem Unshared.follow_inj (unshared : g.Unshared start) {names' : List Bytes} {d : D}
    (first : g.follow start names = some d) (second : g.follow start names' = some d) :
    names = names' := by
  -- The root is led to by the empty path only.
  have root : ∀ front name, g.follow start (front ++ [name]) ≠ some start := by
    intro front name found
    rw [follow_concat] at found
    obtain ⟨above, leads, below⟩ := Option.bind_eq_some_iff.1 found
    exact unshared.root above name ⟨front, leads⟩ below
  induction names using List.reverseRecOn generalizing names' d with
  | nil =>
      obtain rfl : start = d := Option.some.inj first
      induction names' using List.reverseRecOn with
      | nil => rfl
      | append_singleton front name _ => exact absurd second (root front name)
  | append_singleton front name ih =>
      induction names' using List.reverseRecOn with
      | nil =>
          obtain rfl : start = d := Option.some.inj second
          exact absurd first (root front name)
      | append_singleton front' name' _ =>
          rw [follow_concat] at first second
          obtain ⟨above, leads, below⟩ := Option.bind_eq_some_iff.1 first
          obtain ⟨above', leads', below'⟩ := Option.bind_eq_some_iff.1 second
          obtain ⟨rfl, rfl⟩ := unshared.once above above' name name' d ⟨front, leads⟩
            ⟨front', leads'⟩ below below'
          rw [ih leads leads']

variable {order : Sorting} {root : Loc}

/-- Without sharing there are as many paths as directories. -/
theorem Unshared.grounded [Finite D] (unshared : g.Unshared start) :
    Grounded (subdirs (g.read start) order) [] := by
  have finite : {names | ∃ d, g.follow start names = some d}.Finite := by
    refine Set.Finite.of_finite_image (f := g.follow start) (Set.toFinite _) ?_
    rintro names ⟨d, found⟩ names' - same
    exact unshared.follow_inj found (same ▸ found)
  obtain ⟨bound, above⟩ := (finite.image List.length).bddAbove
  apply grounded_of_bound
  intro node leads
  exact above ⟨node, leads_iff.1 leads, rfl⟩

theorem Unshared.nodup_expanded (unshared : g.Unshared start) {w : Worklist}
    (reachable : Reachable (scanWith (g.read start) order root) scanStart w) :
    (g.expanded start w).Nodup := by
  obtain ⟨f, explored, rfl⟩ := reachable_image.1 reachable
  have once := nodup_explored (subdirs_treelike distinct_read) explored
  rw [expanded_image]
  refine (List.nodup_append.1 once.nodup).1.filterMap ?_
  intro names names' d first second
  exact unshared.follow_inj first second

/-- Two paths to one directory make the scan expand it twice. -/
theorem follow_inj_of_once {w : Worklist}
    (reachable : Reachable (scanWith (g.read start) order root) scanStart w) (over_ : w.stack = [])
    (once : (g.expanded start w).Nodup) {names' : List Bytes} {d : D}
    (first : g.follow start names = some d) (second : g.follow start names' = some d) :
    names = names' := by
  obtain ⟨f, explored, rfl⟩ := reachable_image.1 reachable
  have visited : ∀ {names}, g.follow start names = some d → names ∈ f.done := fun found =>
    (mem_done_iff explored over_).2 (leads_iff.2 ⟨d, found⟩)
  rw [expanded_image, List.Nodup, List.pairwise_filterMap] at once
  have : Std.Symm fun a b => ∀ d, g.follow start a = some d → ∀ d', g.follow start b = some d' →
      d ≠ d' := ⟨fun a b differ d found d' found' => (differ d' found' d found).symm⟩
  by_contra apart
  exact once.forall (visited first) (visited second) apart d first d second rfl

/-- **The scan ends and expands no directory twice exactly when nothing is shared.** -/
theorem scan_once_iff [Finite D] (g : Graph D) (start : D) (order : Sorting) (root : Loc) :
    ((∃ w, Reachable (scanWith (g.read start) order root) scanStart w ∧ w.stack = []) ∧
      ∀ w, Reachable (scanWith (g.read start) order root) scanStart w →
        (g.expanded start w).Nodup) ↔ g.Unshared start := by
  constructor
  · rintro ⟨⟨w, reachable, over_⟩, once⟩
    have inj : ∀ {names names' d}, g.follow start names = some d →
        g.follow start names' = some d → names = names' :=
      follow_inj_of_once reachable over_ (once w reachable)
    refine ⟨?_, ?_⟩
    · rintro d name ⟨names, found⟩ back
      have again : g.follow start (names ++ [name]) = some start := by
        rw [follow_concat, found, Option.bind_some, back]
      have top : g.follow start [] = some start := rfl
      have empty := inj again top
      simp at empty
    · rintro d d' name name' target ⟨names, found⟩ ⟨names', found'⟩ leads leads'
      have first : g.follow start (names ++ [name]) = some target := by
        rw [follow_concat, found, Option.bind_some, leads]
      have second : g.follow start (names' ++ [name']) = some target := by
        rw [follow_concat, found', Option.bind_some, leads']
      obtain ⟨rfl, rfl⟩ := append_singleton_inj (inj first second)
      exact ⟨Option.some.inj (found.symm.trans found'), rfl⟩
  · intro unshared
    exact ⟨scan_terminates_iff.2 unshared.grounded, fun w => unshared.nodup_expanded⟩

/-! ### Two graphs with a link -/

/-- A directory with a link to another one, where a file is. -/
def outward : Graph Bool where
  perms _ := 0o755
  entries
    | true => [([108], .link false)]
    | false => [([102], .file 0o644 3)]
  distinct d := by cases d <;> simp

theorem unshared_outward : outward.Unshared true := by
  have only : ∀ d name target, outward.next d name = some target → d = true ∧ name = [108] ∧
      target = false := by
    intro d name target leads
    obtain ⟨e, listed, leads⟩ := next_eq_some.1 leads
    cases d with
    | true =>
        obtain ⟨rfl, rfl⟩ : name = [108] ∧ e = .link false := by simpa [outward] using listed
        exact ⟨rfl, rfl, (Option.some.inj leads).symm⟩
    | false =>
        obtain ⟨rfl, rfl⟩ : name = [102] ∧ e = .file 0o644 3 := by simpa [outward] using listed
        cases leads
  refine ⟨?_, ?_⟩
  · intro d name _ leads
    cases (only d name true leads).2.2
  · intro d d' name name' target _ _ leads leads'
    obtain ⟨rfl, rfl, -⟩ := only d name target leads
    obtain ⟨rfl, rfl, -⟩ := only d' name' target leads'
    exact ⟨rfl, rfl⟩

theorem scan_once_iff_outward :
    (∃ w, Reachable (scanWith (outward.read true) ⟨id, fun _ => .refl _⟩ [[114]]) scanStart w ∧
      w.stack = []) ∧
      ∀ w, Reachable (scanWith (outward.read true) ⟨id, fun _ => .refl _⟩ [[114]]) scanStart w →
        (outward.expanded true w).Nodup :=
  (scan_once_iff outward true _ _).2 unshared_outward

/-- A directory with a link to itself. -/
def ring : Graph Unit where
  perms _ := 0o755
  entries _ := [([108], .link ())]
  distinct _ := by simp

/-- The scan of the ring never ends, and expands its directory again and again. -/
theorem ring_scanned_forever :
    (∀ w, Reachable (scanWith (ring.read ()) ⟨id, fun _ => .refl _⟩ [[114]]) scanStart w →
      w.stack ≠ []) ∧
      ∃ w, Reachable (scanWith (ring.read ()) ⟨id, fun _ => .refl _⟩ [[114]]) scanStart w ∧
        ring.expanded () w = [(), ()] := by
  have deeper : ∀ names, Grounded (subdirs (ring.read ()) ⟨id, fun _ => .refl _⟩) names →
      ring.follow () names ≠ some () := by
    intro names grounded
    induction grounded with
    | intro names _ ih =>
        intro here
        have below : ring.follow () (names ++ [[108]]) = some () := by
          rw [follow_concat, here]
          rfl
        exact ih _ (mem_subdirs_read.2 ⟨[108], (), rfl, below⟩) below
  refine ⟨?_, ?_⟩
  · intro w reachable over_
    exact deeper [] (scan_terminates_iff.1 ⟨w, reachable, over_⟩) rfl
  · obtain ⟨w, reaches⟩ := Option.isSome_iff_exists.1 (show (run (scanWith (ring.read ())
      ⟨id, fun _ => .refl _⟩ [[114]]) scanStart [(), ()]).isSome by decide +kernel)
    have facts : ∀ w ∈ run (scanWith (ring.read ()) ⟨id, fun _ => .refl _⟩ [[114]]) scanStart
        [(), ()], ring.expanded () w = [(), ()] := by decide +kernel
    exact ⟨w, ⟨_, reaches⟩, facts w reaches⟩

end Graph

end Enuwatch.Scan

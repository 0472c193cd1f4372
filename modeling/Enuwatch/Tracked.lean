import Enuwatch.Wire
import Mathlib.Data.Fintype.Lattice
import Mathlib.Logic.Relation

/-!
# The scanned tree

`scan_dir` hangs a `TrackedNode` for every directory and every regular file under its
parent. When `sync_with_remote` starts the scan is over: every node is ready, and the
tree only shrinks from then on. `Tree` is that tree as the scan left it, over an
arbitrary type of nodes; the child lists that shrink are part of the state of the client.

A property of all nodes is proved from the root down (`Tree.from_root`) or, in a finite
tree, from the leaves up (`Tree.from_leaves`).
-/

set_option autoImplicit false

namespace Enuwatch

open Enuwatch.Lib

/-- A name that a directory entry can have. -/
def FileName (name : Bytes) : Prop :=
  name ≠ [] ∧ 47 ∉ name ∧ 0 ∉ name ∧ name ≠ [46] ∧ name ≠ [46, 46]

instance (name : Bytes) : Decidable (FileName name) :=
  inferInstanceAs (Decidable (_ ∧ _ ∧ _ ∧ _ ∧ _))

/-- A scanned tree. -/
structure Tree (N : Type) where
  root : N
  parent : N → Option N
  children : N → List N
  info : N → M
  depth : N → ℕ
  mem_children : ∀ {c p}, c ∈ children p ↔ parent c = some p
  nodup_children : ∀ p, (children p).Nodup
  parent_eq_none : ∀ {n}, parent n = none ↔ n = root
  depth_of_parent : ∀ {c p}, parent c = some p → depth c = depth p + 1
  /-- The scan keeps directories and regular files. -/
  kept : ∀ n, (info n).ftype = .regular ∨ (info n).ftype = .directory
  children_of_regular : ∀ {n}, (info n).ftype = .regular → children n = []
  root_directory : (info root).ftype = .directory
  /-- The file name of the root directory of the file system is empty. -/
  named : ∀ n, n = root ∧ (info n).name = [] ∨ FileName (info n).name

namespace Tree

variable {N : Type} (T : Tree N)

/-- `y` lies in the subtree of `x`. -/
def Below (x y : N) : Prop := Relation.ReflTransGen (fun p c => T.parent c = some p) x y

variable {T}

theorem parent_root : T.parent T.root = none := T.parent_eq_none.2 rfl

theorem ne_root_of_parent {c p : N} (parent : T.parent c = some p) : c ≠ T.root := by
  rintro rfl
  rw [parent_root] at parent
  cases parent

theorem exists_parent {n : N} (below : n ≠ T.root) : ∃ p, T.parent n = some p := by
  cases parent : T.parent n with
  | none => exact absurd (T.parent_eq_none.1 parent) below
  | some p => exact ⟨p, rfl⟩

theorem parent_ne_self {n : N} : T.parent n ≠ some n := by
  intro loop
  have := T.depth_of_parent loop
  omega

/-- Induction from the root down. -/
theorem from_root {P : N → Prop} (root : P T.root)
    (child : ∀ c p, T.parent c = some p → P p → P c) (n : N) : P n := by
  induction deep : T.depth n generalizing n with
  | zero =>
      by_cases top : n = T.root
      · exact top ▸ root
      · obtain ⟨p, parent⟩ := exists_parent top
        have := T.depth_of_parent parent
        omega
  | succ depth ih =>
      by_cases top : n = T.root
      · exact top ▸ root
      · obtain ⟨p, parent⟩ := exists_parent top
        refine child n p parent (ih p ?_)
        have := T.depth_of_parent parent
        omega

/-- Induction from the leaves up. -/
theorem from_leaves [Finite N] {P : N → Prop} (up : ∀ n, (∀ c ∈ T.children n, P c) → P n)
    (n : N) : P n := by
  obtain ⟨bound, deepest⟩ := Finite.exists_le T.depth
  induction gap : bound - T.depth n generalizing n with
  | zero =>
      refine up n fun c child => ?_
      have deeper := T.depth_of_parent (T.mem_children.1 child)
      have := deepest c
      omega
  | succ gap' ih =>
      refine up n fun c child => ih c ?_
      have deeper := T.depth_of_parent (T.mem_children.1 child)
      omega

end Tree

end Enuwatch

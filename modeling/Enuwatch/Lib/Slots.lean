import Mathlib.Tactic.Common

/-!
# A table of numbered slots

A table hands out the lowest free number and takes numbers back, as a kernel
does with file descriptors. A slot is either free or holds a value.
-/

set_option autoImplicit false

namespace Enuwatch.Lib

universe u

/-- A table of numbered slots. -/
structure Slots (α : Type u) where
  cells : List (Option α)
deriving Repr, DecidableEq

namespace Slots

variable {α : Type u}

/-- What slot `i` holds; a number past the end is free. -/
def get (t : Slots α) (i : ℕ) : Option α := (t.cells[i]?).getD none

/-- The lowest free number of a list of cells. -/
def lowest : List (Option α) → ℕ
  | [] => 0
  | none :: _ => 0
  | some _ :: cells => lowest cells + 1

/-- Fill the lowest free cell. -/
def fill (a : α) : List (Option α) → List (Option α)
  | [] => [some a]
  | none :: cells => some a :: cells
  | some b :: cells => some b :: fill a cells

/-- The number the next allocation hands out. -/
def next (t : Slots α) : ℕ := lowest t.cells

/-- Allocate the lowest free slot. -/
def alloc (t : Slots α) (a : α) : Slots α := ⟨fill a t.cells⟩

/-- Free a slot. -/
def free (t : Slots α) (i : ℕ) : Slots α := ⟨t.cells.set i none⟩

/-- Fill a given slot, whatever it holds. -/
def put (t : Slots α) (i : ℕ) (a : α) : Slots α :=
  ⟨(t.cells ++ List.replicate (i + 1 - t.cells.length) none).set i (some a)⟩

/-- Change the values and keep the numbers. -/
def map {β : Type u} (f : α → β) (t : Slots α) : Slots β := ⟨t.cells.map (Option.map f)⟩

theorem get_next (t : Slots α) : t.get t.next = none := by
  obtain ⟨cells⟩ := t
  simp only [get, next]
  induction cells with
  | nil => rfl
  | cons c cells ih =>
      cases c with
      | none => rfl
      | some b => simpa [lowest] using ih

/-- Every number below the one handed out is in use. -/
theorem get_of_lt_next {t : Slots α} {i : ℕ} (below : i < t.next) : t.get i ≠ none := by
  obtain ⟨cells⟩ := t
  simp only [get, next] at *
  induction cells generalizing i with
  | nil => simp [lowest] at below
  | cons c cells ih =>
      cases c with
      | none => simp [lowest] at below
      | some b =>
          cases i with
          | zero => simp
          | succ i => simpa using ih (i := i) (by simpa [lowest] using below)

/-- The number handed out is the lowest free one. -/
theorem next_eq {t : Slots α} {i : ℕ} (free : t.get i = none)
    (below : ∀ j < i, t.get j ≠ none) : t.next = i := by
  rcases Nat.lt_trichotomy t.next i with lower | same | higher
  · exact absurd t.get_next (below _ lower)
  · exact same
  · exact absurd free (get_of_lt_next higher)

theorem get_alloc (t : Slots α) (a : α) (i : ℕ) :
    (t.alloc a).get i = if i = t.next then some a else t.get i := by
  obtain ⟨cells⟩ := t
  simp only [get, next, alloc]
  induction cells generalizing i with
  | nil => cases i <;> simp [fill, lowest]
  | cons c cells ih =>
      cases c with
      | none => cases i <;> simp [fill, lowest]
      | some b =>
          cases i with
          | zero => simp [fill, lowest]
          | succ i => by_cases same : i = lowest cells <;> simp [fill, lowest, ih, same]

@[simp] theorem get_alloc_next (t : Slots α) (a : α) : (t.alloc a).get t.next = some a := by
  simp [get_alloc]

theorem get_alloc_of_ne_none {t : Slots α} {a : α} {i : ℕ} (used : t.get i ≠ none) :
    (t.alloc a).get i = t.get i := by
  rw [get_alloc, if_neg]
  rintro rfl
  exact used t.get_next

/-- The numbers handed out one after the other grow. -/
theorem next_lt_next_alloc (t : Slots α) (a : α) : t.next < (t.alloc a).next := by
  by_contra le
  have free := (t.alloc a).get_next
  rcases Nat.lt_or_eq_of_le (Nat.le_of_not_lt le) with below | same
  · have used := get_of_lt_next below
    rw [get_alloc_of_ne_none used] at free
    exact used free
  · rw [same, get_alloc_next] at free
    cases free

theorem get_free (t : Slots α) (i j : ℕ) :
    (t.free i).get j = if j = i then none else t.get j := by
  simp only [get, free, List.getElem?_set]
  by_cases same : i = j
  · subst same
    by_cases within : i < t.cells.length <;> simp [within]
  · simp [same, Ne.symm same]

theorem get_put (t : Slots α) (i j : ℕ) (a : α) :
    (t.put i a).get j = if j = i then some a else t.get j := by
  simp only [get, put, List.getElem?_set]
  by_cases same : i = j
  · subst same
    have within : i < t.cells.length + (i + 1 - t.cells.length) := by omega
    simp [within]
  · simp only [if_neg same, if_neg (Ne.symm same), List.getElem?_append, List.getElem?_replicate]
    by_cases within : j < t.cells.length
    · simp [within]
    · by_cases padded : j - t.cells.length < i + 1 - t.cells.length <;> simp [within, padded]

section

variable {β : Type u} (f : α → β) (t : Slots α)

@[simp] theorem next_map : (t.map f).next = t.next := by
  obtain ⟨cells⟩ := t
  simp only [next, map]
  induction cells with
  | nil => rfl
  | cons c cells ih => cases c <;> simp [lowest, ih]

@[simp] theorem alloc_map (a : α) : (t.map f).alloc (f a) = (t.alloc a).map f := by
  obtain ⟨cells⟩ := t
  simp only [alloc, map, mk.injEq]
  induction cells with
  | nil => rfl
  | cons c cells ih => cases c <;> simp [fill, ih]

theorem get_map (i : ℕ) : (t.map f).get i = (t.get i).map f := by
  simp only [get, map, List.getElem?_map]
  cases t.cells[i]? <;> rfl

@[simp] theorem free_map (i : ℕ) : (t.map f).free i = (t.free i).map f := by
  simp [free, map, List.map_set]

@[simp] theorem put_map (i : ℕ) (a : α) : (t.map f).put i (f a) = (t.put i a).map f := by
  simp [put, map, List.map_set]

end

/-! ## Moving a value -/

/-- A value is copied to the lowest free number and given up at its own, and the copy goes to the
target in the same way. A copy is passed through `clear`. -/
def move (clear : α → α) (t : Slots α) (source target : ℕ) : Option (Slots α) := do
  let value ← t.get source
  let tmp := t.next
  let t := (t.alloc (clear value)).free source
  let copy ← t.get tmp
  return (if tmp = target then t else t.put target (clear copy)).free tmp

/-- To a number in use, a value is moved without any other change. -/
theorem get_move (clear : α → α) {t : Slots α} {source target : ℕ} {a : α}
    (held : t.get source = some a) (used : t.get target ≠ none) :
    ∃ t', t.move clear source target = some t' ∧ ∀ n, t'.get n =
      if n = target then some (clear (clear a)) else if n = source then none else t.get n := by
  have free : t.get t.next = none := t.get_next
  have apart : t.next ≠ source := by
    intro same
    rw [same, held] at free
    cases free
  have other : t.next ≠ target := fun same => used (same ▸ free)
  have copy : ((t.alloc (clear a)).free source).get t.next = some (clear a) := by
    simp [get_free, apart]
  refine ⟨(((t.alloc (clear a)).free source).put target (clear (clear a))).free t.next, ?_, ?_⟩
  · simp only [move, held, Option.bind_eq_bind, Option.bind_some, copy, if_neg other, Option.pure_def]
  · intro n
    rw [get_free, get_put, get_free, get_alloc]
    by_cases temporary : n = t.next
    · subst temporary
      simp [apart, other, free]
    · simp [temporary]

theorem move_map {β : Type u} {f : α → β} {clear : α → α} {clear' : β → β}
    (commutes : ∀ a, f (clear a) = clear' (f a)) (t : Slots α) (source target : ℕ) :
    (t.map f).move clear' source target = (t.move clear source target).map (map f) := by
  simp only [move, get_map, next_map, Option.bind_eq_bind]
  cases t.get source with
  | none => rfl
  | some value =>
      simp only [Option.map_some, Option.bind_some, ← commutes, alloc_map, free_map, get_map]
      cases ((t.alloc (clear value)).free source).get t.next with
      | none => rfl
      | some copy =>
          simp only [Option.map_some, Option.bind_some, ← commutes, put_map, Option.pure_def]
          split <;> simp

end Slots

end Enuwatch.Lib

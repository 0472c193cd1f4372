import Mathlib.Data.Nat.Find
import Mathlib.Logic.Function.Basic
import Mathlib.Tactic.Common

/-!
# A store written at consecutive positions

A ring is a store together with a map from positions, which only grow, to the slots of the store.
A value that is written at a position stays there until a later position has the same slot.

`Holds` says that a list of values stands at consecutive positions. Writing the next position
keeps it as long as its slot is new (`Holds.write`). After many writes a slot holds the last value
that was written to it (`writeAll_last`), so a position whose slot comes again has lost its value
(`exists_lost`).
-/

set_option autoImplicit false

namespace Enuwatch.Lib

universe u v

variable {ι : Type u} {β : Type v} {slot : ℕ → ι} {store : ι → β} {start : ℕ} {value : β}
  {values : List β}

/-- The values stand at consecutive positions. -/
def Holds (slot : ℕ → ι) (store : ι → β) (start : ℕ) (values : List β) : Prop :=
  ∀ i value, values[i]? = some value → store (slot (start + i)) = value

theorem Holds.nil : Holds slot store start [] := by
  intro i value found
  simp at found

theorem Holds.head (holds : Holds slot store start (value :: values)) :
    store (slot start) = value :=
  holds 0 value rfl

theorem Holds.tail (holds : Holds slot store start (value :: values)) :
    Holds slot store (start + 1) values := by
  intro i other found
  have shift : start + 1 + i = start + (i + 1) := by omega
  rw [shift]
  exact holds (i + 1) other found

section Write

variable [DecidableEq ι]

/-- Writing a slot that is not in use. -/
theorem Holds.write (holds : Holds slot store start values) (value : β)
    (fresh : ∀ i < values.length, slot (start + i) ≠ slot (start + values.length)) :
    Holds slot (Function.update store (slot (start + values.length)) value) start
      (values ++ [value]) := by
  intro i other found
  rcases Nat.lt_or_ge i values.length with inside | beyond
  · rw [List.getElem?_append_left inside] at found
    rw [Function.update_of_ne (fresh i inside)]
    exact holds i other found
  · rw [List.getElem?_append_right beyond] at found
    have last : i - values.length < 1 := (List.getElem?_eq_some_iff.1 found).1
    obtain rfl : i = values.length := by omega
    obtain rfl : value = other := by simpa using found
    exact Function.update_self _ _ _

/-- Write the values at consecutive positions. -/
def writeAll (slot : ℕ → ι) : (ι → β) → ℕ → List β → ι → β
  | store, _, [] => store
  | store, start, value :: values =>
      writeAll slot (Function.update store (slot start) value) (start + 1) values

/-- A slot that is not written keeps its value. -/
theorem writeAll_of_ne {place : ι} (apart : ∀ i < values.length, slot (start + i) ≠ place) :
    writeAll slot store start values place = store place := by
  induction values generalizing store start with
  | nil => rfl
  | cons value values ih =>
      have first : slot start ≠ place := apart 0 (by simp)
      have others : ∀ i < values.length, slot (start + 1 + i) ≠ place := by
        intro i inside
        have shift : start + 1 + i = start + (i + 1) := by omega
        rw [shift]
        exact apart (i + 1) (by simpa using inside)
      rw [writeAll, ih others, Function.update_of_ne first.symm]

/-- **A slot holds the last value that was written to it.** -/
theorem writeAll_last {i : ℕ}
    (last : ∀ k < values.length, i < k → slot (start + k) ≠ slot (start + i))
    (found : values[i]? = some value) :
    writeAll slot store start values (slot (start + i)) = value := by
  induction values generalizing store start i with
  | nil => simp at found
  | cons other values ih =>
      rw [writeAll]
      cases i with
      | zero =>
          obtain rfl : other = value := by simpa using found
          rw [writeAll_of_ne]
          · exact Function.update_self _ _ _
          · intro k inside
            have shift : start + 1 + k = start + (k + 1) := by omega
            rw [shift]
            exact last (k + 1) (by simpa using inside) (by omega)
      | succ i =>
          have shift : ∀ k, start + 1 + k = start + (k + 1) := fun k => by omega
          rw [← shift i]
          refine ih ?_ found
          intro k inside after
          rw [shift, shift]
          exact last (k + 1) (by simpa using inside) (by omega)

/-- Where all slots differ, everything is held. -/
theorem holds_writeAll (apart : ∀ i < values.length, ∀ j < values.length,
    slot (start + i) = slot (start + j) → i = j) :
    Holds slot (writeAll slot store start values) start values := by
  intro i value found
  have inside : i < values.length := (List.getElem?_eq_some_iff.1 found).1
  refine writeAll_last ?_ found
  intro k within later same
  have := apart k within i inside same
  omega

/-- **Where a slot comes again, its first value may be lost.** -/
theorem exists_lost {count i j : ℕ} (before : i < j) (inside : j < count)
    (again : slot (start + i) = slot (start + j)) (store : ι → β) (kept lost : β) :
    ∃ values : List β, values.length = count ∧ values[i]? = some lost ∧
      writeAll slot store start values (slot (start + i)) = kept := by
  -- The position that writes this slot last comes at `j` or after it.
  classical
  let same := fun k => slot (start + k) = slot (start + i)
  let last := Nat.findGreatest same (count - 1)
  have later : j ≤ last := Nat.le_findGreatest (by omega) again.symm
  have bounded : last ≤ count - 1 := Nat.findGreatest_le _
  have there : same last := Nat.findGreatest_spec (P := same) (m := j) (by omega) again.symm
  have final : ∀ k, last < k → k ≤ count - 1 → ¬ same k := fun k after within =>
    Nat.findGreatest_is_greatest after within
  refine ⟨(List.replicate count kept).set i lost, by simp, ?_, ?_⟩
  · have short : i < count := by omega
    simp [short]
  · have found : ((List.replicate count kept).set i lost)[last]? = some kept := by
      have within : last < count := by omega
      have other : i ≠ last := by omega
      simp [within, other]
    rw [← there]
    refine writeAll_last ?_ found
    intro k within after
    rw [there]
    exact final k after (by simpa using Nat.le_pred_of_lt within)

end Write

end Enuwatch.Lib

import Mathlib.Data.List.Sort
import Mathlib.Tactic.Common

/-!
# Strict weak orders on the members of a list

A sort asks its comparator to be a strict weak order on what it sorts. `StrictWeakOn` says so of
a relation and a list, and `Ordered` that no member of a list has to come before an earlier one.
A list on which the comparator is a strict weak order can be sorted (`exists_ordered`).
-/

set_option autoImplicit false

namespace Enuwatch.Lib

universe u

variable {α : Type u}

/-- Neither of the two has to come first. -/
def Incomparable (less : α → α → Prop) (a b : α) : Prop := ¬ less a b ∧ ¬ less b a

/-- `less` is a strict weak order on the members of `items`. -/
structure StrictWeakOn (less : α → α → Prop) (items : List α) : Prop where
  irrefl : ∀ a ∈ items, ¬ less a a
  asymm : ∀ a ∈ items, ∀ b ∈ items, less a b → ¬ less b a
  trans : ∀ a ∈ items, ∀ b ∈ items, ∀ c ∈ items, less a b → less b c → less a c
  incomparable_trans : ∀ a ∈ items, ∀ b ∈ items, ∀ c ∈ items,
    Incomparable less a b → Incomparable less b c → Incomparable less a c

/-- No member comes after one it has to come before. -/
def Ordered (less : α → α → Prop) (items : List α) : Prop :=
  items.Pairwise fun a b => ¬ less b a

/-- Not having to come first is a transitive relation. -/
theorem StrictWeakOn.not_less_trans {less : α → α → Prop} {items : List α}
    (weak : StrictWeakOn less items) {a b c : α} (first : a ∈ items) (second : b ∈ items)
    (third : c ∈ items) (left : ¬ less b a) (right : ¬ less c b) : ¬ less c a := by
  intro back
  by_cases ab : less a b
  · exact right (weak.trans c third a first b second back ab)
  · by_cases bc : less b c
    · exact left (weak.trans b second c third a first bc back)
    · have same := weak.incomparable_trans a first b second c third ⟨ab, left⟩ ⟨bc, right⟩
      exact same.2 back

/-- A strict weak order can be sorted by. -/
theorem StrictWeakOn.exists_ordered {less : α → α → Prop} [DecidableRel less] {items : List α}
    (weak : StrictWeakOn less items) : ∃ sorted, sorted.Perm items ∧ Ordered less sorted := by
  let le : {a // a ∈ items} → {a // a ∈ items} → Bool := fun a b => ! decide (less b.1 a.1)
  have le_trans : ∀ a b c, le a b = true → le b c = true → le a c = true := by
    intro a b c
    simp only [le, Bool.not_eq_true', decide_eq_false_iff_not]
    exact weak.not_less_trans a.2 b.2 c.2
  have le_total : ∀ a b, (le a b || le b a) = true := by
    intro a b
    simp only [le, Bool.or_eq_true, Bool.not_eq_true', decide_eq_false_iff_not]
    by_cases ba : less b.1 a.1
    · exact .inr (weak.asymm b.1 b.2 a.1 a.2 ba)
    · exact .inl ba
  refine ⟨(items.attach.mergeSort le).map (·.1), ?_, ?_⟩
  · have perm := (List.mergeSort_perm items.attach le).map (·.1)
    rwa [List.attach_map_subtype_val] at perm
  · have pairs := List.pairwise_mergeSort le_trans le_total items.attach
    refine List.pairwise_map.2 (pairs.imp ?_)
    intro a b ordered
    simpa [le] using ordered

end Enuwatch.Lib

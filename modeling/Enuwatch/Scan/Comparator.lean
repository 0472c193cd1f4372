import Enuwatch.Lib.WeakOrder
import Enuwatch.Wire

/-!
# The order of the entries of a directory

`scan_dir` sorts two regular files by their size and any other pair by name. Within either class
that is a strict weak order, and no pair ever contradicts itself. Between the classes the two
keys meet: a directory whose name lies between the names of two regular files puts one of them
before the other, whatever their sizes are. The comparator is a strict weak order on a list of
entries exactly when the sizes agree with every such pair (`strictWeakOn_iff`).
-/

set_option autoImplicit false

namespace Enuwatch.Scan

open Enuwatch.Lib

/-- The comparator `scan_dir` passes to `std::sort`. -/
def sortsBefore (a b : M) : Prop :=
  if a.ftype = .regular ∧ b.ftype = .regular then
    -- Sort by smallest size, to ensure we send the smallest files first.
    a.fsize < b.fsize
  else
    -- Otherwise sort by alphanumeric.
    a.name < b.name

instance : DecidableRel sortsBefore := fun a b =>
  inferInstanceAs (Decidable (if a.ftype = .regular ∧ b.ftype = .regular then _ else _))

/-- Two regular files with an entry of another type between their names are in the order of
their sizes. -/
def SizesFollowNames (entries : List M) : Prop :=
  ∀ a ∈ entries, ∀ b ∈ entries, ∀ c ∈ entries,
    a.ftype = .regular → b.ftype ≠ .regular → c.ftype = .regular →
    a.name ≤ b.name → b.name ≤ c.name →
    if a.name = c.name then a.fsize = c.fsize else a.fsize < c.fsize

/-- What a sort by the comparator is relied on for: a strict weak order, a sorted arrangement of
the entries, and the regular files in each such arrangement by size. -/
structure SortWellDefined (entries : List M) : Prop where
  weak : StrictWeakOn sortsBefore entries
  sortable : ∃ sorted, sorted.Perm entries ∧ Ordered sortsBefore sorted
  sizes : ∀ sorted, sorted.Perm entries → Ordered sortsBefore sorted →
    (sorted.filter (·.ftype = .regular)).Pairwise fun a b => a.fsize ≤ b.fsize

section

variable {a b c : M} {entries : List M}

theorem sortsBefore_regular (first : a.ftype = .regular) (second : b.ftype = .regular) :
    sortsBefore a b ↔ a.fsize < b.fsize := by
  simp [sortsBefore, first, second]

theorem sortsBefore_of_left (other : a.ftype ≠ .regular) :
    sortsBefore a b ↔ a.name < b.name := by
  simp [sortsBefore, other]

theorem sortsBefore_of_right (other : b.ftype ≠ .regular) :
    sortsBefore a b ↔ a.name < b.name := by
  simp [sortsBefore, other]

/-- No entry comes before itself. -/
theorem sortsBefore_irrefl (a : M) : ¬ sortsBefore a a := by
  unfold sortsBefore
  split <;> grind

/-- No two entries come before each other. -/
theorem sortsBefore_asymm (forth : sortsBefore a b) : ¬ sortsBefore b a := by
  unfold sortsBefore at forth ⊢
  split at forth <;> split <;> grind

/-- Only the pair of two regular files with another entry between them can break transitivity:
each of the three ways to order the three entries is one of the pairs of `SizesFollowNames`. -/
theorem SizesFollowNames.trans (agree : SizesFollowNames entries) (first : a ∈ entries)
    (second : b ∈ entries) (third : c ∈ entries) (ab : sortsBefore a b) (bc : sortsBefore b c) :
    sortsBefore a c := by
  have between := agree a first b second c third
  have before := agree c third a first b second
  have after := agree b second c third a first
  unfold sortsBefore at ab bc ⊢
  split at ab <;> split at bc <;> split <;> grind

theorem SizesFollowNames.incomparable_trans (agree : SizesFollowNames entries)
    (first : a ∈ entries) (second : b ∈ entries) (third : c ∈ entries)
    (ab : Incomparable sortsBefore a b) (bc : Incomparable sortsBefore b c) :
    Incomparable sortsBefore a c := by
  obtain ⟨ab, ba⟩ := ab
  obtain ⟨bc, cb⟩ := bc
  by_cases ra : a.ftype = .regular <;> by_cases rc : c.ftype = .regular
  · -- The two ends are regular files: only the entry between them can be of another type.
    have between := agree a first b second c third
    unfold Incomparable sortsBefore at *
    grind
  · -- If `b` is a regular file it has the size of `a` and the name of `c`.
    have below := agree a first c third b second
    have above := agree b second c third a first
    unfold Incomparable sortsBefore at *
    grind
  · have below := agree b second a first c third
    have above := agree c third a first b second
    unfold Incomparable sortsBefore at *
    grind
  · unfold Incomparable sortsBefore at *
    grind

/-- Where the comparator is a strict weak order, two regular files around another entry are in
the order of their sizes. -/
theorem sizesFollowNames_of_strictWeakOn (weak : StrictWeakOn sortsBefore entries) :
    SizesFollowNames entries := by
  intro a first b second c third ra rb rc ab bc
  have forth : sortsBefore a b ↔ a.name < b.name := sortsBefore_of_right rb
  have onward : sortsBefore b c ↔ b.name < c.name := sortsBefore_of_left rb
  have not_ba : ¬ sortsBefore b a := by
    rw [sortsBefore_of_left rb]
    grind
  have not_cb : ¬ sortsBefore c b := by
    rw [sortsBefore_of_right rb]
    grind
  split
  · have same := weak.incomparable_trans a first b second c third ⟨by grind, not_ba⟩
      ⟨by grind, not_cb⟩
    simp only [Incomparable, sortsBefore_regular ra rc, sortsBefore_regular rc ra] at same
    grind
  · rename_i apart
    rw [← sortsBefore_regular ra rc]
    by_contra not_ac
    have not_bc := weak.not_less_trans third first second not_ac not_ba
    have not_ab := weak.not_less_trans second third first not_cb not_ac
    grind

/-- Whatever a sort by the comparator returns, the regular files in it are by size. -/
theorem sizes_of_ordered {sorted : List M} (ordered : Ordered sortsBefore sorted) :
    (sorted.filter (·.ftype = .regular)).Pairwise fun a b => a.fsize ≤ b.fsize := by
  refine (List.Pairwise.filter _ ordered).imp_of_mem ?_
  intro a b first second later
  simp only [List.mem_filter, decide_eq_true_eq] at first second
  rw [sortsBefore_regular second.2 first.2] at later
  grind

theorem strictWeakOn_iff : StrictWeakOn sortsBefore entries ↔ SizesFollowNames entries := by
  refine ⟨sizesFollowNames_of_strictWeakOn, ?_⟩
  intro agree
  exact {
    irrefl := fun a _ => sortsBefore_irrefl a
    asymm := fun _ _ _ _ => sortsBefore_asymm
    trans := fun _ first _ second _ third => agree.trans first second third
    incomparable_trans := fun _ first _ second _ third =>
      agree.incomparable_trans first second third }

end

/-- **The entries of a directory can be sorted exactly when sizes follow names.** The comparator
never contradicts itself on a pair; over three entries it is a strict weak order, and a sort by
it well defined, if and only if two regular files are in the order of their sizes whenever the
name of another entry lies between theirs. -/
theorem sort_wellDefined_iff (entries : List M) :
    SortWellDefined entries ↔ SizesFollowNames entries := by
  constructor
  · intro sort
    exact sizesFollowNames_of_strictWeakOn sort.weak
  · intro agree
    have weak : StrictWeakOn sortsBefore entries := strictWeakOn_iff.2 agree
    exact ⟨weak, weak.exists_ordered, fun _ _ => sizes_of_ordered⟩

/-- A file `a` of three bytes, a directory `b` and a file `c` of one byte: `a` comes before `b`
and `b` before `c`, but `c` before `a`. -/
theorem sort_cycle :
    let a : M := ⟨[97], 0, .regular, 3⟩
    let b : M := ⟨[98], 0, .directory, 0⟩
    let c : M := ⟨[99], 0, .regular, 1⟩
    sortsBefore a b ∧ sortsBefore b c ∧ sortsBefore c a ∧ ¬ SortWellDefined [a, b, c] := by
  intro a b c
  have ab : sortsBefore a b := by decide
  have bc : sortsBefore b c := by decide
  have ca : sortsBefore c a := by decide
  refine ⟨ab, bc, ca, ?_⟩
  intro sort
  have ac := sort.weak.trans a (by simp) b (by simp) c (by simp) ab bc
  exact sortsBefore_asymm ca ac

end Enuwatch.Scan

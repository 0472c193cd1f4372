import Mathlib.Data.List.Basic
import Mathlib.Tactic.Common

/-!
# Pools of threads of control

The tasks of a concurrent program form a list that a step changes at one place and
sometimes extends. A counting argument adds up what each task contributes:
`total_set` says how the sum moves when one task moves, and `le_total` that a task
never contributes more than there is.
-/

set_option autoImplicit false

namespace Enuwatch.Lib

universe u v

variable {α : Type u} {β : Type v}

/-- What the members of a pool contribute together. -/
def total (f : α → ℕ) : List α → ℕ
  | [] => 0
  | a :: pool => f a + total f pool

@[simp] theorem total_nil (f : α → ℕ) : total f [] = 0 := rfl

@[simp] theorem total_cons (f : α → ℕ) (a : α) (pool : List α) :
    total f (a :: pool) = f a + total f pool :=
  rfl

@[simp] theorem total_append (f : α → ℕ) (first second : List α) :
    total f (first ++ second) = total f first + total f second := by
  induction first with
  | nil => simp
  | cons a first ih => simp [ih, Nat.add_assoc]

/-- The order of the members does not count. -/
theorem total_perm {f : α → ℕ} {first second : List α} (same : first.Perm second) :
    total f first = total f second := by
  induction same with
  | nil => rfl
  | cons a _ ih => rw [total_cons, total_cons, ih]
  | swap a b pool =>
      simp only [total_cons]
      omega
  | trans _ _ ih ih' => exact ih.trans ih'

theorem total_congr {f g : α → ℕ} {pool : List α} (same : ∀ a ∈ pool, f a = g a) :
    total f pool = total g pool := by
  induction pool with
  | nil => rfl
  | cons a pool ih =>
      rw [total_cons, total_cons, same a List.mem_cons_self,
        ih fun b member => same b (List.mem_cons_of_mem _ member)]

/-- What one member contributes changes. -/
theorem total_update [DecidableEq α] (f : α → ℕ) {pool : List α} (nodup : pool.Nodup) {a : α}
    (member : a ∈ pool) (v : ℕ) : total (Function.update f a v) pool + f a = total f pool + v := by
  induction pool with
  | nil => cases member
  | cons b pool ih =>
      obtain ⟨new, nodup⟩ := List.nodup_cons.1 nodup
      rw [total_cons, total_cons]
      obtain rfl | member := List.mem_cons.1 member
      · have others : total (Function.update f a v) pool = total f pool :=
          total_congr fun c among => Function.update_of_ne (ne_of_mem_of_not_mem among new) _ _
        rw [Function.update_self, others]
        omega
      · rw [Function.update_of_ne (ne_of_mem_of_not_mem member new).symm]
        have rest := ih nodup member
        omega

theorem total_flatMap (g : β → ℕ) (h : α → List β) (pool : List α) :
    total g (pool.flatMap h) = total (fun a => total g (h a)) pool := by
  induction pool with
  | nil => rfl
  | cons a pool ih => rw [List.flatMap_cons, total_append, total_cons, ih]

theorem total_map (g : β → ℕ) (h : α → β) (pool : List α) :
    total g (pool.map h) = total (fun a => g (h a)) pool := by
  induction pool with
  | nil => rfl
  | cons a pool ih => rw [List.map_cons, total_cons, total_cons, ih]

theorem total_le_total {f g : α → ℕ} {pool : List α} (less : ∀ a ∈ pool, f a ≤ g a) :
    total f pool ≤ total g pool := by
  induction pool with
  | nil => exact Nat.le_refl _
  | cons a pool ih =>
      rw [total_cons, total_cons]
      exact Nat.add_le_add (less a List.mem_cons_self)
        (ih fun b member => less b (List.mem_cons_of_mem _ member))

/-- Different members that contribute something are members of the larger pool. -/
theorem total_le_of_subset {f : α → ℕ} {first second : List α} (nodup : first.Nodup)
    (inside : ∀ a ∈ first, f a ≠ 0 → a ∈ second) : total f first ≤ total f second := by
  induction first generalizing second with
  | nil => exact Nat.zero_le _
  | cons a first ih =>
      obtain ⟨new, nodup⟩ := List.nodup_cons.1 nodup
      have rest : ∀ b ∈ first, f b ≠ 0 → b ∈ second := fun b member =>
        inside b (List.mem_cons_of_mem _ member)
      rw [total_cons]
      by_cases zero : f a = 0
      · rw [zero, Nat.zero_add]
        exact ih nodup rest
      · obtain ⟨before, after, rfl⟩ := List.append_of_mem (inside a List.mem_cons_self zero)
        have others : total f first ≤ total f (before ++ after) := by
          refine ih nodup fun b member some_ => ?_
          have apart : b ≠ a := fun same => new (same ▸ member)
          simpa [apart] using rest b member some_
        simp only [total_append, total_cons] at others ⊢
        omega

/-- Members that contribute nothing may be left out. -/
theorem total_map_filter {f : α → ℕ} {g : β → ℕ} {h : α → β} {keep : α → Bool} {pool : List α}
    (kept : ∀ a ∈ pool, keep a = true → g (h a) = f a)
    (dropped : ∀ a ∈ pool, ¬ keep a = true → f a = 0) :
    total g ((pool.filter keep).map h) = total f pool := by
  induction pool with
  | nil => rfl
  | cons a pool ih =>
      have rest := ih (fun b member => kept b (List.mem_cons_of_mem _ member))
        fun b member => dropped b (List.mem_cons_of_mem _ member)
      by_cases here : keep a = true
      · rw [List.filter_cons_of_pos here, List.map_cons, total_cons, total_cons, rest,
          kept a List.mem_cons_self here]
      · rw [List.filter_cons_of_neg here, total_cons, rest, dropped a List.mem_cons_self here,
          Nat.zero_add]

/-- Two kinds of members that are equally many in each class are equally many. -/
theorem countP_eq_of_classes [DecidableEq β] (kind : α → β) (p q : α → Bool) (pool : List α)
    (each : ∀ k, (pool.filter (kind · = k)).countP p = (pool.filter (kind · = k)).countP q) :
    pool.countP p = pool.countP q := by
  have count : ∀ (r : α → Bool) k,
      ((pool.filter r).map kind).count k = (pool.filter (kind · = k)).countP r := by
    intro r k
    rw [List.count, List.countP_map, List.countP_filter, List.countP_filter]
    exact List.countP_congr fun a _ => by simp [and_comm]
  have same : ((pool.filter p).map kind).Perm ((pool.filter q).map kind) :=
    List.perm_iff_count.2 fun k => by rw [count, count, each]
  simpa [List.countP_eq_length_filter] using same.length_eq

/-- One member moves from `a` to `b`. -/
theorem total_set {f : α → ℕ} {pool : List α} {i : ℕ} {a : α} (here : pool[i]? = some a) (b : α) :
    total f (pool.set i b) + f a = total f pool + f b := by
  induction pool generalizing i with
  | nil => simp at here
  | cons head pool ih =>
      cases i with
      | zero =>
          simp only [List.getElem?_cons_zero, Option.some.injEq] at here
          subst here
          simp only [List.set_cons_zero, total_cons]
          omega
      | succ i =>
          have rest := ih (by simpa using here)
          simp only [List.set_cons_succ, total_cons]
          omega

/-- One member moves, and what the others contribute stays the same. -/
theorem total_set_of_congr {f g : α → ℕ} {pool : List α} {i : ℕ} {a : α} (here : pool[i]? = some a)
    (others : ∀ j c, pool[j]? = some c → j ≠ i → g c = f c) (b : α) :
    total g (pool.set i b) + f a = total f pool + g b := by
  induction pool generalizing i with
  | nil => simp at here
  | cons head pool ih =>
      cases i with
      | zero =>
          obtain rfl : head = a := by simpa using here
          have rest : total g pool = total f pool := by
            refine total_congr fun c member => ?_
            obtain ⟨j, found⟩ := List.mem_iff_getElem?.1 member
            exact others (j + 1) c (by simpa using found) (by omega)
          rw [List.set_cons_zero, total_cons, total_cons, rest]
          omega
      | succ i =>
          have first := others 0 head (by simp) (by omega)
          have rest := ih (by simpa using here) fun j c found apart =>
            others (j + 1) c (by simpa using found) (by omega)
          rw [List.set_cons_succ, total_cons, total_cons, first]
          omega

theorem le_total {f : α → ℕ} {pool : List α} {a : α} (member : a ∈ pool) :
    f a ≤ total f pool := by
  induction member with
  | head pool => simp
  | tail b _ ih =>
      rw [total_cons]
      omega

theorem total_eq_zero {f : α → ℕ} {pool : List α} (none : ∀ a ∈ pool, f a = 0) :
    total f pool = 0 := by
  induction pool with
  | nil => rfl
  | cons a pool ih =>
      rw [total_cons, none a (List.mem_cons_self ..),
        ih fun b member => none b (List.mem_cons_of_mem _ member)]

/-- Two members at different places contribute together at most the whole. -/
theorem add_le_total {f : α → ℕ} {pool : List α} {i j : ℕ} {a b : α} (apart : i ≠ j)
    (first : pool[i]? = some a) (second : pool[j]? = some b) : f a + f b ≤ total f pool := by
  induction pool generalizing i j with
  | nil => simp at first
  | cons head pool ih =>
      rw [total_cons]
      cases i with
      | zero =>
          cases j with
          | zero => exact absurd rfl apart
          | succ j =>
              simp only [List.getElem?_cons_zero, Option.some.injEq] at first
              subst first
              have rest := le_total (f := f) (List.mem_of_getElem? (by simpa using second))
              omega
      | succ i =>
          cases j with
          | zero =>
              simp only [List.getElem?_cons_zero, Option.some.injEq] at second
              subst second
              have rest := le_total (f := f) (List.mem_of_getElem? (by simpa using first))
              omega
          | succ j =>
              rw [List.getElem?_cons_succ] at first second
              have rest := ih (by omega) first second
              omega

/-- A property of all members survives a move of one. -/
theorem forall_mem_set {P : α → Prop} {pool : List α} (all : ∀ a ∈ pool, P a) {b : α} (moved : P b)
    (i : ℕ) : ∀ a ∈ pool.set i b, P a := by
  intro a member
  rcases List.mem_or_eq_of_mem_set member with old | rfl
  · exact all a old
  · exact moved

/-- The same, when the other members need not keep it on their own. -/
theorem forall_mem_set_of_ne {P : α → Prop} {pool : List α} {i : ℕ}
    (others : ∀ j a, j ≠ i → pool[j]? = some a → P a) {b : α} (moved : P b) :
    ∀ a ∈ pool.set i b, P a := by
  intro a member
  obtain ⟨j, inside, rfl⟩ := List.getElem_of_mem member
  rw [List.getElem_set]
  split
  · exact moved
  · rename_i apart
    exact others j _ (Ne.symm apart) (List.getElem?_eq_getElem _)

/-- What holds of all members after one has moved holds of the others before. -/
theorem forall_mem_of_set {P : α → Prop} {pool : List α} {i : ℕ} {a b : α}
    (here : pool[i]? = some a) (all : ∀ x ∈ pool.set i b, P x) (own : P a) : ∀ x ∈ pool, P x := by
  intro x member
  obtain ⟨j, there⟩ := List.mem_iff_getElem?.1 member
  by_cases moved : i = j
  · subst moved
    rw [here, Option.some.injEq] at there
    exact there ▸ own
  · exact all x (List.mem_of_getElem? (i := j) (by rw [List.getElem?_set_ne moved, there]))

/-- A move that keeps a key keeps the list of keys. -/
theorem map_set_of_eq {g : α → β} {pool : List α} {i : ℕ} {a b : α} (here : pool[i]? = some a)
    (same : g b = g a) : (pool.set i b).map g = pool.map g := by
  refine List.ext_getElem? fun j => ?_
  rw [List.getElem?_map, List.getElem?_map, List.getElem?_set]
  split
  · rename_i at_place
    subst at_place
    obtain ⟨inside, there⟩ := List.getElem?_eq_some_iff.1 here
    simp [inside, there, same]
  · rfl

/-- What stands at a place after a move has the key of what stood there. -/
theorem exists_getElem?_set {g : α → β} {pool : List α} {i j : ℕ} {a b c : α}
    (here : pool[i]? = some a) (same : g b = g a) (there : pool[j]? = some c) :
    ∃ c', (pool.set i b)[j]? = some c' ∧ g c' = g c := by
  obtain ⟨inside, -⟩ := List.getElem?_eq_some_iff.1 there
  by_cases moved : i = j
  · subst moved
    rw [here, Option.some.injEq] at there
    exact ⟨b, by simp [inside], by rw [same, there]⟩
  · exact ⟨c, by rw [List.getElem?_set_ne moved, there], rfl⟩

/-- What only one member has is what they all have. -/
theorem flatMap_eq_of_others {f : α → List β} {pool : List α} {i : ℕ} {a : α}
    (here : pool[i]? = some a) (others : ∀ j b, j ≠ i → pool[j]? = some b → f b = []) :
    pool.flatMap f = f a := by
  induction pool generalizing i with
  | nil => simp at here
  | cons head pool ih =>
      cases i with
      | zero =>
          obtain rfl : head = a := by simpa using here
          have rest : pool.flatMap f = [] := by
            refine List.flatMap_eq_nil_iff.2 fun b member => ?_
            obtain ⟨j, found⟩ := List.mem_iff_getElem?.1 member
            exact others (j + 1) b (by omega) (by simpa using found)
          rw [List.flatMap_cons, rest, List.append_nil]
      | succ i =>
          rw [List.flatMap_cons, others 0 head (by omega) (by simp), List.nil_append]
          exact ih (by simpa using here) fun j b apart found =>
            others (j + 1) b (by omega) (by simpa using found)

/-- Where a member of a list with a new last one stands. -/
theorem split_concat {l before after : List α} {a x : α} (split : l ++ [a] = before ++ x :: after) :
    before = l ∧ x = a ∧ after = [] ∨ ∃ rest, after = rest ++ [a] ∧ l = before ++ x :: rest := by
  rcases List.eq_nil_or_concat after with rfl | ⟨rest, last, rfl⟩
  · obtain ⟨rfl, same⟩ := List.append_inj' split rfl
    exact .inl ⟨rfl, (List.cons.inj same).1.symm, rfl⟩
  · rw [List.concat_eq_append, ← List.cons_append, ← List.append_assoc] at split
    obtain ⟨rfl, same⟩ := List.append_inj' split rfl
    exact .inr ⟨rest, by rw [List.concat_eq_append, ← same], rfl⟩

end Enuwatch.Lib

import Enuwatch.Lib.Transition
import Mathlib.Logic.Relation

/-!
# Exploring what lies below a start

A worklist takes an element from its front, keeps it and puts the elements it leads to in its
place. It never looks whether it has seen an element before.

What is kept at the end is what can be reached from the start (`mem_done_iff`). The exploration
ends exactly when the start is accessible, that is when no way down from it is infinite
(`explore_terminates_iff`). Where every element is led to from one place only and the start from
none, each is kept once (`nodup_explored`), before those it leads to (`ordered_explored`).
-/

set_option autoImplicit false

namespace Enuwatch.Lib

universe u

variable {α : Type u}

/-- What is still to be looked at, and what was. -/
structure Frontier (α : Type u) where
  todo : List α
  done : List α

/-- Take the first element, and put those it leads to in its place. -/
def explore (next : α → List α) (f : Frontier α) (_ : Unit) : Option (Frontier α) :=
  match f.todo with
  | [] => none
  | x :: rest => some ⟨next x ++ rest, f.done ++ [x]⟩

/-- The start is all there is to look at. -/
def Frontier.start (x : α) : Frontier α := ⟨[x], []⟩

/-- The second element can be reached from the first. -/
def Leads (next : α → List α) : α → α → Prop := Relation.ReflTransGen fun a b => b ∈ next a

variable {next : α → List α} {start : α} {f f' : Frontier α}

theorem explore_eq_some : explore next f () = some f' ↔
    ∃ x rest, f.todo = x :: rest ∧ f' = ⟨next x ++ rest, f.done ++ [x]⟩ := by
  unfold explore
  split
  · rename_i none
    simp [none]
  · rename_i x rest top
    simp [top, eq_comm]

/-! ## What is found -/

/-- What an exploration has found so far. -/
structure Explored (next : α → List α) (start : α) (f : Frontier α) : Prop where
  sound : ∀ x ∈ f.done ++ f.todo, Leads next start x
  begun : start ∈ f.done ++ f.todo
  closed : ∀ x ∈ f.done, ∀ y ∈ next x, y ∈ f.done ++ f.todo

theorem Explored.step (explored : Explored next start f) (stepped : explore next f () = some f') :
    Explored next start f' := by
  obtain ⟨x, rest, top, rfl⟩ := explore_eq_some.1 stepped
  obtain ⟨sound, begun, closed⟩ := explored
  have here : Leads next start x := sound x (by simp [top])
  have kept : ∀ y ∈ f.done ++ f.todo, y ∈ (f.done ++ [x]) ++ (next x ++ rest) := by
    intro y found
    rw [top] at found
    simp only [List.mem_append, List.mem_cons, List.not_mem_nil, or_false] at found ⊢
    tauto
  refine ⟨?_, kept start begun, ?_⟩
  · intro y found
    simp only [List.mem_append, List.mem_singleton] at found
    obtain (old | rfl) | new | old := found
    · exact sound y (List.mem_append_left _ old)
    · exact here
    · exact here.tail new
    · exact sound y (by simp [top, old])
  · intro y among z below
    rcases List.mem_append.1 among with old | new
    · exact kept z (closed y old z below)
    · rw [List.mem_singleton.1 new] at below
      simp [below]

theorem reachable_explored (reachable : Reachable (explore next) (.start start) f) :
    Explored next start f := by
  refine reachable.invariant ?_ fun _ _ _ before stepped => before.step stepped
  exact ⟨by simp [Frontier.start, Leads, Relation.ReflTransGen.refl], by simp [Frontier.start],
    by simp [Frontier.start]⟩

/-- **An exploration that has ended has found what can be reached, and nothing else.** -/
theorem mem_done_iff (reachable : Reachable (explore next) (.start start) f) (over_ : f.todo = [])
    {x : α} : x ∈ f.done ↔ Leads next start x := by
  obtain ⟨sound, begun, closed⟩ := reachable_explored reachable
  simp only [over_, List.append_nil] at sound begun closed
  refine ⟨sound x, ?_⟩
  intro leads
  induction leads with
  | refl => exact begun
  | tail _ last ih => exact closed _ ih _ last

/-! ## Each once -/

/-- Every element is led to from one place only, and the start from none. -/
structure Treelike (next : α → List α) (start : α) : Prop where
  nodup : ∀ x, (next x).Nodup
  parent : ∀ x y z, z ∈ next x → z ∈ next y → x = y
  root : ∀ x, start ∉ next x

/-- Everything that was found is different, and was led to by what was looked at. -/
structure Once (next : α → List α) (start : α) (f : Frontier α) : Prop where
  nodup : (f.done ++ f.todo).Nodup
  parent : ∀ y ∈ f.done ++ f.todo, y = start ∨ ∃ x ∈ f.done, y ∈ next x

/-- What an element leads to was not found before. -/
theorem Once.fresh (tree : Treelike next start) (once : Once next start f) {x : α}
    (due : x ∈ f.todo) : ∀ y ∈ next x, y ∉ f.done ++ f.todo := by
  intro y below found
  rcases once.parent y found with rfl | ⟨x', earlier, again⟩
  · exact tree.root x below
  · -- Then `x` itself would be done.
    rw [tree.parent x' x y again below] at earlier
    exact (List.nodup_append.1 once.nodup).2.2 x earlier x due rfl

theorem Once.step (tree : Treelike next start) (once : Once next start f)
    (stepped : explore next f () = some f') : Once next start f' := by
  obtain ⟨x, rest, top, rfl⟩ := explore_eq_some.1 stepped
  have fresh := once.fresh tree (x := x) (by simp [top])
  obtain ⟨nodup, parent⟩ := once
  rw [top] at nodup parent fresh
  have perm : ((f.done ++ [x]) ++ (next x ++ rest)).Perm (next x ++ (f.done ++ x :: rest)) := by
    have swap : ((f.done ++ [x]) ++ (next x ++ rest)).Perm
        (next x ++ ((f.done ++ [x]) ++ rest)) := by
      rw [← List.append_assoc, ← List.append_assoc (next x)]
      exact List.Perm.append_right rest List.perm_append_comm
    simpa using swap
  refine ⟨perm.nodup_iff.2 (List.nodup_append.2 ⟨tree.nodup x, nodup, ?_⟩), ?_⟩
  · rintro y below z found rfl
    exact fresh y below found
  · intro y found
    rcases List.mem_append.1 (perm.mem_iff.1 found) with new | old
    · exact .inr ⟨x, by simp, new⟩
    · refine (parent y old).imp_right ?_
      rintro ⟨x', earlier, below⟩
      exact ⟨x', List.mem_append_left _ earlier, below⟩

/-- **In a tree nothing is found twice.** -/
theorem nodup_explored (tree : Treelike next start)
    (reachable : Reachable (explore next) (.start start) f) : Once next start f := by
  refine reachable.invariant ?_ fun _ _ _ before stepped => before.step tree stepped
  exact ⟨by simp [Frontier.start], by simp [Frontier.start]⟩

/-- **In a tree nothing is looked at after what it leads to.** -/
theorem ordered_explored (tree : Treelike next start)
    (reachable : Reachable (explore next) (.start start) f) :
    f.done.Pairwise fun x y => x ∉ next y := by
  let Ordered (f : Frontier α) : Prop :=
    Once next start f ∧ f.done.Pairwise fun x y => x ∉ next y
  suffices both : Ordered f from both.2
  refine reachable.invariant ⟨nodup_explored tree (.refl _), .nil⟩ ?_
  rintro f i f' ⟨once, ordered⟩ stepped
  refine ⟨once.step tree stepped, ?_⟩
  obtain ⟨x, rest, top, rfl⟩ := explore_eq_some.1 stepped
  refine List.pairwise_append.2 ⟨ordered, List.pairwise_singleton _ _, ?_⟩
  intro y earlier z last below
  obtain rfl := List.mem_singleton.1 last
  exact once.fresh tree (x := z) (by simp [top]) y below (List.mem_append_left _ earlier)

/-! ## Whether it ends -/

/-- No way down from the element is infinite. -/
def Grounded (next : α → List α) (x : α) : Prop := Acc (fun b a => b ∈ next a) x

/-- What is in front of the list is explored in finitely many steps. -/
def Clears (next : α → List α) (front : List α) : Prop :=
  ∀ rest done, ∃ done', Reachable (explore next) ⟨front ++ rest, done⟩ ⟨rest, done'⟩

/-- The elements of a list are explored one after the other. -/
theorem clears_of_forall {front : List α} (each : ∀ x ∈ front, Clears next [x]) :
    Clears next front := by
  induction front with
  | nil => exact fun rest done => ⟨done, .refl _⟩
  | cons x front ih =>
      intro rest done
      obtain ⟨done₁, first⟩ := each x List.mem_cons_self (front ++ rest) done
      obtain ⟨done₂, others⟩ := ih (fun y among => each y (List.mem_cons_of_mem _ among)) rest done₁
      exact ⟨done₂, first.trans others⟩

/-- An element without an infinite way down is explored with all that is below it. -/
theorem Grounded.clears {x : α} (grounded : Grounded next x) : Clears next [x] := by
  induction grounded with
  | intro x _ ih =>
      intro rest done
      obtain ⟨done', below⟩ := clears_of_forall ih rest (done ++ [x])
      have taken : explore next ⟨[x] ++ rest, done⟩ () = some ⟨next x ++ rest, done ++ [x]⟩ := rfl
      exact ⟨done', ((Reachable.refl _).tail taken).trans below⟩

/-- What an ending exploration had still to look at has no infinite way down. -/
theorem grounded_of_run {inputs : List Unit} (reaches : run (explore next) f inputs = some f')
    (over_ : f'.todo = []) : ∀ x ∈ f.todo, Grounded next x := by
  induction inputs generalizing f with
  | nil =>
      cases reaches
      simp [over_]
  | cons _ inputs ih =>
      rw [run_cons] at reaches
      obtain ⟨middle, stepped, reaches⟩ := Option.bind_eq_some_iff.1 reaches
      obtain ⟨x, rest, top, rfl⟩ := explore_eq_some.1 stepped
      have later := ih reaches
      simp only [List.mem_append] at later
      rw [top]
      intro y among
      rcases List.mem_cons.1 among with rfl | among
      · exact Acc.intro _ fun z below => later z (.inl below)
      · exact later y (.inr among)

/-- **An exploration ends exactly when no way down from the start is infinite.** -/
theorem explore_terminates_iff :
    (∃ f, Reachable (explore next) (.start start) f ∧ f.todo = []) ↔ Grounded next start := by
  constructor
  · rintro ⟨f, ⟨inputs, reaches⟩, over_⟩
    exact grounded_of_run reaches over_ start (by simp [Frontier.start])
  · intro grounded
    obtain ⟨done, ends⟩ := grounded.clears [] []
    exact ⟨_, ends, rfl⟩

end Enuwatch.Lib

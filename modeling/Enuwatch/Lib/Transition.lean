import Mathlib.Tactic.Common

/-!
# Runs of a partial step function

A machine is a partial function `step : σ → ι → Option σ`: on an input it either
moves to a new state or refuses the input. A run feeds it a list of inputs.

Every property of whole runs in the development is obtained from a property of
one step by `run_induction`, or by `run_invariant` where the inputs do not
matter.
-/

set_option autoImplicit false

namespace Enuwatch.Lib

universe u v

variable {σ : Type u} {ι : Type v} (step : σ → ι → Option σ)

/-- Feed a list of inputs to the machine. -/
def run : σ → List ι → Option σ
  | s, [] => some s
  | s, i :: inputs =>
      match step s i with
      | none => none
      | some s' => run s' inputs

variable {step}

@[simp] theorem run_nil (s : σ) : run step s [] = some s := rfl

theorem run_cons (s : σ) (i : ι) (inputs : List ι) :
    run step s (i :: inputs) = (step s i).bind fun s' => run step s' inputs := by
  simp only [run]
  cases step s i <;> rfl

theorem run_append (s : σ) (first second : List ι) :
    run step s (first ++ second) = (run step s first).bind fun s' => run step s' second := by
  induction first generalizing s with
  | nil => rfl
  | cons i first ih =>
      rw [List.cons_append, run_cons, run_cons, Option.bind_assoc]
      congr 1
      funext s'
      exact ih s'

theorem run_append_of_eq {s s' : σ} {first second : List ι} (reaches : run step s first = some s') :
    run step s (first ++ second) = run step s' second := by
  rw [run_append, reaches]
  rfl

/-- Induction along a run: what the start satisfies and every step of the run
carries on holds at the end. The step may use that its input is one of the
run's. -/
theorem run_induction {P : σ → Prop} {inputs : List ι} {s s' : σ} (start : P s)
    (carry : ∀ s i s', i ∈ inputs → P s → step s i = some s' → P s')
    (reaches : run step s inputs = some s') : P s' := by
  induction inputs generalizing s with
  | nil =>
      cases reaches
      exact start
  | cons i inputs ih =>
      simp only [run] at reaches
      split at reaches
      · cases reaches
      · rename_i next moved
        exact ih (carry s i next (List.mem_cons_self ..) start moved)
          (fun s j s' member => carry s j s' (List.mem_cons_of_mem _ member)) reaches

/-- An invariant of the step function is an invariant of its runs. -/
theorem run_invariant {P : σ → Prop} (carry : ∀ s i s', P s → step s i = some s' → P s')
    {inputs : List ι} {s s' : σ} (start : P s) (reaches : run step s inputs = some s') : P s' :=
  run_induction start (fun s i s' _ => carry s i s') reaches

/-- Every step of a run meets a condition on the state it starts from and its input. -/
def Along (step : σ → ι → Option σ) (P : σ → ι → Prop) : σ → List ι → Prop
  | _, [] => True
  | s, i :: inputs =>
      P s i ∧
        match step s i with
        | none => True
        | some s' => Along step P s' inputs

instance Along.decidable {P : σ → ι → Prop} [∀ s i, Decidable (P s i)] :
    ∀ s inputs, Decidable (Along step P s inputs)
  | _, [] => isTrue trivial
  | s, i :: inputs =>
      have : Decidable (match step s i with
        | none => True
        | some s' => Along step P s' inputs) :=
        match step s i with
        | none => isTrue trivial
        | some s' => Along.decidable s' inputs
      inferInstanceAs (Decidable (P s i ∧ _))

/-- Induction along a run whose steps all meet a condition. -/
theorem Along.induction {P : σ → ι → Prop} {I : σ → Prop} {inputs : List ι} {s s' : σ}
    (along : Along step P s inputs) (start : I s)
    (carry : ∀ s i s', P s i → I s → step s i = some s' → I s')
    (reaches : run step s inputs = some s') : I s' := by
  induction inputs generalizing s with
  | nil =>
      cases reaches
      exact start
  | cons i inputs ih =>
      obtain ⟨meets, rest⟩ := along
      simp only [run] at reaches
      split at reaches
      · cases reaches
      · rename_i next moved
        rw [moved] at rest
        exact ih rest (carry s i next meets start moved) reaches

/-- Two runs on the same inputs, each step of which keeps the states related: both are refused or
both get through. -/
theorem Along.run_rel {P Q : σ → ι → Prop} {R : σ → σ → Prop}
    (keeps : ∀ s t i, R s t → P s i → Q t i → Option.Rel R (step s i) (step t i)) {inputs : List ι}
    {s t : σ} (first : Along step P s inputs) (second : Along step Q t inputs) (start : R s t) :
    Option.Rel R (run step s inputs) (run step t inputs) := by
  induction inputs generalizing s t with
  | nil => exact .some start
  | cons i inputs ih =>
      obtain ⟨here, first⟩ := first
      obtain ⟨here', second⟩ := second
      have moved := keeps s t i start here here'
      rw [run_cons, run_cons]
      generalize step s i = next at first moved ⊢
      generalize step t i = next' at second moved ⊢
      cases moved with
      | none => exact .none
      | some related => exact ih first second related

/-- A reachable state: some run from the start ends there. -/
def Reachable (step : σ → ι → Option σ) (start s : σ) : Prop :=
  ∃ inputs, run step start inputs = some s

theorem Reachable.refl (s : σ) : Reachable step s s := ⟨[], rfl⟩

theorem Reachable.trans {a b c : σ} (first : Reachable step a b) (second : Reachable step b c) :
    Reachable step a c := by
  obtain ⟨inputs, reaches⟩ := first
  obtain ⟨more, further⟩ := second
  exact ⟨inputs ++ more, (run_append_of_eq reaches).trans further⟩

theorem Reachable.tail {start s s' : σ} {i : ι} (reachable : Reachable step start s)
    (moved : step s i = some s') : Reachable step start s' :=
  reachable.trans ⟨[i], by simp [run, moved]⟩

theorem Reachable.invariant {P : σ → Prop} {start s : σ} (reachable : Reachable step start s)
    (initial : P start) (carry : ∀ s i s', P s → step s i = some s' → P s') : P s := by
  obtain ⟨inputs, reaches⟩ := reachable
  exact run_invariant carry initial reaches

section Potential

/-! A potential is a number that every step lowers, except that some inputs may raise it by a
fixed amount. It bounds the length of a run, and a run that can always go on without these inputs
comes to an end. -/

/-- A run is no longer than the potential it starts with and what its charged inputs add. -/
theorem run_length_le {P : σ → Prop} {Φ : σ → ℕ} {charged : ι → Bool} {cost : ℕ}
    (keep : ∀ s i s', P s → step s i = some s' → P s')
    (pays : ∀ s i s', P s → step s i = some s' → Φ s' + 1 ≤ Φ s + if charged i then cost else 0)
    {inputs : List ι} {s s' : σ} (start : P s) (reaches : run step s inputs = some s') :
    inputs.length + Φ s' ≤ Φ s + cost * inputs.countP charged := by
  induction inputs generalizing s with
  | nil =>
      cases reaches
      simp
  | cons i inputs ih =>
      rw [run_cons, Option.bind_eq_some_iff] at reaches
      obtain ⟨next, moved, reaches⟩ := reaches
      have first := pays s i next start moved
      have rest := ih (keep s i next start moved) reaches
      rw [List.length_cons, List.countP_cons, Nat.mul_add]
      split at first
      · rename_i expensive
        rw [if_pos expensive, Nat.mul_one]
        omega
      · omega

end Potential

section Map

variable {τ : Type*} {step' : τ → ι → Option τ} {h : σ → τ}

/-- A map that commutes with the steps commutes with the runs. -/
theorem run_map (commutes : ∀ s i, step' (h s) i = (step s i).map h) (s : σ) (inputs : List ι) :
    run step' (h s) inputs = (run step s inputs).map h := by
  induction inputs generalizing s with
  | nil => rfl
  | cons i inputs ih =>
      rw [run_cons, run_cons, commutes, Option.bind_map, Option.map_bind]
      apply congrArg
      funext next
      exact ih next

/-- Its images are the states that can be reached. -/
theorem reachable_map (commutes : ∀ s i, step' (h s) i = (step s i).map h) {start : σ} {t : τ} :
    Reachable step' (h start) t ↔ ∃ s, Reachable step start s ∧ t = h s := by
  constructor
  · rintro ⟨inputs, reaches⟩
    rw [run_map commutes] at reaches
    obtain ⟨s, reached, rfl⟩ := Option.map_eq_some_iff.1 reaches
    exact ⟨s, ⟨inputs, reached⟩, rfl⟩
  · rintro ⟨s, ⟨inputs, reached⟩, rfl⟩
    exact ⟨inputs, by rw [run_map commutes, reached, Option.map_some]⟩

end Map

/-- Where every step lowers a weight, some run goes on until no step is left. -/
theorem exists_final (weight : σ → ℕ) (lowers : ∀ s i s', step s i = some s' → weight s' < weight s)
    (s : σ) : ∃ s', Reachable step s s' ∧ ∀ i, step s' i = none := by
  induction bound : weight s using Nat.strongRecOn generalizing s with
  | ind n ih =>
      by_cases final : ∀ i, step s i = none
      · exact ⟨s, Reachable.refl s, final⟩
      · push Not at final
        obtain ⟨i, moves⟩ := final
        obtain ⟨next, moved⟩ := Option.ne_none_iff_exists'.1 moves
        obtain ⟨s', further, final⟩ := ih (weight next) (bound ▸ lowers s i next moved) next rfl
        exact ⟨s', ((Reachable.refl s).tail moved).trans further, final⟩

end Enuwatch.Lib

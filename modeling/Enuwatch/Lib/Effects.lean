import Mathlib.Tactic.Common

/-!
# Weakest preconditions for programs with state and early exit

A program that reads and writes a state, and that may leave early with an exit
value while keeping the state it reached, is an `EStateM`. Its specification has
two postconditions: one for the normal return and one for the exits.

`wp x Q E s` says that running `x` from `s` ends in `Q` when it returns and in
`E` when it exits. The rules below push it through the program text, so a proof
about a program is a proof about its parts (`wp_bind`), and a specification of a
part is used under weaker postconditions (`wp_mono`).

`wp₂` compares the runs of two programs from two states: they return together or
they exit together, and a postcondition relates what they come to.
-/

set_option autoImplicit false

namespace Enuwatch.Lib

universe u

variable {ε σ α β : Type u}

/-- Running `x` from `s` returns into `Q` or exits into `E`. -/
def wp (x : EStateM ε σ α) (Q : α → σ → Prop) (E : ε → σ → Prop) (s : σ) : Prop :=
  match x s with
  | .ok a s' => Q a s'
  | .error e s' => E e s'

variable {Q Q' : α → σ → Prop} {E E' : ε → σ → Prop} {s : σ}

theorem wp_ok {x : EStateM ε σ α} {a : α} {s' : σ} (returned : x s = .ok a s') :
    wp x Q E s ↔ Q a s' := by
  simp only [wp, returned]

theorem wp_error {x : EStateM ε σ α} {e : ε} {s' : σ} (exited : x s = .error e s') :
    wp x Q E s ↔ E e s' := by
  simp only [wp, exited]

@[simp] theorem wp_pure (a : α) : wp (pure a : EStateM ε σ α) Q E s ↔ Q a s := Iff.rfl

@[simp] theorem wp_throw (e : ε) : wp (throw e : EStateM ε σ α) Q E s ↔ E e s := Iff.rfl

@[simp] theorem wp_get {Q : σ → σ → Prop} :
    wp (get : EStateM ε σ σ) Q E s ↔ Q s s := Iff.rfl

@[simp] theorem wp_set {Q : PUnit → σ → Prop} (s' : σ) :
    wp (set s' : EStateM ε σ PUnit) Q E s ↔ Q ⟨⟩ s' := Iff.rfl

@[simp] theorem wp_modify {Q : PUnit → σ → Prop} (f : σ → σ) :
    wp (modify f : EStateM ε σ PUnit) Q E s ↔ Q ⟨⟩ (f s) := Iff.rfl

@[simp] theorem wp_bind (x : EStateM ε σ α) (f : α → EStateM ε σ β) {Q : β → σ → Prop} :
    wp (x >>= f) Q E s ↔ wp x (fun a s' => wp (f a) Q E s') E s := by
  simp only [wp, bind, EStateM.bind]
  cases x s <;> exact Iff.rfl

@[simp] theorem wp_ite (c : Prop) [Decidable c] (x y : EStateM ε σ α) :
    wp (if c then x else y) Q E s ↔ (c → wp x Q E s) ∧ (¬ c → wp y Q E s) := by
  by_cases holds : c <;> simp [holds]

/-- A specification may be used under weaker postconditions. -/
theorem wp_mono {x : EStateM ε σ α} (spec : wp x Q E s)
    (normal : ∀ a s', Q a s' → Q' a s') (early : ∀ e s', E e s' → E' e s') :
    wp x Q' E' s := by
  unfold wp at spec ⊢
  cases outcome : x s with
  | ok a s' =>
      rw [outcome] at spec
      exact normal a s' spec
  | error e s' =>
      rw [outcome] at spec
      exact early e s' spec

/-- Two specifications of one program hold together. -/
theorem wp_and {x : EStateM ε σ α} (first : wp x Q E s) (second : wp x Q' E' s) :
    wp x (fun a s' => Q a s' ∧ Q' a s') (fun e s' => E e s' ∧ E' e s') s := by
  unfold wp at first second ⊢
  cases outcome : x s with
  | ok a s' =>
      rw [outcome] at first second
      exact ⟨first, second⟩
  | error e s' =>
      rw [outcome] at first second
      exact ⟨first, second⟩

/-! ## What a program leaves alone -/

universe v

variable {γ : Type v} {I : σ → γ}

/-- The program leaves a quantity of the state as it is, however it ends. -/
def Preserves (I : σ → γ) (x : EStateM ε σ α) : Prop :=
  ∀ s, wp x (fun _ s' => I s' = I s) (fun _ s' => I s' = I s) s

namespace Preserves

theorem pure (a : α) : Preserves I (Pure.pure a : EStateM ε σ α) := fun _ => rfl

theorem throw (e : ε) : Preserves I (throwThe ε e : EStateM ε σ α) := fun _ => rfl

theorem modify {f : σ → σ} (same : ∀ s, I (f s) = I s) :
    Preserves I (modifyGet fun s => (⟨⟩, f s) : EStateM ε σ PUnit) :=
  same

theorem bind {x : EStateM ε σ α} {f : α → EStateM ε σ β} (first : Preserves I x)
    (second : ∀ a, Preserves I (f a)) : Preserves I (x >>= f) := by
  intro s
  rw [wp_bind]
  refine wp_mono (first s) ?_ fun _ _ => id
  intro a s' same
  exact wp_mono (second a s') (fun _ _ again => again.trans same) fun _ _ again => again.trans same

/-- Reading the state first changes nothing. -/
theorem get {f : σ → EStateM ε σ β} (rest : ∀ s, Preserves I (f s)) :
    Preserves I (MonadState.get >>= f) :=
  fun s => rest s s

end Preserves

/-! ## Two runs side by side -/

section Pair

variable {α' β' : Type u} {x : EStateM ε σ α} {y : EStateM ε σ α'}
  {Q Q' : α → α' → σ → σ → Prop} {E E' : ε → ε → σ → σ → Prop} {s t : σ}

/-- Running `x` from `s` and `y` from `t`: both return into `Q`, or both exit into `E`. -/
def wp₂ (x : EStateM ε σ α) (y : EStateM ε σ α') (Q : α → α' → σ → σ → Prop)
    (E : ε → ε → σ → σ → Prop) (s t : σ) : Prop :=
  match x s, y t with
  | .ok a s', .ok b t' => Q a b s' t'
  | .error e s', .error f t' => E e f s' t'
  | _, _ => False

theorem wp₂_pure {a : α} {b : α'} (post : Q a b s t) :
    wp₂ (pure a : EStateM ε σ α) (pure b : EStateM ε σ α') Q E s t := post

theorem wp₂_throw {e f : ε} (post : E e f s t) :
    wp₂ (throw e : EStateM ε σ α) (throw f : EStateM ε σ α') Q E s t := post

theorem wp₂_mono (spec : wp₂ x y Q E s t) (normal : ∀ a b s' t', Q a b s' t' → Q' a b s' t')
    (early : ∀ e f s' t', E e f s' t' → E' e f s' t') : wp₂ x y Q' E' s t := by
  unfold wp₂ at spec ⊢
  cases first : x s with
  | ok a s' =>
      cases second : y t with
      | ok b t' =>
          rw [first, second] at spec
          exact normal a b s' t' spec
      | error f t' =>
          rw [first, second] at spec
          exact spec
  | error e s' =>
      cases second : y t with
      | ok b t' =>
          rw [first, second] at spec
          exact spec
      | error f t' =>
          rw [first, second] at spec
          exact early e f s' t' spec

theorem wp₂_bind {f : α → EStateM ε σ β} {g : α' → EStateM ε σ β'} {R : β → β' → σ → σ → Prop}
    (spec : wp₂ x y (fun a b s' t' => wp₂ (f a) (g b) R E s' t') E s t) :
    wp₂ (x >>= f) (y >>= g) R E s t := by
  unfold wp₂ at spec ⊢
  simp only [bind, EStateM.bind]
  cases first : x s with
  | ok a s' =>
      cases second : y t with
      | ok b t' =>
          rw [first, second] at spec
          exact spec
      | error e t' =>
          rw [first, second] at spec
          exact spec.elim
  | error e s' =>
      cases second : y t with
      | ok b t' =>
          rw [first, second] at spec
          exact spec.elim
      | error f t' =>
          rw [first, second] at spec
          exact spec

/-- Two programs one after the other, given what the first ones come to. -/
theorem wp₂_seq {f : α → EStateM ε σ β} {g : α' → EStateM ε σ β'} {R : β → β' → σ → σ → Prop}
    (spec : wp₂ x y Q E s t) (rest : ∀ a b s' t', Q a b s' t' → wp₂ (f a) (g b) R E s' t') :
    wp₂ (x >>= f) (y >>= g) R E s t :=
  wp₂_bind (wp₂_mono spec rest fun _ _ _ _ => id)

theorem wp₂_get {f : σ → EStateM ε σ β} {g : σ → EStateM ε σ β'} {R : β → β' → σ → σ → Prop}
    (rest : wp₂ (f s) (g t) R E s t) : wp₂ (get >>= f) (get >>= g) R E s t := rest

theorem wp₂_set {f : PUnit → EStateM ε σ β} {g : PUnit → EStateM ε σ β'}
    {R : β → β' → σ → σ → Prop} {s' t' : σ} (rest : wp₂ (f ⟨⟩) (g ⟨⟩) R E s' t') :
    wp₂ (set s' >>= f) (set t' >>= g) R E s t := rest

theorem wp₂_modify {f : PUnit → EStateM ε σ β} {g : PUnit → EStateM ε σ β'} {h h' : σ → σ}
    {R : β → β' → σ → σ → Prop} (rest : wp₂ (f ⟨⟩) (g ⟨⟩) R E (h s) (h' t)) :
    wp₂ (modify h >>= f) (modify h' >>= g) R E s t := rest

end Pair

end Enuwatch.Lib

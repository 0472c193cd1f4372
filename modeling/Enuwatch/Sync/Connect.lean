import Enuwatch.Sync.Client

/-!
# Connecting with retries

`connect_to_daemon` means to try five times, with a doubling delay after every error that may pass.
`RetryContract` says what a caller may expect of it for a whole sequence of outcomes.

The loop keeps the contract for every sequence (`connectLoop_keeps`). The function keeps it for none
(`connect_never`): the `if` that belongs before the first `pfatal` is missing, so that the loop is
never reached, whatever `socket` has returned.
-/

set_option autoImplicit false

namespace Enuwatch.Sync

/-! ## The contract -/

/-- The errors after which another attempt is made. -/
def retryable : List Errno := [.connRefused, .netUnreach, .hostUnreach, .timedOut, .intr]

/-- The first `k` attempts fail, each with an error that may pass. -/
def Retried (outcomes : ℕ → Option Errno) (k : ℕ) : Prop :=
  ∀ i < k, ∃ errno ∈ retryable, outcomes i = some errno

/-- The milliseconds slept after each of the first `k` attempts. -/
def delays (k : ℕ) : List ℕ := (List.range k).map (2 ^ ·)

/-- What a function does that calls `connect`, for the outcomes of its calls. -/
abbrev Connecting := List (Option Errno) → EStateM ConnectExit (List ℕ) ℤ

/-- The function ends with this result after `k` calls of `connect`, and not before. -/
structure EndsAfter (connecting : Connecting) (outcomes : ℕ → Option Errno) (k : ℕ)
    (result : EStateM.Result ConnectExit (List ℕ) ℤ) : Prop where
  ends : connecting ((List.range k).map outcomes) [] = result
  waits : ∀ j < k, ∃ slept, connecting ((List.range j).map outcomes) [] = .error .blocked slept

/-- The socket is returned exactly when one of five attempts succeeds and the errors before it may
pass; otherwise the function is fatal, after an error that does not pass or after five attempts. -/
structure RetryContract (port : UInt16) (fd : ℤ) (connecting : Connecting)
    (outcomes : ℕ → Option Errno) : Prop where
  returns : ∀ k slept, EndsAfter connecting outcomes (k + 1) (.ok fd slept) ↔
    k < 5 ∧ Retried outcomes k ∧ outcomes k = none ∧ slept = delays k
  fatal : (¬ ∃ k < 5, Retried outcomes k ∧ outcomes k = none) →
    (∃ k < 5, Retried outcomes k ∧ outcomes k = some .other ∧
      ∃ slept, EndsAfter connecting outcomes (k + 1) (.error (.connect port) slept)) ∨
    Retried outcomes 5 ∧
      ∃ slept, EndsAfter connecting outcomes 5 (.error (.retriesExhausted port) slept)

/-! ## The loop -/

section Loop

variable {port : UInt16} {fd : ℤ} {outcomes : ℕ → Option Errno} {k : ℕ}

theorem connectLoop_retry {errno : Errno} (passes : errno ∈ retryable) (left delay : ℕ)
    (answers : List (Option Errno)) (slept : List ℕ) :
    connectLoop port fd (left + 1) delay (some errno :: answers) slept =
      connectLoop port fd left (delay * 2) answers (slept ++ [delay]) := by
  cases errno with
  | other => exact absurd passes (by decide)
  | _ => rfl

theorem Retried.of_succ (retried : Retried outcomes (k + 1)) : Retried outcomes k :=
  fun i before => retried i (before.trans k.lt_succ_self)

theorem Retried.le {j : ℕ} (retried : Retried outcomes k) (before : j ≤ k) : Retried outcomes j :=
  fun i earlier => retried i (earlier.trans_le before)

theorem delays_succ (k : ℕ) : delays (k + 1) = delays k ++ [2 ^ k] := by
  rw [delays, List.range_succ, List.map_append]
  rfl

/-- The loop after `k` errors that pass. -/
theorem connectLoop_retried (retried : Retried outcomes k) (few : k ≤ 5)
    (answers : List (Option Errno)) :
    connectLoop port fd 5 1 ((List.range k).map outcomes ++ answers) [] =
      connectLoop port fd (5 - k) (2 ^ k) answers (delays k) := by
  induction k generalizing answers with
  | zero => rfl
  | succ k ih =>
      obtain ⟨errno, passes, failed⟩ := retried k k.lt_succ_self
      have left : 5 - k = 5 - (k + 1) + 1 := by omega
      rw [List.range_succ, List.map_append, List.append_assoc, ih retried.of_succ (by omega), left,
        List.map_singleton, failed, List.singleton_append, connectLoop_retry passes, delays_succ,
        pow_succ]

/-- The loop waits for the outcome of the next attempt. -/
theorem connectLoop_waits (retried : Retried outcomes k) (few : k < 5) :
    connectLoop port fd 5 1 ((List.range k).map outcomes) [] = .error .blocked (delays k) := by
  have left : 5 - k = 4 - k + 1 := by omega
  rw [← List.append_nil ((List.range k).map outcomes), connectLoop_retried retried few.le, left]
  rfl

/-- The loop ends with the attempt whose outcome it does not retry. -/
theorem connectLoop_endsAfter (retried : Retried outcomes k) (few : k < 5)
    {result : EStateM.Result ConnectExit (List ℕ) ℤ}
    (last : connectLoop port fd (4 - k + 1) (2 ^ k) [outcomes k] (delays k) = result) :
    EndsAfter (connectLoop port fd 5 1) outcomes (k + 1) result where
  ends := by
    have left : 5 - k = 4 - k + 1 := by omega
    rw [List.range_succ, List.map_append, connectLoop_retried retried few.le, left]
    exact last
  waits j before := by
    have earlier : j ≤ k := Nat.le_of_lt_succ before
    exact ⟨_, connectLoop_waits (retried.le earlier) (earlier.trans_lt few)⟩

theorem connectLoop_returns (retried : Retried outcomes k) (few : k < 5)
    (succeeds : outcomes k = none) :
    EndsAfter (connectLoop port fd 5 1) outcomes (k + 1) (.ok fd (delays k)) :=
  connectLoop_endsAfter retried few (by rw [succeeds]; rfl)

theorem connectLoop_fails (retried : Retried outcomes k) (few : k < 5)
    (fails : outcomes k = some .other) :
    EndsAfter (connectLoop port fd 5 1) outcomes (k + 1) (.error (.connect port) (delays k)) :=
  connectLoop_endsAfter retried few (by rw [fails]; rfl)

/-- After the fifth error the loop sleeps once more, for sixteen milliseconds. -/
theorem connectLoop_exhausted (retried : Retried outcomes 5) :
    EndsAfter (connectLoop port fd 5 1) outcomes 5
      (.error (.retriesExhausted port) (delays 5)) where
  ends := by
    rw [← List.append_nil ((List.range 5).map outcomes), connectLoop_retried retried le_rfl]
    rfl
  waits _ before := ⟨_, connectLoop_waits (retried.le before.le) before⟩

/-- Either some attempt is not retried, or all are. -/
theorem retried_cases (outcomes : ℕ → Option Errno) (n : ℕ) :
    (∃ k < n, Retried outcomes k ∧ outcomes k = none) ∨
      (∃ k < n, Retried outcomes k ∧ outcomes k = some .other) ∨ Retried outcomes n := by
  induction n with
  | zero => exact .inr (.inr fun i before => absurd before i.not_lt_zero)
  | succ n ih =>
      rcases ih with ⟨k, before, found⟩ | ⟨k, before, found⟩ | retried
      · exact .inl ⟨k, before.trans n.lt_succ_self, found⟩
      · exact .inr (.inl ⟨k, before.trans n.lt_succ_self, found⟩)
      · cases outcome : outcomes n with
        | none => exact .inl ⟨n, n.lt_succ_self, retried, outcome⟩
        | some errno =>
            by_cases passes : errno ∈ retryable
            · refine .inr (.inr fun i before => ?_)
              rcases Nat.lt_succ_iff_lt_or_eq.1 before with earlier | rfl
              · exact retried i earlier
              · exact ⟨errno, passes, outcome⟩
            · have other : errno = .other := by
                cases errno with
                | other => rfl
                | _ => exact absurd (by decide) passes
              exact .inr (.inl ⟨n, n.lt_succ_self, retried, other ▸ outcome⟩)

/-- A function ends once. -/
theorem EndsAfter.unique {connecting : Connecting} {j : ℕ}
    {first second : EStateM.Result ConnectExit (List ℕ) ℤ}
    (one : EndsAfter connecting outcomes j first) (other : EndsAfter connecting outcomes k second)
    (ended : ∀ slept, first ≠ .error .blocked slept)
    (ended' : ∀ slept, second ≠ .error .blocked slept) : j = k ∧ first = second := by
  have same : j = k := by
    rcases Nat.lt_trichotomy j k with earlier | same | later
    · obtain ⟨slept, waits⟩ := other.waits j earlier
      exact absurd (one.ends.symm.trans waits) (ended slept)
    · exact same
    · obtain ⟨slept, waits⟩ := one.waits k later
      exact absurd (other.ends.symm.trans waits) (ended' slept)
  subst same
  exact ⟨rfl, one.ends.symm.trans other.ends⟩

/-- **The loop keeps the contract, for every sequence of outcomes.** -/
theorem connectLoop_keeps (port : UInt16) (fd : ℤ) (outcomes : ℕ → Option Errno) :
    RetryContract port fd (connectLoop port fd 5 1) outcomes where
  returns k slept := by
    constructor
    · intro returned
      rcases retried_cases outcomes 5 with
        ⟨j, few, retried, succeeds⟩ | ⟨j, few, retried, fails⟩ | retried
      · obtain ⟨same, value⟩ :=
          returned.unique (connectLoop_returns retried few succeeds) (by simp) (by simp)
        cases Nat.succ.inj same
        cases value
        exact ⟨few, retried, succeeds, rfl⟩
      · cases (returned.unique (connectLoop_fails retried few fails)
          (by simp) (by simp)).2
      · cases (returned.unique (connectLoop_exhausted retried)
          (by simp) (by simp)).2
    · rintro ⟨few, retried, succeeds, rfl⟩
      exact connectLoop_returns retried few succeeds
  fatal := by
    intro never
    rcases retried_cases outcomes 5 with found | ⟨k, few, retried, fails⟩ | retried
    · exact absurd found never
    · exact .inl ⟨k, few, retried, fails, _, connectLoop_fails retried few fails⟩
    · exact .inr ⟨retried, _, connectLoop_exhausted retried⟩

end Loop

/-! ## The function -/

/-- The first `pfatal` comes before anything else. -/
theorem connectToDaemon_eq (port : UInt16) (fd : ℤ) (answers : List (Option Errno))
    (slept : List ℕ) : connectToDaemon port fd answers slept = .error .socket slept :=
  rfl

/-- The function never waits for an outcome of `connect`. -/
theorem connectToDaemon_not_endsAfter {port : UInt16} {fd : ℤ} {outcomes : ℕ → Option Errno} {k : ℕ}
    {result : EStateM.Result ConnectExit (List ℕ) ℤ} :
    ¬ EndsAfter (connectToDaemon port fd) outcomes (k + 1) result := by
  intro ended
  obtain ⟨slept, waits⟩ := ended.waits 0 k.succ_pos
  rw [connectToDaemon_eq] at waits
  cases waits

/-- **The function breaks the contract for every sequence of outcomes.** -/
theorem connect_never (port : UInt16) (fd : ℤ) (outcomes : ℕ → Option Errno) :
    ¬ RetryContract port fd (connectToDaemon port fd) outcomes := by
  intro contract
  by_cases succeeds : ∃ k < 5, Retried outcomes k ∧ outcomes k = none
  · obtain ⟨k, few, retried, success⟩ := succeeds
    exact connectToDaemon_not_endsAfter ((contract.returns k _).2 ⟨few, retried, success, rfl⟩)
  · rcases contract.fatal succeeds with ⟨k, -, -, -, slept, ended⟩ | ⟨-, slept, ended⟩
    · exact connectToDaemon_not_endsAfter ended
    · exact connectToDaemon_not_endsAfter ended

/-- A daemon that answers the first `connect` is never reached. -/
theorem reachable_daemon_given_up :
    connectToDaemon 50000 3 [none] [] = .error .socket [] ∧
      ¬ RetryContract 50000 3 (connectToDaemon 50000 3) fun _ => none := by
  refine ⟨rfl, fun contract => ?_⟩
  have first : Retried (fun _ => none) 0 := fun i before => absurd before i.not_lt_zero
  have returned := (contract.returns 0 (delays 0)).2 ⟨by decide, first, rfl, rfl⟩
  exact connectToDaemon_not_endsAfter returned

end Enuwatch.Sync

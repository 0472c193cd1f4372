import Mathlib.Data.Stream.Init
import Mathlib.Tactic.Common

/-!
# Transfers in chunks

A loop moves `len` units by requests. Each request asks for what is left, but for at most `cap`
units, and is answered by a count, by a zero, by an error that is worth another try or by one that
is not.

A loop that is not answered by retries for ever comes to an end (`transfer_ends`). It has failed
exactly when the last reply was an error, and then something is left (`transfer_spec`). No request
passes the cap or the end (`mem_requests`).
-/

set_option autoImplicit false

namespace Enuwatch.Lib

/-- The reply to one request. -/
inductive Reply where
  | count (n : ℕ)
  | zero
  | retry
  | error
deriving DecidableEq, Repr

/-- How a loop ends. -/
structure Outcome where
  failed : Bool
  offset : ℕ
  unused : List Reply
deriving DecidableEq, Repr

section Definitions

variable (cap len : ℕ)

/-- What is asked for at an offset. -/
def chunk (off : ℕ) : ℕ := min cap (len - off)

/-- The loop; a count that is zero or more than what was asked for is no reply to it. -/
def transfer : ℕ → List Reply → Option Outcome
  | off, [] => if off < len then none else some ⟨false, off, []⟩
  | off, reply :: replies =>
      if off < len then
        match reply with
        | .count n => if n ≠ 0 ∧ n ≤ chunk cap len off then transfer (off + n) replies else none
        | .zero => some ⟨false, off, replies⟩
        | .retry => transfer off replies
        | .error => some ⟨true, off, replies⟩
      else some ⟨false, off, reply :: replies⟩

/-- The requests that a loop makes: where, and how much. -/
def requests : ℕ → List Reply → List (ℕ × ℕ)
  | off, [] => if off < len then [(off, chunk cap len off)] else []
  | off, reply :: replies =>
      if off < len then
        (off, chunk cap len off) ::
          match reply with
          | .count n => requests (off + n) replies
          | .zero => []
          | .retry => requests off replies
          | .error => []
      else []

/-- The counts are counts of what was asked for. -/
def Fitting : ℕ → List Reply → Prop
  | _, [] => True
  | off, reply :: replies =>
      off < len →
        match reply with
        | .count n => (n ≠ 0 ∧ n ≤ chunk cap len off) ∧ Fitting (off + n) replies
        | .zero => True
        | .retry => Fitting off replies
        | .error => True

end Definitions

variable {cap len : ℕ}

/-- **No request passes the cap or the end.** -/
theorem mem_requests {replies : List Reply} {off : ℕ} {request : ℕ × ℕ}
    (made : request ∈ requests cap len off replies) :
    request.2 ≤ cap ∧ request.1 + request.2 ≤ len := by
  have here : ∀ off, off < len →
      chunk cap len off ≤ cap ∧ off + chunk cap len off ≤ len := by
    intro off more
    unfold chunk
    omega
  induction replies generalizing off with
  | nil =>
      simp only [requests] at made
      split at made
      case isTrue more =>
        obtain rfl := List.mem_singleton.1 made
        exact here off more
      case isFalse => simp at made
  | cons reply replies ih =>
      simp only [requests] at made
      split at made
      case isTrue more =>
        rcases List.mem_cons.1 made with rfl | later
        · exact here off more
        · cases reply with
          | count n => exact ih later
          | zero => simp at later
          | retry => exact ih later
          | error => simp at later
      case isFalse => simp at made

/-- What a loop leaves behind. -/
structure Ends (len off : ℕ) (replies : List Reply) (o : Outcome) (used : List Reply) : Prop where
  split : replies = used ++ o.unused
  forward : off ≤ o.offset
  inside : o.offset ≤ len
  failed : o.failed = true ↔ used.getLast? = some .error
  short : o.failed = true → o.offset < len

/-- The replies before the last one do not matter to it. -/
theorem Ends.cons {replies used : List Reply} {o : Outcome} {off next : ℕ} {reply : Reply}
    (ends : Ends len next replies o used) (forward : off ≤ next) (going : reply ≠ .error) :
    Ends len off (reply :: replies) o (reply :: used) where
  split := by rw [List.cons_append, ← ends.split]
  forward := Nat.le_trans forward ends.forward
  inside := ends.inside
  failed := by
    rw [ends.failed]
    cases used with
    | nil => simp [going]
    | cons first rest => simp
  short := ends.short

/-- **A loop has failed exactly when the last reply was an error.** -/
theorem transfer_spec {replies : List Reply} {off : ℕ} {o : Outcome} (within : off ≤ len)
    (ended : transfer cap len off replies = some o) : ∃ used, Ends len off replies o used := by
  induction replies generalizing off with
  | nil =>
      simp only [transfer] at ended
      split at ended
      · cases ended
      · cases ended
        exact ⟨[], rfl, le_rfl, within, by simp, by simp⟩
  | cons reply replies ih =>
      simp only [transfer] at ended
      split at ended
      case isFalse =>
        cases ended
        exact ⟨[], rfl, le_rfl, within, by simp, by simp⟩
      case isTrue more =>
        cases reply with
        | count n =>
            simp only at ended
            split at ended
            case isFalse => cases ended
            case isTrue fits =>
              have inside : off + n ≤ len := by
                have := fits.2
                unfold chunk at this
                omega
              obtain ⟨used, ends⟩ := ih inside ended
              exact ⟨.count n :: used, ends.cons (by omega) (by simp)⟩
        | zero =>
            cases ended
            exact ⟨[.zero], rfl, le_rfl, within, by simp, by simp⟩
        | retry =>
            obtain ⟨used, ends⟩ := ih within ended
            exact ⟨.retry :: used, ends.cons le_rfl (by simp)⟩
        | error =>
            cases ended
            exact ⟨[.error], rfl, le_rfl, within, by simp, fun _ => more⟩

/-- A stream of replies as a loop may get it. -/
structure Answered (cap len off : ℕ) (s : Stream' Reply) : Prop where
  fits : ∀ n, Fitting cap len off (s.take n)
  moves : ∀ n, ∃ m, n ≤ m ∧ s.get m ≠ .retry

section Ending

variable {off : ℕ} {s : Stream' Reply}

theorem Answered.moves_tail (answered : Answered cap len off s) (n : ℕ) :
    ∃ m, n ≤ m ∧ s.tail.get m ≠ .retry := by
  obtain ⟨m, later, moves⟩ := answered.moves (n + 1)
  obtain ⟨k, rfl⟩ : ∃ k, m = k + 1 := ⟨m - 1, by omega⟩
  exact ⟨k, by omega, moves⟩

/-- The rest of the stream after a retry. -/
theorem Answered.retry (answered : Answered cap len off s) (more : off < len)
    (again : s.head = .retry) : Answered cap len off s.tail where
  fits n := by
    have fits := answered.fits (n + 1)
    rw [Stream'.take_succ, again] at fits
    exact fits more
  moves := answered.moves_tail

/-- The rest of the stream after a count. -/
theorem Answered.count {n : ℕ} (answered : Answered cap len off s) (more : off < len)
    (counted : s.head = .count n) :
    (n ≠ 0 ∧ n ≤ chunk cap len off) ∧ Answered cap len (off + n) s.tail := by
  have fits : ∀ k, (n ≠ 0 ∧ n ≤ chunk cap len off) ∧ Fitting cap len (off + n) (s.tail.take k) := by
    intro k
    have fits := answered.fits (k + 1)
    rw [Stream'.take_succ, counted] at fits
    exact fits more
  exact ⟨(fits 0).1, fun k => (fits k).2, answered.moves_tail⟩

/-- One reply that is no retry ends the loop or brings it forward. -/
theorem ends_of_head (answered : Answered cap len off s) (more : off < len)
    (moves : s.head ≠ .retry)
    (forward : ∀ n, n ≠ 0 → off + n ≤ len → Answered cap len (off + n) s.tail →
      ∃ k o, transfer cap len (off + n) (s.tail.take k) = some o ∧ o.unused = []) :
    ∃ k o, transfer cap len off (s.take k) = some o ∧ o.unused = [] := by
  cases reply : s.head with
  | count n =>
      obtain ⟨fits, later⟩ := answered.count more reply
      have inside : off + n ≤ len := by
        have := fits.2
        unfold chunk at this
        omega
      obtain ⟨k, o, ended, used⟩ := forward n fits.1 inside later
      refine ⟨k + 1, o, ?_, used⟩
      simp only [Stream'.take_succ, reply, transfer, if_pos more, if_pos fits, ended]
  | zero =>
      refine ⟨1, ⟨false, off, []⟩, ?_, rfl⟩
      simp only [Stream'.take_succ, reply, transfer, if_pos more, Stream'.take_zero]
  | retry => exact absurd reply moves
  | error =>
      refine ⟨1, ⟨true, off, []⟩, ?_, rfl⟩
      simp only [Stream'.take_succ, reply, transfer, if_pos more, Stream'.take_zero]

/-- **A loop that is not answered by retries for ever comes to an end.** -/
theorem transfer_ends (within : off ≤ len) (answered : Answered cap len off s) :
    ∃ k o, transfer cap len off (s.take k) = some o ∧ o.unused = [] := by
  -- A count brings the loop forward, and a retry brings it nearer to the next reply that is none.
  induction left : len - off using Nat.strongRecOn generalizing off s with
  | ind left forward =>
      rcases Nat.lt_or_ge off len with more | done
      · have live : ∀ s : Stream' Reply, Answered cap len off s → s.head ≠ .retry →
            ∃ k o, transfer cap len off (s.take k) = some o ∧ o.unused = [] := by
          intro s answered moves
          refine ends_of_head answered more moves fun n some_ inside later => ?_
          exact forward (len - (off + n)) (by omega) inside later rfl
        obtain ⟨m, -, moves⟩ := answered.moves 0
        induction m generalizing s with
        | zero => exact live s answered moves
        | succ m ih =>
            by_cases again : s.head = .retry
            · obtain ⟨k, o, ended, used⟩ := ih (answered.retry more again) moves
              refine ⟨k + 1, o, ?_, used⟩
              simp only [Stream'.take_succ, again, transfer, if_pos more, ended]
            · exact live s answered again
      · refine ⟨0, ⟨false, off, []⟩, ?_, rfl⟩
        simp only [Stream'.take_zero, transfer, if_neg (Nat.not_lt.2 done)]

end Ending

end Enuwatch.Lib

import Enuwatch.Lib.Buffer

/-!
# Reading and writing with retries

`net.h` wraps `read` and `write` in loops that retry on interruption, stop at a
zero result and fail on any other error.

A system call is answered by the kernel. A wrapper is therefore a function of the
list of answers its calls receive, in order. A list that ends while the loop still
calls, or that answers a call with more bytes than it asked for, is not a history
of the loop, and the wrapper is undefined on it; on every other list it returns,
together with the bytes transferred and the answers it did not use.
-/

set_option autoImplicit false

namespace Enuwatch.Net

open Enuwatch.Lib

inductive IOKind where
  | ok
  | fail
deriving DecidableEq, Repr

theorem IOKind.eq_ok {kind : IOKind} (succeeds : kind ≠ .fail) : kind = .ok := by
  cases kind with
  | ok => rfl
  | fail => exact absurd rfl succeeds

structure IOResult where
  kind : IOKind := .ok
  nBytes : ℕ := 0
deriving DecidableEq, Repr

/-- `std::numeric_limits<int>::max()`. -/
def maxRwSize : ℕ := 2 ^ 31 - 1

/-- The answer to one `read`: bytes, end of file, an error worth retrying
(`EINTR`, `EAGAIN`, `EWOULDBLOCK`), or another error. -/
inductive SysRead where
  | data (bytes : Bytes)
  | zero
  | retry
  | error
deriving DecidableEq, Repr

/-- The answer to one `write`: a count, an error worth retrying, or another error. -/
inductive SysWrite where
  | wrote (count : ℕ)
  | retry
  | error
deriving DecidableEq, Repr

/-- What a wrapper leaves behind: its result, the bytes transferred and the
answers still unused. -/
structure Transfer (Answer : Type) where
  result : IOResult
  bytes : Bytes
  unused : List Answer
deriving DecidableEq, Repr

/-- Put a block in front of the bytes transferred. -/
def Transfer.after {Answer : Type} (block : Bytes) (t : Transfer Answer) : Transfer Answer :=
  { t with bytes := block ++ t.bytes }

/-! ## `read_partial` and `read_exact` -/

/-- The loop of `read_partial` at offset `off`. -/
def readLoop (len : ℕ) : ℕ → List SysRead → Option (Transfer SysRead)
  | off, [] => if off < len then none else some ⟨⟨.ok, off⟩, [], []⟩
  | off, answer :: answers =>
      if off < len then
        match answer with
        | .data block =>
            -- A count is positive and at most the chunk asked for.
            if block ≠ [] ∧ block.length ≤ min maxRwSize (len - off) then
              (readLoop len (off + block.length) answers).map (Transfer.after block)
            else none
        | .zero => some ⟨⟨.ok, off⟩, [], answers⟩
        | .retry => readLoop len off answers
        | .error => some ⟨⟨.fail, off⟩, [], answers⟩
      else some ⟨⟨.ok, off⟩, [], answer :: answers⟩

def readPartial (len : ℕ) (answers : List SysRead) : Option (Transfer SysRead) :=
  readLoop len 0 answers

/-- `read_exact` and `write_exact` turn a short count into a failure. -/
def IOResult.exact (r : IOResult) (len : ℕ) : IOResult :=
  if r.nBytes ≠ len then { r with kind := .fail } else r

def readExact (len : ℕ) (answers : List SysRead) : Option (Transfer SysRead) :=
  (readPartial len answers).map fun t => { t with result := t.result.exact len }

/-- What a read loop that was asked for `len` bytes leaves behind. -/
structure Transfer.Reads (t : Transfer SysRead) (len off : ℕ) (answers : List SysRead) : Prop where
  count : t.result.nBytes = off + t.bytes.length
  fits : off + t.bytes.length ≤ len
  later : t.unused <:+ answers
  failed : t.result.kind = .fail → SysRead.error ∈ answers ∧ off + t.bytes.length < len

theorem readLoop_spec {len : ℕ} :
    ∀ {answers : List SysRead} {off : ℕ} {t : Transfer SysRead}, off ≤ len →
      readLoop len off answers = some t → t.Reads len off answers := by
  intro answers
  induction answers with
  | nil =>
      intro off t within returned
      simp only [readLoop] at returned
      split at returned
      · cases returned
      · cases returned
        exact ⟨rfl, within, List.suffix_rfl, nofun⟩
  | cons answer answers ih =>
      intro off t within returned
      simp only [readLoop] at returned
      split at returned
      case isFalse =>
        cases returned
        exact ⟨rfl, within, List.suffix_rfl, nofun⟩
      case isTrue more =>
        cases answer with
        | data block =>
            simp only at returned
            split at returned
            case isFalse => cases returned
            case isTrue fits =>
              obtain ⟨t', inner, rfl⟩ := Option.map_eq_some_iff.mp returned
              obtain ⟨count, reach, later, failed⟩ := ih (by omega) inner
              have length : (Transfer.after block t').bytes.length =
                  block.length + t'.bytes.length := List.length_append
              refine ⟨?_, by omega, later.trans (List.suffix_cons _ _), fun bad => ?_⟩
              · rw [length, ← Nat.add_assoc]
                exact count
              · obtain ⟨member, short⟩ := failed bad
                exact ⟨.tail _ member, by omega⟩
        | zero =>
            cases returned
            exact ⟨rfl, within, List.suffix_cons _ _, nofun⟩
        | retry =>
            obtain ⟨count, reach, later, failed⟩ := ih within returned
            exact ⟨count, reach, later.trans (List.suffix_cons _ _),
              fun bad => ⟨.tail _ (failed bad).1, (failed bad).2⟩⟩
        | error =>
            cases returned
            exact ⟨rfl, within, List.suffix_cons _ _, fun _ => ⟨.head _, more⟩⟩

/-- `read_partial` counts the bytes it stored, and stores no more than it was
asked for. It fails only on an error, before it has everything. -/
theorem readPartial_spec {len : ℕ} {answers : List SysRead} {t : Transfer SysRead}
    (returned : readPartial len answers = some t) : t.Reads len 0 answers :=
  readLoop_spec (Nat.zero_le len) returned

/-- The bytes among a list of answers. -/
def incoming : List SysRead → Bytes
  | [] => []
  | .data block :: answers => block ++ incoming answers
  | _ :: answers => incoming answers

/-- The answer that the first `read` gets in the end. -/
def firstAnswer (answers : List SysRead) : Option SysRead :=
  answers.find? (· ≠ .retry)

/-- What a loop stores and what it leaves is what came in. -/
theorem readLoop_incoming {len off : ℕ} {answers : List SysRead} {t : Transfer SysRead}
    (returned : readLoop len off answers = some t) :
    t.bytes ++ incoming t.unused = incoming answers := by
  induction answers generalizing off t with
  | nil =>
      simp only [readLoop] at returned
      split at returned
      · cases returned
      · cases returned
        rfl
  | cons answer answers ih =>
      simp only [readLoop] at returned
      split at returned
      case isFalse =>
        cases returned
        rfl
      case isTrue more =>
        cases answer with
        | data block =>
            simp only at returned
            split at returned
            case isFalse => cases returned
            case isTrue fits =>
              obtain ⟨t', inner, rfl⟩ := Option.map_eq_some_iff.mp returned
              have rest := ih inner
              simp only [Transfer.after, incoming, List.append_assoc]
              rw [rest]
        | zero =>
            cases returned
            rfl
        | retry => exact ih returned
        | error =>
            cases returned
            rfl

/-- How a call of `read_partial` for some bytes ends is decided by the first answer that is no
retry. -/
inductive Transfer.Begins (t : Transfer SysRead) (answers : List SysRead) : Prop
  | data (block : Bytes) (first : firstAnswer answers = some (.data block)) (some : block ≠ [])
      (bytes : t.bytes ≠ [])
  | zero (first : firstAnswer answers = some .zero) (result : t.result = ⟨.ok, 0⟩)
      (bytes : t.bytes = [])
  | error (first : firstAnswer answers = some .error) (kind : t.result.kind = .fail)

theorem readPartial_begins {len : ℕ} {answers : List SysRead} {t : Transfer SysRead}
    (positive : 0 < len) (returned : readPartial len answers = some t) : t.Begins answers := by
  unfold readPartial at returned
  induction answers with
  | nil => simp [readLoop, positive] at returned
  | cons answer answers ih =>
      simp only [readLoop, if_pos positive] at returned
      cases answer with
      | data block =>
          simp only at returned
          split at returned
          case isFalse => cases returned
          case isTrue fits =>
            obtain ⟨rest, -, rfl⟩ := Option.map_eq_some_iff.mp returned
            exact .data block rfl fits.1 (by simp [Transfer.after, fits.1])
      | zero =>
          cases returned
          exact .zero rfl rfl rfl
      | retry =>
          have same : firstAnswer (.retry :: answers) = firstAnswer answers := rfl
          cases ih returned with
          | data block first some bytes => exact .data block (same.trans first) some bytes
          | zero first result bytes => exact .zero (same.trans first) result bytes
          | error first kind => exact .error (same.trans first) kind
      | error =>
          cases returned
          exact .error rfl rfl

/-- Answers of one byte each deliver any block asked for in full. -/
theorem readLoop_bytes (block : Bytes) (off : ℕ) (answers : List SysRead) :
    readLoop (off + block.length) off (block.map (fun b => .data [b]) ++ answers) =
      some ⟨⟨.ok, off + block.length⟩, block, answers⟩ := by
  induction block generalizing off with
  | nil => cases answers <;> simp [readLoop]
  | cons b block ih =>
      have fits : [b] ≠ [] ∧ [b].length ≤ min maxRwSize (off + (b :: block).length - off) := by
        simp [maxRwSize]
      have more : off < off + (b :: block).length := by simp
      simp only [List.map_cons, List.cons_append, readLoop, if_pos more, if_pos fits]
      have step := ih (off + 1)
      have same : off + 1 + block.length = off + (b :: block).length := by
        simp only [List.length_cons]
        omega
      rw [same] at step
      simp only [List.length_singleton, step, Option.map_some, Transfer.after,
        List.singleton_append]

theorem readPartial_bytes (block : Bytes) (answers : List SysRead) :
    readPartial block.length (block.map (fun b => .data [b]) ++ answers) =
      some ⟨⟨.ok, block.length⟩, block, answers⟩ := by
  simpa [readPartial] using readLoop_bytes block 0 answers

/-! ## `write_partial` and `write_exact` -/

/-- The loop of `write_partial` at offset `off`. -/
def writeLoop (buf : Bytes) : ℕ → List SysWrite → Option (Transfer SysWrite)
  | off, [] => if off < buf.length then none else some ⟨⟨.ok, off⟩, [], []⟩
  | off, answer :: answers =>
      if off < buf.length then
        match answer with
        | .wrote count =>
            if count ≤ min maxRwSize (buf.length - off) then
              if count = 0 then some ⟨⟨.ok, off⟩, [], answers⟩
              else
                (writeLoop buf (off + count) answers).map
                  (Transfer.after ((buf.drop off).take count))
            else none
        | .retry => writeLoop buf off answers
        | .error => some ⟨⟨.fail, off⟩, [], answers⟩
      else some ⟨⟨.ok, off⟩, [], answer :: answers⟩

def writePartial (buf : Bytes) (answers : List SysWrite) : Option (Transfer SysWrite) :=
  writeLoop buf 0 answers

def writeExact (buf : Bytes) (answers : List SysWrite) : Option (Transfer SysWrite) :=
  (writePartial buf answers).map fun t => { t with result := t.result.exact buf.length }

theorem writeLoop_spec {buf : Bytes} :
    ∀ {answers : List SysWrite} {off : ℕ} {t : Transfer SysWrite}, off ≤ buf.length →
      writeLoop buf off answers = some t →
        off ≤ t.result.nBytes ∧ t.result.nBytes ≤ buf.length ∧
          t.bytes = (buf.drop off).take (t.result.nBytes - off) := by
  intro answers
  induction answers with
  | nil =>
      intro off t within returned
      simp only [writeLoop] at returned
      split at returned
      · cases returned
      · cases returned
        simpa using within
  | cons answer answers ih =>
      intro off t within returned
      simp only [writeLoop] at returned
      split at returned
      case isFalse =>
        cases returned
        simpa using within
      case isTrue more =>
        cases answer with
        | wrote count =>
            simp only at returned
            split at returned
            case isFalse => cases returned
            case isTrue fits =>
              split at returned
              · cases returned
                simpa using within
              · obtain ⟨t', inner, rfl⟩ := Option.map_eq_some_iff.mp returned
                have bound : off + count ≤ buf.length := by omega
                obtain ⟨lower, upper, bytes⟩ := ih bound inner
                refine ⟨Nat.le_trans (Nat.le_add_right _ _) lower, upper, ?_⟩
                have split : t'.result.nBytes - off = count + (t'.result.nBytes - (off + count)) := by
                  omega
                simp only [Transfer.after, bytes]
                rw [split, List.take_add, List.drop_drop]
        | retry => exact ih within returned
        | error =>
            cases returned
            simpa using within

/-- `write_partial` writes a prefix of its buffer and counts it. -/
theorem writePartial_spec {buf : Bytes} {answers : List SysWrite} {t : Transfer SysWrite}
    (returned : writePartial buf answers = some t) :
    t.result.nBytes ≤ buf.length ∧ t.bytes = buf.take t.result.nBytes := by
  obtain ⟨-, upper, bytes⟩ := writeLoop_spec (Nat.zero_le _) returned
  exact ⟨upper, by simpa using bytes⟩

/-- `write_exact` succeeds only after writing its whole buffer. -/
theorem writeExact_ok {buf : Bytes} {answers : List SysWrite} {t : Transfer SysWrite}
    (returned : writeExact buf answers = some t) (ok : t.result.kind = .ok) : t.bytes = buf := by
  obtain ⟨t', inner, rfl⟩ := Option.map_eq_some_iff.mp returned
  obtain ⟨-, bytes⟩ := writePartial_spec inner
  have whole : t'.result.nBytes = buf.length := by
    by_contra short
    simp [IOResult.exact, short] at ok
  simp only [bytes, whole, List.take_length]

/-- A kernel that takes a whole buffer at once. -/
theorem exists_writePartial {buf : Bytes} (fits : buf.length ≤ maxRwSize) (rest : List SysWrite) :
    ∃ answers, writePartial buf answers = some ⟨⟨.ok, buf.length⟩, buf, rest⟩ := by
  cases buf with
  | nil => exact ⟨rest, by cases rest <;> rfl⟩
  | cons byte buf =>
      refine ⟨.wrote (buf.length + 1) :: rest, ?_⟩
      rw [List.length_cons] at fits
      have done : writeLoop (byte :: buf) (buf.length + 1) rest =
          some ⟨⟨.ok, buf.length + 1⟩, [], rest⟩ := by
        cases rest <;> simp [writeLoop]
      simp [writePartial, writeLoop, done, fits, Transfer.after]

/-- The kernel may take one byte of a buffer and then none. -/
theorem exists_writePartial_one {buf : Bytes} (some_ : buf ≠ []) (rest : List SysWrite) :
    ∃ answers t, writePartial buf answers = some t ∧ t.result = ⟨.ok, 1⟩ ∧ t.unused = rest := by
  cases buf with
  | nil => exact absurd rfl some_
  | cons byte buf =>
      cases buf with
      | nil =>
          refine ⟨.wrote 1 :: rest, ⟨⟨.ok, 1⟩, [byte], rest⟩, ?_, rfl, rfl⟩
          cases rest <;> rfl
      | cons other buf =>
          refine ⟨.wrote 1 :: .wrote 0 :: rest, ⟨⟨.ok, 1⟩, [byte], rest⟩, ?_, rfl, rfl⟩
          simp [writePartial, writeLoop, maxRwSize, Transfer.after]

theorem exists_writeExact {buf : Bytes} (fits : buf.length ≤ maxRwSize) (rest : List SysWrite) :
    ∃ answers, writeExact buf answers = some ⟨⟨.ok, buf.length⟩, buf, rest⟩ := by
  obtain ⟨answers, wrote⟩ := exists_writePartial fits rest
  exact ⟨answers, by simp [writeExact, wrote, IOResult.exact]⟩

end Enuwatch.Net

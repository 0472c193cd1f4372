import Enuwatch.Net
import Enuwatch.Sync.Framing

/-!
# What the daemon says about its errors

The daemon writes to its standard error, and the client holds the read end of that pipe. Two
places pass on what is there with `report_stderr_remote`: the first worker whose send fails, and
the main thread when the daemon has ended with a status other than zero.

`Relay` runs the client of `sync_with_remote` beside the daemon's side of the pipe. A worker that
reports counts as done with its task; the main thread goes on to `terminate` when the report has
ended, since `recurse` returns after all of its tasks.

`terminate` closes the pipe before the main thread reads from it. So every run in which the
daemon ends with a status other than zero reads from a closed descriptor (`relay_never`), and
what the daemon wrote arrives exactly when a send has failed or there is nothing (`relayed_iff`).
-/

set_option autoImplicit false

namespace Enuwatch

open Enuwatch.Lib Enuwatch.Net

/-- The client, and the pipe between the daemon's standard error and it. -/
structure Relay (N : Type) where
  client : Sync.Client N
  /-- What is in the pipe. -/
  pipe : Bytes := []
  /-- Everything the daemon has written to its standard error. -/
  wrote : Bytes := []
  /-- How the daemon has ended. -/
  exit : Option WaitStatus := none
  /-- A call of `report_stderr_remote` is going on. -/
  reporting : Bool := false
  /-- A worker has made such a call. -/
  reported : Bool := false
  /-- What was passed on to the local standard error. -/
  stderr : Bytes := []
  /-- The descriptors that `terminate` has closed. -/
  closed : List ℕ := []
  /-- The reads from closed descriptors. -/
  strayReads : List ℕ := []

namespace Relay

inductive Input where
  | client (input : Sync.Input)
  /-- The daemon writes to its standard error. -/
  | write (bytes : Bytes)
  /-- The daemon ends, by itself or of a signal. -/
  | exit (status : WaitStatus)
  /-- A round of `report_stderr_remote`, with the answers to its reads. -/
  | round (answers : List SysRead)
deriving Repr

/-- The rest of a round of `report_stderr_remote` after `read_partial`: what it writes to the
local standard error, and whether it goes on. The lines it prints around that are left out. -/
def reportRound (t : Transfer SysRead) : Bytes × Bool :=
  if t.result.nBytes = 0 then ([], false)
  else if t.result.kind = .fail then ([], false)
  else (t.bytes, true)

variable {N : Type}

/-- The kernel answers the reads of a round in this way: from a closed descriptor with an error,
and otherwise with what is in the pipe, and with 0 once the daemon has ended and the pipe is
empty. -/
def Answered (r : Relay N) (answers : List SysRead) (t : Transfer SysRead) : Prop :=
  t.unused = [] ∧
    if r.client.daemon.errRd ∈ r.closed then answers = [.error]
    else .error ∉ answers ∧ t.bytes <+: r.pipe ∧
      (.zero ∈ answers → r.exit.isSome ∧ t.bytes = r.pipe)

instance (r : Relay N) (answers : List SysRead) (t : Transfer SysRead) :
    Decidable (r.Answered answers t) :=
  inferInstanceAs (Decidable (_ ∧ if r.client.daemon.errRd ∈ r.closed then _ else _))

/-- One round of `report_stderr_remote`. -/
def report (r : Relay N) (answers : List SysRead) : Option (Relay N) :=
  match readPartial chunkSize answers with
  | none => none
  | some t =>
      if r.Answered answers t then
        some { r with
          pipe := r.pipe.drop t.bytes.length
          stderr := r.stderr ++ (reportRound t).1
          reporting := (reportRound t).2
          strayReads :=
            if r.client.daemon.errRd ∈ r.closed then r.strayReads ++ [r.client.daemon.errRd]
            else r.strayReads }
      else none

variable [DecidableEq N]

/-- One step of the client and the daemon. -/
def step (T : Tree N) (r : Relay N) : Input → Option (Relay N)
  | .client (.task i choice) =>
      (Sync.step T r.client (.task i choice)).map fun client =>
        -- `ok.exchange(false)` has returned true.
        let fails := r.client.ok && !client.ok
        { r with
          client := client
          reporting := r.reporting || fails
          reported := r.reported || fails }
  | .client (.terminate kill waitpid) =>
      -- `waitpid` returns when the daemon has ended, and with its status.
      if r.reporting = false ∧ (kill = true → ∀ status ∈ waitpid, r.exit = some status) then
        (Sync.step T r.client (.terminate kill waitpid)).map fun client =>
          { r with
            client := client
            closed := (r.client.daemon.terminate kill waitpid).2.2
            reporting := (r.client.daemon.terminate kill waitpid).1 ≠ 0 }
      else none
  | .write bytes =>
      if r.exit = none then some { r with pipe := r.pipe ++ bytes, wrote := r.wrote ++ bytes }
      else none
  | .exit status => if r.exit = none then some { r with exit := some status } else none
  | .round answers => if r.reporting then r.report answers else none

/-- `sync_with_remote` at its first call of `recurse`. -/
def start (T : Tree N) (table : Slots PipeEnd) (pid : ℤ) (basePort : UInt16) : Relay N where
  client := Sync.start T table pid basePort

/-- `sync_with_remote` has returned. -/
def Returned (r : Relay N) : Prop := (∃ ok, r.client.status = .returned ok) ∧ r.reporting = false

/-- Everything the daemon has written was passed on, and nothing was read from a closed
descriptor. -/
def Relayed (r : Relay N) : Prop := r.stderr = r.wrote ∧ r.strayReads = []

/-! ## What holds throughout -/

/-- A task neither ends `sync_with_remote` nor touches the process object. -/
theorem task_unreturned {T : Tree N} {s s' : Sync.Client N} {i : ℕ} {t : Sync.Task N}
    (running : s.status = .running) (event : Sync.TaskEvent T s i t s') :
    s'.daemon = s.daemon ∧ ∀ ok, s'.status ≠ .returned ok := by
  cases event with
  | cut | died | orphan | lost | stray => exact ⟨rfl, by simp⟩
  | _ => exact ⟨rfl, by simp [Sync.Client.goto, Sync.Client.finish, Sync.Client.begin,
      Sync.Client.log, Sync.Client.unlink, Sync.Client.setPending, Sync.Client.fork, running]⟩

/-- Where the bytes are, who reads, and what `terminate` has left. -/
structure Accounts (r : Relay N) : Prop where
  conserved : r.stderr ++ r.pipe = r.wrote
  unreported : r.reported = false → r.stderr = []
  /-- A worker's report is going on, or it has come to the end of the pipe. -/
  drained : r.reported = true →
    r.reporting = true ∧ r.closed = [] ∨ r.pipe = [] ∧ r.exit ≠ none
  reader : r.reporting = true → r.reported = true ∨ r.client.daemon.errRd ∈ r.closed
  before : r.client.status = .running →
    r.closed = [] ∧ r.client.daemon.pid ≠ -1 ∧ 2 < r.client.daemon.errRd
  after : ∀ ok, r.client.status = .returned ok → r.client.daemon.errRd ∈ r.closed ∧
    (r.reporting = true ∨ r.strayReads ≠ [] ∨ ∃ status, r.exit = some status ∧ status.code = 0)

namespace Accounts

variable {r r' : Relay N} {T : Tree N}

theorem task {i : ℕ} {choice : Sync.Choice} (accounts : Accounts r)
    (stepped : step T r (.client (.task i choice)) = some r') : Accounts r' := by
  obtain ⟨conserved, unreported, drained, reader, before, after⟩ := accounts
  obtain ⟨client, moved, rfl⟩ := Option.map_eq_some_iff.1 stepped
  obtain ⟨running, t, -, -, event⟩ := Sync.step_task moved
  obtain ⟨daemon, unreturned⟩ := task_unreturned running event
  obtain ⟨closed, pid, high⟩ := before running
  exact {
    conserved := conserved
    unreported := fun none => unreported (by simpa using (Bool.or_eq_false_iff.1 none).1)
    drained := by
      intro some
      rcases Bool.or_eq_true_iff.1 some with old | fails
      · exact (drained old).imp_left fun going => ⟨by simp [going.1], closed⟩
      · exact .inl ⟨by simp only [fails, Bool.or_true], closed⟩
    reader := by
      intro going
      rcases Bool.or_eq_true_iff.1 going with old | fails
      · rw [daemon]
        exact (reader old).imp_left fun reported => by simp [reported]
      · exact .inl (by simp only [fails, Bool.or_true])
    before := fun _ => by
      rw [daemon]
      exact ⟨closed, pid, high⟩
    after := fun ok returned => absurd returned (unreturned ok) }

theorem terminate {kill : Bool} {waitpid : Option WaitStatus} (accounts : Accounts r)
    (stepped : step T r (.client (.terminate kill waitpid)) = some r') : Accounts r' := by
  obtain ⟨conserved, unreported, drained, reader, before, after⟩ := accounts
  simp only [step] at stepped
  split at stepped
  case isFalse => cases stepped
  case isTrue waited =>
    obtain ⟨client, moved, rfl⟩ := Option.map_eq_some_iff.1 stepped
    obtain ⟨running, -, rfl⟩ := Sync.step_terminate moved
    obtain ⟨-, pid, high⟩ := before running
    have closes : (r.client.daemon.terminate kill waitpid).2.1.errRd ∈
        (r.client.daemon.terminate kill waitpid).2.2 := by
      rw [Process.terminate_errRd]
      exact Process.errRd_mem_terminate kill waitpid pid high
    exact {
      conserved := conserved
      unreported := unreported
      drained := fun reported => by
        rcases drained reported with ⟨going, -⟩ | empty
        · simp [waited.1] at going
        · exact .inr empty
      reader := fun _ => .inr closes
      before := by simp
      after := by
        intro ok _
        refine ⟨closes, ?_⟩
        by_cases zero : (r.client.daemon.terminate kill waitpid).1 = 0
        · obtain ⟨killed, status, found, code⟩ := Process.terminate_eq_zero zero
          exact .inr (.inr ⟨status, waited.2 killed status found, code⟩)
        · exact .inl (by simpa using zero) }

theorem write {bytes : Bytes} (accounts : Accounts r)
    (stepped : step T r (.write bytes) = some r') : Accounts r' := by
  obtain ⟨conserved, unreported, drained, reader, before, after⟩ := accounts
  simp only [step] at stepped
  split at stepped
  case isFalse => cases stepped
  case isTrue alive =>
    cases stepped
    exact {
      conserved := by rw [← conserved, List.append_assoc]
      unreported := unreported
      drained := fun reported => by
        rcases drained reported with going | ⟨-, ended⟩
        · exact .inl going
        · exact absurd alive ended
      reader := reader
      before := before
      after := after }

theorem exit {status : WaitStatus} (accounts : Accounts r)
    (stepped : step T r (.exit status) = some r') : Accounts r' := by
  obtain ⟨conserved, unreported, drained, reader, before, after⟩ := accounts
  simp only [step] at stepped
  split at stepped
  case isFalse => cases stepped
  case isTrue alive =>
    cases stepped
    exact {
      conserved := conserved
      unreported := unreported
      drained := fun reported => (drained reported).imp_right fun empty => ⟨empty.1, by simp⟩
      reader := reader
      before := before
      after := fun ok returned => by
        obtain ⟨closes, reading | stray | ⟨status', ended, -⟩⟩ := after ok returned
        · exact ⟨closes, .inl reading⟩
        · exact ⟨closes, .inr (.inl stray)⟩
        · rw [alive] at ended
          cases ended }

omit [DecidableEq N] in
/-- A round that reads from the closed pipe gets an error, and ends the report. -/
theorem stray {t : Transfer SysRead} (accounts : Accounts r)
    (closed : r.client.daemon.errRd ∈ r.closed) (bytes : t.bytes = [])
    (count : t.result.nBytes = 0) :
    Accounts { r with
      pipe := r.pipe.drop t.bytes.length
      stderr := r.stderr ++ (reportRound t).1
      reporting := (reportRound t).2
      strayReads := r.strayReads ++ [r.client.daemon.errRd] } := by
  obtain ⟨conserved, unreported, drained, reader, before, after⟩ := accounts
  have ends : reportRound t = ([], false) := by simp [reportRound, count]
  simp only [ends, bytes, List.length_nil, List.drop_zero, List.append_nil]
  exact {
    conserved := conserved
    unreported := unreported
    drained := fun reported => by
      rcases drained reported with ⟨-, empty⟩ | rest
      · simp [empty] at closed
      · exact .inr rest
    reader := by simp
    before := before
    after := fun ok returned => ⟨closed, .inr (.inl (by simp))⟩ }

omit [DecidableEq N] in
/-- A round that reads from the open pipe passes on what it got, or finds the end. -/
theorem pass {answers : List SysRead} {t : Transfer SysRead} (accounts : Accounts r)
    (reporting : r.reporting = true) (opened : r.client.daemon.errRd ∉ r.closed)
    (returned : readPartial chunkSize answers = some t) (clean : .error ∉ answers)
    (front : t.bytes <+: r.pipe)
    (ending : .zero ∈ answers → r.exit.isSome ∧ t.bytes = r.pipe) :
    Accounts { r with
      pipe := r.pipe.drop t.bytes.length
      stderr := r.stderr ++ (reportRound t).1
      reporting := (reportRound t).2 } := by
  obtain ⟨conserved, unreported, drained, reader, before, after⟩ := accounts
  have reported : r.reported = true := (reader reporting).resolve_right opened
  have unreturned : ∀ ok, r.client.status ≠ .returned ok :=
    fun ok returned => opened (after ok returned).1
  obtain ⟨count, -, -, failed⟩ := readPartial_spec returned
  rw [Nat.zero_add] at count
  have succeeds : t.result.kind ≠ .fail := fun fails => clean (failed fails).1
  by_cases none : t.bytes = []
  · -- Nothing was read: the pipe is empty and the daemon has ended.
    have zero : .zero ∈ answers := by
      cases readPartial_begins (by decide) returned with
      | data _ _ _ bytes => exact absurd none bytes
      | zero first _ _ => exact List.mem_of_find?_eq_some first
      | error _ kind => exact absurd kind succeeds
    obtain ⟨ended, all⟩ := ending zero
    have ends : reportRound t = ([], false) := by simp [reportRound, count, none]
    simp only [ends, none, List.length_nil, List.drop_zero, List.append_nil]
    exact {
      conserved := conserved
      unreported := unreported
      drained := fun _ => .inr ⟨by rw [← all, none], Option.isSome_iff_ne_none.1 ended⟩
      reader := by simp
      before := before
      after := fun ok returned => absurd returned (unreturned ok) }
  · have goes : reportRound t = (t.bytes, true) := by
      simp [reportRound, count, none, succeeds]
    obtain ⟨rest, split⟩ := front
    simp only [goes, ← split, List.drop_left]
    exact {
      conserved := by rw [List.append_assoc, split, conserved]
      unreported := by simp [reported]
      drained := fun _ => by
        rcases drained reported with going | ⟨empty, -⟩
        · exact .inl ⟨rfl, going.2⟩
        · rw [empty] at split
          simp [none] at split
      reader := fun _ => .inl reported
      before := before
      after := fun ok returned => absurd returned (unreturned ok) }

theorem round {answers : List SysRead} (accounts : Accounts r)
    (stepped : step T r (.round answers) = some r') : Accounts r' := by
  simp only [step] at stepped
  split at stepped
  case isFalse => cases stepped
  case isTrue reporting =>
    simp only [report] at stepped
    split at stepped
    · cases stepped
    · rename_i t returned
      split at stepped
      case isFalse => cases stepped
      case isTrue answered =>
        obtain ⟨-, kernel⟩ := answered
        cases stepped
        by_cases closed : r.client.daemon.errRd ∈ r.closed
        · rw [if_pos closed] at kernel
          subst kernel
          have nothing : t.bytes = [] ∧ t.result.nBytes = 0 := by
            cases returned
            exact ⟨rfl, rfl⟩
          simpa only [if_pos closed] using accounts.stray closed nothing.1 nothing.2
        · rw [if_neg closed] at kernel
          obtain ⟨clean, front, ending⟩ := kernel
          simpa only [if_neg closed] using
            accounts.pass reporting closed returned clean front ending

end Accounts

section Reachable

variable {T : Tree N} {table : Slots PipeEnd} {pid : ℤ} {basePort : UInt16} {r : Relay N}

theorem reachable_accounts (spawned : 0 < pid)
    (reachable : Reachable (step T) (start T table pid basePort) r) : Accounts r := by
  refine reachable.invariant ?_ fun r input r' accounts stepped => ?_
  · have alive : (processSpawn table pid).pid ≠ -1 := by
      show pid ≠ -1
      omega
    exact {
      conserved := rfl
      unreported := fun _ => rfl
      drained := by simp [start]
      reader := by simp [start]
      before := fun _ => ⟨rfl, alive, processSpawn_errRd table pid⟩
      after := by simp [start, Sync.start] }
  · cases input with
    | client own =>
        cases own with
        | task i choice => exact accounts.task stepped
        | terminate kill waitpid => exact accounts.terminate stepped
    | write bytes => exact accounts.write stepped
    | exit status => exact accounts.exit stepped
    | round answers => exact accounts.round stepped

/-- What the daemon wrote was passed on, whole and in order, exactly when a send has failed or
there was nothing. -/
theorem relayed_iff (spawned : 0 < pid)
    (reachable : Reachable (step T) (start T table pid basePort) r) (returned : r.Returned) :
    r.stderr = r.wrote ↔ r.reported = true ∨ r.wrote = [] := by
  obtain ⟨conserved, unreported, drained, -, -, -⟩ := reachable_accounts spawned reachable
  by_cases reported : r.reported = true
  · have empty : r.pipe = [] := by
      rcases drained reported with ⟨going, -⟩ | ⟨empty, -⟩
      · simp [returned.2] at going
      · exact empty
    rw [empty, List.append_nil] at conserved
    exact iff_of_true conserved (.inl reported)
  · have none : r.stderr = [] := unreported (by simpa using reported)
    rw [none]
    exact ⟨fun same => .inr same.symm, fun given => (given.resolve_left reported).symm⟩

/-- **Errors of the daemon are never relayed as they should be.** In every run of
`sync_with_remote` in which the daemon ends with an exit code other than zero, whatever fails in
it and when, the main thread reads from the pipe that `terminate` has closed. -/
theorem relay_never (spawned : 0 < pid)
    (reachable : Reachable (step T) (start T table pid basePort) r) (returned : r.Returned)
    {status : WaitStatus} (ended : r.exit = some status) (fails : status.code ≠ 0) :
    ¬ r.Relayed := by
  obtain ⟨⟨ok, back⟩, idle⟩ := returned
  rintro ⟨-, clean⟩
  obtain ⟨-, going | stray | ⟨status', found, zero⟩⟩ :=
    (reachable_accounts spawned reachable).after ok back
  · simp [idle] at going
  · exact stray clean
  · rw [ended] at found
    cases found
    exact fails zero

end Reachable

/-- The client of the sample tree. -/
def sampleStart : Relay (Fin 3) :=
  start Sync.sampleTree ⟨[some .other, some .other, some .other]⟩ 7 50000

/-- A send fails, and the worker passes on the byte that the daemon wrote before it ended. -/
def failingInputs : List Input :=
  Sync.failingInputs.map .client ++ [.write [33], .exit (.exited 1), .round [.data [33], .zero],
    .round [.zero], .client (.terminate true (some (.exited 1))), .round [.error]]

theorem relay_never_sample :
    ∃ r, run (step Sync.sampleTree) sampleStart failingInputs = some r ∧ r.Returned ∧
      r.exit = some (.exited 1) ∧ r.stderr = [33] ∧ ¬ r.Relayed := by
  have facts : ∀ r ∈ run (step Sync.sampleTree) sampleStart failingInputs,
      r.client.status = .returned false ∧ r.reporting = false ∧ r.exit = some (.exited 1) ∧
        r.stderr = [33] := by decide +kernel
  obtain ⟨r, reaches⟩ : ∃ r, run (step Sync.sampleTree) sampleStart failingInputs = some r :=
    Option.isSome_iff_exists.1 (by decide +kernel)
  obtain ⟨back, idle, ended, passed⟩ := facts r reaches
  have reachable : Reachable (step Sync.sampleTree)
      (start Sync.sampleTree ⟨[some .other, some .other, some .other]⟩ 7 50000) r :=
    ⟨failingInputs, reaches⟩
  exact ⟨r, reaches, ⟨⟨false, back⟩, idle⟩, ended, passed,
    relay_never (by decide) reachable ⟨⟨false, back⟩, idle⟩ ended (by decide)⟩

/-- All sends succeed, and then the daemon writes a byte and exits with status 1: the byte is
lost, and the pipe is read after it was closed. -/
theorem error_output_lost :
    ∃ inputs r, run (step Sync.sampleTree) sampleStart inputs = some r ∧ r.Returned ∧
      r.exit = some (.exited 1) ∧ r.wrote = [33] ∧ r.stderr = [] ∧
      r.strayReads = [r.client.daemon.errRd] := by
  let inputs : List Input := Sync.sampleInputs.map .client ++ [.write [33], .exit (.exited 1),
    .client (.terminate true (some (.exited 1))), .round [.error]]
  have facts : ∀ r ∈ run (step Sync.sampleTree) sampleStart inputs,
      r.client.status = .returned false ∧ r.reporting = false ∧ r.exit = some (.exited 1) ∧
        r.wrote = [33] ∧ r.stderr = [] ∧ r.strayReads = [r.client.daemon.errRd] := by
    decide +kernel
  obtain ⟨r, reaches⟩ : ∃ r, run (step Sync.sampleTree) sampleStart inputs = some r :=
    Option.isSome_iff_exists.1 (by decide +kernel)
  obtain ⟨back, idle, rest⟩ := facts r reaches
  exact ⟨inputs, r, reaches, ⟨⟨false, back⟩, idle⟩, rest⟩

end Relay

end Enuwatch

import Enuwatch.Lib.Slots
import Mathlib.Tactic

/-!
# Spawned processes

`_process_spawn` opens four pipes and keeps one end of three of them: the write end of
the child's standard input and the read ends of its output and its errors.
`Process::terminate` sends `SIGTERM` and waits; a child that dies of that very signal
counts as having ended well.
-/

set_option autoImplicit false

namespace Enuwatch

open Enuwatch.Lib

structure Pipe where
  rd : ℕ
  wr : ℕ
deriving DecidableEq, Repr

structure Process where
  pid : ℤ
  inWr : ℕ
  outRd : ℕ
  errRd : ℕ
deriving DecidableEq, Repr

/-- The pipe ends a descriptor can be. -/
inductive PipeEnd where
  | other
  | rd
  | wr
deriving DecidableEq, Repr

/-- `Pipe::Pipe`: both ends get the lowest free number. -/
def Pipe.new (table : Slots PipeEnd) : Pipe × Slots PipeEnd :=
  let reading := table.alloc .rd
  (⟨table.next, reading.next⟩, reading.alloc .wr)

/-- The process object `_process_spawn` returns when the child has started. -/
def processSpawn (table : Slots PipeEnd) (pid : ℤ) : Process :=
  let (_, table) := Pipe.new table
  let (input, table) := Pipe.new table
  let (out, table) := Pipe.new table
  let (err, _) := Pipe.new table
  { pid := pid, inWr := input.wr, outRd := out.rd, errRd := err.rd }

/-- The write end of the child's standard input is never one of the standard streams. -/
theorem processSpawn_inWr (table : Slots PipeEnd) (pid : ℤ) : 2 < (processSpawn table pid).inWr := by
  have first := table.next_lt_next_alloc .rd
  have second := (table.alloc .rd).next_lt_next_alloc .wr
  have third := ((table.alloc .rd).alloc .wr).next_lt_next_alloc .rd
  show 2 < (((table.alloc .rd).alloc .wr).alloc .rd).next
  omega

/-- Nor is the read end of its errors. -/
theorem processSpawn_errRd (table : Slots PipeEnd) (pid : ℤ) : 2 < (processSpawn table pid).errRd := by
  have later : ∀ table : Slots PipeEnd, table.next < (Pipe.new table).2.next :=
    fun table => (table.next_lt_next_alloc .rd).trans (Slots.next_lt_next_alloc _ PipeEnd.wr)
  have first := later table
  have second := later (Pipe.new table).2
  have third := later (Pipe.new (Pipe.new table).2).2
  show 2 < (Pipe.new (Pipe.new (Pipe.new table).2).2).2.next
  omega

/-- What `waitpid` reports about a child. -/
inductive WaitStatus where
  | exited (code : ℕ)
  | signaled (sig : ℕ)
  | other (status : ℤ)
deriving DecidableEq, Repr

def sigterm : ℕ := 15

/-- The exit code that `Process::wait` makes of a status. -/
def WaitStatus.code : WaitStatus → ℤ
  | .exited code => code
  | .signaled sig => if sig = sigterm then 0 else 128 + sig
  | .other status => status

/-- `Process::wait`; `waitpid` fails when there is no status. -/
def Process.wait (waitpid : Option WaitStatus) (proc : Process) : ℤ × Process :=
  match waitpid with
  | none => (1, proc)
  | some status => (status.code, { proc with pid := -1 })

/-- `Process::terminate`: the exit code, the object afterwards and the descriptors it closes. -/
def Process.terminate (kill : Bool) (waitpid : Option WaitStatus) (proc : Process) :
    ℤ × Process × List ℕ :=
  if proc.pid = -1 then (1, proc, [])
  else
    let (code, proc) := if kill then proc.wait waitpid else (1, proc)
    (code, proc, [proc.inWr, proc.outRd, proc.errRd].filter (2 < ·))

@[simp] theorem Process.terminate_inWr (kill : Bool) (waitpid : Option WaitStatus) (proc : Process) :
    (proc.terminate kill waitpid).2.1.inWr = proc.inWr := by
  unfold terminate wait
  cases kill <;> cases waitpid <;> dsimp only <;> split <;> rfl

@[simp] theorem Process.terminate_errRd (kill : Bool) (waitpid : Option WaitStatus)
    (proc : Process) : (proc.terminate kill waitpid).2.1.errRd = proc.errRd := by
  unfold terminate wait
  cases kill <;> cases waitpid <;> dsimp only <;> split <;> rfl

/-- `terminate` returns zero only when it has waited for a child that ended well. -/
theorem Process.terminate_eq_zero {kill : Bool} {waitpid : Option WaitStatus} {proc : Process}
    (zero : (proc.terminate kill waitpid).1 = 0) :
    kill = true ∧ ∃ status, waitpid = some status ∧ status.code = 0 := by
  unfold terminate at zero
  split at zero
  · cases zero
  · cases kill with
    | false => cases zero
    | true =>
        cases waitpid with
        | none => cases zero
        | some status => exact ⟨rfl, status, rfl, zero⟩

/-- What `terminate` closes of a running child includes its pipe for errors. -/
theorem Process.errRd_mem_terminate (kill : Bool) (waitpid : Option WaitStatus) {proc : Process}
    (running : proc.pid ≠ -1) (high : 2 < proc.errRd) :
    proc.errRd ∈ (proc.terminate kill waitpid).2.2 := by
  unfold terminate wait
  rw [if_neg running]
  cases kill <;> cases waitpid <;> simp [high]

end Enuwatch

import Enuwatch.Lib.Pool
import Enuwatch.Lib.Transition
import Enuwatch.Sender
import Enuwatch.Spawn
import Enuwatch.Tracked
import Mathlib.Data.List.AList

/-!
# `sync_with_remote`

The client walks the scanned tree with one task for each node. A task sends its node and
then either opens a group with one task for each child, or, at a leaf, unlinks its node
and lets the loss bubble up: the counter of the parent goes down, and the task that takes
it to zero unlinks the parent in turn.

The state of the model holds the variables the tasks share and the program point of every
task; a step is one atomic action of one task. A mutex or an accessor has no state of its
own: it is taken while some task stands between its lock and its unlock. A thread runs
the top task of its stack, and starts another one above it only while the top waits for
its group. A display of the progress is an excursion from the middle of a send: it walks
down the tree and holds the mutex of every node on its path.

What the tasks have sent and unlinked is kept in the order in which it happened.
-/

set_option autoImplicit false

namespace Enuwatch.Sync

open Enuwatch.Lib

/-! ## Connecting -/

/-- The values of `errno` that `connect_to_daemon` tells apart. -/
inductive Errno where
  | connRefused
  | netUnreach
  | hostUnreach
  | timedOut
  | intr
  | other
deriving DecidableEq, Repr

inductive ConnectExit where
  | socket
  | connect (port : UInt16)
  | retriesExhausted (port : UInt16)
  /-- A call of `connect` has not returned yet. -/
  | blocked
deriving DecidableEq, Repr

/-- The retry loop of `connect_to_daemon`, which keeps the milliseconds it slept. -/
def connectLoop (port : UInt16) (fd : ℤ) :
    (left delay : ℕ) → List (Option Errno) → EStateM ConnectExit (List ℕ) ℤ
  | 0, _, _ => throw (.retriesExhausted port)
  | _ + 1, _, [] => throw .blocked
  | _ + 1, _, none :: _ => pure fd
  | left + 1, delay, some errno :: answers =>
      if errno = .other then throw (.connect port)
      else do
        modify (· ++ [delay])
        connectLoop port fd left (delay * 2) answers

/-- `connect_to_daemon`. The condition of the first `pfatal` is missing in the source: it
runs whatever `socket` has returned. -/
def connectToDaemon (port : UInt16) (fd : ℤ) (answers : List (Option Errno)) :
    EStateM ConnectExit (List ℕ) ℤ := do
  throw .socket
  connectLoop port fd 5 1 answers

/-! ## Program points -/

/-- The points of `recurse` up to the return of `send_datamsg`. -/
inductive Prep (N : Type) where
  | queued
  | check
  | sock
  | connect (port : UInt16)
  | load
  | reload (seq : UInt32)
  | store (seq loaded : UInt32)
  | send (seq : UInt32)
  /-- Inside `display_progress`: the nodes on the path, each with the children to come. -/
  | draw (seq : UInt32) (visits : List (N × List N))
  | report
deriving DecidableEq, Repr

/-- The points of a task. -/
inductive Pc (N : Type) where
  | before (prep : Prep N)
  | dispatch
  | remove
  | find (node : N)
  | decrement (node : N)
  | detach (node : N)
  | erase (node : N)
  | emplace (count : ℕ)
  | lock
  | spawn (rest : List N)
  | wait
  | exited
deriving DecidableEq, Repr

structure Task (N : Type) where
  node : N
  /-- The task that opened the group this task runs in. -/
  group : Option ℕ
  thread : ℕ
  pc : Pc N
deriving DecidableEq, Repr

/-- A task that waits for a thread. -/
def Task.fresh {N : Type} (node : N) (group : Option ℕ) : Task N := ⟨node, group, 0, .before .queued⟩

/-- The mutexes a task holds. -/
def Task.locks {N : Type} (t : Task N) : List N :=
  match t.pc with
  | .before (.draw _ visits) => visits.map (·.1)
  | .spawn _ => [t.node]
  | _ => []

/-- The entry of `pending` that a task has an accessor to. -/
def Task.accessor {N : Type} (t : Task N) : Option N :=
  match t.pc with
  | .decrement node => some node
  | .detach node => some node
  | .erase node => some node
  | _ => none

/-- A task inside `display_progress` holds the mutex of the tracked root. -/
def Task.draws {N : Type} (t : Task N) : Bool :=
  match t.pc with
  | .before (.draw _ _) => true
  | _ => false

/-! ## The state -/

/-- What `connect_to_daemon` has returned to a thread. -/
structure Link where
  thread : ℕ
  port : UInt16
  sock : ℤ
deriving DecidableEq, Repr

/-- One call of `send_datamsg`. -/
structure Send (N : Type) where
  node : N
  thread : ℕ
  sock : ℤ
  call : SendCall
  result : SendRun
deriving DecidableEq, Repr

/-- The call returned true. -/
def Send.Success {N : Type} (e : Send N) : Prop := e.result.outcome = .returned true

instance {N : Type} (e : Send N) : Decidable e.Success :=
  inferInstanceAs (Decidable (_ = _))

inductive Status where
  | running
  /-- `fatal` or `pfatal` was called. -/
  | aborted
  /-- A missing entry or a missing parent was dereferenced. -/
  | undefined
  | returned (ok : Bool)
deriving DecidableEq, Repr

/-- The variables of `sync_with_remote` and its tasks. -/
structure Client (N : Type) where
  daemon : Process
  ok : Bool := true
  gSeq : UInt32 := 0
  tSock : AList fun _ : ℕ => ℤ
  dmsg : DaemonInitMessage
  curPort : UInt16
  children : N → List N
  pending : N → Option ℕ := fun _ => none
  tasks : List (Task N)
  frames : ℕ → List ℕ
  links : List Link := []
  /-- The calls of `send_datamsg` that have come to an end: everything the client writes. -/
  calls : List (Send N) := []
  /-- Those that have returned. -/
  sends : List (Send N) := []
  removed : List N := []
  status : Status := .running

variable {N : Type} [DecidableEq N]

namespace Client

/-- Task `i` goes on to `pc`. -/
def goto (s : Client N) (i : ℕ) (t : Task N) (pc : Pc N) : Client N :=
  { s with tasks := s.tasks.set i { t with pc := pc } }

/-- Task `i` ends, and its thread goes back to what it was doing before. -/
def finish (s : Client N) (i : ℕ) (t : Task N) : Client N :=
  { s.goto i t .exited with frames := Function.update s.frames t.thread (s.frames t.thread).tail }

/-- No task holds the mutex of a node. -/
def MutexFree (s : Client N) (node : N) : Prop := ∀ t ∈ s.tasks, node ∉ t.locks

instance (s : Client N) (node : N) : Decidable (s.MutexFree node) :=
  inferInstanceAs (Decidable (∀ t ∈ s.tasks, _))

/-- No task has an accessor to the entry of a node. -/
def AccessorFree (s : Client N) (node : N) : Prop := ∀ t ∈ s.tasks, t.accessor ≠ some node

instance (s : Client N) (node : N) : Decidable (s.AccessorFree node) :=
  inferInstanceAs (Decidable (∀ t ∈ s.tasks, _))

/-- A thread takes on a new task when it has none, or while its own waits. -/
def Idle (s : Client N) (thread : ℕ) : Prop :=
  ∀ i ∈ (s.frames thread).head?, ∀ t ∈ s.tasks[i]?, t.pc = .wait

instance (s : Client N) (thread : ℕ) : Decidable (s.Idle thread) :=
  inferInstanceAs (Decidable (∀ i ∈ (s.frames thread).head?, _))

/-- The socket of a thread; `t_sock.local()` makes a zero when there is none yet. -/
def sockOf (s : Client N) (thread : ℕ) : ℤ := (s.tSock.lookup thread).getD 0

/-- Keep a return of `send_datamsg`. -/
def log (s : Client N) (e : Send N) : Client N :=
  { s with calls := s.calls ++ [e], sends := s.sends ++ [e] }

/-- `send_datamsg` has come to an end in task `i`. -/
def sent (s : Client N) (i : ℕ) (t : Task N) (e : Send N) : Client N :=
  match e.result.outcome with
  | .returned true => (s.log e).goto i t .dispatch
  | .returned false => (s.log e).goto i t (.before .report)
  | .fatal => { s with calls := s.calls ++ [e], status := .aborted }

/-- Take a node off its parent's list. -/
def unlink (s : Client N) (parent node : N) : Client N :=
  { s with
    children := Function.update s.children parent ((s.children parent).erase node)
    removed := s.removed ++ [node] }

/-- Write an entry of `pending`. -/
def setPending (s : Client N) (node : N) (count : Option ℕ) : Client N :=
  { s with pending := Function.update s.pending node count }

end Client

/-- `--it->second` on a `size_t`. -/
def countdown (count : ℕ) : ℕ := if count = 0 then 2 ^ 64 - 1 else count - 1

/-- `(g_seq + 1) % std::numeric_limits<uint32_t>::max()`. -/
def nextSeq (loaded : UInt32) : UInt32 := (loaded + 1) % 4294967295

/-! ## One step of a task -/

/-- What decides a step: the scheduler, the kernel and the clock. -/
inductive Choice where
  | start (thread : ℕ)
  | go
  | connect (fd : ℤ) (answers : List (Option Errno))
  | send (call : SendCall)
  /-- The display is due, and nobody else is drawing. -/
  | draw
  /-- The display enters the next child, or has no row left for it. -/
  | enter
  | skip
deriving Repr

namespace Client

variable (T : Tree N) (s : Client N) (i : ℕ) (t : Task N)

/-- From the start of a task to the return of `send_datamsg`. -/
def prepare : Prep N → Choice → Option (Client N)
  | .queued, .start thread =>
      if s.Idle thread then
        some { s.goto i { t with thread := thread } (.before .check) with
          frames := Function.update s.frames thread (i :: s.frames thread) }
      else none
  | .check, .go => some (if s.ok then s.goto i t (.before .sock) else s.finish i t)
  | .sock, .go =>
      let sock := s.sockOf t.thread
      let s := { s with tSock := s.tSock.insert t.thread sock }
      if sock = -1 then
        some ({ s with curPort := s.curPort + 1 }.goto i t (.before (.connect s.curPort)))
      else some (s.goto i t (.before .load))
  | .connect port, .connect fd answers =>
      match connectToDaemon port fd answers [] with
      | .ok sock _ =>
          some ({ s with
            tSock := s.tSock.insert t.thread sock
            links := s.links ++ [Link.mk t.thread port sock] }.goto i t (.before .load))
      | .error .blocked _ => none
      | .error _ _ => some { s with status := .aborted }
  | .load, .go => some (s.goto i t (.before (.reload s.gSeq)))
  | .reload seq, .go => some (s.goto i t (.before (.store seq s.gSeq)))
  | .store seq loaded, .go =>
      some ({ s with gSeq := nextSeq loaded }.goto i t (.before (.send seq)))
  | .send seq, .send call =>
      -- `ok` never comes back, so a load that saw it false leaves it false.
      if call.seq = seq ∧ call.info = T.info t.node ∧ (false ∈ call.oks → s.ok = false) then
        (sendDatamsg call).map fun result =>
          s.sent i t ⟨t.node, t.thread, s.sockOf t.thread, call, result⟩
      else none
  | .send seq, .draw =>
      if (T.info t.node).ftype = .regular ∧ (∀ t ∈ s.tasks, t.draws = false) ∧
          s.MutexFree T.root then
        some (s.goto i t (.before (.draw seq [(T.root, s.children T.root)])))
      else none
  | .draw seq ((node, child :: rest) :: path), .enter =>
      if s.MutexFree child then
        some (s.goto i t
          (.before (.draw seq ((child, s.children child) :: (node, rest) :: path))))
      else none
  | .draw seq ((node, _ :: rest) :: path), .skip =>
      some (s.goto i t (.before (.draw seq ((node, rest) :: path))))
  | .draw seq ((_, []) :: path), .go => some (s.goto i t (.before (.draw seq path)))
  | .draw seq [], .go => some (s.goto i t (.before (.send seq)))
  | .report, .go => some ({ s with ok := false }.finish i t)
  | _, _ => none

/-- The `switch` on the type of the node. -/
def dispatch : Client N :=
  match (T.info t.node).ftype with
  | .regular => s.goto i t .remove
  | .directory =>
      if (s.children t.node).length = 0 ∧ (T.parent t.node).isSome then s.goto i t .remove
      else s.goto i t (.emplace (s.children t.node).length)
  | _ => { s with status := .aborted }

/-- `remove` of a node, after which the task goes on to `pc` with the parent. -/
def remove (node : N) (pc : N → Pc N) : Option (Client N) :=
  match T.parent node with
  | none => some { s with status := .undefined }
  | some parent =>
      if s.MutexFree parent then some ((s.unlink parent node).goto i t (pc parent)) else none

/-- `pending.find`. -/
def find (node : N) : Option (Client N) :=
  if s.AccessorFree node then
    match s.pending node with
    | none => some { s with status := .undefined }
    | some _ => some (s.goto i t (.decrement node))
  else none

/-- `if (--it->second == 0)`. -/
def decrement (node : N) : Client N :=
  match s.pending node with
  | none => { s with status := .undefined }
  | some count =>
      let s := s.setPending node (some (countdown count))
      if countdown count = 0 then
        match T.parent node with
        | some _ => s.goto i t (.detach node)
        | none => s.goto i t (.erase node)
      else s.finish i t

/-- `pending.erase(it)`, and on to the parent. -/
def erase (node : N) : Client N :=
  let s := s.setPending node none
  match T.parent node with
  | some parent => s.goto i t (.find parent)
  | none => s.finish i t

/-- One step of a task that is on top of its thread. -/
def act : Pc N → Choice → Option (Client N)
  | .before prep, choice => s.prepare T i t prep choice
  | .dispatch, .go => some (s.dispatch T i t)
  | .remove, .go => s.remove T i t t.node .find
  | .find node, .go => s.find i t node
  | .decrement node, .go => some (s.decrement T i t node)
  | .detach node, .go => s.remove T i t node fun _ => .erase node
  | .erase node, .go => some (s.erase T i t node)
  | .emplace count, .go =>
      some ((s.setPending t.node (some ((s.pending t.node).getD count))).goto i t .lock)
  | .lock, .go =>
      if s.MutexFree t.node then some (s.goto i t (.spawn (s.children t.node))) else none
  | .spawn (child :: rest), .go =>
      let s := s.goto i t (.spawn rest)
      some { s with tasks := s.tasks ++ [.fresh child (some i)] }
  | .spawn [], .go => some (s.goto i t .wait)
  | .wait, .go =>
      if ∀ t' ∈ s.tasks, t'.group = some i → t'.pc = .exited then some (s.finish i t) else none
  | _, _ => none

end Client

/-- What happens next: a task takes a step, or the main thread, after the return of the root
task, terminates the daemon and returns. -/
inductive Input where
  | task (i : ℕ) (choice : Choice)
  | terminate (kill : Bool) (waitpid : Option WaitStatus)
deriving Repr

/-- A queued task is on no stack yet; any other one runs on top of its thread. -/
def Client.OnTop (s : Client N) (i : ℕ) (t : Task N) : Prop :=
  t.pc = .before .queued ∨ (s.frames t.thread).head? = some i

instance (s : Client N) (i : ℕ) (t : Task N) : Decidable (s.OnTop i t) :=
  inferInstanceAs (Decidable (_ ∨ _))

/-- One step of `sync_with_remote`. -/
def step (T : Tree N) (s : Client N) : Input → Option (Client N)
  | .task i choice =>
      match s.status, s.tasks[i]? with
      | .running, some t => if s.OnTop i t then s.act T i t t.pc choice else none
      | _, _ => none
  | .terminate kill waitpid =>
      match s.status, s.tasks[0]? with
      | .running, some t =>
          if t.pc = .exited then
            let (code, daemon, _) := s.daemon.terminate kill waitpid
            some { s with daemon := daemon, status := .returned (code = 0 ∧ s.ok) }
          else none
      | _, _ => none

/-- `sync_with_remote` at its first call of `recurse`, on the main thread. -/
def start (T : Tree N) (table : Slots PipeEnd) (pid : ℤ) (basePort : UInt16) : Client N where
  daemon := processSpawn table pid
  tSock := ∅
  -- `t_sock.size()`: no thread has touched its element yet.
  dmsg := ⟨basePort, .ofNat (∅ : AList fun _ : ℕ => ℤ).entries.length⟩
  curPort := basePort
  children := T.children
  tasks := [⟨T.root, none, 0, .before .check⟩]
  frames := fun thread => if thread = 0 then [0] else []

end Enuwatch.Sync

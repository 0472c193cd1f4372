import Enuwatch.Daemon.Connection
import Enuwatch.Lib.Transition
import Mathlib.Data.List.AList

/-!
# `daemon_main`

The daemon binds its listening sockets and then loops: it polls all its descriptors and
goes once through the vector `fds`. An entry that reports a hang-up or an error is erased
together with its connection state; a readable listening socket accepts; any other readable
descriptor wakes up its connection.

A step of the model is one return of `poll` or one round of the `for` loop, with the
answers of the kernel as its input. The daemon ends by returning, by `pfatal`, or by using
the reference `pfd` after `emplace_back` has moved the vector it points into, where the
language gives the program no meaning any more.

What a step, a round and a read can come to is said once (`step_inv`, `visit_inv`, `readable_inv`).
-/

set_option autoImplicit false

namespace Enuwatch.Daemon

open Enuwatch.Lib Enuwatch.Net

/-- The flags of `revents` that the loop looks at. -/
structure Revents where
  hup : Bool := false
  err : Bool := false
  input : Bool := false
deriving DecidableEq, Repr

structure PollFd where
  fd : ℕ
  revents : Revents := {}
deriving DecidableEq, Repr

inductive Status where
  | running
  | returned
  | fatal
  | undefined
deriving DecidableEq, Repr

/-- The variables of `daemon_main` and the world around it. -/
structure Server where
  nConns : ℕ
  fds : List PollFd
  socketFds : List ℕ
  states : AList fun _ : ℕ => ConnectionState
  /-- The loop index; a pass is over when it reaches the end of `fds`. -/
  idx : ℕ
  world : World
  status : Status := .running

/-! ## Setting up -/

/-- The loop that binds the listening sockets. -/
def bindLoop (basePort : UInt16) : List ℕ → Slots Desc → List ℕ × Slots Desc
  | [], table => ([], table)
  | conn :: conns, table =>
      let (socks, table') :=
        bindLoop basePort conns (table.alloc (.listening (basePort + .ofNat conn)))
      (table.next :: socks, table')

/-- The descriptor table of a new process; `true` marks a descriptor it inherits. -/
def inheritedTable (inherited : List Bool) : Slots Desc :=
  ⟨inherited.map fun is_open => if is_open then some .inherited else none⟩

/-- The daemon before its first `poll`, started with the descriptors it inherits. -/
def start (inherited : List Bool) (fs : Fs) (dmsg : DaemonInitMessage) : Server :=
  let (socks, table) :=
    bindLoop dmsg.basePort (List.range dmsg.nConns.toNat) (inheritedTable inherited)
  { nConns := dmsg.nConns.toNat
    fds := socks.map ({ fd := · })
    socketFds := socks
    states := ∅
    idx := socks.length
    world := { table := table, fs := fs } }

/-! ## Leaving -/

/-- The destructors of all connection states. -/
def destroyAll (states : AList fun _ : ℕ => ConnectionState) (w : World) : World :=
  states.entries.foldl (fun w entry => entry.2.destroy w) w

/-- The `atexit` handler that `create_anonfile` registers. -/
def unlinkAnonFiles (w : World) : World :=
  w.anonFiles.foldl (fun w path => w.commit (w.fs.unlink (w.locate path))) w

namespace Server

/-- `return false`: the locals are destroyed, and `main` exits. -/
def returnFalse (d : Server) (w : World) : Server :=
  { d with
    states := ∅
    fds := []
    socketFds := []
    idx := 0
    world := unlinkAnonFiles (destroyAll d.states w)
    status := .returned }

/-! ## One round of the loop -/

/-- An entry that reports `POLLHUP` or `POLLERR` is erased with its state. -/
def hangUp (d : Server) (fd : ℕ) : Server :=
  { d with
    world := match d.states.lookup fd with
      | some st => st.destroy d.world
      | none => d.world
    states := d.states.erase fd
    -- `--idx` undoes the increment of the loop.
    fds := d.fds.eraseIdx d.idx }

/-- A readable listening socket. -/
def acceptClient (d : Server) (sock : ℕ) (ans : Answers) : Server :=
  if d.fds.length > d.nConns * 2 then { d with status := .fatal }
  else
    match ans.accept, d.world.table.get sock with
    | true, some (.listening _) =>
        let w := d.world
        let clientFd := w.table.next
        let w := { w with table := w.table.alloc (.conn w.accepted), accepted := w.accepted + 1 }
        let st : ConnectionState :=
          { (d.states.lookup clientFd).getD {} with clientFd := (clientFd : ℤ) }
        let d' := { d with
          world := w
          fds := d.fds ++ [(⟨clientFd, {}⟩ : PollFd)]
          idx := d.idx + 1 }
        -- The vector was reserved for `2 * n_conns` entries: one more moves it away from `pfd`.
        if d.fds.length < d.nConns * 2 then
          { d' with states := d.states.insert clientFd { st with sockFd := (sock : ℤ) } }
        else { d' with states := d.states.insert clientFd st, status := .undefined }
    | _, _ => { d with status := .fatal }

/-- A readable connection. -/
def readable (d : Server) (fd : ℕ) (ans : Answers) : Option Server :=
  let st := (d.states.lookup fd).getD {}
  match d.world.table.get fd with
  | some (.conn k) =>
      match wakeUp k ans st { d.world with answers := ans.reads } with
      | .ok st w =>
          if w.answers = [] then
            some { d with states := d.states.insert fd st, world := w, idx := d.idx + 1 }
          else none
      | .error (.returned st) w =>
          if w.answers = [] then
            some ({ d with states := d.states.insert fd st }.returnFalse w)
          else none
      | .error .fatal w =>
          if w.answers = [] then some { d with world := w, status := .fatal } else none
      | .error .blocked _ => none
  -- A read from anything but a connection fails.
  | _ => some ({ d with states := d.states.insert fd st }.returnFalse d.world)

/-- The body of the `for` loop at the entry `pfd`. -/
def visit (d : Server) (pfd : PollFd) (ans : Answers) : Option Server :=
  if pfd.revents.hup || pfd.revents.err then some (d.hangUp pfd.fd)
  else if pfd.revents.input = false then some { d with idx := d.idx + 1 }
  else if pfd.fd ∈ d.socketFds then some (d.acceptClient pfd.fd ans)
  else d.readable pfd.fd ans

/-- A descriptor that is not open reports `POLLNVAL` and none of the flags of `Revents`. -/
def pollAnswer (table : Slots Desc) (pfd : PollFd) (revents : Revents) : Prop :=
  table.get pfd.fd = none → revents = {}

instance (table : Slots Desc) (pfd : PollFd) (revents : Revents) :
    Decidable (pollAnswer table pfd revents) :=
  inferInstanceAs (Decidable (_ → _))

end Server

/-- What the kernel does next: `poll` returns, is interrupted or fails, or a round of the
`for` loop gets its answers. -/
inductive Input where
  | poll (revents : List Revents)
  | interrupted
  | pollFailed
  | round (ans : Answers)
deriving Repr

/-- One step of `daemon_main`. -/
def step (d : Server) (input : Input) : Option Server :=
  match d.status, d.fds[d.idx]?, input with
  | .running, none, .poll revents =>
      if revents.length = d.fds.length ∧
          ∀ pair ∈ d.fds.zip revents, Server.pollAnswer d.world.table pair.1 pair.2 then
        some { d with
          fds := d.fds.zipWith (fun pfd r => { pfd with revents := r }) revents
          idx := 0 }
      else none
  | .running, none, .interrupted => some d
  | .running, none, .pollFailed => some { d with status := .fatal }
  | .running, some pfd, .round ans => d.visit pfd ans
  | _, _, _ => none

/-! ## What a step can do -/

section Cases

variable {d d' : Server} {pfd : PollFd} {ans : Answers} {input : Input}

/-- What becomes of a readable connection: a wake-up that has used all its answers, or a read from
something else. -/
inductive ReadCase (d : Server) (fd : ℕ) (ans : Answers) : Server → Prop
  | woken {k : ℕ} {st : ConnectionState} {w : World} (conn : d.world.table.get fd = some (.conn k))
      (outcome : wakeUp k ans ((d.states.lookup fd).getD {}) { d.world with answers := ans.reads } =
        .ok st w) (used : w.answers = []) :
      ReadCase d fd ans { d with states := d.states.insert fd st, world := w, idx := d.idx + 1 }
  | returned {k : ℕ} {st : ConnectionState} {w : World}
      (conn : d.world.table.get fd = some (.conn k))
      (outcome : wakeUp k ans ((d.states.lookup fd).getD {}) { d.world with answers := ans.reads } =
        .error (.returned st) w) (used : w.answers = []) :
      ReadCase d fd ans ({ d with states := d.states.insert fd st }.returnFalse w)
  | failed {k : ℕ} {w : World} (conn : d.world.table.get fd = some (.conn k))
      (outcome : wakeUp k ans ((d.states.lookup fd).getD {}) { d.world with answers := ans.reads } =
        .error .fatal w) (used : w.answers = []) :
      ReadCase d fd ans { d with world := w, status := .fatal }
  | dangling (gone : ∀ k, d.world.table.get fd ≠ some (.conn k)) :
      ReadCase d fd ans ({ d with
        states := d.states.insert fd ((d.states.lookup fd).getD {}) }.returnFalse d.world)

theorem readable_inv {fd : ℕ} (read : d.readable fd ans = some d') : ReadCase d fd ans d' := by
  simp only [Server.readable] at read
  split at read
  · rename_i conn
    split at read
    · rename_i outcome
      split at read <;> cases read
      rename_i used
      exact .woken conn outcome used
    · rename_i outcome
      split at read <;> cases read
      rename_i used
      exact .returned conn outcome used
    · rename_i outcome
      split at read <;> cases read
      rename_i used
      exact .failed conn outcome used
    · cases read
  · rename_i gone
    cases read
    exact .dangling gone

/-- The branches of a round. -/
inductive VisitCase (d : Server) (pfd : PollFd) (ans : Answers) : Server → Prop
  | hungUp (flagged : (pfd.revents.hup || pfd.revents.err) = true) :
      VisitCase d pfd ans (d.hangUp pfd.fd)
  | skipped (quiet : (pfd.revents.hup || pfd.revents.err) = false)
      (idle : pfd.revents.input = false) : VisitCase d pfd ans { d with idx := d.idx + 1 }
  | offered {d' : Server} (quiet : (pfd.revents.hup || pfd.revents.err) = false)
      (ready : pfd.revents.input = true) (listener : pfd.fd ∈ d.socketFds)
      (offered : d.acceptClient pfd.fd ans = d') : VisitCase d pfd ans d'
  | read {d' : Server} (quiet : (pfd.revents.hup || pfd.revents.err) = false)
      (ready : pfd.revents.input = true) (other : pfd.fd ∉ d.socketFds)
      (read : d.readable pfd.fd ans = some d') : VisitCase d pfd ans d'

theorem visit_inv (visited : d.visit pfd ans = some d') : VisitCase d pfd ans d' := by
  unfold Server.visit at visited
  split at visited
  · rename_i flagged
    cases visited
    exact .hungUp flagged
  · rename_i quiet
    rw [Bool.not_eq_true] at quiet
    split at visited
    · rename_i idle
      cases visited
      exact .skipped quiet idle
    · rename_i ready
      rw [Bool.not_eq_false] at ready
      split at visited
      · rename_i listener
        exact .offered quiet ready listener (Option.some.inj visited)
      · rename_i other
        exact .read quiet ready other visited

/-- The kinds of steps. -/
inductive StepCase (d : Server) : Input → Server → Prop
  | polled {revents : List Revents} (length : revents.length = d.fds.length)
      (allowed : ∀ pair ∈ d.fds.zip revents, Server.pollAnswer d.world.table pair.1 pair.2) :
      StepCase d (.poll revents) { d with
        fds := d.fds.zipWith (fun pfd r => { pfd with revents := r }) revents
        idx := 0 }
  | interrupted : StepCase d .interrupted d
  | pollFailed : StepCase d .pollFailed { d with status := .fatal }
  | round {pfd : PollFd} {ans : Answers} {d' : Server} (here : d.fds[d.idx]? = some pfd)
      (visited : d.visit pfd ans = some d') : StepCase d (.round ans) d'

theorem step_inv (stepped : step d input = some d') :
    d.status = .running ∧ StepCase d input d' := by
  unfold step at stepped
  split at stepped
  · rename_i running _
    split at stepped <;> cases stepped
    rename_i allowed
    exact ⟨running, .polled allowed.1 allowed.2⟩
  · rename_i running _
    cases stepped
    exact ⟨running, .interrupted⟩
  · rename_i running _
    cases stepped
    exact ⟨running, .pollFailed⟩
  · rename_i running here
    exact ⟨running, .round here stepped⟩
  · cases stepped

end Cases

end Enuwatch.Daemon

import Enuwatch.Daemon.Main
import Enuwatch.Daemon.Messages
import Enuwatch.Daemon.Moves

/-!
# What a step of the daemon can do

A step of `daemon_main` is one of a few events (`Event`). Every state of every run is
settled: the counters of each connection are in range and no connection waits for anything
but bytes (`Settled`). From a settled state a step is an event and leads to a settled state
(`step_event`), so an invariant of the daemon is proved event by event (`Server.invariant`).
-/

set_option autoImplicit false

namespace Enuwatch.Daemon

open Enuwatch.Lib Enuwatch.Net

namespace Server

variable (d : Server)

/-- A connection was accepted from the listening socket `sock`. -/
def welcome (sock : ℕ) : Server :=
  let clientFd := d.world.table.next
  { d with
    world := { d.world with
      table := d.world.table.alloc (.conn d.world.accepted)
      accepted := d.world.accepted + 1 }
    fds := d.fds ++ [(⟨clientFd, {}⟩ : PollFd)]
    idx := d.idx + 1
    states := d.states.insert clientFd
      { (d.states.lookup clientFd).getD {} with clientFd := (clientFd : ℤ), sockFd := (sock : ℤ) } }

/-- A connection was accepted into a vector without room for it. -/
def overflow : Server :=
  let clientFd := d.world.table.next
  { d with
    world := { d.world with
      table := d.world.table.alloc (.conn d.world.accepted)
      accepted := d.world.accepted + 1 }
    fds := d.fds ++ [(⟨clientFd, {}⟩ : PollFd)]
    idx := d.idx + 1
    states := d.states.insert clientFd
      { (d.states.lookup clientFd).getD {} with clientFd := (clientFd : ℤ) }
    status := .undefined }

/-- The connection on `fd` was woken up. -/
def wake (fd : ℕ) (st : ConnectionState) (w : World) : Server :=
  { d with states := d.states.insert fd st, world := w, idx := d.idx + 1 }

/-- The state that `states[fd]` refers to. -/
def stateOf (fd : ℕ) : ConnectionState := (d.states.lookup fd).getD {}

/-- The world in which a round with these answers starts. -/
def answered (ans : Answers) : World := { d.world with answers := ans.reads }

end Server

/-- What becomes of a client at the listening socket `sock`. -/
inductive AcceptCase (d : Server) (sock : ℕ) (ans : Answers) : Server → Prop
  | crowded (many : d.fds.length > d.nConns * 2) : AcceptCase d sock ans { d with status := .fatal }
  | refused (few : d.fds.length ≤ d.nConns * 2)
      (refused : ans.accept = true → ∀ port, d.world.table.get sock ≠ some (.listening port)) :
      AcceptCase d sock ans { d with status := .fatal }
  | admitted {port : UInt16} (accept : ans.accept = true)
      (listening : d.world.table.get sock = some (.listening port))
      (room : d.fds.length < d.nConns * 2) : AcceptCase d sock ans (d.welcome sock)
  | overflowed {port : UInt16} (accept : ans.accept = true)
      (listening : d.world.table.get sock = some (.listening port))
      (full : d.fds.length = d.nConns * 2) : AcceptCase d sock ans d.overflow

theorem acceptClient_inv {d d' : Server} {sock : ℕ} {ans : Answers}
    (offered : d.acceptClient sock ans = d') : AcceptCase d sock ans d' := by
  subst offered
  unfold Server.acceptClient
  split
  · rename_i many
    exact .crowded many
  · rename_i few
    split
    · rename_i accept listening
      split
      · rename_i room
        exact .admitted accept listening room
      · exact .overflowed accept listening (by omega)
    · rename_i refused
      exact .refused (not_lt.1 few) fun accept port => refused port accept

/-- What a step can do. -/
inductive Event (d : Server) : Input → Server → Prop
  | polled {revents : List Revents} (length : revents.length = d.fds.length)
      (allowed : ∀ pair ∈ d.fds.zip revents, Server.pollAnswer d.world.table pair.1 pair.2) :
      Event d (.poll revents)
        { d with fds := d.fds.zipWith (fun pfd r => { pfd with revents := r }) revents, idx := 0 }
  | interrupted : Event d .interrupted d
  | pollFailed : Event d .pollFailed { d with status := .fatal }
  | hungUp {ans : Answers} {pfd : PollFd} (here : d.fds[d.idx]? = some pfd)
      (flagged : (pfd.revents.hup || pfd.revents.err) = true) :
      Event d (.round ans) (d.hangUp pfd.fd)
  | skipped {ans : Answers} {pfd : PollFd} (here : d.fds[d.idx]? = some pfd) :
      Event d (.round ans) { d with idx := d.idx + 1 }
  | refused {ans : Answers} {pfd : PollFd} (here : d.fds[d.idx]? = some pfd)
      (listener : pfd.fd ∈ d.socketFds) : Event d (.round ans) { d with status := .fatal }
  | admitted {ans : Answers} {pfd : PollFd} {port : UInt16} (here : d.fds[d.idx]? = some pfd)
      (listener : pfd.fd ∈ d.socketFds)
      (listening : d.world.table.get pfd.fd = some (.listening port))
      (room : d.fds.length < d.nConns * 2) : Event d (.round ans) (d.welcome pfd.fd)
  | overflowed {ans : Answers} {pfd : PollFd} {port : UInt16} (here : d.fds[d.idx]? = some pfd)
      (listener : pfd.fd ∈ d.socketFds)
      (listening : d.world.table.get pfd.fd = some (.listening port))
      (full : d.fds.length = d.nConns * 2) : Event d (.round ans) d.overflow
  | woken {ans : Answers} {pfd : PollFd} {k : ℕ} {st : ConnectionState} {w : World}
      (here : d.fds[d.idx]? = some pfd) (other : pfd.fd ∉ d.socketFds)
      (conn : d.world.table.get pfd.fd = some (.conn k))
      (chain : Chain k (d.stateOf pfd.fd, d.answered ans) (st, w))
      (rest : st.AtRest) : Event d (.round ans) (d.wake pfd.fd st w)
  | returned {ans : Answers} {pfd : PollFd} {k : ℕ} {st : ConnectionState} {w : World}
      (here : d.fds[d.idx]? = some pfd) (other : pfd.fd ∉ d.socketFds)
      (conn : d.world.table.get pfd.fd = some (.conn k))
      (cut : Cut k (d.stateOf pfd.fd, d.answered ans) (.returned st) w) :
      Event d (.round ans) ({ d with states := d.states.insert pfd.fd st }.returnFalse w)
  | failed {ans : Answers} {pfd : PollFd} {k : ℕ} {w : World}
      (here : d.fds[d.idx]? = some pfd) (other : pfd.fd ∉ d.socketFds)
      (conn : d.world.table.get pfd.fd = some (.conn k))
      (cut : Cut k (d.stateOf pfd.fd, d.answered ans) .fatal w) :
      Event d (.round ans) { d with world := w, status := .fatal }
  | dangling {ans : Answers} {pfd : PollFd} (here : d.fds[d.idx]? = some pfd)
      (other : pfd.fd ∉ d.socketFds)
      (gone : ∀ k, d.world.table.get pfd.fd ≠ some (.conn k)) :
      Event d (.round ans)
        ({ d with states := d.states.insert pfd.fd (d.stateOf pfd.fd) }.returnFalse d.world)

section States

variable {P : ConnectionState → Prop}

/-- What holds of all states and of one that is put in place of another. -/
theorem forall_insert {states : AList fun _ : ℕ => ConnectionState} {fd : ℕ} {st : ConnectionState}
    (others : ∀ x st', states.lookup x = some st' → P st') (own : P st) (x : ℕ)
    (st' : ConnectionState) (found : (states.insert fd st).lookup x = some st') : P st' := by
  by_cases same : x = fd
  · subst same
    rw [AList.lookup_insert] at found
    cases found
    exact own
  · rw [AList.lookup_insert_ne same] at found
    exact others x st' found

/-- `states[fd]` makes a state where there is none. -/
theorem Server.stateOf_of_forall {d : Server} (blank : P {})
    (all : ∀ x st, d.states.lookup x = some st → P st) (fd : ℕ) : P (d.stateOf fd) := by
  unfold Server.stateOf
  cases found : d.states.lookup fd with
  | none => exact blank
  | some st => exact all fd st found

end States

/-- Every connection has its counters in range and waits for bytes. -/
def Settled (d : Server) : Prop :=
  ∀ fd st, d.states.lookup fd = some st → st.Sane ∧ st.AtRest

theorem ConnectionState.sane_default : ({} : ConnectionState).Sane :=
  ⟨le_rfl, by decide, fun _ => rfl, nofun⟩

theorem Settled.stateOf {d : Server} (settled : Settled d) (fd : ℕ) :
    (d.stateOf fd).Sane ∧ (d.stateOf fd).AtRest := by
  unfold Server.stateOf
  cases found : d.states.lookup fd with
  | none => exact ⟨ConnectionState.sane_default, .inl rfl⟩
  | some st => exact settled fd st found

theorem Settled.insert {d d' : Server} (settled : Settled d) {fd : ℕ} {st : ConnectionState}
    (states : d'.states = d.states.insert fd st) (sane : st.Sane) (rest : st.AtRest) :
    Settled d' := by
  intro other st' found
  rw [states] at found
  by_cases same : other = fd
  · subst same
    rw [AList.lookup_insert] at found
    cases found
    exact ⟨sane, rest⟩
  · rw [AList.lookup_insert_ne same] at found
    exact settled other st' found

theorem Settled.of_states {d d' : Server} (settled : Settled d) (states : d'.states = d.states) :
    Settled d' := by
  intro fd st found
  rw [states] at found
  exact settled fd st found

theorem Settled.returnFalse (d : Server) (w : World) : Settled (d.returnFalse w) := by
  intro fd st found
  simp [Server.returnFalse] at found

/-! ## From steps to events -/

section Step

variable {d d' : Server} {pfd : PollFd} {ans : Answers} {input : Input}

/-- A connection that is left after a hang-up was there before. -/
theorem lookup_of_hangUp {fd x : ℕ} {st : ConnectionState}
    (found : (d.hangUp fd).states.lookup x = some st) : d.states.lookup x = some st := by
  by_cases same : x = fd
  · subst same
    simp [Server.hangUp] at found
  · simpa [Server.hangUp, same] using found

theorem hangUp_settled (settled : Settled d) (fd : ℕ) : Settled (d.hangUp fd) :=
  fun other st found => settled other st (lookup_of_hangUp found)

theorem acceptClient_event (settled : Settled d) (here : d.fds[d.idx]? = some pfd)
    (listener : pfd.fd ∈ d.socketFds) (offered : d.acceptClient pfd.fd ans = d') :
    Event d (.round ans) d' ∧ Settled d' := by
  obtain ⟨sane, rest⟩ := settled.stateOf d.world.table.next
  cases acceptClient_inv offered with
  | crowded => exact ⟨.refused here listener, settled.of_states rfl⟩
  | refused => exact ⟨.refused here listener, settled.of_states rfl⟩
  | admitted _ listening room =>
      exact ⟨.admitted here listener listening room,
        settled.insert rfl ⟨sane.1, sane.2, sane.3, sane.4⟩ rest⟩
  | overflowed _ listening full =>
      exact ⟨.overflowed here listener listening full,
        settled.insert rfl ⟨sane.1, sane.2, sane.3, sane.4⟩ rest⟩

theorem readable_event (settled : Settled d) (here : d.fds[d.idx]? = some pfd)
    (other : pfd.fd ∉ d.socketFds) (returned : d.readable pfd.fd ans = some d') :
    Event d (.round ans) d' ∧ Settled d' := by
  obtain ⟨sane, rest⟩ := settled.stateOf pfd.fd
  have moves (k : ℕ) : wp (wakeUp k ans (d.stateOf pfd.fd)) _ _ (d.answered ans) :=
    wakeUp_moves sane rest
  cases readable_inv returned with
  | woken conn outcome =>
      obtain ⟨chain, sane, rest⟩ := (wp_ok outcome).1 (moves _)
      exact ⟨.woken here other conn chain rest, settled.insert rfl sane rest⟩
  | returned conn outcome =>
      exact ⟨.returned here other conn ((wp_error outcome).1 (moves _)), .returnFalse _ _⟩
  | failed conn outcome =>
      exact ⟨.failed here other conn ((wp_error outcome).1 (moves _)), settled.of_states rfl⟩
  | dangling gone => exact ⟨.dangling here other gone, .returnFalse _ _⟩

theorem visit_event (settled : Settled d) (here : d.fds[d.idx]? = some pfd)
    (visited : d.visit pfd ans = some d') : Event d (.round ans) d' ∧ Settled d' := by
  cases visit_inv visited with
  | hungUp flagged => exact ⟨.hungUp here flagged, hangUp_settled settled pfd.fd⟩
  | skipped => exact ⟨.skipped here, settled.of_states rfl⟩
  | offered _ _ listener offered => exact acceptClient_event settled here listener offered
  | read _ _ other read => exact readable_event settled here other read

theorem running_of_step (stepped : step d input = some d') : d.status = .running :=
  (step_inv stepped).1

/-- A run that has ended does not go on. -/
theorem run_ended {inputs : List Input} (ended : d.status ≠ .running)
    (reaches : run step d inputs = some d') : inputs = [] ∧ d' = d := by
  cases inputs with
  | nil =>
      cases reaches
      exact ⟨rfl, rfl⟩
  | cons input inputs =>
      rw [run_cons] at reaches
      obtain ⟨next, stepped, -⟩ := Option.bind_eq_some_iff.1 reaches
      exact absurd (running_of_step stepped) ended

/-- **A step from a settled state is an event**, and the next state is settled again. -/
theorem step_event (settled : Settled d) (stepped : step d input = some d') :
    d.status = .running ∧ Event d input d' ∧ Settled d' := by
  obtain ⟨running, kind⟩ := step_inv stepped
  refine ⟨running, ?_⟩
  cases kind with
  | polled length allowed => exact ⟨.polled length allowed, settled.of_states rfl⟩
  | interrupted => exact ⟨.interrupted, settled⟩
  | pollFailed => exact ⟨.pollFailed, settled.of_states rfl⟩
  | round here visited => exact visit_event settled here visited

end Step

theorem start_settled (inherited : List Bool) (fs : Fs) (dmsg : DaemonInitMessage) :
    Settled (start inherited fs dmsg) := by
  intro fd st found
  simp [start] at found

section Runs

variable {inherited : List Bool} {fs : Fs} {dmsg : DaemonInitMessage} {d : Server}

/-- Every reachable state is settled. -/
theorem reachable_settled (reachable : Reachable step (start inherited fs dmsg) d) : Settled d :=
  reachable.invariant (start_settled _ _ _) fun _ _ _ settled stepped =>
    (step_event settled stepped).2.2

/-- What the start satisfies and every event carries on holds in every reachable state. -/
theorem Server.invariant {I : Server → Prop}
    (reachable : Reachable step (start inherited fs dmsg) d) (initial : I (start inherited fs dmsg))
    (carry : ∀ d input d', d.status = .running → Event d input d' → I d → I d') : I d := by
  refine (reachable.invariant (P := fun d => Settled d ∧ I d) ⟨start_settled _ _ _, initial⟩ ?_).2
  rintro d input d' ⟨settled, holds⟩ stepped
  obtain ⟨running, event, settled'⟩ := step_event settled stepped
  exact ⟨settled', carry d input d' running event holds⟩

end Runs

end Enuwatch.Daemon

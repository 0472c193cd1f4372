import Enuwatch.Daemon.Atomic
import Enuwatch.Daemon.Lockstep

/-!
# How far a failing connection reaches

A connection fails when `poll` reports a hang-up or an error on it, or when a read from it
fails. The source says of the first case that clients are allowed to disconnect; a failed read
makes `daemon_main` return.

The destructor of a connection closes the descriptor of its temporary file, its own and the
listening socket it was accepted from. The number of that socket stays in `fds` and `socket_fds`,
and the kernel may hand it out again. A failure stays with its connection (`Isolated`) exactly when
it is a hang-up and no open descriptor is in the record of another connection too, as long as the
number of its listening socket is not handed out afterwards and nobody is to connect to that socket
(`isolated_iff`). What comes later is compared with the daemon that has lost nothing but the
connection (`Server.without`).
-/

set_option autoImplicit false

namespace Enuwatch.Daemon

open Enuwatch.Lib Enuwatch.Net

/-- `poll` reports a hang-up or an error. -/
abbrev PollFd.Flagged (pfd : PollFd) : Prop := (pfd.revents.hup || pfd.revents.err) = true

/-- The wake-up of the connection at `pfd` leaves because `read_partial` has failed. -/
def Server.ReadFails (d : Server) (pfd : PollFd) (ans : Answers) : Prop :=
  ∃ k st w, d.world.table.get pfd.fd = some (.conn k) ∧
    wakeUp k ans (d.stateOf pfd.fd) (d.answered ans) = .error (.returned st) w

/-- The connection at `pfd` fails in a round: it has hung up, or its read fails. -/
def Server.Fails (d : Server) (pfd : PollFd) (ans : Answers) : Prop :=
  pfd.Flagged ∨ ¬ pfd.Flagged ∧ pfd.revents.input = true ∧ pfd.fd ∉ d.socketFds ∧
    d.ReadFails pfd ans

/-- The numbers in the record of a connection: its temporary file, the connection itself and the
listening socket it was accepted from. -/
def ConnectionState.Names (st : ConnectionState) (n : ℕ) : Prop :=
  st.anonFd = n ∨ st.clientFd = n ∨ st.sockFd = n

/-- The daemon without the connection under `x`, whose turn it is: its record, its entry and its own
descriptors are gone, and everything else is as it was. -/
def Server.without (d : Server) (x : ℕ) : Server :=
  { d with
    world := (d.world.close (d.stateOf x).anonFd).close (d.stateOf x).clientFd
    states := d.states.erase x
    fds := d.fds.eraseIdx d.idx }

/-- The step from `d` to `d'` concerns no connection but the one under descriptor `x`, and what the
kernel does afterwards comes to the same as if there had been no such connection. -/
structure Isolated (d d' : Server) (x : ℕ) (inputs : List Input) : Prop where
  running : d'.status = .running
  states : ∀ y, y ≠ x → d'.states.lookup y = d.states.lookup y
  entries : d'.fds = d.fds.eraseIdx d.idx
  /-- The descriptors of another connection, and the socket it was accepted from, stay open. -/
  descriptors : ∀ y st n, y ≠ x → d.states.lookup y = some st → st.Names n →
    d'.world.table.get n = d.world.table.get n
  /-- The same clients are accepted, the same bytes received and the same calls issued. -/
  later : Option.Rel (Alike (d.stateOf x).sockFd) (run step d' inputs)
    (run step (d.without x) inputs)

/-- No open descriptor is in the record of the connection under `x` and in that of another one. -/
def Server.Apart (d : Server) (x : ℕ) : Prop :=
  ∀ y st st' n, y ≠ x → d.states.lookup x = some st → d.states.lookup y = some st' →
    st.Names n → st'.Names n → d.world.table.get n = none

/-! ## The two kinds of failure -/

section Failure

variable {d d' : Server} {pfd : PollFd} {ans : Answers} {st : ConnectionState} {x : ℕ}

/-- A hang-up closes the descriptors of its connection and the listening socket it came from. -/
theorem get_hangUp (found : d.states.lookup x = some st) (n : ℕ) :
    (st.Names n → (d.hangUp x).world.table.get n = none) ∧
      (¬ st.Names n → (d.hangUp x).world.table.get n = d.world.table.get n) := by
  simp only [Server.hangUp, found, ConnectionState.destroy, get_close, ConnectionState.Names]
  constructor
  · rintro (temp | client | sock)
    · simp [temp]
    · simp [client]
    · simp [sock]
  · rintro apart
    rw [if_neg fun sock => apart (.inr (.inr sock)),
      if_neg fun client => apart (.inr (.inl client)), if_neg fun temp => apart (.inl temp)]

/-- A hang-up differs from the loss of the connection in its listening socket. -/
theorem hangUp_alike_without (found : d.states.lookup x = some st) :
    Alike (d.stateOf x).sockFd (d.hangUp x) (d.without x) := by
  have own : d.stateOf x = st := by rw [Server.stateOf, found, Option.getD_some]
  refine ⟨rfl, rfl, rfl, rfl, rfl, rfl, ?_, fun _ m other => ?_⟩
  · simp only [Server.hangUp, found, Server.without, World.core_close, World.core_destroy]
  · rw [own] at other
    simp only [Server.hangUp, found, Server.without, own, ConnectionState.destroy, get_close,
      if_neg (Ne.symm other)]

theorem free_hangUp (found : d.states.lookup x = some st) :
    Free (d.stateOf x).sockFd (d.hangUp x).world.table := by
  refine free_iff.2 fun m same => (get_hangUp found m).1 (.inr (.inr ?_))
  rw [same, Server.stateOf, found, Option.getD_some]

theorem step_flagged (running : d.status = .running) (here : d.fds[d.idx]? = some pfd)
    (flagged : pfd.Flagged) (stepped : step d (.round ans) = some d') :
    d' = d.hangUp pfd.fd := by
  simp only [step, running, here, Server.visit, if_pos flagged] at stepped
  exact (Option.some.inj stepped).symm

/-- A failed read ends the daemon. -/
theorem step_readFails (running : d.status = .running) (here : d.fds[d.idx]? = some pfd)
    (quiet : ¬ pfd.Flagged) (ready : pfd.revents.input = true) (other : pfd.fd ∉ d.socketFds)
    (fails : d.ReadFails pfd ans) (stepped : step d (.round ans) = some d') :
    d'.status = .returned := by
  obtain ⟨k, st, w, conn, failed⟩ := fails
  simp only [Server.stateOf, Server.answered] at failed
  simp only [step, running, here, Server.visit, if_neg quiet, ready, if_neg other] at stepped
  cases readable_inv stepped with
  | woken conn' outcome =>
      cases conn.symm.trans conn'
      cases failed.symm.trans outcome
  | returned => rfl
  | failed conn' outcome =>
      cases conn.symm.trans conn'
      cases failed.symm.trans outcome
  | dangling => rfl

end Failure

/-- **A failure of a connection stays with it exactly when it is a hang-up and no open descriptor is
in the record of another connection too.** This holds for every state and for all that comes later,
as long as `poll` would report nothing on the listening socket of the connection, and the number of
that socket, which the hang-up has closed, is not handed out again. -/
theorem isolated_iff {d d' : Server} {pfd : PollFd} {ans : Answers} {st : ConnectionState}
    (here : d.fds[d.idx]? = some pfd) (found : d.states.lookup pfd.fd = some st)
    (fails : d.Fails pfd ans) (stepped : step d (.round ans) = some d') {inputs : List Input}
    (unreported : Along step (Unreported st.sockFd) (d.without pfd.fd) inputs)
    (retired : Along step (Retires st.sockFd) d' inputs) :
    Isolated d d' pfd.fd inputs ↔ pfd.Flagged ∧ d.Apart pfd.fd := by
  have running := running_of_step stepped
  have own : d.stateOf pfd.fd = st := by rw [Server.stateOf, found, Option.getD_some]
  rcases fails with flagged | ⟨quiet, ready, other, fails⟩
  · obtain rfl := step_flagged running here flagged stepped
    constructor
    · refine fun isolated => ⟨flagged, fun y st₁ st' n different same there named named' => ?_⟩
      obtain rfl : st₁ = st := Option.some.inj (same.symm.trans found)
      rw [← isolated.descriptors y st' n different there named']
      exact (get_hangUp found n).1 named
    · rintro ⟨-, apart⟩
      constructor
      case running => exact running
      case states => exact fun y different => by simp [Server.hangUp, different]
      case entries => rfl
      case descriptors =>
        intro y st' n different there named'
        by_cases named : st.Names n
        · rw [(get_hangUp found n).1 named, apart y st st' n different found there named named']
        · exact (get_hangUp found n).2 named
      case later =>
        rw [← own] at unreported retired
        exact run_alike (hangUp_alike_without found) (free_hangUp found) unreported retired
  · have returned := step_readFails running here quiet ready other fails stepped
    refine iff_of_false (fun isolated => ?_) fun both => quiet both.1
    have going := isolated.running
    rw [returned] at going
    cases going

/-! ## A sample run -/

/-- A connection is accepted from each of the two listening sockets; after that, `poll` reports
`revents` on the first of them. -/
def pairInputs (revents : Revents) : List Input :=
  [.poll [{ input := true }, { input := true }], .round {}, .round {}, .round {}, .round {},
    .poll [{}, {}, revents, {}], .round {}, .round {}]

/-- A file arrives on the connection that is left. -/
def lateInputs : List Input :=
  [.round {}, .poll [{}, {}, { input := true }], .round {}, .round {},
    .round { reads := [.data sampleHeader, .data [97], .data [1, 2]] }]

/-- The first connection hangs up; the second goes on and publishes a file, whose temporary file has
the number of the closed listening socket for a moment. -/
theorem isolated_iff_sample :
    ∃ d d' e, run step pairStart (pairInputs { hup := true }) = some d ∧
      step d (.round {}) = some d' ∧ d'.states.keys = [6] ∧ run step d' lateInputs = some e ∧
      e.world.fs.fileAt [[97]] = some [1, 2] ∧ Isolated d d' 5 lateInputs := by
  have facts : ∀ d ∈ run step pairStart (pairInputs { hup := true }),
      d.fds[d.idx]? = some ⟨5, { hup := true }⟩ ∧ d.states.keys = [6, 5] ∧
        (d.states.lookup 5).map (fun st => (st.anonFd, st.clientFd, st.sockFd)) =
          some (-1, 5, 3) ∧
        (d.states.lookup 6).map (fun st => (st.anonFd, st.clientFd, st.sockFd)) =
          some (-1, 6, 4) ∧
        Along step (Unreported 3) (d.without 5) lateInputs ∧
        ∃ d' ∈ step d (.round {}), d'.states.keys = [6] ∧
          Along step (Retires 3) d' lateInputs ∧
          ∃ e ∈ run step d' lateInputs, e.world.fs.fileAt [[97]] = some [1, 2] := by decide +kernel
  obtain ⟨d, reaches⟩ : ∃ d, run step pairStart (pairInputs { hup := true }) = some d :=
    Option.isSome_iff_exists.1 (by decide +kernel)
  obtain ⟨here, keys, first, second, unreported, d', stepped, left, retired, e, ran, file⟩ :=
    facts d reaches
  obtain ⟨st, found, numbers⟩ := Option.map_eq_some_iff.1 first
  obtain ⟨st', found', numbers'⟩ := Option.map_eq_some_iff.1 second
  simp only [Prod.mk.injEq] at numbers numbers'
  obtain ⟨temp, client, sock⟩ := numbers
  obtain ⟨temp', client', sock'⟩ := numbers'
  have apart : d.Apart 5 := by
    intro y own other n different mine there named named'
    have listed : y ∈ d.states.keys := AList.mem_keys.1 (AList.lookup_isSome.1 (by simp [there]))
    have six : y = 6 := by simpa [keys, different] using listed
    subst six
    rw [found] at mine
    rw [found'] at there
    cases mine
    cases there
    simp only [ConnectionState.Names, temp, client, sock, temp', client', sock'] at named named'
    omega
  exact ⟨d, d', e, reaches, stepped, left, ran, file,
    (isolated_iff here found (.inl rfl) stepped (sock ▸ unreported) (sock ▸ retired)).2
      ⟨rfl, apart⟩⟩

/-- A failed read on the first connection ends the daemon and the second connection with it. -/
theorem read_failure_spreads :
    ∃ d d', run step pairStart (pairInputs { input := true }) = some d ∧ d.states.keys = [6, 5] ∧
      step d (.round { reads := [.error] }) = some d' ∧ d'.status = .returned ∧
        d'.states.keys = [] ∧ ∀ inputs, ¬ Isolated d d' 5 inputs := by
  have facts : ∀ d ∈ run step pairStart (pairInputs { input := true }), d.states.keys = [6, 5] ∧
      (step d (.round { reads := [.error] })).map (fun d' => (d'.status, d'.states.keys)) =
        some (.returned, []) := by decide +kernel
  obtain ⟨d, reaches⟩ : ∃ d, run step pairStart (pairInputs { input := true }) = some d :=
    Option.isSome_iff_exists.1 (by decide +kernel)
  obtain ⟨keys, next⟩ := facts d reaches
  obtain ⟨d', stepped, ended⟩ := Option.map_eq_some_iff.1 next
  simp only [Prod.mk.injEq] at ended
  refine ⟨d, d', reaches, keys, stepped, ended.1, ended.2, fun inputs isolated => ?_⟩
  have going := isolated.running
  rw [ended.1] at going
  cases going

end Enuwatch.Daemon

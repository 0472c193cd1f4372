import Enuwatch.Daemon.Atomic
import Enuwatch.Daemon.Feed

/-!
# The connection limit

`fds` is reserved for `2 * n_conns` entries: the listening sockets and as many clients. The
accept branch keeps a reference into the vector and refuses a client when there are already more
entries than that. So a client that comes when the vector is exactly full is let in.

A run stays within the limit exactly when no step of it does that (`connection_limit_iff`), and
a daemon with at least one listening socket has runs that do not (`limit_exceeded`).
-/

set_option autoImplicit false

namespace Enuwatch.Daemon

open Enuwatch.Lib Enuwatch.Net

/-- The descriptor is a listening socket. -/
def Desc.listens : Desc → Bool
  | .listening _ => true
  | _ => false

/-- The entry is a listening socket on which a client waits. -/
def PollFd.Offers (d : Server) (pfd : PollFd) : Prop :=
  pfd.revents.hup = false ∧ pfd.revents.err = false ∧ pfd.revents.input = true ∧
    pfd.fd ∈ d.socketFds ∧ (d.world.table.get pfd.fd).any Desc.listens = true

/-- A client is accepted while `fds` holds `2 * n_conns` entries. -/
def AcceptsAtLimit (d : Server) : Input → Prop
  | .round ans =>
      d.fds.length = d.nConns * 2 ∧ ans.accept = true ∧ ∃ pfd ∈ d.fds[d.idx]?, pfd.Offers d
  | _ => False

/-- `fds` fits in the memory reserved for it. -/
def Server.WithinLimit (d : Server) : Prop := d.fds.length ≤ 2 * d.nConns

/-! ## One step -/

section Step

variable {d d' : Server}

theorem any_listens {found : Option Desc} :
    found.any Desc.listens = true ↔ ∃ port, found = some (.listening port) := by
  cases found with
  | none => simp
  | some desc => cases desc <;> simp [Desc.listens]

/-- A client is let in unless the vector holds more than the limit. -/
theorem withinLimit_acceptClient {sock : ℕ} {ans : Answers} (within : d.WithinLimit)
    (offered : d.acceptClient sock ans = d') :
    d'.WithinLimit ↔ ¬ (d.fds.length = d.nConns * 2 ∧ ans.accept = true ∧
      (d.world.table.get sock).any Desc.listens = true) := by
  have few : d.fds.length ≤ 2 * d.nConns := within
  cases acceptClient_inv offered with
  | crowded many => omega
  | refused _ refused =>
      refine iff_of_true few ?_
      rintro ⟨-, accept, listens⟩
      obtain ⟨port, listening⟩ := any_listens.1 listens
      exact refused accept port listening
  | admitted _ _ room =>
      refine iff_of_true ?_ fun atLimit => room.ne atLimit.1
      simp only [Server.WithinLimit, Server.welcome, List.length_append, List.length_singleton]
      omega
  | overflowed accept listening full =>
      refine iff_of_false ?_ (not_not.2 ⟨full, accept, any_listens.2 ⟨_, listening⟩⟩)
      simp only [Server.WithinLimit, Server.overflow, List.length_append, List.length_singleton]
      omega

/-- Reading from a connection adds no entry. -/
theorem withinLimit_readable {fd : ℕ} {ans : Answers} (within : d.WithinLimit)
    (read : d.readable fd ans = some d') : d'.WithinLimit := by
  cases readable_inv read with
  | woken => exact within
  | returned => exact Nat.zero_le _
  | failed => exact within
  | dangling => exact Nat.zero_le _

/-- One step leaves the limit exactly when it accepts a client at the limit. -/
theorem withinLimit_step {input : Input} (within : d.WithinLimit)
    (stepped : step d input = some d') : d'.WithinLimit ↔ ¬ AcceptsAtLimit d input := by
  cases (step_inv stepped).2 with
  | polled length =>
      refine iff_of_true ?_ id
      simpa [Server.WithinLimit, length] using within
  | interrupted => exact iff_of_true within id
  | pollFailed => exact iff_of_true within id
  | round here visited =>
      simp only [AcceptsAtLimit, here, Option.mem_some_iff, exists_eq_left']
      cases visit_inv visited with
      | hungUp flagged =>
          refine iff_of_true ?_ ?_
          · have shorter : (d.fds.eraseIdx d.idx).length ≤ d.fds.length :=
              (List.eraseIdx_sublist _ _).length_le
            exact shorter.trans within
          · rintro ⟨-, -, hup, err, -⟩
            simp [hup, err] at flagged
      | skipped _ idle =>
          refine iff_of_true within ?_
          rintro ⟨-, -, -, -, input, -⟩
          simp [idle] at input
      | offered quiet ready listener offered =>
          rw [withinLimit_acceptClient within offered]
          rw [Bool.or_eq_false_iff] at quiet
          simp [PollFd.Offers, quiet, ready, listener]
      | read _ _ other read =>
          refine iff_of_true (withinLimit_readable within read) ?_
          rintro ⟨-, -, -, -, -, listener, -⟩
          exact other listener

/-- A client that is accepted at the limit moves the vector. -/
theorem step_overflow {ans : Answers} {pfd : PollFd} (running : d.status = .running)
    (full : d.fds.length = d.nConns * 2) (accept : ans.accept = true)
    (here : d.fds[d.idx]? = some pfd) (offers : pfd.Offers d) :
    step d (.round ans) = some d.overflow := by
  obtain ⟨hup, err, readable, listener, listens⟩ := offers
  obtain ⟨port, listening⟩ := any_listens.1 listens
  simp [step, running, here, Server.visit, hup, err, readable, listener, Server.acceptClient,
    full, accept, listening, Server.overflow]

/-- Accepting at the limit leaves a state in which nothing more is defined. -/
theorem AcceptsAtLimit.undefined {input : Input} (accepts : AcceptsAtLimit d input)
    (stepped : step d input = some d') : d'.status = .undefined := by
  cases input with
  | round ans =>
      obtain ⟨full, accept, pfd, here, offers⟩ := accepts
      rw [step_overflow (running_of_step stepped) full accept here offers] at stepped
      cases stepped
      rfl
  | poll _ => exact accepts.elim
  | interrupted => exact accepts.elim
  | pollFailed => exact accepts.elim

end Step

/-! ## Whole runs -/

/-- From a state within the limit, a run stays there exactly when none of its steps accepts a
client at the limit. -/
theorem withinLimit_run {inputs : List Input} {d d' : Server} (within : d.WithinLimit)
    (reaches : run step d inputs = some d') :
    d'.WithinLimit ↔ Along step (fun d input => ¬ AcceptsAtLimit d input) d inputs := by
  induction inputs generalizing d with
  | nil =>
      cases reaches
      exact iff_of_true within trivial
  | cons input inputs ih =>
      rw [run_cons] at reaches
      obtain ⟨next, stepped, reaches⟩ := Option.bind_eq_some_iff.1 reaches
      have local_ := withinLimit_step within stepped
      simp only [Along, stepped]
      by_cases accepts : AcceptsAtLimit d input
      · -- Nothing is defined after that, so the run ends here.
        have ended : next.status ≠ .running := by simp [accepts.undefined stepped]
        obtain ⟨-, rfl⟩ := run_ended ended reaches
        rw [local_]
        exact ⟨fun refuses => absurd accepts refuses, fun along => along.1⟩
      · rw [ih (local_.2 accepts) reaches]
        exact ⟨fun along => ⟨accepts, along⟩, fun along => along.2⟩

theorem start_withinLimit (inherited : List Bool) (fs : Fs) (dmsg : DaemonInitMessage) :
    (start inherited fs dmsg).WithinLimit := by
  obtain ⟨fds, -, count, -⟩ := start_sockets inherited fs dmsg
  have conns : (start inherited fs dmsg).nConns = dmsg.nConns.toNat := rfl
  rw [Server.WithinLimit, fds, List.length_map, count, conns]
  omega

/-- **A run stays within the connection limit exactly when no client is accepted at it.** In
every run of the daemon, for every number of connections and every sequence of accepts and
hang-ups, `fds` holds at most `2 * n_conns` entries if and only if no step accepts a client
while it holds exactly that many. -/
theorem connection_limit_iff {inherited : List Bool} {fs : Fs} {dmsg : DaemonInitMessage}
    {inputs : List Input} {d : Server}
    (reaches : run step (start inherited fs dmsg) inputs = some d) :
    d.fds.length ≤ 2 * d.nConns ↔
      Along step (fun d input => ¬ AcceptsAtLimit d input) (start inherited fs dmsg) inputs :=
  withinLimit_run (start_withinLimit inherited fs dmsg) reaches

theorem connection_limit_iff_sample :
    ∃ d, run step sampleStart sampleInputs = some d ∧ (d.fds.length ≤ 2 * d.nConns ↔
      Along step (fun d input => ¬ AcceptsAtLimit d input) sampleStart sampleInputs) := by
  obtain ⟨d, reaches⟩ : ∃ d, run step sampleStart sampleInputs = some d :=
    Option.isSome_iff_exists.1 (by decide +kernel)
  exact ⟨d, reaches, connection_limit_iff reaches⟩

/-- One listening socket and two clients: the second one makes a third entry. -/
theorem second_client_overflows :
    ∃ inputs d, run step sampleStart inputs = some d ∧ d.nConns = 1 ∧
      ¬ d.fds.length ≤ 2 * d.nConns := by
  let inputs : List Input := [.poll [{ input := true }], .round {}, .round {},
    .poll [{ input := true }, {}], .round {}]
  have facts : ∀ d ∈ run step sampleStart inputs, d.nConns = 1 ∧ ¬ d.fds.length ≤ 2 * d.nConns := by
    decide +kernel
  obtain ⟨d, reaches⟩ : ∃ d, run step sampleStart inputs = some d :=
    Option.isSome_iff_exists.1 (by decide +kernel)
  exact ⟨inputs, d, reaches, facts d reaches⟩

/-! ## One client too many -/

section Exceed

variable {d : Server} {sock : ℕ}

/-- A pass is over, and the listening socket `sock` is watched. -/
structure Watches (d : Server) (sock : ℕ) : Prop where
  running : d.status = .running
  ended : d.idx = d.fds.length
  listed : ∃ pfd ∈ d.fds, pfd.fd = sock
  listener : sock ∈ d.socketFds
  listening : ∃ port, d.world.table.get sock = some (.listening port)

/-- The daemon is at the entry of `sock`, where a client is waiting. -/
def Server.offering (d : Server) (sock : ℕ) (before after : List PollFd) : Server :=
  { d with
    fds := before ++ ⟨sock, { input := true }⟩ :: after
    idx := before.length }

/-- The pass that finds a client waiting on `sock`. -/
theorem Watches.offered (watches : Watches d sock) :
    ∃ before after, (d.offering sock before after).fds.length = d.fds.length ∧
      (∀ pfd ∈ after, pfd.revents = {}) ∧ Reachable step d (d.offering sock before after) := by
  obtain ⟨running, ended, ⟨pfd, listed, rfl⟩, -, port, listening⟩ := watches
  obtain ⟨before, after, fds⟩ := List.append_of_mem listed
  have reached := reachable_entry running ended fds (by simp [listening])
  refine ⟨before.map PollFd.clear, after.map PollFd.clear, ?_, ?_,
    by simpa [Server.offering] using reached⟩
  · simp [Server.offering, fds]
  · intro pfd among
    obtain ⟨other, -, rfl⟩ := List.mem_map.1 among
    rfl

/-- While there is room, a client can be let in. -/
theorem Watches.admit (watches : Watches d sock) (room : d.fds.length < d.nConns * 2) :
    ∃ d', Reachable step d d' ∧ Watches d' sock ∧ d'.nConns = d.nConns ∧
      d'.fds.length = d.fds.length + 1 := by
  obtain ⟨before, after, count, quiet, reached⟩ := watches.offered
  obtain ⟨running, -, -, listener, port, listening⟩ := watches
  let found : Server := d.offering sock before after
  have admitted : step found (.round {}) = some (found.welcome sock) :=
    step_accept running (by simp [found, Server.offering]) listener listening
      (by rw [count]; exact room)
  have split : (found.welcome sock).fds =
      (before ++ [⟨sock, { input := true }⟩]) ++ (after ++ [⟨d.world.table.next, {}⟩]) := by
    simp [Server.welcome, found, Server.offering]
  have over_ : Reachable step (found.welcome sock)
      { found.welcome sock with idx := (found.welcome sock).fds.length } := by
    refine reachable_end running split (by simp [Server.welcome, found, Server.offering]) ?_
    intro pfd among
    rcases List.mem_append.1 among with old | new
    · exact quiet pfd old
    · rw [List.mem_singleton.1 new]
  refine ⟨_, (reached.tail admitted).trans over_, ⟨running, rfl, ?_, listener, port, ?_⟩, rfl, ?_⟩
  · exact ⟨⟨sock, { input := true }⟩, by simp [split], rfl⟩
  · show (d.world.table.alloc _).get sock = _
    rw [Slots.get_alloc_of_ne_none (by simp [listening]), listening]
  · have welcomed : (found.welcome sock).fds.length = found.fds.length + 1 := by
      simp [Server.welcome]
    exact welcomed.trans (congrArg (· + 1) count)

/-- Clients can be let in until the vector is full. -/
theorem Watches.fill (watches : Watches d sock) {missing : ℕ}
    (full : d.fds.length + missing = d.nConns * 2) :
    ∃ d', Reachable step d d' ∧ Watches d' sock ∧ d'.nConns = d.nConns ∧
      d'.fds.length = d.nConns * 2 := by
  induction missing generalizing d with
  | zero => exact ⟨d, .refl d, watches, rfl, full⟩
  | succ missing ih =>
      obtain ⟨next, reached, watches, conns, length⟩ := watches.admit (by omega)
      obtain ⟨d', further, watches, same, length⟩ := ih watches (by omega)
      exact ⟨d', reached.trans further, watches, same.trans conns, by rw [length, conns]⟩

/-- And then one more. -/
theorem Watches.exceed (watches : Watches d sock) (full : d.fds.length = d.nConns * 2) :
    ∃ d', Reachable step d d' ∧ d'.fds.length = d.nConns * 2 + 1 := by
  obtain ⟨before, after, count, -, reached⟩ := watches.offered
  obtain ⟨running, -, -, listener, port, listening⟩ := watches
  let found : Server := d.offering sock before after
  have here : found.fds[found.idx]? = some ⟨sock, { input := true }⟩ := by
    simp [found, Server.offering]
  have offers : PollFd.Offers found ⟨sock, { input := true }⟩ :=
    ⟨rfl, rfl, rfl, listener, any_listens.2 ⟨port, listening⟩⟩
  have admitted : step found (.round {}) = some found.overflow :=
    step_overflow running (by rw [count]; exact full) rfl here offers
  refine ⟨found.overflow, reached.tail admitted, ?_⟩
  have grown : found.overflow.fds.length = found.fds.length + 1 := by simp [Server.overflow]
  rw [grown, count, full]

end Exceed

/-- **Every daemon that listens at all can outgrow the memory reserved for `fds`.** -/
theorem limit_exceeded (inherited : List Bool) (fs : Fs) (dmsg : DaemonInitMessage)
    (sockets : 0 < dmsg.nConns.toNat) :
    ∃ d, Reachable step (start inherited fs dmsg) d ∧
      d.fds.length = 2 * dmsg.nConns.toNat + 1 := by
  obtain ⟨fds, idx, count, listening⟩ := start_sockets inherited fs dmsg
  obtain ⟨sock, among⟩ : ∃ sock, sock ∈ (start inherited fs dmsg).socketFds :=
    List.exists_mem_of_length_pos (by omega)
  have watches : Watches (start inherited fs dmsg) sock := {
    running := rfl
    ended := by rw [idx, fds, List.length_map]
    listed := ⟨⟨sock, {}⟩, by rw [fds]; exact List.mem_map.2 ⟨sock, among, rfl⟩, rfl⟩
    listener := among
    listening := listening sock among }
  have conns : (start inherited fs dmsg).nConns = dmsg.nConns.toNat := rfl
  have room : (start inherited fs dmsg).fds.length + dmsg.nConns.toNat =
      (start inherited fs dmsg).nConns * 2 := by
    rw [fds, List.length_map, count, conns]
    omega
  obtain ⟨full, reached, watches, same, length⟩ := watches.fill room
  obtain ⟨d, further, exceeds⟩ := watches.exceed (by rw [length, same])
  refine ⟨d, reached.trans further, ?_⟩
  rw [exceeds, same, conns]
  omega

end Enuwatch.Daemon

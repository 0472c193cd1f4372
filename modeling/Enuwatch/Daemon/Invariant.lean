import Enuwatch.Daemon.Coherence
import Enuwatch.Daemon.Events

/-!
# The invariant of the daemon

In every state of every run, whatever the answers of the kernel, the calls issued for a
connection are among those its stream asks for, and as long as no call has failed they are
exactly those (`Invariant`, `reachable_invariant`). As long as the daemon runs, its
connections stay apart.
-/

set_option autoImplicit false

namespace Enuwatch.Daemon

open Enuwatch.Lib Enuwatch.Net

/-! ## Calls that fail -/

section Calls

variable {k : ℕ} {s s' : ConnectionState × World} {w : World}

theorem Move.unfailed (move : Move k s s') (unfailed : Unfailed s.2) : Unfailed s'.2 := by
  unfold Unfailed at unfailed ⊢
  cases move with
  | arm => exact unfailed
  | read => exact unfailed
  | header => exact unfailed
  | opened =>
      simp only [World.mmap_calls, World.ftruncate_calls, List.mem_append, List.mem_singleton]
      rintro call (((old | rfl) | rfl) | last)
      · exact unfailed call old
      · rfl
      · rfl
      · split at last
        · rw [List.mem_singleton.1 last]
        · cases last
  | made =>
      simp only [World.close_calls, World.mkdir_calls, List.mem_append, List.mem_singleton]
      rintro call (old | rfl)
      · exact unfailed call old
      · rfl
  | published =>
      simp only [World.close_calls, World.rename_calls, List.mem_append, List.mem_singleton]
      rintro call (old | rfl)
      · exact unfailed call old
      · rfl

theorem Chain.unfailed (chain : Chain k s s') (unfailed : Unfailed s.2) : Unfailed s'.2 := by
  induction chain with
  | refl => exact unfailed
  | tail _ move ih => exact move.unfailed ih

/-- Only a failed call is fatal to a wake-up. -/
theorem Abort.not_unfailed (abort : Abort k s .fatal w) : ¬ Unfailed w := by
  have last : ∃ calls call, w.calls = calls ++ [call] ∧ call.ok = false := by
    cases abort with
    | mkstemp => exact ⟨_, _, World.mkstemp_calls .., rfl⟩
    | ftruncate => exact ⟨_, _, World.ftruncate_calls .., rfl⟩
    | mmap temp kind full regular free some =>
        exact ⟨_, _, by rw [World.mmap_calls, if_pos some], rfl⟩
    | mkdir => exact ⟨_, _, World.mkdir_calls .., rfl⟩
    | rename => exact ⟨_, _, World.rename_calls .., rfl⟩
  obtain ⟨calls, call, equal, failed⟩ := last
  intro unfailed
  have ok := unfailed call (by simp [equal])
  simp [failed] at ok

end Calls

/-! ## The start -/

theorem bindLoop_get (basePort : UInt16) (conns : List ℕ) (table : Slots Desc) :
    (∀ n v, (bindLoop basePort conns table).2.get n = some v →
      table.get n = some v ∨ ∃ port, v = .listening port) ∧
    (∀ n v, table.get n = some v → (bindLoop basePort conns table).2.get n = some v) ∧
    ∀ n ∈ (bindLoop basePort conns table).1, ∃ port,
      (bindLoop basePort conns table).2.get n = some (.listening port) := by
  induction conns generalizing table with
  | nil => exact ⟨fun _ _ => .inl, fun _ _ => id, nofun⟩
  | cons conn conns ih =>
      obtain ⟨before, kept, listening⟩ := ih (table.alloc (.listening (basePort + .ofNat conn)))
      refine ⟨fun n v here => ?_, fun n v here => ?_, fun n member => ?_⟩
      · rcases before n v here with here | port
        · rw [Slots.get_alloc] at here
          split at here
          · cases here
            exact .inr ⟨_, rfl⟩
          · exact .inl here
        · exact .inr port
      · refine kept n v ?_
        rw [Slots.get_alloc_of_ne_none (by simp [here]), here]
      · rcases List.mem_cons.1 member with rfl | member
        · exact ⟨_, kept _ _ (Slots.get_alloc_next _ _)⟩
        · exact listening n member

theorem get_inheritedTable {inherited : List Bool} {n : ℕ} {v : Desc}
    (here : (inheritedTable inherited).get n = some v) : v = .inherited := by
  simp only [inheritedTable, Slots.get, List.getElem?_map] at here
  cases at_n : inherited[n]? with
  | none => simp [at_n] at here
  | some is_open => cases is_open <;> simp_all

section Start

variable (inherited : List Bool) (fs : Fs) (dmsg : DaemonInitMessage)

theorem start_get {n : ℕ} {v : Desc}
    (here : (start inherited fs dmsg).world.table.get n = some v) :
    v = .inherited ∨ ∃ port, v = .listening port := by
  rcases (bindLoop_get _ _ _).1 n v here with here | port
  · exact .inl (get_inheritedTable here)
  · exact .inr port

theorem start_coherent :
    Coherent (start inherited fs dmsg).numbers (start inherited fs dmsg).socketFds
      (start inherited fs dmsg).states (start inherited fs dmsg).world := by
  have numbers : (start inherited fs dmsg).numbers = (start inherited fs dmsg).socketFds := by
    simp [Server.numbers, start, Function.comp_def]
  have noConn : ∀ n k, (start inherited fs dmsg).world.table.get n ≠ some (.conn k) := by
    intro n k here
    rcases start_get _ _ _ here with bad | ⟨port, bad⟩ <;> cases bad
  have empty : ∀ x st, (start inherited fs dmsg).states.lookup x ≠ some st := by
    simp [start]
  rw [numbers]
  constructor
  case listed => exact fun x member outside => absurd member outside
  case nodup =>
    rw [List.filter_eq_nil_iff.2 (by simp)]
    exact List.nodup_nil
  case conns => exact fun x y k here => absurd here (noConn x k)
  case accepted => exact fun x k here => absurd here (noConn x k)
  case unborn => exact fun k _ => ⟨rfl, rfl⟩
  case quiet => exact fun x k _ here => absurd here (noConn x k)
  all_goals intros; exact absurd ‹_› (empty _ _)

end Start

/-! ## Every run -/

section Exit

variable (states : AList fun _ : ℕ => ConnectionState) (w : World)

/-- So do all of them together. -/
theorem destroyAll_closes : ClosesOnly w (destroyAll states w) := by
  unfold destroyAll
  induction states.entries generalizing w with
  | nil => exact .refl w
  | cons entry entries ih => exact (destroy_closes entry.2 w).trans (ih (entry.2.destroy w))

/-- The `atexit` handler only unlinks. -/
theorem unlinkAnonFiles_fields : (unlinkAnonFiles w).received = w.received ∧
    (unlinkAnonFiles w).calls = w.calls ∧ (unlinkAnonFiles w).closes = w.closes ∧
    (unlinkAnonFiles w).accepted = w.accepted := by
  have unlinked : ∀ (paths : List Bytes) (w : World),
      let w' := paths.foldl (fun w path => w.commit (w.fs.unlink (w.locate path))) w
      w'.received = w.received ∧ w'.calls = w.calls ∧ w'.closes = w.closes ∧
        w'.accepted = w.accepted := by
    intro paths
    induction paths with
    | nil => exact fun _ => ⟨rfl, rfl, rfl, rfl⟩
    | cons path paths ih => exact fun w => ih _
  exact unlinked _ w

theorem returnFalse_fields (d : Server) (w : World) :
    (d.returnFalse w).world.received = w.received ∧ (d.returnFalse w).world.calls = w.calls := by
  have closes := destroyAll_closes d.states w
  obtain ⟨received, calls, -⟩ := unlinkAnonFiles_fields (destroyAll d.states w)
  exact ⟨received.trans closes.received, calls.trans closes.calls⟩

theorem returnFalse_accepted (d : Server) (w : World) :
    (d.returnFalse w).world.accepted = w.accepted :=
  (unlinkAnonFiles_fields _).2.2.2.trans (destroyAll_closes d.states w).accepted

end Exit

/-- The calls issued for every connection are the ones its stream asks for. -/
def Complete (w : World) : Prop := ∀ k, issuedBy k w.calls = issuedAfter (w.received k)

/-- What holds in every state of a run. Once a call has failed the daemon is on its way out,
and what it had issued before is still what the streams asked for. -/
structure Invariant (d : Server) : Prop where
  prefixed : ∀ k, Prefixed d.world k
  complete : Unfailed d.world → Complete d.world
  running : d.status = .running → Unfailed d.world
  coherent : d.status ≠ .returned → Unfailed d.world →
    Coherent d.numbers d.socketFds d.states d.world
  returned : d.status = .returned → d.states = ∅

theorem Complete.prefixed {w : World} (complete : Complete w) (k : ℕ) : Prefixed w k := by
  rw [Prefixed, complete k]

theorem Complete.congr {w w' : World} (complete : Complete w) (received : w'.received = w.received)
    (calls : w'.calls = w.calls) : Complete w' := by
  intro k
  rw [received, calls]
  exact complete k

/-- A state in which nothing has failed. -/
theorem Invariant.of_unfailed {d : Server} (status : d.status ≠ .returned)
    (unfailed : Unfailed d.world) (complete : Complete d.world)
    (coherent : Coherent d.numbers d.socketFds d.states d.world) : Invariant d :=
  ⟨complete.prefixed, fun _ => complete, fun _ => unfailed, fun _ _ => coherent,
    fun returned => absurd returned status⟩

/-- A state in which the daemon has returned. -/
theorem Invariant.of_returned {d : Server} (returned : d.status = .returned)
    (states : d.states = ∅) (complete : Complete d.world) : Invariant d :=
  ⟨complete.prefixed, fun _ => complete, fun running => absurd (running.symm.trans returned) nofun,
    fun still => absurd returned still, fun _ => states⟩

section Wake

variable {w w' : World} {k : ℕ} {st st' : ConnectionState}

theorem Tracks.issued_eq {p : Phase} (tracks : Tracks w k st p) (missing : p.need ≠ 0) :
    issuedBy k w.calls = issuedAfter (w.received k) :=
  (tracks.stands.of_need missing).2.symm

/-- A wake-up that comes to rest has issued all that the streams ask for. -/
theorem Complete.chain (complete : Complete w) (tracked : ∃ p, Tracks w k st p)
    (chain : Chain k (st, w) (st', w')) (rest : st'.AtRest) : Complete w' := by
  intro j
  by_cases own : j = k
  · subst own
    obtain ⟨p, tracks⟩ := Tracks.chain chain tracked
    exact tracks.issued_eq (tracks.state.need_of_atRest rest)
  · rw [chain.frame.received j own, chain.frame.issued j own]
    exact complete j

/-- So has one that a read cuts short. -/
theorem Complete.cut_returned (complete : Complete w) (tracked : ∃ p, Tracks w k st p)
    (cut : Cut k (st, w) (.returned st') w') : Complete w' := by
  obtain ⟨⟨mid, wmid⟩, chain, abort⟩ := cut
  intro j
  by_cases own : j = k
  · subst own
    obtain ⟨p, tracks⟩ := Tracks.chain chain tracked
    cases abort with
    | read block unused kind short later failed =>
        refine (tracks.read kind unused short.le).issued_eq ?_
        have need := tracks.state.need kind
        have extended : (p.extend block).need = p.need - block.length := decoder.need_extend p block
        simp only at need
        omega
  · obtain ⟨received, issued⟩ := abort.others nofun own
    rw [received, issued, chain.frame.received j own, chain.frame.issued j own]
    exact complete j

theorem Complete.cut_prefixed {e : Exit} (complete : Complete w) (tracked : ∃ p, Tracks w k st p)
    (cut : Cut k (st, w) e w') (answered : e ≠ .blocked) (j : ℕ) : Prefixed w' j := by
  obtain ⟨⟨mid, wmid⟩, chain, abort⟩ := cut
  by_cases own : j = k
  · subst own
    obtain ⟨p, tracks⟩ := Tracks.chain chain tracked
    exact tracks.abort abort answered
  · obtain ⟨received, issued⟩ := abort.others answered own
    rw [Prefixed, received, issued, chain.frame.received j own, chain.frame.issued j own,
      complete j]

end Wake

/-- The state of a served connection. -/
theorem Coherent.stateOf {d : Server} (coherent : Coherent d.numbers d.socketFds d.states d.world)
    {pfd : PollFd} (here : d.fds[d.idx]? = some pfd) (other : pfd.fd ∉ d.socketFds) :
    d.states.lookup pfd.fd = some (d.stateOf pfd.fd) := by
  obtain ⟨st, found⟩ := coherent.listed pfd.fd
    (List.mem_map_of_mem (List.mem_of_getElem? here)) other
  rw [Server.stateOf, found]
  rfl

/-- The answers of a round are no part of the invariant. -/
theorem Coherent.answered {d : Server}
    (coherent : Coherent d.numbers d.socketFds d.states d.world) (ans : Answers) :
    Coherent d.numbers d.socketFds d.states (d.answered ans) :=
  { coherent with
    tracks := by
      intro x st k found conn
      obtain ⟨p, tracks⟩ := coherent.tracks x st k found conn
      exact ⟨p, tracks.congr rfl rfl le_rfl fun _ _ _ => rfl⟩ }

theorem hangUp_closes (d : Server) (fd : ℕ) : ClosesOnly d.world (d.hangUp fd).world := by
  unfold Server.hangUp
  cases d.states.lookup fd with
  | none => exact .refl _
  | some st => exact destroy_closes st d.world

/-- A descriptor that is open after a hang-up was open before. -/
theorem get_of_hangUp {d : Server} {fd n : ℕ} {v : Desc}
    (opened : (d.hangUp fd).world.table.get n = some v) : d.world.table.get n = some v := by
  unfold Server.hangUp at opened
  cases found : d.states.lookup fd with
  | none => simpa [found] using opened
  | some st =>
      simp only [found, ConnectionState.destroy, get_close] at opened
      split_ifs at opened
      exact opened

theorem Coherent.hangUp_event {d : Server}
    (coherent : Coherent d.numbers d.socketFds d.states d.world) {pfd : PollFd}
    (here : d.fds[d.idx]? = some pfd) :
    Coherent (d.hangUp pfd.fd).numbers (d.hangUp pfd.fd).socketFds (d.hangUp pfd.fd).states
      (d.hangUp pfd.fd).world := by
  have numbers : (d.hangUp pfd.fd).numbers = d.numbers.eraseIdx d.idx := by
    simp [Server.numbers, Server.hangUp, List.eraseIdx_map]
  have sub : (d.numbers.eraseIdx d.idx).Sublist d.numbers := List.eraseIdx_sublist _ _
  have gone : pfd.fd ∉ d.socketFds → pfd.fd ∉ d.numbers.eraseIdx d.idx := by
    intro outside again
    have named : d.numbers[d.idx]? = some pfd.fd := by simp [Server.numbers, here]
    obtain ⟨within, value⟩ := List.getElem?_eq_some_iff.1 named
    have perm := (List.getElem_cons_eraseIdx_perm within).filter (· ∉ d.socketFds)
    have nodup := perm.nodup_iff.2 coherent.nodup
    rw [value, List.filter_cons_of_pos (by simpa using outside), List.nodup_cons] at nodup
    exact nodup.1 (List.mem_filter.2 ⟨again, by simpa using outside⟩)
  rw [numbers]
  cases found : d.states.lookup pfd.fd with
  | none =>
      have world : (d.hangUp pfd.fd).world = d.world := by simp [Server.hangUp, found]
      have states : d.states.erase pfd.fd = d.states :=
        AList.ext (List.kerase_of_notMem_keys (AList.lookup_eq_none.1 found))
      rw [world, show (d.hangUp pfd.fd).states = d.states from states]
      exact { coherent with
        listed := fun x member => coherent.listed x (sub.subset member)
        nodup := coherent.nodup.sublist (sub.filter _) }
  | some st =>
      have world : (d.hangUp pfd.fd).world = st.destroy d.world := by simp [Server.hangUp, found]
      rw [world]
      exact coherent.hangUp sub gone found

/-- `poll` writes flags, not descriptors. -/
theorem numbers_polled {fds : List PollFd} {revents : List Revents}
    (length : revents.length = fds.length) :
    (fds.zipWith (fun pfd r => ({ pfd with revents := r } : PollFd)) revents).map (·.fd) =
      fds.map (·.fd) := by
  induction fds generalizing revents with
  | nil => rfl
  | cons pfd fds ih =>
      cases revents with
      | nil => simp at length
      | cons r revents => simpa using ih (by simpa using length)

/-- Every event carries the invariant on. -/
theorem Invariant.event {d d' : Server} {input : Input} (running : d.status = .running)
    (event : Event d input d') (invariant : Invariant d) : Invariant d' := by
  have unfailed := invariant.running running
  have alive : d.status ≠ .returned := by simp [running]
  have complete := invariant.complete unfailed
  have coherent := invariant.coherent alive unfailed
  cases event with
  | polled length allowed =>
      refine .of_unfailed alive unfailed complete ?_
      simpa only [Server.numbers, numbers_polled length] using coherent
  | interrupted => exact invariant
  | pollFailed => exact .of_unfailed nofun unfailed complete coherent
  | @hungUp ans pfd here flagged =>
      have closes := hangUp_closes d pfd.fd
      refine .of_unfailed alive ?_ (Complete.congr complete closes.received closes.calls)
        (coherent.hangUp_event here)
      rwa [Unfailed, closes.calls]
  | skipped here => exact .of_unfailed alive unfailed complete coherent
  | refused here listener => exact .of_unfailed nofun unfailed complete coherent
  | @admitted ans pfd port here listener listening room =>
      obtain ⟨client, sock, blank, -⟩ := coherent.blank
      refine .of_unfailed alive unfailed complete ?_
      have legal : (pfd.fd : ℤ) = -1 ∨ ∃ s ∈ d.socketFds, (pfd.fd : ℤ) = ((s : ℕ) : ℤ) :=
        .inr ⟨pfd.fd, listener, rfl⟩
      have admitted := coherent.welcome legal
      simpa [Server.welcome, Server.numbers, blank] using admitted
  | overflowed here listener listening full =>
      obtain ⟨client, sock, blank, legal⟩ := coherent.blank
      refine .of_unfailed nofun unfailed complete ?_
      simpa [Server.overflow, Server.numbers, blank] using coherent.welcome legal
  | @woken ans pfd k st w here other conn chain rest =>
      have found := coherent.stateOf here other
      have tracked := (coherent.answered ans).tracks _ _ k found conn
      exact .of_unfailed alive (chain.unfailed unfailed)
        (Complete.chain (w := d.answered ans) complete tracked chain rest)
        ((coherent.answered ans).wake found other conn chain)
  | @returned ans pfd k st w here other conn cut =>
      have found := coherent.stateOf here other
      have tracked := (coherent.answered ans).tracks _ _ k found conn
      obtain ⟨received, calls⟩ :=
        returnFalse_fields { d with states := d.states.insert pfd.fd st } w
      have whole := Complete.cut_returned (w := d.answered ans) complete tracked cut
      exact .of_returned rfl rfl (Complete.congr whole received calls)
  | @failed ans pfd k w here other conn cut =>
      have found := coherent.stateOf here other
      have tracked := (coherent.answered ans).tracks _ _ k found conn
      have fails : ¬ Unfailed w := by
        obtain ⟨mid, -, abort⟩ := cut
        exact abort.not_unfailed
      exact ⟨Complete.cut_prefixed (w := d.answered ans) complete tracked cut nofun,
        fun none => absurd none fails,
        fun still => Status.noConfusion still, fun _ none => absurd none fails,
        fun returned => Status.noConfusion returned⟩
  | @dangling ans pfd here other gone =>
      have found := coherent.stateOf here other
      obtain ⟨k, conn⟩ := coherent.conn _ _ found other
      exact absurd conn (gone k)

/-- Only a fatal step has a call refused. -/
theorem Event.unfailed {d d' : Server} {input : Input} (event : Event d input d')
    (unfailed : Unfailed d.world) (alive : d'.status ≠ .fatal) : Unfailed d'.world := by
  cases event with
  | polled | interrupted | skipped | admitted | overflowed => exact unfailed
  | pollFailed | refused | failed => exact absurd rfl alive
  | @hungUp ans pfd here flagged =>
      rw [Unfailed, (hangUp_closes d pfd.fd).calls]
      exact unfailed
  | @woken ans pfd k st w here other conn chain rest =>
      exact Chain.unfailed chain (s := (d.stateOf pfd.fd, d.answered ans)) unfailed
  | @returned ans pfd k st w here other conn cut =>
      obtain ⟨mid, chain, abort⟩ := cut
      rw [Unfailed, (returnFalse_fields _ w).2]
      have before := Chain.unfailed chain (s := (d.stateOf pfd.fd, d.answered ans)) unfailed
      cases abort with
      | read => exact before
  | dangling =>
      rw [Unfailed, (returnFalse_fields _ d.world).2]
      exact unfailed

/-- **The invariant holds in every state of every run.** -/
theorem reachable_invariant {inherited : List Bool} {fs : Fs} {dmsg : DaemonInitMessage}
    {d : Server} (reachable : Reachable step (start inherited fs dmsg) d) : Invariant d := by
  refine Server.invariant reachable (.of_unfailed nofun nofun (fun _ => rfl)
    (start_coherent _ _ _)) ?_
  exact fun d input d' running event invariant => invariant.event running event

/-- The state of a live connection follows its stream. -/
theorem reachable_state {inherited : List Bool} {fs : Fs} {dmsg : DaemonInitMessage} {d : Server}
    (reachable : Reachable step (start inherited fs dmsg) d) (unfailed : Unfailed d.world)
    {x k : ℕ} {st : ConnectionState} (found : d.states.lookup x = some st)
    (conn : d.world.table.get x = some (.conn k)) :
    Represents d.world.fs st (phaseAfter (d.world.received k)) := by
  have invariant := reachable_invariant reachable
  have alive : d.status ≠ .returned := by
    intro returned
    simp [invariant.returned returned] at found
  obtain ⟨p, tracks⟩ := (invariant.coherent alive unfailed).tracks x st k found conn
  have rest := (reachable_settled reachable x st found).2
  rw [(tracks.stands.of_need (tracks.state.need_of_atRest rest)).1]
  exact tracks.state

end Enuwatch.Daemon

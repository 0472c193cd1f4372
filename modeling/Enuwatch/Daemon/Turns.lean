import Enuwatch.Daemon.EndOfStream
import Enuwatch.Daemon.Mirror

/-!
# One message for each wake-up

`read_partial` comes back early only at the end of a stream or at an error; otherwise it waits
until it has all it was asked for. As long as no `read` returns 0, a wake-up therefore goes
through all the states of the machine: it starts between two messages, takes in one message and
stands between messages again (`wakeUp_turn`). The states that wait for the rest of a header, of a
path or of a file are never seen by the next `poll`, and the daemon serves no other connection
before the message is complete.

Over a whole run, a connection has received exactly as many messages as it was handled for
(`message_per_wakeup`).
-/

set_option autoImplicit false

namespace Enuwatch.Net

open Enuwatch.Lib

/-- Without a `read` that returns 0, a loop that succeeds has everything it was asked for. -/
theorem readLoop_full {len off : ℕ} {answers : List SysRead} {t : Transfer SysRead}
    (within : off ≤ len) (ongoing : SysRead.zero ∉ answers)
    (returned : readLoop len off answers = some t) (ok : t.result.kind = .ok) :
    off + t.bytes.length = len := by
  induction answers generalizing off t with
  | nil =>
      simp only [readLoop] at returned
      split at returned
      · cases returned
      · cases returned
        simp only [List.length_nil]
        omega
  | cons answer answers ih =>
      have later : SysRead.zero ∉ answers := fun among => ongoing (List.mem_cons_of_mem _ among)
      simp only [readLoop] at returned
      split at returned
      case isFalse =>
        cases returned
        simp only [List.length_nil]
        omega
      case isTrue more =>
        cases answer with
        | data block =>
            simp only at returned
            split at returned
            case isFalse => cases returned
            case isTrue fits =>
              obtain ⟨t', inner, rfl⟩ := Option.map_eq_some_iff.1 returned
              have rest := ih (by omega) later inner ok
              simp only [Transfer.after, List.length_append]
              omega
        | zero => exact absurd List.mem_cons_self ongoing
        | retry => exact ih within later returned ok
        | error =>
            cases returned
            cases ok

theorem readPartial_full {len : ℕ} {answers : List SysRead} {t : Transfer SysRead}
    (ongoing : SysRead.zero ∉ answers) (returned : readPartial len answers = some t)
    (ok : t.result.kind = .ok) : t.bytes.length = len := by
  have full := readLoop_full (Nat.zero_le len) ongoing returned ok
  omega

end Enuwatch.Net

namespace Enuwatch.Daemon

open Enuwatch.Lib Enuwatch.Net

/-! ## One wake-up -/

/-- How many of the calls for connection `k` have acted on the path of a message. -/
def acted (k : ℕ) (w : World) : ℕ := (finals (issuedBy k w.calls)).length

section WakeUp

variable {k : ℕ} {ans : Answers} {st : ConnectionState} {w : World}

theorem acted_append {w' : World} {calls : List Call} (grown : w'.calls = w.calls ++ calls) :
    acted k w' = acted k w + (finals (issuedBy k calls)).length := by
  rw [acted, grown, issuedBy_append, finals_append, List.length_append, acted]

/-- `advance` reaches its goal. -/
theorem wp_advance_full {Q : Progress × ConnectionState → World → Prop} (sane : st.Sane)
    (kind : st.kind ≠ .connected) (ongoing : SysRead.zero ∉ w.answers) (target : Target)
    (failed : ∀ st' w', Q (.fail, st') w')
    (full : ∀ st' w', st'.Sane → st'.kind = st.kind → SysRead.zero ∉ w'.answers →
      acted k w' = acted k w → Q (.done, st') w') :
    wp (advance k target st) Q (fun _ _ => True) w := by
  simp only [advance, wp_bind, wp_get]
  rw [sizeSub_of_le sane.ordered sane.bound]
  cases answered : readPartial (st.goal - st.progress) w.answers with
  | none => trivial
  | some t =>
      obtain ⟨count, fits, later, -⟩ := readPartial_spec answered
      rw [Nat.zero_add] at count fits
      simp only [wp_bind, wp_set]
      cases outcome : t.result.kind with
      | fail => exact failed _ _
      | ok =>
          have ordered := sane.ordered
          have bound := sane.bound
          have whole : t.bytes.length = st.goal - st.progress :=
            readPartial_full ongoing answered outcome
          have sum : sizeAdd st.progress t.result.nBytes = st.progress + t.bytes.length := by
            rw [count]
            exact sizeAdd_of_lt (by omega)
          have reached : st.progress + t.bytes.length = (target.storeState t.bytes st).goal := by
            rw [storeState_goal]
            omega
          simp only [wp_pure, storeState_progress, sum, if_pos reached]
          have after : SysRead.zero ∉ t.unused := fun among => ongoing (later.subset among)
          exact full (st.stored target t.bytes)
            (w.receive k t.bytes t.unused (target.storeFs t.bytes st w.fs)) (sane.stored kind fits)
            (storeState_kind _ _ _) after rfl

theorem headerP1_turn (sane : st.Sane) (kind : st.kind = .headerP1)
    (ongoing : SysRead.zero ∉ w.answers) :
    wp (headerP1 k st) (fun st' w' => st'.Sane ∧ st'.kind = .headerP2 ∧
      SysRead.zero ∉ w'.answers ∧ acted k w' = acted k w) (fun _ _ => True) w := by
  simp only [headerP1, kind, wp_bind]
  refine wp_advance_full sane (by simp [kind]) ongoing .buf (fun _ _ => trivial) ?_
  intro st' w' sane' kind' ongoing' same
  have first : st'.kind = .headerP1 := kind'.trans kind
  have goal : sizeAdd st'.goal (DataMessage.decode st'.buf).pathLen.toNat =
      st'.goal + st'.msg.pathLen.toNat :=
    sizeAdd_of_lt (sane'.awaitPath first).bound
  rw [wp_pure, goal]
  exact ⟨sane'.awaitPath first, rfl, ongoing', same⟩

/-- Opening a transfer acts on no path yet. -/
theorem openTransfer_turn (ongoing : SysRead.zero ∉ w.answers) :
    wp (openTransfer k st.msg ans st.parsed) (fun st' w' => st'.Sane ∧ st'.kind = .receiving ∧
      SysRead.zero ∉ w'.answers ∧ acted k w' = acted k w) (fun _ _ => True) w := by
  have bound := st.msg.fsize.toNat_lt
  simp only [openTransfer, wp_bind]
  refine wp_createAnonfile trivial (fun _ => trivial) fun _ => ?_
  have made (seq : UInt32) (temp : Bytes) (size : ℕ) :
      acted k (w.anonfile k seq temp size) = acted k w := by
    have calls : (w.anonfile k seq temp size).calls = w.calls ++
        [{ conn := k, seq, op := .mkstemp, temp, ok := true },
          { conn := k, seq, op := .ftruncate size, temp, ok := true }] := by
      simp [World.anonfile]
    rw [acted_append calls]
    simp [finals, FsOp.isFinal]
  split
  · simp only [wp_bind]
    refine wp_issue (fun _ => ?_) fun _ => trivial
    simp only [wp_get, wp_pure]
    refine ⟨⟨Nat.zero_le _, bound, by simp, by simp⟩, trivial, ongoing, ?_⟩
    rw [acted_append (World.issue_calls _ _ _), made]
    simp [finals, FsOp.isFinal]
  · exact ⟨⟨Nat.zero_le _, bound, by simp, by simp⟩, rfl, ongoing, made _ _ _⟩

theorem makeDirectory_turn (ongoing : SysRead.zero ∉ w.answers) :
    wp (makeDirectory k ans st) (fun st' w' => st'.kind = .connected ∧
      SysRead.zero ∉ w'.answers ∧ acted k w' = acted k w + 1) (fun _ _ => True) w := by
  simp only [makeDirectory, ConnectionState.reset, wp_bind, wp_get]
  refine wp_issue (fun _ => ?_) fun _ => trivial
  simp only [wp_modify, wp_pure]
  refine ⟨trivial, by simpa using ongoing, ?_⟩
  rw [acted_append ((World.close_calls _ _).trans (World.issue_calls _ _ _))]
  simp [finals, FsOp.isFinal]

theorem headerP2_turn (sane : st.Sane) (kind : st.kind = .headerP2)
    (ongoing : SysRead.zero ∉ w.answers) :
    wp (headerP2 k ans st) (fun st' w' => SysRead.zero ∉ w'.answers ∧
      (st'.Sane ∧ st'.kind = .receiving ∧ acted k w' = acted k w ∨
        st'.kind = .connected ∧ acted k w' = acted k w + 1)) (fun _ _ => True) w := by
  simp only [headerP2, kind, wp_bind]
  refine wp_advance_full sane (by simp [kind]) ongoing .buf (fun _ _ => trivial) ?_
  intro st' w' sane' kind' ongoing' same
  rw [wp_ite]
  constructor
  · intro regular
    refine wp_mono (openTransfer_turn ongoing') ?_ fun _ _ => id
    rintro st'' w'' ⟨sane'', kind'', ongoing'', same'⟩
    exact ⟨ongoing'', .inl ⟨sane'', kind'', same'.trans same⟩⟩
  · intro other
    refine wp_mono (makeDirectory_turn ongoing') ?_ fun _ _ => id
    rintro st'' w'' ⟨kind'', ongoing'', once⟩
    exact ⟨ongoing'', .inr ⟨kind'', by rw [once, same]⟩⟩

theorem receiving_turn (sane : st.Sane) (kind : st.kind = .receiving)
    (ongoing : SysRead.zero ∉ w.answers) :
    wp (receiving k ans st) (fun st' w' => st'.kind = .connected ∧ acted k w' = acted k w + 1)
      (fun _ _ => True) w := by
  simp only [receiving, kind, wp_bind]
  refine wp_advance_full sane (by simp [kind]) ongoing .map (fun _ _ => trivial) ?_
  intro st' w' sane' kind' ongoing' same
  simp only [wp_bind, wp_get, moveAnonfile, ConnectionState.reset]
  refine wp_issue (fun _ => ?_) fun _ => trivial
  simp only [wp_modify, wp_pure]
  refine ⟨trivial, ?_⟩
  rw [← same, acted, World.close_calls, World.issue_calls, issuedBy_append, finals_append,
    List.length_append, acted]
  simp [finals, FsOp.isFinal]

/-- **A wake-up takes in one message**: it starts and ends between messages, and acts on one
path. -/
theorem wakeUp_turn (kind : st.kind = .connected) (progress : st.progress = 0)
    (ongoing : SysRead.zero ∉ w.answers) :
    wp (wakeUp k ans st) (fun st' w' => st'.kind = .connected ∧ acted k w' = acted k w + 1)
      (fun _ _ => True) w := by
  have armed : (arm st).kind = .headerP1 := by simp [arm, kind]
  have sane : (arm st).Sane := by
    simp only [arm, kind]
    exact ⟨by simp [progress], by simp [DataMessage.size], by simp, by simp⟩
  simp only [wakeUp, wp_bind]
  refine wp_mono (headerP1_turn sane armed ongoing) ?_ fun _ _ => id
  rintro st₁ w₁ ⟨sane₁, kind₁, ongoing₁, same₁⟩
  refine wp_mono (headerP2_turn sane₁ kind₁ ongoing₁) ?_ fun _ _ => id
  rintro st₂ w₂ ⟨ongoing₂, ⟨sane₂, kind₂, same₂⟩ | ⟨kind₂, once⟩⟩
  · refine wp_mono (receiving_turn sane₂ kind₂ ongoing₂) ?_ fun _ _ => id
    rintro st₃ w₃ ⟨kind₃, once⟩
    exact ⟨kind₃, by rw [once, same₂, same₁]⟩
  · simp only [receiving, kind₂, wp_pure]
    exact ⟨trivial, by rw [once, same₁]⟩

end WakeUp

/-! ## Whole runs -/

section Runs

variable {k : ℕ} {d d' : Server} {input : Input} {inputs : List Input} {inherited : List Bool}
  {fs : Fs} {dmsg : DaemonInitMessage}

/-- Every connection stands between two messages. -/
structure Resting (d : Server) : Prop where
  states : ∀ fd st, d.states.lookup fd = some st → st.kind = .connected
  streams : Idle d.world

theorem Resting.stateOf (resting : Resting d) (fd : ℕ) : (d.stateOf fd).kind = .connected :=
  Server.stateOf_of_forall (P := (·.kind = .connected)) rfl resting.states fd

/-- A state with the same streams in which no other connection has appeared. -/
theorem Resting.of_states (resting : Resting d)
    (states : ∀ fd st, d'.states.lookup fd = some st → st.kind = .connected)
    (received : d'.world.received = d.world.received) : Resting d' :=
  ⟨states, fun k => by rw [received]; exact resting.streams k⟩

/-- A connection in this state stands between two messages. -/
theorem Represents.eq_of_connected {fs : Fs} {st : ConnectionState} {p : Phase}
    (state : Represents fs st p) (kind : st.kind = .connected) : p = .header [] := by
  cases state with
  | connected => rfl
  | header other | path other | payload other => simp [kind] at other

/-- What a connection has taken in when it is woken up. -/
theorem Resting.woken {j : ℕ} {ans : Answers} {st : ConnectionState} {w : World}
    (reachable : Reachable step (start inherited fs dmsg) d) (running : d.status = .running)
    (resting : Resting d) {pfd : PollFd} (here : d.fds[d.idx]? = some pfd)
    (other : pfd.fd ∉ d.socketFds) (conn : d.world.table.get pfd.fd = some (.conn j))
    (ongoing : SysRead.zero ∉ ans.reads)
    (outcome : wakeUp j ans (d.stateOf pfd.fd) (d.answered ans) = .ok st w) :
    Resting (d.wake pfd.fd st w) ∧
      acted k w = acted k d.world + if j = k then 1 else 0 := by
  have invariant := reachable_invariant reachable
  have unfailed := invariant.running running
  have coherent := (invariant.coherent (by simp [running]) unfailed).answered ans
  have found := (invariant.coherent (by simp [running]) unfailed).stateOf here other
  obtain ⟨sane, rest⟩ := (reachable_settled reachable).stateOf pfd.fd
  have kind := resting.stateOf pfd.fd
  obtain ⟨kind', once⟩ :=
    (wp_ok outcome).1 (wakeUp_turn (k := j) kind (sane.connected kind) ongoing)
  obtain ⟨chain, -, -⟩ := (wp_ok outcome).1 (wakeUp_moves sane rest)
  refine ⟨⟨forall_insert resting.states kind', fun i => ?_⟩, ?_⟩
  · by_cases own : i = j
    · subst own
      obtain ⟨p, tracks⟩ := Tracks.chain chain (coherent.tracks _ _ _ found conn)
      obtain rfl := tracks.state.eq_of_connected kind'
      exact (tracks.stands.of_need (by decide)).1
    · have same : w.received i = d.world.received i := chain.frame.received i own
      rw [show (d.wake pfd.fd st w).world = w from rfl, same]
      exact resting.streams i
  · split
    · rename_i own
      subst own
      exact once
    · rename_i different
      have same : issuedBy k w.calls = issuedBy k d.world.calls :=
        chain.frame.issued k (Ne.symm different)
      rw [acted, acted, same, Nat.add_zero]

/-- One step of a daemon that goes on. -/
theorem Resting.after_step (reachable : Reachable step (start inherited fs dmsg) d)
    (resting : Resting d) (ongoing : SysRead.zero ∉ input.reads)
    (stepped : step d input = some d') (going : d'.status = .running) :
    Resting d' ∧ acted k d'.world = acted k d.world + if handles k d input then 1 else 0 := by
  obtain ⟨running, kind⟩ := step_inv stepped
  cases kind with
  | polled => exact ⟨resting.of_states resting.states rfl, rfl⟩
  | interrupted => exact ⟨resting, rfl⟩
  | pollFailed => cases going
  | @round pfd ans _ here visited =>
      have handling : handles k d (.round ans) = true ↔ pfd.ReadableOn d k := by
        rw [handles_iff]
        constructor
        · rintro ⟨_, pfd', -, here', readable⟩
          rwa [Option.some.inj (here.symm.trans here')]
        · exact fun readable => ⟨ans, pfd, rfl, here, readable⟩
      cases visit_inv visited with
      | hungUp flagged =>
          have unhandled : ¬ handles k d (.round ans) = true := by
            rw [handling]
            intro readable
            simp [readable.hup, readable.err] at flagged
          have closes := hangUp_closes d pfd.fd
          rw [if_neg unhandled]
          refine ⟨resting.of_states ?_ closes.received, by rw [acted, closes.calls]; rfl⟩
          exact fun fd st found => resting.states fd st (lookup_of_hangUp found)
      | skipped quiet idle =>
          have unhandled : ¬ handles k d (.round ans) = true := by
            rw [handling]
            intro readable
            simp [readable.input] at idle
          rw [if_neg unhandled]
          exact ⟨resting.of_states resting.states rfl, rfl⟩
      | offered quiet ready listener offered =>
          have unhandled : ¬ handles k d (.round ans) = true := by
            rw [handling]
            exact fun readable => readable.other listener
          rw [if_neg unhandled]
          cases acceptClient_inv offered with
          | crowded => cases going
          | refused => cases going
          | overflowed => cases going
          | admitted =>
              exact ⟨resting.of_states (forall_insert resting.states (resting.stateOf _)) rfl, rfl⟩
      | read quiet ready other read =>
          cases readable_inv read with
          | returned => cases going
          | failed => cases going
          | dangling => cases going
          | @woken j st w conn outcome used =>
              obtain ⟨resting', once⟩ :=
                resting.woken (k := k) reachable running here other conn ongoing outcome
              refine ⟨resting', once.trans ?_⟩
              have own : handles k d (.round ans) = true ↔ j = k := by
                rw [handling]
                constructor
                · intro readable
                  simpa [conn] using readable.conn
                · rintro rfl
                  obtain ⟨hup, err⟩ := Bool.or_eq_false_iff.1 quiet
                  exact ⟨hup, err, ready, other, conn⟩
              simp only [own]

/-- A run without a `read` that returns 0. -/
theorem Resting.after_run (reachable : Reachable step (start inherited fs dmsg) d)
    (resting : Resting d) (ongoing : ∀ input ∈ inputs, SysRead.zero ∉ input.reads)
    (reaches : run step d inputs = some d') (going : d'.status = .running) :
    Resting d' ∧ acted k d'.world = acted k d.world + handled k d inputs := by
  induction inputs generalizing d with
  | nil =>
      cases reaches
      exact ⟨resting, rfl⟩
  | cons input inputs ih =>
      rw [run_cons] at reaches
      obtain ⟨next, stepped, reaches⟩ := Option.bind_eq_some_iff.1 reaches
      obtain ⟨first, later⟩ := List.forall_mem_cons.1 ongoing
      -- A daemon that has stopped takes no further step, so it still runs here.
      have alive : next.status = .running := by
        by_contra ended
        obtain ⟨-, rfl⟩ := run_ended ended reaches
        exact ended going
      obtain ⟨resting', count⟩ := resting.after_step (k := k) reachable first stepped alive
      obtain ⟨final, total⟩ := ih (reachable.tail stepped) resting' later reaches
      refine ⟨final, ?_⟩
      simp only [handled, stepped]
      omega

theorem start_resting : Resting (start inherited fs dmsg) where
  states fd st found := by simp [start] at found
  streams _ := rfl

/-- **One wake-up takes in one message.** As long as no `read` returns 0 and the daemon runs, what
a connection has received is as many whole messages as it was handled for, and the calls issued
for it are theirs. -/
theorem message_per_wakeup (reaches : run step (start inherited fs dmsg) inputs = some d)
    (going : d.status = .running) (ongoing : ∀ input ∈ inputs, SysRead.zero ∉ input.reads)
    (k : ℕ) :
    ∃ ms : List Message, ms.length = handled k (start inherited fs dmsg) inputs ∧
      d.world.received k = ms.flatMap Message.bytes ∧
      issuedBy k d.world.calls = ms.flatMap Message.issued := by
  obtain ⟨resting, count⟩ :=
    start_resting.after_run (k := k) (.refl _) ongoing reaches going
  have invariant := reachable_invariant ⟨inputs, reaches⟩
  have issued := invariant.complete (invariant.running going) k
  obtain ⟨ms, split⟩ := exists_messages (d.world.received k)
  have stream : d.world.received k = ms.flatMap Message.bytes := by
    have whole := split.stream_eq
    rw [resting.streams k] at whole
    simpa [Phase.bytes] using whole
  refine ⟨ms, ?_, stream, ?_⟩
  · have acts : acted k d.world = ms.length := by
      rw [acted, issued, split.finals_eq, List.length_map]
    rw [← acts, count]
    exact Nat.zero_add _
  · rw [issued, stream, issuedAfter_messages]

end Runs

/-- Two connections, each handled once. -/
theorem message_per_wakeup_sample :
    ∃ d, run step pairStart spreadInputs = some d ∧ handled 1 pairStart spreadInputs = 1 ∧
      ∃ m : Message, d.world.received 1 = m.bytes ∧ issuedBy 1 d.world.calls = m.issued := by
  have once : handled 1 pairStart spreadInputs = 1 := by decide +kernel
  obtain ⟨d, reaches, running, -⟩ := exists_spread
  obtain ⟨ms, count, received, issued⟩ :=
    message_per_wakeup reaches running (by decide +kernel) 1
  obtain ⟨m, rfl⟩ := List.length_eq_one_iff.1 (count.trans once)
  exact ⟨d, reaches, once, m, by simpa using received, by simpa using issued⟩

end Enuwatch.Daemon

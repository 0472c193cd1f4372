import Enuwatch.Daemon.Atomic
import Enuwatch.Daemon.Feed

/-!
# The end of a stream

`read_partial` stops at a `read` that returns 0 and reports what it has. A connection whose peer
has closed its side is readable and gives nothing: `advance` finds no progress and waits for
more, and the next `poll` reports the connection again.

A wake-up takes in exactly the bytes that the kernel hands it (`wakeUp_stream`), and its first
`read` decides the rest. A hang-up closes a listening socket whose number stays in `socket_fds`;
a connection that is given this number later is taken for a listening socket, and the `accept` on
it ends the daemon. So handling a readable connection consumes at least a byte or removes the
connection exactly when its number is none of `socket_fds` and its first `read` does not return 0
(`readable_progress_iff`). Where that `read` does, the connection can be handled again without end
(`endOfStream_spins`); where it never does, there are at most as many handled events as bytes, and
one that fails (`handled_le`).
-/

set_option autoImplicit false

namespace Enuwatch.Daemon

open Enuwatch.Lib Enuwatch.Net

/-- The first `read` of a wake-up returns 0. -/
def EndOfStream (answers : List SysRead) : Prop := firstAnswer answers = some .zero

instance (answers : List SysRead) : Decidable (EndOfStream answers) :=
  inferInstanceAs (Decidable (_ = _))

/-- Handling the connection `k` under the descriptor `fd` was of use: a byte of its stream was
consumed, or the connection is gone. -/
def Progresses (k fd : ℕ) (d d' : Server) : Prop :=
  (∃ block, block ≠ [] ∧ d'.world.received k = d.world.received k ++ block) ∨
    fd ∉ d'.numbers ∧ d'.states.lookup fd = none

/-! ## A wake-up takes in what it is handed -/

section WakeUp

variable {k : ℕ} {ans : Answers} {st : ConnectionState} {w : World}

section Reads

universe u

variable {γ : Type u} {I : (ℕ → Bytes) → List SysRead → γ}

/-- A quantity of the streams and the answers. -/
abbrev World.flow (I : (ℕ → Bytes) → List SysRead → γ) (w : World) : γ := I w.received w.answers

theorem issue_preserves (call : Call) (effect : Fs → Fs) :
    Preserves (World.flow I) (issue call effect) :=
  fun _ => wp_issue (fun _ => rfl) fun _ => rfl

theorem reset_preserves : Preserves (World.flow I) st.reset := by
  refine .bind (.modify fun w => ?_) fun _ => .pure _
  simp [World.flow]

theorem openTransfer_preserves {msg : DataMessage} :
    Preserves (World.flow I) (openTransfer k msg ans st) := by
  unfold openTransfer createAnonfile
  refine .bind (.get fun _ => .bind (issue_preserves _ _) fun _ => .bind (.modify fun _ => rfl)
    fun _ => .bind (issue_preserves _ _) fun _ => .bind (.modify fun _ => rfl) fun _ => .pure _) ?_
  rintro ⟨anonFd, anonPath⟩
  dsimp only
  split
  · exact .bind (issue_preserves _ _) fun _ => .get fun _ => .bind (.pure _) fun _ => .pure _
  · exact .bind (.pure _) fun _ => .pure _

theorem makeDirectory_preserves : Preserves (World.flow I) (makeDirectory k ans st) := by
  unfold makeDirectory
  exact .get fun _ => .bind (issue_preserves _ _) fun _ => .bind reset_preserves fun _ => .pure _

variable (reads : ∀ target st, Preserves (World.flow I) (advance k target st))
include reads

theorem headerP1_preserves : Preserves (World.flow I) (headerP1 k st) := by
  unfold headerP1
  split
  · refine .bind (reads .buf _) ?_
    rintro ⟨outcome, st'⟩
    cases outcome with
    | fail => exact .throw _
    | part => exact .pure _
    | done => exact .pure _
  · exact .pure _

theorem headerP2_preserves : Preserves (World.flow I) (headerP2 k ans st) := by
  unfold headerP2
  split
  · refine .bind (reads .buf _) ?_
    rintro ⟨outcome, st'⟩
    cases outcome with
    | fail => exact .throw _
    | part => exact .pure _
    | done =>
        dsimp only
        split
        · exact openTransfer_preserves
        · exact makeDirectory_preserves
  · exact .pure _

theorem receiving_preserves : Preserves (World.flow I) (receiving k ans st) := by
  unfold receiving moveAnonfile
  split
  · refine .bind (reads .map _) ?_
    rintro ⟨outcome, st'⟩
    cases outcome with
    | fail => exact .throw _
    | part => exact .pure _
    | done =>
        refine .get fun _ => .bind (.get fun _ => .bind (issue_preserves _ _) fun _ =>
          .modify fun _ => rfl) fun _ => .bind reset_preserves fun _ => .pure _
  · exact .pure _

/-- What its reads leave alone, a wake-up leaves alone. -/
theorem wakeUp_preserves : Preserves (World.flow I) (wakeUp k ans st) :=
  .bind (headerP1_preserves reads) fun _ => .bind (headerP2_preserves reads) fun _ =>
    receiving_preserves reads

end Reads

/-- The stream of a connection with the bytes that are on their way. -/
def stream (k : ℕ) (received : ℕ → Bytes) (answers : List SysRead) : Bytes :=
  received k ++ incoming answers

theorem advance_stream (target : Target) (st : ConnectionState) :
    Preserves (World.flow (stream k)) (advance k target st) := by
  intro w
  simp only [advance, wp_bind, wp_get]
  cases answered : readPartial (sizeSub st.goal st.progress) w.answers with
  | none => exact rfl
  | some t =>
      have same : (w.receive k t.bytes t.unused (target.storeFs t.bytes st w.fs)).flow (stream k) =
          w.flow (stream k) := by
        simp [World.flow, stream, readLoop_incoming answered]
      simp only [wp_bind, wp_set]
      cases t.result.kind with
      | fail => exact same
      | ok => exact same

/-- **A wake-up takes in what it is handed.** However it ends, the stream of the connection with
what is left of the answers is the stream before with all of them. -/
theorem wakeUp_stream : Preserves (World.flow (stream k)) (wakeUp k ans st) :=
  wakeUp_preserves advance_stream

/-- A wake-up takes in nothing of another connection. -/
theorem wakeUp_received {j : ℕ} (other : j ≠ k) :
    Preserves (World.flow fun received _ => received j) (wakeUp k ans st) := by
  refine wakeUp_preserves fun target st w => ?_
  simp only [advance, wp_bind, wp_get]
  cases readPartial (sizeSub st.goal st.progress) w.answers with
  | none => exact rfl
  | some t =>
      have same : Function.update w.received k (w.received k ++ t.bytes) j = w.received j :=
        Function.update_of_ne other _ _
      simp only [wp_bind, wp_set]
      cases t.result.kind with
      | fail => exact same
      | ok => exact same

/-! ## Its first `read` -/

/-- A wake-up begins with an `advance`; one that fails or falls short ends it. -/
theorem wp_wakeUp_first {Q : ConnectionState → World → Prop} {E : Exit → World → Prop}
    (sane : st.Sane)
    (first : ∀ target, wp (advance k target (arm st)) (fun r w' =>
      r.1 = .fail ∧ E (.returned r.2) w' ∨ r.1 = .part ∧ r.2.kind = (arm st).kind ∧ Q r.2 w') E w) :
    wp (wakeUp k ans st) Q E w := by
  obtain ⟨-, -, armed, -⟩ := chain_arm (k := k) (w := w) .refl sane
  simp only [wakeUp, wp_bind]
  cases kind : (arm st).kind with
  | connected => exact absurd kind armed
  | headerP1 =>
      simp only [headerP1, kind, wp_bind]
      refine wp_mono (first .buf) ?_ fun _ _ => id
      rintro ⟨outcome, st'⟩ w' (⟨rfl, exit⟩ | ⟨rfl, same, post⟩)
      · exact exit
      · have still : st'.kind = .headerP1 := same.trans kind
        simp only [wp_pure, headerP2, receiving, still]
        exact post
  | headerP2 =>
      simp only [headerP1, headerP2, kind, wp_pure, wp_bind]
      refine wp_mono (first .buf) ?_ fun _ _ => id
      rintro ⟨outcome, st'⟩ w' (⟨rfl, exit⟩ | ⟨rfl, same, post⟩)
      · exact exit
      · have still : st'.kind = .headerP2 := same.trans kind
        simp only [wp_pure, receiving, still]
        exact post
  | receiving =>
      simp only [headerP1, headerP2, receiving, kind, wp_pure, wp_bind]
      refine wp_mono (first .map) ?_ fun _ _ => id
      rintro ⟨outcome, st'⟩ w' (⟨rfl, exit⟩ | ⟨rfl, same, post⟩)
      · exact exit
      · exact post

/-- The first `read` of a wake-up asks for at least a byte, and its answer decides how the first
`advance` ends. -/
theorem wp_advance_arm (sane : st.Sane) (rest : st.AtRest) (target : Target) :
    wp (advance k target (arm st)) (fun r w' =>
      firstAnswer w.answers = some .error ∧ r.1 = .fail ∨
      firstAnswer w.answers = some .zero ∧ r.1 = .part ∧ r.2.kind = (arm st).kind ∧
        w'.received = w.received ∨
      ∃ block, firstAnswer w.answers = some (.data block) ∧ block ≠ [])
      (fun e _ => e = .blocked) w := by
  obtain ⟨-, sane, armed, still⟩ := chain_arm (k := k) (w := w) .refl sane
  have short : (arm st).progress < (arm st).goal := (still rest).resolve_left armed
  simp only [advance, wp_bind, wp_get]
  rw [sizeSub_of_le sane.ordered sane.bound]
  cases answered : readPartial ((arm st).goal - (arm st).progress) w.answers with
  | none => exact rfl
  | some t =>
      simp only [wp_bind, wp_set]
      cases readPartial_begins (by omega) answered with
      | data block first some bytes =>
          cases t.result.kind with
          | fail => exact .inr (.inr ⟨block, first, some⟩)
          | ok => exact .inr (.inr ⟨block, first, some⟩)
      | zero first result bytes =>
          have sum : sizeAdd (arm st).progress 0 = (arm st).progress :=
            sizeAdd_of_lt (lt_of_le_of_lt sane.ordered sane.bound)
          simp only [result, wp_pure, storeState_progress, storeState_goal, sum, if_neg short.ne]
          refine .inr (.inl ⟨first, trivial, storeState_kind _ _ _, ?_⟩)
          simp [bytes]
      | error first kind =>
          simp only [kind, wp_pure]
          exact .inl ⟨first, trivial⟩

/-- The kernel hands over some bytes first. -/
def Delivers (answers : List SysRead) : Prop :=
  ∃ block, firstAnswer answers = some (.data block) ∧ block ≠ []

/-- **The first `read` decides.** A wake-up that gets no bytes first returns with nothing at the
end of the stream, and ends `daemon_main` at an error. -/
theorem wakeUp_begins (sane : st.Sane) (rest : st.AtRest) :
    wp (wakeUp k ans st)
      (fun _ w' => EndOfStream w.answers ∧ w'.received = w.received ∨ Delivers w.answers)
      (fun e _ => e = .blocked ∨ (firstAnswer w.answers = some .error ∧ ∃ st', e = .returned st') ∨
        Delivers w.answers) w := by
  by_cases delivers : Delivers w.answers
  · exact wp_mono (wakeUp_stream w) (fun _ _ _ => .inr delivers)
      fun _ _ _ => .inr (.inr delivers)
  · refine wp_wakeUp_first sane fun target => ?_
    refine wp_mono (wp_advance_arm sane rest target) ?_ fun _ _ => .inl
    rintro r w' (⟨error, failed⟩ | ⟨zero, part, kind, received⟩ | data)
    · exact .inl ⟨failed, .inr (.inl ⟨error, r.2, rfl⟩)⟩
    · exact .inr ⟨part, kind, .inl ⟨zero, received⟩⟩
    · exact absurd data delivers

end WakeUp

theorem incoming_ne_nil {answers : List SysRead} (delivers : Delivers answers) :
    incoming answers ≠ [] := by
  obtain ⟨block, first, some⟩ := delivers
  induction answers with
  | nil => simp [firstAnswer] at first
  | cons answer answers ih =>
      cases answer with
      | data block' =>
          have same : block' = block := by simpa [firstAnswer] using first
          simp [incoming, same, some]
      | zero => simp [firstAnswer] at first
      | retry =>
          have later : firstAnswer answers = .some (.data block) := by
            simpa [firstAnswer] using first
          simpa [incoming] using ih later
      | error => simp [firstAnswer] at first

/-! ## One event -/

section Event

variable {d d' : Server} {pfd : PollFd} {ans : Answers} {k : ℕ}

/-- What handling a readable connection comes to. -/
theorem readable_cases (settled : Settled d) (conn : d.world.table.get pfd.fd = some (.conn k))
    (handled : d.readable pfd.fd ans = some d') :
    EndOfStream ans.reads ∧ d'.world.received = d.world.received ∧ d'.fds = d.fds ∧
      (∃ st, d'.states.lookup pfd.fd = some st) ∨
    firstAnswer ans.reads = some .error ∧ d'.fds = [] ∧ d'.states = ∅ ∧ d'.status = .returned ∨
    Delivers ans.reads ∧ d'.world.received k = d.world.received k ++ incoming ans.reads := by
  obtain ⟨sane, rest⟩ := settled.stateOf pfd.fd
  have begins : wp (wakeUp k ans (d.stateOf pfd.fd)) _ _ (d.answered ans) :=
    wakeUp_begins sane rest
  have spec := wp_and begins (wakeUp_stream (d.answered ans))
  -- The answers are used up: what the stream had to give was received.
  have received : ∀ w : World, w.answers = [] →
      w.flow (stream k) = (d.answered ans).flow (stream k) →
      w.received k = d.world.received k ++ incoming ans.reads := by
    intro w used stream
    simpa [World.flow, Enuwatch.Daemon.stream, Server.answered, used, incoming] using stream
  cases readable_inv handled with
  | woken conn' outcome used =>
      cases conn.symm.trans conn'
      obtain ⟨⟨zero, unread⟩ | delivers, stream⟩ := (wp_ok outcome).1 spec
      · exact .inl ⟨zero, unread, rfl, _, AList.lookup_insert _⟩
      · exact .inr (.inr ⟨delivers, received _ used stream⟩)
  | returned conn' outcome used =>
      cases conn.symm.trans conn'
      obtain ⟨blocked | ⟨error, -⟩ | delivers, stream⟩ := (wp_error outcome).1 spec
      · cases blocked
      · exact .inr (.inl ⟨error, rfl, rfl, rfl⟩)
      · refine .inr (.inr ⟨delivers, ?_⟩)
        rw [(returnFalse_fields _ _).1]
        exact received _ used stream
  | failed conn' outcome used =>
      cases conn.symm.trans conn'
      obtain ⟨blocked | ⟨-, st', returned⟩ | delivers, stream⟩ := (wp_error outcome).1 spec
      · cases blocked
      · cases returned
      · exact .inr (.inr ⟨delivers, received _ used stream⟩)
  | dangling gone => exact absurd conn (gone k)

/-- `poll` reports the connection `k` readable. -/
structure PollFd.Reported (d : Server) (k : ℕ) (pfd : PollFd) : Prop where
  hup : pfd.revents.hup = false
  err : pfd.revents.err = false
  input : pfd.revents.input = true
  conn : d.world.table.get pfd.fd = some (.conn k)

/-- The entry is a connection `k` that is reported readable, under a number that no listening
socket has had. -/
structure PollFd.ReadableOn (d : Server) (k : ℕ) (pfd : PollFd) : Prop where
  hup : pfd.revents.hup = false
  err : pfd.revents.err = false
  input : pfd.revents.input = true
  other : pfd.fd ∉ d.socketFds
  conn : d.world.table.get pfd.fd = some (.conn k)

theorem step_readable (running : d.status = .running) (here : d.fds[d.idx]? = some pfd)
    (readable : pfd.ReadableOn d k) : step d (.round ans) = d.readable pfd.fd ans := by
  simp [step, running, here, Server.visit, readable.hup, readable.err, readable.input,
    readable.other]

theorem PollFd.Reported.readableOn (reported : pfd.Reported d k) (other : pfd.fd ∉ d.socketFds) :
    pfd.ReadableOn d k :=
  ⟨reported.hup, reported.err, reported.input, other, reported.conn⟩

/-- A connection under the number of a listening socket that was closed: `accept` fails. -/
theorem step_mistaken (running : d.status = .running) (here : d.fds[d.idx]? = some pfd)
    (reported : pfd.Reported d k) (mistaken : pfd.fd ∈ d.socketFds)
    (stepped : step d (.round ans) = some d') : d' = { d with status := .fatal } := by
  simp only [step, running, here, Server.visit, reported.hup, reported.err, reported.input,
    Bool.or_false, Bool.false_eq_true, reduceCtorEq, if_false, if_pos mistaken,
    Option.some.injEq] at stepped
  cases acceptClient_inv stepped with
  | crowded => rfl
  | refused => rfl
  | admitted _ listening => cases reported.conn.symm.trans listening
  | overflowed _ listening => cases reported.conn.symm.trans listening

end Event

/-- **A readable event makes progress exactly when it is read and the stream is not at its end.**
In every reachable state, handling a connection that is reported readable consumes a byte of its
stream or removes it from `fds` and `states`, if and only if its number is none of `socket_fds`
and the first `read` that is not retried does not return 0. -/
theorem readable_progress_iff {inherited : List Bool} {fs : Fs} {dmsg : DaemonInitMessage}
    {d d' : Server} {pfd : PollFd} {ans : Answers} {k : ℕ}
    (reachable : Reachable step (start inherited fs dmsg) d) (here : d.fds[d.idx]? = some pfd)
    (reported : pfd.Reported d k) (stepped : step d (.round ans) = some d') :
    Progresses k pfd.fd d d' ↔ pfd.fd ∉ d.socketFds ∧ ¬ EndOfStream ans.reads := by
  have settled : Settled d := reachable_settled reachable
  by_cases mistaken : pfd.fd ∈ d.socketFds
  · obtain rfl := step_mistaken (running_of_step stepped) here reported mistaken stepped
    refine iff_of_false ?_ fun both => both.1 mistaken
    rintro (⟨block, some, grows⟩ | ⟨gone, -⟩)
    · exact some (List.self_eq_append_right.1 grows)
    · exact gone (List.mem_map_of_mem (List.mem_of_getElem? here))
  rw [and_iff_right mistaken]
  have readable := reported.readableOn mistaken
  have handled := stepped
  rw [step_readable (running_of_step stepped) here readable] at handled
  obtain ⟨zero, received, fds, st, found⟩ | ⟨error, fds, states, -⟩ | ⟨delivers, received⟩ :=
    readable_cases settled readable.conn handled
  · refine iff_of_false ?_ (not_not_intro zero)
    rintro (⟨block, some, grows⟩ | ⟨-, gone⟩)
    · rw [received] at grows
      simp [some] at grows
    · rw [found] at gone
      cases gone
  · refine iff_of_true (.inr ?_) ?_
    · simp [Server.numbers, fds, states]
    · intro zero
      rw [EndOfStream, error] at zero
      cases zero
  · refine iff_of_true (.inl ⟨_, incoming_ne_nil delivers, received⟩) ?_
    intro zero
    obtain ⟨block, first, -⟩ := delivers
    rw [EndOfStream, first] at zero
    cases zero

/-- A connection delivers a byte. Another one was given the number of a listening socket that the
hang-up of a client has closed: it is reported readable, and no byte of it is read. -/
theorem readable_progress_iff_sample :
    (∃ d d' pfd, Reachable step sampleStart d ∧ d.fds[d.idx]? = some pfd ∧ pfd.Reported d 0 ∧
      step d (.round { reads := [.data [1], .zero] }) = some d' ∧ Progresses 0 pfd.fd d d') ∧
    ∃ d d' pfd, Reachable step (start [true, true, true] sampleFs ⟨50000, 2⟩) d ∧
      d.fds[d.idx]? = some pfd ∧ pfd.Reported d 1 ∧ pfd.fd ∈ d.socketFds ∧
      step d (.round {}) = some d' ∧ ¬ Progresses 1 pfd.fd d d' := by
  constructor
  · let inputs : List Input :=
      [.poll [{ input := true }], .round {}, .round {}, .poll [{}, { input := true }], .round {}]
    have facts : ∀ d ∈ run step sampleStart inputs, d.fds[d.idx]? = some ⟨4, { input := true }⟩ ∧
        4 ∉ d.socketFds ∧ d.world.table.get 4 = some (.conn 0) ∧
        (step d (.round { reads := [.data [1], .zero] })).isSome := by decide +kernel
    obtain ⟨d, reaches⟩ : ∃ d, run step sampleStart inputs = some d :=
      Option.isSome_iff_exists.1 (by decide +kernel)
    obtain ⟨here, other, conn, moves⟩ := facts d reaches
    obtain ⟨d', stepped⟩ := Option.isSome_iff_exists.1 moves
    have reported : PollFd.Reported d 0 ⟨4, { input := true }⟩ := ⟨rfl, rfl, rfl, conn⟩
    exact ⟨d, d', _, ⟨inputs, reaches⟩, here, reported, stepped,
      (readable_progress_iff ⟨inputs, reaches⟩ here reported stepped).2 ⟨other, by decide⟩⟩
  · let inputs : List Input :=
      [.poll [{ input := true }, {}], .round {}, .round {}, .round {},
        .poll [{}, {}, { hup := true }], .round {}, .round {}, .round {},
        .poll [{}, { input := true }], .round {}, .round {}, .round {},
        .poll [{}, {}, { input := true }], .round {}, .round {}]
    have facts : ∀ d ∈ run step (start [true, true, true] sampleFs ⟨50000, 2⟩) inputs,
        d.fds[d.idx]? = some ⟨3, { input := true }⟩ ∧ 3 ∈ d.socketFds ∧
        d.world.table.get 3 = some (.conn 1) ∧ (step d (.round {})).isSome := by decide +kernel
    obtain ⟨d, reaches⟩ : ∃ d, run step (start [true, true, true] sampleFs ⟨50000, 2⟩) inputs =
      some d := Option.isSome_iff_exists.1 (by decide +kernel)
    obtain ⟨here, mistaken, conn, moves⟩ := facts d reaches
    obtain ⟨d', stepped⟩ := Option.isSome_iff_exists.1 moves
    have reported : PollFd.Reported d 1 ⟨3, { input := true }⟩ := ⟨rfl, rfl, rfl, conn⟩
    exact ⟨d, d', _, ⟨inputs, reaches⟩, here, reported, mistaken, stepped, fun progress =>
      ((readable_progress_iff ⟨inputs, reaches⟩ here reported stepped).1 progress).1 mistaken⟩

/-- A connection is accepted, and its peer closes it before the first byte: the readable event
consumes nothing, and the connection stays. -/
theorem closed_connection_stays :
    ∃ d d' pfd, Reachable step sampleStart d ∧ d.fds[d.idx]? = some pfd ∧ pfd.ReadableOn d 0 ∧
      step d (.round { reads := [.zero] }) = some d' ∧ ¬ Progresses 0 pfd.fd d d' := by
  let inputs : List Input :=
    [.poll [{ input := true }], .round {}, .round {}, .poll [{}, { input := true }], .round {}]
  have facts : ∀ d ∈ run step sampleStart inputs, d.fds[d.idx]? = some ⟨4, { input := true }⟩ ∧
      4 ∉ d.socketFds ∧ d.world.table.get 4 = some (.conn 0) ∧ d.world.received 0 = [] ∧
      ∃ d' ∈ step d (.round { reads := [.zero] }), d'.world.received 0 = [] ∧ 4 ∈ d'.numbers := by
    decide +kernel
  obtain ⟨d, reaches⟩ : ∃ d, run step sampleStart inputs = some d :=
    Option.isSome_iff_exists.1 (by decide +kernel)
  obtain ⟨here, other, conn, before, d', stepped, after, listed⟩ := facts d reaches
  refine ⟨d, d', _, ⟨inputs, reaches⟩, here, ⟨rfl, rfl, rfl, other, conn⟩, stepped, ?_⟩
  rintro (⟨block, some, grows⟩ | ⟨gone, -⟩)
  · rw [before, after] at grows
    exact some grows.symm
  · exact gone listed

/-! ## Whole runs -/

section Count

variable {k : ℕ} {d d' : Server} {input : Input} {inputs : List Input}

/-- The answers to the reads of a round. -/
def Input.reads : Input → List SysRead
  | .round ans => ans.reads
  | _ => []

/-- The step handles the connection `k` as readable. -/
def handles (k : ℕ) (d : Server) : Input → Bool
  | .round _ => (d.fds[d.idx]?).any fun pfd =>
      !pfd.revents.hup && !pfd.revents.err && pfd.revents.input &&
        decide (pfd.fd ∉ d.socketFds) && decide (d.world.table.get pfd.fd = some (.conn k))
  | _ => false

/-- How often a run handles the connection `k` as readable. -/
def handled (k : ℕ) : Server → List Input → ℕ
  | _, [] => 0
  | d, input :: inputs =>
      (if handles k d input then 1 else 0) +
        match step d input with
        | none => 0
        | some d' => handled k d' inputs

theorem handles_iff : handles k d input = true ↔
    ∃ ans pfd, input = .round ans ∧ d.fds[d.idx]? = some pfd ∧ pfd.ReadableOn d k := by
  cases input with
  | round ans =>
      simp only [handles, Option.any_eq_true, Bool.and_eq_true, Bool.not_eq_true',
        decide_eq_true_eq, Input.round.injEq]
      constructor
      · rintro ⟨pfd, here, ⟨⟨⟨hup, err⟩, input⟩, other⟩, conn⟩
        exact ⟨ans, pfd, rfl, here, hup, err, input, other, conn⟩
      · rintro ⟨_, pfd, -, here, hup, err, input, other, conn⟩
        exact ⟨pfd, here, ⟨⟨⟨hup, err⟩, input⟩, other⟩, conn⟩
  | poll _ => simp [handles]
  | interrupted => simp [handles]
  | pollFailed => simp [handles]

/-- A wake-up that uses up its answers only adds to the streams. -/
theorem wakeUp_grows {ans : Answers} {st : ConnectionState} {w : World} (j : ℕ) :
    wp (wakeUp j ans st) (fun _ w' => w'.answers = [] → w.received k <+: w'.received k)
      (fun _ w' => w'.answers = [] → w.received k <+: w'.received k) w := by
  by_cases same : k = j
  · subst same
    have grows : ∀ w' : World, w'.flow (stream k) = w.flow (stream k) → w'.answers = [] →
        w.received k <+: w'.received k := by
      intro w' kept used
      have whole : w'.received k = w.received k ++ incoming w.answers := by
        simpa [World.flow, stream, used, incoming] using kept
      rw [whole]
      exact List.prefix_append _ _
    exact wp_mono (wakeUp_stream w) (fun _ => grows) fun _ => grows
  · have grows : ∀ w' : World, w'.received k = w.received k → w'.answers = [] →
        w.received k <+: w'.received k := by
      intro w' kept _
      rw [kept]
    exact wp_mono (wakeUp_received same w) (fun _ => grows) fun _ => grows

/-- Streams only grow. -/
theorem readable_received {fd : ℕ} {ans : Answers} (read : d.readable fd ans = some d') :
    d.world.received k <+: d'.world.received k := by
  have grows (j : ℕ) : wp (wakeUp j ans (d.stateOf fd)) _ _ (d.answered ans) :=
    wakeUp_grows (k := k) j
  cases readable_inv read with
  | woken _ outcome used => exact (wp_ok outcome).1 (grows _) used
  | returned _ outcome used =>
      rw [(returnFalse_fields _ _).1]
      exact (wp_error outcome).1 (grows _) used
  | failed _ outcome used => exact (wp_error outcome).1 (grows _) used
  | dangling => rw [(returnFalse_fields _ _).1]

theorem acceptClient_received {sock : ℕ} {ans : Answers} (offered : d.acceptClient sock ans = d') :
    d'.world.received = d.world.received := by
  cases acceptClient_inv offered <;> rfl

theorem step_received (stepped : step d input = some d') :
    d.world.received k <+: d'.world.received k := by
  cases (step_inv stepped).2 with
  | polled => exact List.prefix_rfl
  | interrupted => exact List.prefix_rfl
  | pollFailed => exact List.prefix_rfl
  | round _ visited =>
      cases visit_inv visited with
      | hungUp => rw [(hangUp_closes d _).received]
      | skipped => exact List.prefix_rfl
      | offered _ _ _ offered => rw [acceptClient_received offered]
      | read _ _ _ read => exact readable_received read

/-- No event of the connection `k` meets the end of its stream. -/
def BeforeEnd (k : ℕ) (d : Server) (input : Input) : Prop :=
  handles k d input = true → ¬ EndOfStream input.reads

/-- One event takes a byte, or is the last. -/
theorem handled_step (settled : Settled d) (before : BeforeEnd k d input)
    (stepped : step d input = some d') :
    (d.world.received k).length + (if handles k d input then 1 else 0) ≤
      (d'.world.received k).length + if d'.status = .running then 0 else 1 := by
  have grows : (d.world.received k).length ≤ (d'.world.received k).length :=
    (step_received stepped).length_le
  by_cases handling : handles k d input = true
  · obtain ⟨ans, pfd, rfl, here, readable⟩ := handles_iff.1 handling
    have read := stepped
    rw [step_readable (running_of_step stepped) here readable] at read
    rw [if_pos handling]
    obtain ⟨zero, -⟩ | ⟨-, -, -, returned⟩ | ⟨delivers, received⟩ :=
      readable_cases settled readable.conn read
    · exact absurd zero (before handling)
    · rw [returned, if_neg (by simp)]
      omega
    · have some := List.length_pos_iff.2 (incoming_ne_nil delivers)
      rw [received, List.length_append]
      omega
  · rw [if_neg handling]
    omega

theorem handled_run (settled : Settled d) (along : Along step (BeforeEnd k) d inputs)
    (reaches : run step d inputs = some d') :
    (d.world.received k).length + handled k d inputs ≤
      (d'.world.received k).length + if d'.status = .running then 0 else 1 := by
  induction inputs generalizing d with
  | nil =>
      cases reaches
      simp [handled]
  | cons input inputs ih =>
      obtain ⟨before, rest⟩ := along
      rw [run_cons] at reaches
      obtain ⟨next, stepped, reaches⟩ := Option.bind_eq_some_iff.1 reaches
      rw [stepped] at rest
      have first := handled_step settled before stepped
      have later := ih (step_event settled stepped).2.2 rest reaches
      simp only [handled, stepped]
      by_cases running : next.status = .running
      · rw [if_pos running] at first
        omega
      · obtain ⟨rfl, rfl⟩ := run_ended running reaches
        simp only [handled]
        omega

end Count

/-- **A stream that is never read at its end is handled at most once for every byte.** The one
event more is a `read` that fails, after which `daemon_main` returns. -/
theorem handled_le {inherited : List Bool} {fs : Fs} {dmsg : DaemonInitMessage} {k : ℕ}
    {inputs : List Input} {d : Server}
    (along : Along step (BeforeEnd k) (start inherited fs dmsg) inputs)
    (reaches : run step (start inherited fs dmsg) inputs = some d) :
    handled k (start inherited fs dmsg) inputs ≤ (d.world.received k).length + 1 := by
  have bound := handled_run (start_settled inherited fs dmsg) along reaches
  split at bound <;> omega

/-! ## A connection at its end -/

section Spin

variable {k fd : ℕ} {d : Server} {ans : Answers} {st : ConnectionState} {w : World}

/-- The answers of a connection whose peer has closed its side. -/
def closedAnswers : Answers := { reads := [.zero] }

/-- A wake-up at the end of the stream returns and leaves everything as it was. -/
theorem wp_wakeUp_closed (sane : st.Sane) (rest : st.AtRest) (closed : w.answers = [.zero]) :
    wp (wakeUp k ans st) (fun _ w' =>
      w'.received = w.received ∧ w'.answers = [] ∧ w'.table = w.table) (fun _ _ => False) w := by
  obtain ⟨-, sane', armed, still⟩ := chain_arm (k := k) (w := w) .refl sane
  have short : (arm st).progress < (arm st).goal := (still rest).resolve_left armed
  have positive : 0 < (arm st).goal - (arm st).progress := by omega
  have sum : sizeAdd (arm st).progress 0 = (arm st).progress :=
    sizeAdd_of_lt (lt_of_le_of_lt sane'.ordered sane'.bound)
  refine wp_wakeUp_first sane fun target => ?_
  simp only [advance, wp_bind, wp_get]
  rw [sizeSub_of_le sane'.ordered sane'.bound, closed]
  simp only [readPartial, readLoop, if_pos positive, wp_bind, wp_set, wp_pure,
    storeState_progress, storeState_goal, sum, if_neg short.ne]
  refine .inr ⟨trivial, storeState_kind _ _ _, ?_, rfl, rfl⟩
  simp

/-- A pass is over, and the connection `k` is open under the number `fd`. -/
structure Connected (d : Server) (k fd : ℕ) : Prop where
  running : d.status = .running
  ended : d.idx = d.fds.length
  listed : ∃ pfd ∈ d.fds, pfd.fd = fd
  other : fd ∉ d.socketFds
  conn : d.world.table.get fd = some (.conn k)
  settled : Settled d

/-- The kernel has nothing for the connection, and handling it leaves the streams alone. -/
theorem readable_closed (settled : Settled d) (conn : d.world.table.get fd = some (.conn k)) :
    ∃ st w, d.readable fd closedAnswers = some (d.wake fd st w) ∧
      w.received = d.world.received ∧ w.table = d.world.table := by
  obtain ⟨sane, rest⟩ := settled.stateOf fd
  have spec : wp (wakeUp k closedAnswers (d.stateOf fd)) _ _ (d.answered closedAnswers) :=
    wp_wakeUp_closed sane rest rfl
  simp only [wp, Server.stateOf, Server.answered] at spec
  split at spec
  · rename_i st w outcome
    obtain ⟨received, used, table⟩ := spec
    refine ⟨st, w, ?_, received, table⟩
    simp only [Server.readable, conn, outcome, used, if_true, Server.wake]
  · exact spec.elim

/-- A pass over a connection whose peer has closed its side handles it and changes nothing. -/
theorem Connected.pass (connected : Connected d k fd) :
    ∃ e e' d', Reachable step d e ∧ handles k e (.round closedAnswers) = true ∧
      step e (.round closedAnswers) = some e' ∧ Reachable step e' d' ∧ Connected d' k fd ∧
      d'.world.received = d.world.received := by
  obtain ⟨running, ended, ⟨pfd, listed, rfl⟩, other, conn, settled⟩ := connected
  obtain ⟨before, after, fds⟩ := List.append_of_mem listed
  let e : Server := { d with
    fds := before.map PollFd.clear ++ ⟨pfd.fd, { input := true }⟩ :: after.map PollFd.clear
    idx := before.length }
  have reached : Reachable step d e := reachable_entry running ended fds (by simp [conn])
  have here : e.fds[e.idx]? = some ⟨pfd.fd, { input := true }⟩ := by simp [e]
  have readable : PollFd.ReadableOn e k ⟨pfd.fd, { input := true }⟩ := ⟨rfl, rfl, rfl, other, conn⟩
  have running' : e.status = .running := running
  have settled' : Settled e := settled
  obtain ⟨st, w, woken, received, table⟩ := readable_closed settled' conn
  have stepped : step e (.round closedAnswers) = some (e.wake pfd.fd st w) :=
    (step_readable running' here readable).trans woken
  have split : (e.wake pfd.fd st w).fds =
      (before.map PollFd.clear ++ [⟨pfd.fd, { input := true }⟩]) ++ after.map PollFd.clear := by
    simp [Server.wake, e]
  have over_ : Reachable step (e.wake pfd.fd st w)
      { e.wake pfd.fd st w with idx := (e.wake pfd.fd st w).fds.length } := by
    refine reachable_end running split (by simp [Server.wake, e]) ?_
    intro entry among
    obtain ⟨old, -, rfl⟩ := List.mem_map.1 among
    rfl
  refine ⟨e, _, _, reached, handles_iff.2 ⟨_, _, rfl, here, readable⟩, stepped, over_, ?_, received⟩
  exact {
    running := running
    ended := rfl
    listed := ⟨⟨pfd.fd, { input := true }⟩, by simp [split], rfl⟩
    other := other
    conn := (congrArg (Slots.get · pfd.fd) table).trans conn
    settled := ((step_event settled' stepped).2.2).of_states rfl }

theorem handled_append {first second : List Input} {d' : Server}
    (reaches : run step d first = some d') :
    handled k d (first ++ second) = handled k d first + handled k d' second := by
  induction first generalizing d with
  | nil =>
      cases reaches
      simp [handled]
  | cons input first ih =>
      rw [run_cons] at reaches
      obtain ⟨next, stepped, reaches⟩ := Option.bind_eq_some_iff.1 reaches
      simp only [List.cons_append, handled, stepped, ih reaches]
      exact (Nat.add_assoc _ _ _).symm

end Spin

/-- **At its end a connection can be handled without end.** However often a connection whose peer
has closed its side was handled, it can be handled once more, with nothing consumed and the
connection still there. -/
theorem endOfStream_spins {k fd : ℕ} {d : Server} (connected : Connected d k fd) (n : ℕ) :
    ∃ inputs d', run step d inputs = some d' ∧ n ≤ handled k d inputs ∧ Connected d' k fd ∧
      d'.world.received = d.world.received := by
  induction n generalizing d with
  | zero => exact ⟨[], d, rfl, Nat.zero_le _, connected, rfl⟩
  | succ n ih =>
      obtain ⟨e, e', next, ⟨before, toEvent⟩, handles, stepped, ⟨after, toEnd⟩, connected, same⟩ :=
        connected.pass
      obtain ⟨inputs, d', reaches, count, connected, received⟩ := ih connected
      have event : run step e [.round closedAnswers] = some e' := by simp [run, stepped]
      refine ⟨before ++ ([.round closedAnswers] ++ (after ++ inputs)), d', ?_, ?_, connected,
        received.trans same⟩
      · rw [run_append_of_eq toEvent, run_append_of_eq event, run_append_of_eq toEnd, reaches]
      · have one : handled k e [.round closedAnswers] = 1 := by simp [handled, handles, stepped]
        rw [handled_append toEvent, handled_append event, handled_append toEnd, one]
        omega

end Enuwatch.Daemon

import Enuwatch.Daemon.Atomic

/-!
# The decoder stays within its buffers

Every length the decoder works with comes from bytes a client has sent. In every state
between two rounds the counters of every connection are those its state asks for
(`ConnectionState.InBounds`): `progress` is at most `goal`, and `goal` is the size of the
buffer the next read goes to. A wake-up calls `read_partial` up to three times
(`Asks`), and no call is asked for bytes beyond the end of its buffer (`decoder_bounds`).
-/

set_option autoImplicit false

namespace Enuwatch.Daemon

open Enuwatch.Lib Enuwatch.Net

/-- The calls that open a transfer of `size` bytes on the temporary file `temp`. -/
def openingCalls (k : ℕ) (seq : UInt32) (temp : Bytes) (size : ℕ) : List Call :=
  { conn := k, seq, op := .mkstemp, temp, ok := true } ::
    { conn := k, seq, op := .ftruncate size, temp, ok := true } ::
      if 0 < size then [{ conn := k, seq, op := .mmap size, temp, ok := true }] else []

namespace ConnectionState

/-- The lengths given to `ftruncate` and `mmap` when the transfer was opened are `goal`. -/
def OpenedAt (st : ConnectionState) (calls : List Call) : Prop :=
  ∃ k, openingCalls k st.seq st.anonPath st.goal <:+: calls

/-- What the counters of a connection are, state by state. -/
structure InBounds (st : ConnectionState) (calls : List Call) : Prop where
  ordered : st.progress ≤ st.goal
  headerP1 : st.kind = .headerP1 → st.goal = st.buf.length ∧ st.buf.length = DataMessage.size
  headerP2 : st.kind = .headerP2 → st.goal = st.buf.length ∧
    st.buf.length = DataMessage.size + st.msg.pathLen.toNat
  receiving : st.kind = .receiving → st.goal = st.msg.fsize.toNat ∧ st.OpenedAt calls

/-- The size of the buffer the next read goes to. An empty file has no mapping. -/
def room (st : ConnectionState) (fs : Fs) : ℕ :=
  match targetOf st.kind, st.anonBuf with
  | .buf, _ => st.buf.length
  | .map, some ino => (fs.data ino).length
  | .map, none => 0

end ConnectionState

/-- The calls of `advance` in a wake-up of connection `k` from `st`: one for each of the
states that the wake-up finds itself in. -/
inductive Asks (k : ℕ) (ans : Answers) (st : ConnectionState) (w : World) :
    ConnectionState → World → Prop
  | headerP1 (kind : (arm st).kind = .headerP1) : Asks k ans st w (arm st) w
  | headerP2 {st₁ : ConnectionState} {w₁ : World} (first : headerP1 k (arm st) w = .ok st₁ w₁)
      (kind : st₁.kind = .headerP2) : Asks k ans st w st₁ w₁
  | receiving {st₁ st₂ : ConnectionState} {w₁ w₂ : World}
      (first : Daemon.headerP1 k (arm st) w = .ok st₁ w₁)
      (second : Daemon.headerP2 k ans st₁ w₁ = .ok st₂ w₂)
      (kind : st₂.kind = .receiving) : Asks k ans st w st₂ w₂

/-! ## The calls of an open transfer -/

section Calls

variable {k : ℕ} {s s' : ConnectionState × World}

theorem ConnectionState.OpenedAt.mono {st : ConnectionState} {calls calls' : List Call}
    (opened : st.OpenedAt calls) (more : calls <+: calls') : st.OpenedAt calls' := by
  obtain ⟨k, before⟩ := opened
  exact ⟨k, before.trans more.isInfix⟩

/-- A transfer under way was opened by calls with its own goal. -/
def Opened (s : ConnectionState × World) : Prop :=
  s.1.kind = .receiving → s.1.OpenedAt s.2.calls

theorem Move.opened_at (move : Move k s s') (opened : Opened s) : Opened s' := by
  have more := move.calls_isPrefix
  cases move with
  | arm => rintro ⟨⟩
  | @read st w block unused kind fits later =>
      intro receiving
      have before : st.kind = .receiving := by
        simpa [ConnectionState.stored] using receiving
      obtain ⟨k, calls⟩ := opened before
      exact ⟨k, by simpa [ConnectionState.stored, before, targetOf, Target.storeState] using calls⟩
  | header => rintro ⟨⟩
  | @opened st w temp =>
      refine fun _ => ⟨k, w.calls, [], ?_⟩
      simp [openingCalls, ConnectionState.opened, ConnectionState.parsed]
  | made => rintro ⟨⟩
  | published => rintro ⟨⟩

theorem Chain.opened_at (chain : Chain k s s') (opened : Opened s) : Opened s' := by
  induction chain with
  | refl => exact opened
  | tail _ move ih => exact move.opened_at ih

end Calls

/-! ## States that represent a phase are in bounds -/

section Represents

variable {fs : Fs} {st : ConnectionState} {p : Phase}

theorem Represents.inBounds (state : Represents fs st p) {calls : List Call}
    (opened : st.kind = .receiving → st.OpenedAt calls) : st.InBounds calls := by
  refine ⟨state.sane.ordered, fun kind => ?_, fun kind => ?_, fun kind => ⟨?_, opened kind⟩⟩
  · cases state with
    | header _ fits _ goal buf =>
        have length : st.buf.length = DataMessage.size := by
          simp only [buf, List.length_append, length_zeros]
          omega
        exact ⟨goal.trans length.symm, length⟩
    | _ other => simp [kind] at other
  · cases state with
    | @path hdr got _ whole fits _ goal buf =>
        have msg : st.msg = DataMessage.decode hdr := by
          rw [ConnectionState.msg, buf, List.append_assoc, DataMessage.decode_append whole]
        have length : st.buf.length = DataMessage.size + pathLen hdr := by
          simp only [buf, List.length_append, length_zeros, whole]
          omega
        exact ⟨goal.trans length.symm, by rw [length, msg]⟩
    | _ other => simp [kind] at other
  · cases state with
    | payload _ whole _ _ _ _ goal buf =>
        rw [goal, ConnectionState.msg, buf, DataMessage.decode_append whole]
    | _ other => simp [kind] at other

/-- What is missing fits into what is left of the buffer. -/
theorem Represents.fits (state : Represents fs st p) (kind : st.kind ≠ .connected) :
    sizeSub st.goal st.progress = st.goal - st.progress ∧
      st.progress + (st.goal - st.progress) ≤ st.room fs := by
  have sane := state.sane
  have ordered := sane.ordered
  refine ⟨sizeSub_of_le sane.ordered sane.bound, ?_⟩
  cases state with
  | connected here => exact absurd here kind
  | header here within _ goal buf =>
      simp only [ConnectionState.room, here, targetOf, buf, List.length_append, length_zeros]
      omega
  | path here whole within _ goal buf =>
      simp only [ConnectionState.room, here, targetOf, buf, List.length_append, length_zeros]
      omega
  | payload here _ _ _ within progress goal _ _ _ mapped =>
      by_cases positive : 0 < st.goal
      · obtain ⟨ino, buffer, -, data⟩ := mapped (goal ▸ positive)
        simp only [ConnectionState.room, here, targetOf, buffer, data, List.length_append,
          length_zeros]
        omega
      · omega

end Represents

/-! ## Every wake-up of every run -/

/-- The calls of `advance` happen along the chain of moves of the wake-up. -/
theorem Asks.chain {k : ℕ} {ans : Answers} {st st' : ConnectionState} {w w' : World}
    (sane : st.Sane) (rest : st.AtRest) (asks : Asks k ans st w st' w') :
    Chain k (st, w) (st', w') ∧ st'.kind ≠ .connected := by
  obtain ⟨armed, sane, kind, rest'⟩ := chain_arm (k := k) (w := w) .refl sane
  have first := headerP1_moves armed sane (rest' rest) kind
  cases asks with
  | headerP1 => exact ⟨armed, kind⟩
  | headerP2 ran here =>
      rw [wp, ran] at first
      exact ⟨first.1, by simp [here]⟩
  | receiving ran next here =>
      rw [wp, ran] at first
      obtain ⟨chain, sane, kind, rest⟩ := first
      have second : wp (Daemon.headerP2 k ans _) _ _ _ := headerP2_moves chain sane rest kind
      rw [wp, next] at second
      exact ⟨second.1, by simp [here]⟩

/-- Every transfer under way was opened by calls with its own goal. -/
def AllOpened (d : Server) : Prop :=
  ∀ x st, d.states.lookup x = some st → Opened (st, d.world)

theorem AllOpened.insert {d d' : Server} (opened : AllOpened d) {x : ℕ} {st : ConnectionState}
    (states : d'.states = d.states.insert x st) (calls : d.world.calls <+: d'.world.calls)
    (own : Opened (st, d'.world)) : AllOpened d' := by
  intro y st' found receiving
  rw [states] at found
  obtain ⟨rfl, rfl⟩ | ⟨-, found⟩ := lookup_insert_cases found
  · exact own receiving
  · exact (opened y st' found receiving).mono calls

theorem AllOpened.stateOf {d : Server} (opened : AllOpened d) (x : ℕ) :
    Opened (d.stateOf x, d.world) := by
  unfold Server.stateOf
  cases found : d.states.lookup x with
  | none => rintro ⟨⟩
  | some st => exact opened x st found

theorem AllOpened.event {d d' : Server} {input : Input} (event : Event d input d')
    (opened : AllOpened d) : d'.status = .running → AllOpened d' := by
  cases event with
  | polled | interrupted | skipped => exact fun _ => opened
  | pollFailed | refused | overflowed | returned | dangling | failed => rintro ⟨⟩
  | @hungUp ans pfd here flagged =>
      intro _ x st found receiving
      obtain ⟨k, calls⟩ := opened x st (lookup_of_hangUp found) receiving
      exact ⟨k, by rwa [(hangUp_closes d pfd.fd).calls]⟩
  | admitted =>
      exact fun _ => opened.insert rfl List.prefix_rfl (opened.stateOf d.world.table.next)
  | @woken ans pfd k st w here other conn chain rest =>
      exact fun _ => opened.insert rfl (Chain.calls_isPrefix chain)
        (Chain.opened_at chain (opened.stateOf pfd.fd))

section Runs

variable {inherited : List Bool} {fs : Fs} {dmsg : DaemonInitMessage} {d : Server}

theorem reachable_opened (reachable : Reachable step (start inherited fs dmsg) d)
    (running : d.status = .running) : AllOpened d := by
  refine Server.invariant (I := fun d => d.status = .running → AllOpened d) reachable
    (fun _ x st found => ?_) ?_ running
  · simp [start] at found
  · exact fun d input d' running event opened => AllOpened.event event (opened running)

/-- The state of every connection represents some phase. -/
theorem reachable_represents (reachable : Reachable step (start inherited fs dmsg) d)
    (running : d.status = .running) {x : ℕ} {st : ConnectionState}
    (found : d.states.lookup x = some st) : ∃ p, Represents d.world.fs st p := by
  have invariant := reachable_invariant reachable
  have coherent := invariant.coherent (by simp [running]) (invariant.running running)
  by_cases listener : x ∈ d.socketFds
  · rw [coherent.parked x st found listener]
    exact ⟨_, .connected rfl rfl rfl rfl⟩
  · obtain ⟨k, conn⟩ := coherent.conn x st found listener
    obtain ⟨p, tracks⟩ := coherent.tracks x st k found conn
    exact ⟨p, tracks.state⟩

/-- **The decoder stays within its buffers.** In every state between two rounds of every run
the counters of every connection are in bounds, and in the wake-up of any connection no call
of `read_partial` is asked for a wrapped length or for bytes beyond the end of its buffer. -/
theorem decoder_bounds (reachable : Reachable step (start inherited fs dmsg) d)
    (running : d.status = .running) :
    (∀ x st, d.states.lookup x = some st → st.InBounds d.world.calls) ∧
      ∀ pfd ∈ d.fds, pfd.fd ∉ d.socketFds → ∀ k, d.world.table.get pfd.fd = some (.conn k) →
        ∀ ans st w, Asks k ans (d.stateOf pfd.fd) (d.answered ans) st w →
          st.InBounds w.calls ∧ sizeSub st.goal st.progress = st.goal - st.progress ∧
            st.progress + (st.goal - st.progress) ≤ st.room w.fs := by
  have opened := reachable_opened reachable running
  constructor
  · intro x st found
    obtain ⟨p, state⟩ := reachable_represents reachable running found
    exact state.inBounds (opened x st found)
  · intro pfd listed other k conn ans st w asks
    have invariant := reachable_invariant reachable
    have coherent := invariant.coherent (by simp [running]) (invariant.running running)
    obtain ⟨st₀, found⟩ := coherent.listed pfd.fd (List.mem_map_of_mem listed) other
    have own : d.stateOf pfd.fd = st₀ := by simp [Server.stateOf, found]
    obtain ⟨sane, rest⟩ := reachable_settled reachable pfd.fd st₀ found
    rw [own] at asks
    obtain ⟨chain, kind⟩ := asks.chain sane rest
    obtain ⟨p, tracks⟩ := Tracks.chain chain ((coherent.answered ans).tracks _ _ k found conn)
    exact ⟨tracks.state.inBounds (Chain.opened_at chain (opened pfd.fd st₀ found)),
      tracks.state.fits kind⟩

end Runs

/-- The sample transfer with the first of its two bytes received. -/
def midwayInputs : List Input :=
  sampleInputs.take 5 ++ [.round { reads := [.data sampleHeader, .data [97], .data [1], .zero] }]

theorem decoder_bounds_sample :
    ∃ d st, run step sampleStart midwayInputs = some d ∧ d.states.lookup 4 = some st ∧
      st.kind = .receiving ∧ st.progress = 1 ∧ st.goal = 2 ∧ st.InBounds d.world.calls := by
  have facts : ∀ d ∈ run step sampleStart midwayInputs, d.status = .running ∧
      (d.states.lookup 4).map (fun st => (st.kind, st.progress, st.goal)) =
        some (.receiving, 1, 2) := by decide +kernel
  obtain ⟨d, reaches⟩ : ∃ d, run step sampleStart midwayInputs = some d :=
    Option.isSome_iff_exists.1 (by decide +kernel)
  obtain ⟨running, counters⟩ := facts d reaches
  obtain ⟨st, found, values⟩ := Option.map_eq_some_iff.1 counters
  have reachable : Reachable step (start [true, true, true] sampleFs ⟨50000, 1⟩) d :=
    ⟨midwayInputs, reaches⟩
  simp only [Prod.mk.injEq] at values
  exact ⟨d, st, reaches, found, values.1, values.2.1, values.2.2,
    (decoder_bounds reachable running).1 4 st found⟩

end Enuwatch.Daemon

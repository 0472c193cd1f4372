import Enuwatch.Daemon.Atomic
import Enuwatch.Sync.Completion

/-!
# Client and daemon together

The client spawns the daemon and holds the write end of its standard input. The daemon
first waits there for its init message, and then serves. `System` runs both: a step is one
of the client, a read of the daemon from its standard input, or a step of the daemon's
loop. What arrives on the sockets of a serving daemon is left open.

A run in which `sync_with_remote` returns true exists for every tree, and in no such run
has the daemon made a single directory (`delivery_never`).
-/

set_option autoImplicit false

namespace Enuwatch

open Enuwatch.Lib

/-- How far the daemon has come. -/
inductive Phase where
  /-- In `read_exact` on its standard input, with the bytes it has got. -/
  | waiting (read : Bytes)
  | serving (server : Daemon.Server)

/-- The calls that the daemon has made. -/
def Phase.calls : Phase → List Daemon.Call
  | .waiting _ => []
  | .serving server => server.world.calls

structure System (N : Type) where
  client : Sync.Client N
  phase : Phase := .waiting []
  /-- The daemon is there. -/
  alive : Bool := true

namespace System

inductive Input where
  | client (input : Sync.Input)
  /-- The daemon reads from its standard input. -/
  | hear (bytes : Bytes)
  | serve (input : Daemon.Input)
  /-- The daemon goes by itself, or the way to it is cut. -/
  | lose
deriving Repr

/-- The client sends `SIGTERM`. -/
def Input.kills : Sync.Input → Bool
  | .terminate kill _ => kill
  | .task _ _ => false

variable {N : Type} [DecidableEq N]

/-- The daemon gets `bytes` of what the client has written to its standard input. -/
def hear (inherited : List Bool) (fs : Fs) (s : System N) (read bytes : Bytes) :
    Option (System N) :=
  let got := read ++ bytes
  if bytes ≠ [] ∧ got.length ≤ DaemonInitMessage.size ∧ got <+: s.client.piped s.client.calls then
    some { s with
      phase :=
        if got.length = DaemonInitMessage.size then
          .serving (Daemon.start inherited fs (DaemonInitMessage.decode got))
        else .waiting got }
  else none

/-- One step of client and daemon; the daemon has the descriptors `inherited` and starts in
the file system `fs`. -/
def step (T : Tree N) (inherited : List Bool) (fs : Fs) (s : System N) : Input → Option (System N)
  | .client input =>
      (Sync.step T s.client input).map fun client =>
        { s with client := client, alive := s.alive && !Input.kills input }
  | .hear bytes =>
      match s.alive, s.phase with
      | true, .waiting read => s.hear inherited fs read bytes
      | _, _ => none
  | .serve input =>
      match s.alive, s.phase with
      | true, .serving server =>
          (Daemon.step server input).map fun server => { s with phase := .serving server }
      | _, _ => none
  | .lose => some { s with alive := false }

/-- `sync_with_remote` at its first call of `recurse`. -/
def start (T : Tree N) (table : Slots PipeEnd) (pid : ℤ) (basePort : UInt16) : System N where
  client := Sync.start T table pid basePort

/-- The daemon has done what the message of a call asks for. -/
def Applied (calls : List Daemon.Call) (e : Sync.Send N) : Prop :=
  ∃ path, e.call.relPath = some path ∧ ∃ call ∈ calls, call.ok = true ∧
    if e.call.info.ftype = .regular then ∃ contents, call.op = .rename path contents
    else ∃ mode, call.op = .mkdir path mode

/-- Every node was sent, and the daemon has made its directory or published its file. -/
def Delivered (s : System N) : Prop :=
  ∀ n, ∃ e ∈ s.client.sends, e.node = n ∧ Applied s.phase.calls e

variable {T : Tree N} {inherited : List Bool} {fs : Fs} {table : Slots PipeEnd} {pid : ℤ}
  {basePort : UInt16} {s : System N}

/-- A step moves the client, or leaves it alone; the daemon moves on only when it has heard
something or serves already. -/
theorem step_cases {s' : System N} {input : Input}
    (stepped : step T inherited fs s input = some s') :
    (∃ own, Sync.step T s.client own = some s'.client ∧ s'.phase = s.phase) ∨
      s'.client = s.client ∧ (s'.phase = s.phase ∨ (∃ server, s.phase = .serving server) ∨
        ∃ read bytes, s.phase = .waiting read ∧ bytes ≠ [] ∧
          read ++ bytes <+: s.client.piped s.client.calls) := by
  cases input with
  | client own =>
      obtain ⟨client, moved, rfl⟩ := Option.map_eq_some_iff.1 stepped
      exact .inl ⟨own, moved, rfl⟩
  | hear bytes =>
      simp only [step] at stepped
      split at stepped
      case h_1 read alive phase =>
        simp only [hear] at stepped
        split at stepped
        case isTrue heard =>
          cases stepped
          exact .inr ⟨rfl, .inr (.inr ⟨read, bytes, phase, heard.1, heard.2.2⟩)⟩
        case isFalse => cases stepped
      case h_2 => cases stepped
  | serve input =>
      simp only [step] at stepped
      split at stepped
      case h_1 server alive phase =>
        obtain ⟨server', -, rfl⟩ := Option.map_eq_some_iff.1 stepped
        exact .inr ⟨rfl, .inr (.inl ⟨server, phase⟩)⟩
      case h_2 => cases stepped
  | lose =>
      cases stepped
      exact .inr ⟨rfl, .inl rfl⟩

/-- What the client does in the system it can do alone. -/
theorem client_reachable (reachable : Reachable (step T inherited fs) (start T table pid basePort) s) :
    Reachable (Sync.step T) (Sync.start T table pid basePort) s.client := by
  refine reachable.invariant (P := fun s => Reachable (Sync.step T)
    (Sync.start T table pid basePort) s.client) (.refl _) fun s input s' before stepped => ?_
  obtain ⟨own, moved, -⟩ | ⟨same, -⟩ := step_cases stepped
  · exact before.tail moved
  · rwa [same]

omit [DecidableEq N] in
/-- Nothing that the client writes goes to the daemon. -/
theorem piped_eq_nil {client : Sync.Client N} (unwired : Sync.Unwired client) :
    client.piped client.calls = [] := by
  have none : client.calls.filter (fun e => e.sock = (client.daemon.inWr : ℤ)) = [] := by
    refine List.filter_eq_nil_iff.2 fun e called => ?_
    have pipe := unwired.pipe
    simp only [unwired.calls e called, decide_eq_true_eq]
    omega
  simp [Sync.Client.piped, none]

/-- The daemon waits for its first byte for ever. -/
theorem phase_eq_waiting
    (reachable : Reachable (step T inherited fs) (start T table pid basePort) s) :
    s.phase = .waiting [] := by
  refine (reachable.invariant (P := fun s => Reachable (step T inherited fs)
    (start T table pid basePort) s ∧ s.phase = .waiting []) ⟨.refl _, rfl⟩ ?_).2
  rintro s input s' ⟨before, waiting⟩ stepped
  refine ⟨before.tail stepped, ?_⟩
  obtain ⟨own, -, same⟩ | ⟨-, same | ⟨server, phase⟩ | ⟨read, bytes, -, some_bytes, heard⟩⟩ :=
    step_cases stepped
  · rw [same, waiting]
  · rw [same, waiting]
  · rw [waiting] at phase
    cases phase
  · rw [piped_eq_nil (Sync.reachable_unwired (client_reachable before)), List.prefix_nil] at heard
    exact absurd (List.append_eq_nil_iff.1 heard).2 some_bytes

/-- A run of the client alone is one of the system, in which the daemon does nothing. -/
theorem reachable_of_client {client : Sync.Client N}
    (reachable : Reachable (Sync.step T) (Sync.start T table pid basePort) client) :
    ∃ s, Reachable (step T inherited fs) (start T table pid basePort) s ∧ s.client = client := by
  refine reachable.invariant (P := fun client => ∃ s : System N,
    Reachable (step T inherited fs) (start T table pid basePort) s ∧ s.client = client)
    ⟨_, .refl _, rfl⟩ ?_
  rintro _ input client' ⟨s, before, rfl⟩ stepped
  exact ⟨_, before.tail (i := .client input) (by simp [step, stepped]; rfl), rfl⟩

/-- **When `sync_with_remote` returns true the daemon has done nothing yet, and for every
tree it can return true.** -/
theorem delivery_never [Finite N] (T : Tree N) (inherited : List Bool) (fs : Fs)
    (table : Slots PipeEnd) (pid : ℤ) (basePort : UInt16) (spawned : 0 < pid) :
    (∃ s, Reachable (step T inherited fs) (start T table pid basePort) s ∧
      s.client.status = .returned true) ∧
    ∀ s, Reachable (step T inherited fs) (start T table pid basePort) s →
      s.client.status = .returned true → ¬ Delivered s := by
  constructor
  · obtain ⟨client, smooth, t, first, ended⟩ := Sync.exists_finished T table pid basePort
    have alive : client.daemon.pid ≠ -1 := by
      rw [smooth.daemon]
      show pid ≠ -1
      omega
    have returns : Sync.step T client (.terminate true (some (.signaled sigterm))) =
        some { client with
          daemon := { client.daemon with pid := -1 }
          status := .returned true } := by
      simp [Sync.step, smooth.running, first, ended, Process.terminate, alive, Process.wait,
        WaitStatus.code, smooth.ok]
    obtain ⟨s, reachable, same⟩ := reachable_of_client (smooth.reachable.tail returns)
    exact ⟨s, reachable, by rw [same]⟩
  · intro s reachable _ delivered
    obtain ⟨e, -, -, path, -, call, called, -⟩ := delivered T.root
    rw [phase_eq_waiting reachable] at called
    cases called

theorem delivery_never_sample : ∃ s : System (Fin 3),
    Reachable (step Sync.sampleTree [true, true, true] Daemon.sampleFs)
      (start Sync.sampleTree ⟨[]⟩ 7 50000) s ∧
      s.client.status = .returned true ∧ ¬ Delivered s := by
  obtain ⟨⟨s, reachable, returned⟩, never⟩ :=
    delivery_never Sync.sampleTree [true, true, true] Daemon.sampleFs ⟨[]⟩ 7 50000 (by decide)
  exact ⟨s, reachable, returned, never s reachable returned⟩

/-- The run of the sample tree, and the signal to the daemon after it. -/
def sampleRun : List Input :=
  (Sync.sampleInputs ++ [Sync.Input.terminate true (some (.signaled sigterm))]).map .client

/-- The client returns true, and the daemon has not read a byte. -/
theorem delivery_counterexample :
    ∃ s, run (step Sync.sampleTree [true, true, true] Daemon.sampleFs)
        (start Sync.sampleTree ⟨[some .other, some .other, some .other]⟩ 7 50000) sampleRun = some s ∧
      s.client.status = .returned true ∧ s.phase.calls = [] ∧ ¬ Delivered s := by
  have facts : ∀ s ∈ run (step Sync.sampleTree [true, true, true] Daemon.sampleFs)
      (start Sync.sampleTree ⟨[some .other, some .other, some .other]⟩ 7 50000) sampleRun,
      s.client.status = .returned true ∧ s.phase.calls = [] := by
    decide +kernel
  obtain ⟨s, reaches⟩ : ∃ s, run (step Sync.sampleTree [true, true, true] Daemon.sampleFs)
      (start Sync.sampleTree ⟨[some .other, some .other, some .other]⟩ 7 50000) sampleRun = some s :=
    Option.isSome_iff_exists.1 (by decide +kernel)
  obtain ⟨returned, calls⟩ := facts s reaches
  refine ⟨s, reaches, returned, calls, fun delivered => ?_⟩
  obtain ⟨e, -, -, path, -, call, called, -⟩ := delivered Sync.sampleTree.root
  simp [calls] at called

end System

end Enuwatch

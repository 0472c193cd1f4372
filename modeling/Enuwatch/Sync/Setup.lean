import Enuwatch.Sync.Traversal

/-!
# Setting up the connections

Before it sends anything, `sync_with_remote` should tell the daemon how many connections
to expect, and every thread should connect to a port of its own. It does neither: the
announcement is never written, and the descriptor of a thread starts as zero while the
code looks for `-1`, so that all threads send to their own standard input. The protocol
is broken by the first message of every run (`setup_never`).
-/

set_option autoImplicit false

namespace Enuwatch.Sync

open Enuwatch.Lib

variable {N : Type}

namespace Client

variable (s : Client N)

/-- What the given calls have written to the standard input of the daemon. -/
def piped (calls : List (Send N)) : Bytes :=
  (calls.filter fun e => e.sock = (s.daemon.inWr : ℤ)).flatMap (·.result.written)

/-- The threads that have called `send_datamsg`. -/
def workers : List ℕ := (s.calls.map (·.thread)).dedup

end Client

/-- The protocol by which the client and the daemon set up their connections. -/
structure SetupOk (s : Client N) : Prop where
  /-- Before a call the daemon was told of enough connections. -/
  announced : ∀ before e after, s.calls = before ++ e :: after → ∃ m : DaemonInitMessage,
    m.encode <+: s.piped before ∧ s.workers.length ≤ m.nConns.toNat
  /-- A call uses a socket that its own thread has connected. -/
  connected : ∀ e ∈ s.calls, ∃ port, ⟨e.thread, port, e.sock⟩ ∈ s.links
  /-- A port that is connected to is one that the daemon binds. -/
  bound : ∀ l ∈ s.links, ∃ conn < s.dmsg.nConns.toNat, l.port = s.dmsg.basePort + .ofNat conn
  apart : ∀ l ∈ s.links, ∀ l' ∈ s.links, l.thread ≠ l'.thread → l.port ≠ l'.port

/-- What holds instead: no thread ever has a socket. -/
structure Unwired (s : Client N) : Prop where
  sock : ∀ thread, s.sockOf thread = 0
  undialled : ∀ t ∈ s.tasks, ∀ port, t.pc ≠ .before (.connect port)
  links : s.links = []
  calls : ∀ e ∈ s.calls, e.sock = 0
  logged : ∀ e ∈ s.sends, e ∈ s.calls
  pipe : 2 < s.daemon.inWr
  aborted : s.status = .aborted → s.calls ≠ []
  returned : ∀ ok, s.status = .returned ok → s.Finished

namespace Unwired

variable {s s' : Client N} (unwired : Unwired s)
include unwired

theorem of_fields (running : s'.status = .running) (tSock : s'.tSock = s.tSock)
    (links : s'.links = s.links) (calls : s'.calls = s.calls) (sends : s'.sends = s.sends)
    (daemon : s'.daemon = s.daemon)
    (undialled : ∀ t ∈ s'.tasks, ∀ port, t.pc ≠ .before (.connect port)) : Unwired s' where
  sock := by simpa only [Client.sockOf, tSock] using unwired.sock
  undialled := undialled
  links := links.trans unwired.links
  calls := calls ▸ unwired.calls
  logged := by
    rw [calls, sends]
    exact unwired.logged
  pipe := daemon ▸ unwired.pipe
  aborted := by simp [running]
  returned := by simp [running]

variable {i : ℕ} {t : Task N} {e : Send N}

theorem log (running : s.status = .running) (sock : e.sock = 0) : Unwired (s.log e) where
  sock := unwired.sock
  undialled := unwired.undialled
  links := unwired.links
  calls := List.forall_mem_append.2 ⟨unwired.calls, by simpa using sock⟩
  logged := List.forall_mem_append.2
    ⟨fun e old => List.mem_append_left _ (unwired.logged e old), by simp [Client.log]⟩
  pipe := unwired.pipe
  aborted := by simp [Client.log, running]
  returned := by simp [Client.log, running]

theorem goto (running : s.status = .running) {pc : Pc N} (other : ∀ port, pc ≠ .before (.connect port)) :
    Unwired (s.goto i t pc) :=
  unwired.of_fields running rfl rfl rfl rfl rfl (forall_mem_set unwired.undialled other i)

variable [DecidableEq N] {T : Tree N}

/-- No step gives a thread a socket. -/
theorem taskEvent (running : s.status = .running) (here : s.tasks[i]? = some t)
    (event : TaskEvent T s i t s') : Unwired s' := by
  cases event with
  | fetched pc usable =>
      have same : ∀ thread, ({ s with
          tSock := s.tSock.insert t.thread (s.sockOf t.thread) } : Client N).sockOf thread = 0 := by
        intro thread
        rw [Client.sockOf, unwired.sock t.thread]
        by_cases own : thread = t.thread
        · rw [own, AList.lookup_insert, Option.getD_some]
        · rw [AList.lookup_insert_ne own]
          exact unwired.sock thread
      have fetched : Unwired { s with tSock := s.tSock.insert t.thread (s.sockOf t.thread) } :=
        { unwired with sock := same }
      exact fetched.goto running (by simp)
  | dialled pc unset => simp [unwired.sock] at unset
  | cut pc => exact absurd pc (unwired.undialled t (List.mem_of_getElem? here) _)
  | sent pc own ran whole => exact (unwired.log running (unwired.sock _)).goto running (by simp)
  | unsent pc own ran short => exact (unwired.log running (unwired.sock _)).goto running (by simp)
  | died pc ran fatal =>
      exact { unwired with
        calls := List.forall_mem_append.2 ⟨unwired.calls, by simpa using unwired.sock _⟩
        logged := fun e old => List.mem_append_left _ (unwired.logged e old)
        aborted := by simp
        returned := by simp }
  | orphan | lost | stray => exact { unwired with aborted := by simp, returned := by simp }
  | spawned pc =>
      refine unwired.of_fields running rfl rfl rfl rfl rfl (List.forall_mem_append.2 ⟨?_, ?_⟩)
      · exact forall_mem_set unwired.undialled (by simp) i
      · simp [Task.fresh]
  | _ =>
      exact unwired.of_fields running rfl rfl rfl rfl rfl
        (forall_mem_set unwired.undialled (by simp) i)

end Unwired

variable [DecidableEq N] {T : Tree N} {s : Client N} {table : Slots PipeEnd} {pid : ℤ}
  {basePort : UInt16}

theorem reachable_unwired (reachable : Reachable (step T) (start T table pid basePort) s) :
    Unwired s := by
  refine invariant reachable ?_ fun s s' running unwired event => ?_
  · constructor
    case pipe => exact processSpawn_inWr table pid
    all_goals simp [start, Client.sockOf]
  · cases event with
    | task here top event => exact unwired.taskEvent running here event
    | terminated here ended kill waitpid =>
        exact { unwired with
          pipe := by simpa using unwired.pipe
          aborted := by simp
          returned := fun _ _ => ⟨_, here, ended⟩ }

/-- **The set-up protocol is broken from the first message on.** It holds of a state just
when nobody has called `send_datamsg`, and no run comes to an end before that. -/
theorem setup_never (reachable : Reachable (step T) (start T table pid basePort) s) :
    (SetupOk s ↔ s.calls = []) ∧ (s.status ≠ .running ∨ s.Finished → ¬ SetupOk s) := by
  have unwired := reachable_unwired reachable
  obtain ⟨sound, defined⟩ := reachable_sound reachable
  have only : SetupOk s ↔ s.calls = [] := by
    constructor
    · intro ok
      refine List.eq_nil_iff_forall_not_mem.2 fun e called => ?_
      obtain ⟨port, linked⟩ := ok.connected e called
      rw [unwired.links] at linked
      cases linked
    · intro silent
      constructor <;> simp [silent, unwired.links]
  refine ⟨only, fun ended ok => ?_⟩
  have silent := only.1 ok
  have finished : s.Finished := by
    rcases ended with ended | finished
    · cases status : s.status with
      | running => exact absurd status ended
      | aborted => exact absurd silent (unwired.aborted status)
      | undefined => exact absurd status defined
      | returned ok => exact unwired.returned ok status
    · exact finished
  -- The root task returns only after a call, its own or one that has failed.
  have unsent : s.sends = [] := List.eq_nil_iff_forall_not_mem.2 fun e logged => by
    simpa [silent] using unwired.logged e logged
  obtain ⟨t, first, exited⟩ := finished
  obtain ⟨e, logged, -⟩ := sound.log.ended (by simp [Client.AllSent, unsent]) t
    (List.mem_of_getElem? first) exited
  simp [unsent] at logged

theorem setup_never_sample :
    ∃ s, run (step sampleTree) sampleStart sampleInputs = some s ∧ s.calls.length = 3 ∧
      ¬ SetupOk s := by
  have facts : ∀ s ∈ run (step sampleTree) sampleStart sampleInputs, s.calls.length = 3 := by
    decide +kernel
  obtain ⟨s, reaches⟩ : ∃ s, run (step sampleTree) sampleStart sampleInputs = some s :=
    Option.isSome_iff_exists.1 (by decide +kernel)
  have reachable : Reachable (step sampleTree)
      (start sampleTree ⟨[some .other, some .other, some .other]⟩ 7 50000) s :=
    ⟨sampleInputs, reaches⟩
  refine ⟨s, reaches, facts s reaches, fun ok => ?_⟩
  have silent := (setup_never reachable).1.1 ok
  simpa [silent] using facts s reaches

/-- The first message of the sample goes to descriptor zero, which nobody has connected. -/
theorem setup_counterexample :
    ∃ s, run (step sampleTree) sampleStart (sampleInputs.take 6) = some s ∧
      s.calls.map (fun e => (e.thread, e.sock)) = [(0, 0)] ∧ s.links = [] ∧
        s.piped s.calls = [] ∧ ¬ SetupOk s := by
  have facts : ∀ s ∈ run (step sampleTree) sampleStart (sampleInputs.take 6),
      s.calls.map (fun e => (e.thread, e.sock)) = [(0, 0)] ∧ s.links = [] ∧
        s.piped s.calls = [] := by
    decide +kernel
  obtain ⟨s, reaches⟩ : ∃ s, run (step sampleTree) sampleStart (sampleInputs.take 6) = some s :=
    Option.isSome_iff_exists.1 (by decide +kernel)
  obtain ⟨calls, links, piped⟩ := facts s reaches
  refine ⟨s, reaches, calls, links, piped, fun ok => ?_⟩
  obtain ⟨e, called⟩ : ∃ e, e ∈ s.calls :=
    List.exists_mem_of_ne_nil _ fun none => by simp [none] at calls
  obtain ⟨port, linked⟩ := ok.connected e called
  simp [links] at linked

end Enuwatch.Sync

import Enuwatch.Sync.Setup
import Enuwatch.Sync.Threads

/-!
# What a thread writes

Whatever the writes of the client are answered with, every thread writes the messages of its
calls one after the other and each of them whole, and perhaps the beginning of the message of its
last call: a call that does not write its message in full fails, and after a failed call its thread
writes nothing (`framing_ok`). This holds at any moment, also of a call that is cut off when another
thread ends the process. When `sync_with_remote` returns true, every node was sent in full.

A thread that has failed is fenced in: the tasks below the one that failed wait for their
groups, and the tasks it starts later find `ok` cleared (`Fenced`).
-/

set_option autoImplicit false

namespace Enuwatch.Sync

open Enuwatch.Lib

variable {N : Type}

/-- The calls of one thread. -/
def Client.callsOf (s : Client N) (thread : ℕ) : List (Send N) :=
  s.calls.filter fun e => e.thread = thread

/-- Everything that the calls of a thread have written. -/
def Client.bytesOf (s : Client N) (thread : ℕ) : Bytes :=
  (s.calls.filter fun e => e.thread = thread).flatMap (·.result.written)

/-- The bytes of calls that are to write these messages: whole ones, and in the end perhaps a proper
part of the last. A call without a message comes last and writes nothing. -/
inductive Frames : List (Option Bytes) → Bytes → Prop
  | nil : Frames [] []
  | whole {message bytes : Bytes} {own : List (Option Bytes)} (rest : Frames own bytes) :
      Frames (some message :: own) (message ++ bytes)
  | part {message bytes : Bytes} (front : bytes <+: message) (short : bytes ≠ message) :
      Frames [some message] bytes
  | nothing : Frames [none] []

/-- The sequence number of the message that a task is sending. -/
def Task.sending (t : Task N) : Option UInt32 :=
  match t.pc with
  | .before (.send seq) => some seq
  | .before (.draw seq _) => some seq
  | _ => none

/-- The thread is inside a call of `send_datamsg` and has written `bytes` in it so far: they are
what the call begins with, whatever it comes to. -/
structure Client.UnderWay (T : Tree N) (s : Client N) (thread : ℕ) (call : SendCall)
    (bytes : Bytes) : Prop where
  inside : ∃ t ∈ s.tasks, t.thread = thread ∧ t.sending = some call.seq ∧
    call.info = T.info t.node
  begun : ∃ r, sendDatamsg call = some r ∧ bytes <+: r.written
  /-- It is not the call that has ended the process. -/
  going : ∀ e ∈ s.callsOf thread, e.result.outcome ≠ .fatal

/-- What the writes of a client are. -/
structure FramingOk (T : Tree N) (s : Client N) : Prop where
  /-- The message of a call is a header with the path and the contents it announces. -/
  wire : ∀ e ∈ s.calls, ∀ message, e.call.wire = some message → WireMessage message
  /-- A thread writes the messages of its calls, and of the last one perhaps a proper part. -/
  framed : ∀ thread, Frames ((s.callsOf thread).map (·.call.wire)) (s.bytesOf thread)
  /-- So it does with a call that is under way. -/
  underWay : ∀ thread call bytes, s.UnderWay T thread call bytes →
    Frames ((s.callsOf thread).map (·.call.wire) ++ [call.wire]) (s.bytesOf thread ++ bytes)
  /-- After a call that has not gone through, its thread calls no more. -/
  silent : ∀ before e after, s.calls = before ++ e :: after → ¬ e.Success →
    ∀ e' ∈ after, e'.thread ≠ e.thread
  /-- A call that returns true has written its message. -/
  whole : ∀ e ∈ s.calls, e.Success → e.call.wire = some e.result.written
  complete : s.status = .returned true → ∀ n, ∃ e ∈ s.calls, e.node = n ∧ e.Success ∧
    e.call.info = T.info n ∧ e.call.wire = some e.result.written

/-! ## A thread that has failed -/

/-- The thread of a failed call has tasks that wait, one that reports the failure, and, when
`ok` is cleared, one that is about to see it. -/
structure Fenced (s : Client N) (thread : ℕ) : Prop where
  idle : ∀ t ∈ s.tasks, t.thread = thread → t.Active →
    t.pc = .before .check ∨ t.pc = .wait ∨ t.pc = .before .report
  reports : s.ok = true → ∃ t ∈ s.tasks, t.thread = thread ∧ t.pc = .before .report

/-- A call is made from a thread whose calls went through, but for the one that ended the
process. -/
def Clear (s : Client N) : Prop :=
  ∀ t ∈ s.tasks, t.sending.isSome → ∀ e ∈ s.calls, e.thread = t.thread →
    e.Success ∨ e.result.outcome = .fatal

/-- What holds of the calls. -/
structure Framed (s : Client N) : Prop where
  ran : ∀ e ∈ s.calls, sendDatamsg e.call = some e.result
  fenced : s.status ≠ .aborted → ∀ e ∈ s.calls, ¬ e.Success → Fenced s e.thread
  silent : ∀ before e after, s.calls = before ++ e :: after → ¬ e.Success →
    ∀ e' ∈ after, e'.thread ≠ e.thread
  clear : Clear s
  ok : s.status = .returned true → s.ok = true

variable {s s' : Client N} {i : ℕ} {t t' : Task N} {added : List (Task N)} {thread : ℕ}

theorem Fenced.set (fenced : Fenced s thread) (here : s.tasks[i]? = some t)
    (tasks : s'.tasks = s.tasks.set i t' ++ added) (fresh : ∀ m ∈ added, m.pc = .before .queued)
    (idle : t'.thread = thread → t'.Active →
      t'.pc = .before .check ∨ t'.pc = .wait ∨ t'.pc = .before .report)
    (ok : s'.ok = true → s.ok = true ∧ (t.thread = thread → t.pc ≠ .before .report)) :
    Fenced s' thread := by
  constructor
  case idle =>
    rw [tasks]
    refine List.forall_mem_append.2 ⟨forall_mem_set fenced.idle idle i, fun m new _ active => ?_⟩
    exact absurd (fresh m new) active.1
  case reports =>
    intro still
    obtain ⟨was, other⟩ := ok still
    obtain ⟨m, member, own, pc⟩ := fenced.reports was
    obtain ⟨j, there⟩ := List.mem_iff_getElem?.1 member
    have apart : j ≠ i := by
      rintro rfl
      rw [here, Option.some.injEq] at there
      subst there
      exact other own pc
    exact ⟨m, List.mem_of_getElem? (getElem?_other tasks apart there), own, pc⟩

/-- A fenced thread sends nothing. -/
theorem Fenced.sending (fenced : Fenced s thread) (member : t ∈ s.tasks) (own : t.thread = thread) :
    t.sending = none := by
  by_cases active : t.Active
  · obtain pc | pc | pc := fenced.idle t member own active <;> simp [Task.sending, pc]
  · obtain pc | pc : t.pc = .before .queued ∨ t.pc = .exited := by
      by_contra neither
      exact active (not_or.1 neither)
    all_goals simp [Task.sending, pc]

/-- When the threads of failed calls are fenced, calls come from the others. -/
theorem clear_of_fenced (fenced : ∀ e ∈ s.calls, ¬ e.Success →
    e.result.outcome ≠ .fatal → Fenced s e.thread) : Clear s := by
  intro t member sending e called own
  by_contra failed
  obtain ⟨failed, alive⟩ := not_or.1 failed
  rw [(fenced e called failed alive).sending member own.symm] at sending
  cases sending

/-- On the thread of a task at work all others wait. -/
theorem Stacked.others_wait (stacked : Stacked s) (here : s.tasks[i]? = some t) (active : t.Active)
    (busy : t.pc ≠ .wait) {j : ℕ} {m : Task N} (there : s.tasks[j]? = some m) (active' : m.Active)
    (same : m.thread = t.thread) (apart : j ≠ i) : m.pc = .wait := by
  by_contra working
  have top := stacked.head here active busy
  have top' := stacked.head there active' working
  rw [same, top, Option.some.injEq] at top'
  exact apart top'.symm

variable [DecidableEq N] {T : Tree N}

/-- A fenced thread stays fenced. -/
theorem Fenced.taskEvent (fenced : Fenced s thread) (stacked : Stacked s)
    (here : s.tasks[i]? = some t) (event : TaskEvent T s i t s') : Fenced s' thread := by
  have member := List.mem_of_getElem? here
  -- A task that is past its check and not waiting runs on another thread.
  have apart : t.Active → t.pc ≠ .before .check → t.pc ≠ .wait → t.pc ≠ .before .report →
      t.thread ≠ thread := by
    intro active check wait report own
    obtain pc | pc | pc := fenced.idle t member own active
    · exact check pc
    · exact wait pc
    · exact report pc
  cases event with
  | started pc idle =>
      exact fenced.set here (List.append_nil _).symm (by simp) (fun _ _ => .inl rfl) fun ok =>
        ⟨ok, by simp [pc]⟩
  | checked pc ok =>
      have elsewhere : t.thread ≠ thread := by
        intro own
        obtain ⟨m, member', own', reports⟩ := fenced.reports ok
        obtain ⟨j, there⟩ := List.mem_iff_getElem?.1 member'
        have waits := stacked.others_wait here (by simp [Task.Active, pc]) (by simp [pc]) there
          (by simp [Task.Active, reports]) (own'.trans own.symm) (by
            rintro rfl
            rw [here, Option.some.injEq] at there
            rw [there, reports] at pc
            cases pc)
        simp [reports] at waits
      exact fenced.set here (List.append_nil _).symm (by simp) (fun own => absurd own elsewhere)
        fun ok => ⟨ok, by simp [pc]⟩
  | refused pc | waited pc =>
      exact fenced.set here (List.append_nil _).symm (by simp)
        (fun _ active => absurd rfl active.2) fun ok => ⟨ok, by simp [pc]⟩
  | reported pc =>
      exact fenced.set here (List.append_nil _).symm (by simp)
        (fun _ active => absurd rfl active.2) fun ok => by cases ok
  | cut | died | orphan | lost | stray => exact ⟨fenced.idle, fenced.reports⟩
  | spawned pc =>
      have elsewhere := apart (by simp [Task.Active, pc]) (by simp [pc]) (by simp [pc]) (by simp [pc])
      exact fenced.set here rfl (by simp [Task.fresh]) (fun own => absurd own elsewhere) fun ok =>
        ⟨ok, by simp [pc]⟩
  | fetched pc | dialled pc | loaded pc | reloaded pc | stored pc | sent pc | unsent pc | drawn pc
  | entered pc | skipped pc | left pc | displayed pc | leaf pc | opened pc | unlinked pc | found pc
  | lowered pc | emptied pc | topped pc | detached pc | erased pc | closed pc | emplaced pc
  | locked pc | unlocked pc =>
      have elsewhere := apart (by simp [Task.Active, pc]) (by simp [pc]) (by simp [pc]) (by simp [pc])
      exact fenced.set here (List.append_nil _).symm (by simp) (fun own => absurd own elsewhere)
        fun ok => ⟨ok, by simp [pc]⟩

namespace Framed

variable (framed : Framed s) (stacked : Stacked s) (running : s.status = .running)
  (here : s.tasks[i]? = some t)
include framed stacked running here

omit [DecidableEq N] stacked in
/-- A call comes from a thread that has not failed. -/
theorem silent_called {seq : UInt32} (pc : t.pc = .before (.send seq)) {e : Send N}
    (own : e.thread = t.thread) {before after : List (Send N)} {e₀ : Send N}
    (split : s.calls ++ [e] = before ++ e₀ :: after) (failed : ¬ e₀.Success) :
    ∀ e' ∈ after, e'.thread ≠ e₀.thread := by
  obtain ⟨-, -, rfl⟩ | ⟨rest, rfl, old⟩ := split_concat split
  · simp
  · refine List.forall_mem_append.2 ⟨framed.silent before e₀ rest old failed, ?_⟩
    intro e' last same
    obtain rfl := List.mem_singleton.1 last
    have fenced := framed.fenced (by simp [running]) e₀ (by simp [old]) failed
    have idle := fenced.idle t (List.mem_of_getElem? here) (own.symm.trans same)
      (by simp [Task.Active, pc])
    simp [pc] at idle

omit [DecidableEq N] stacked in
/-- A call that has returned joins the others; if it has failed, its thread is fenced. -/
theorem logged {seq : UInt32} (pc : t.pc = .before (.send seq)) {e : Send N}
    (own : e.thread = t.thread) (ran : sendDatamsg e.call = some e.result)
    (calls : s'.calls = s.calls ++ [e]) (status : s'.status = s.status)
    (fence : ∀ e ∈ s.calls, ¬ e.Success → Fenced s' e.thread)
    (last : ¬ e.Success → Fenced s' e.thread) : Framed s' := by
  have fence' : ∀ e ∈ s'.calls, ¬ e.Success → Fenced s' e.thread := by
    rw [calls]
    exact List.forall_mem_append.2 ⟨fence, by simpa using last⟩
  refine ⟨?_, fun _ => fence', fun before e' after split failed => ?_,
    clear_of_fenced fun e called failed _ => fence' e called failed, by simp [status, running]⟩
  · rw [calls]
    exact List.forall_mem_append.2 ⟨framed.ran, by simpa using ran⟩
  · exact framed.silent_called running here pc own (calls ▸ split) failed

theorem taskEvent (event : TaskEvent T s i t s') : Framed s' := by
  have fence : ∀ e ∈ s.calls, ¬ e.Success → Fenced s' e.thread := fun e called failed =>
    (framed.fenced (by simp [running]) e called failed).taskEvent stacked here event
  have unreturned : s.status ≠ .returned true := by simp [running]
  cases event with
  | sent pc own ran whole =>
      exact framed.logged running here pc rfl ran rfl rfl fence fun failed => absurd whole failed
  | unsent pc own ran short =>
      refine framed.logged running here pc rfl ran rfl rfl fence fun _ => ?_
      have inside : i < s.tasks.length := (List.getElem?_eq_some_iff.1 here).1
      refine ⟨forall_mem_set_of_ne (fun j m apart there own active => .inr (.inl ?_))
        (fun _ _ => .inr (.inr rfl)), fun _ => ⟨_, List.mem_set inside _, rfl, rfl⟩⟩
      exact stacked.others_wait here (by simp [Task.Active, pc]) (by simp [pc]) there active own apart
  | died pc ran fatal =>
      refine ⟨List.forall_mem_append.2 ⟨framed.ran, by simpa using ran⟩,
        fun going => absurd rfl going,
        fun before e after split failed => framed.silent_called running here pc rfl split failed,
        clear_of_fenced (List.forall_mem_append.2 ⟨fun e called failed _ => fence e called failed,
          fun e new _ alive => ?_⟩), by simp⟩
      obtain rfl := List.mem_singleton.1 new
      exact absurd fatal alive
  | cut | orphan | lost | stray =>
      exact ⟨framed.ran, fun _ => fence, framed.silent,
        clear_of_fenced fun e called failed _ => fence e called failed, by simp⟩
  | _ =>
      exact ⟨framed.ran, fun _ => fence, framed.silent,
        clear_of_fenced fun e called failed _ => fence e called failed,
        fun returned => absurd returned unreturned⟩

end Framed

variable {table : Slots PipeEnd} {pid : ℤ} {basePort : UInt16}

theorem reachable_framed (reachable : Reachable (step T) (start T table pid basePort) s) :
    Framed s := by
  obtain ⟨-, framed⟩ : Stacked s ∧ Framed s := by
    refine invariant (P := fun s => Stacked s ∧ Framed s) reachable
      ⟨start_stacked, by simp [start], by simp [start], by simp [start], by simp [start, Clear],
        by simp [start]⟩ ?_
    rintro s s' running ⟨stacked, framed⟩ event
    cases event with
    | task here top event =>
        exact ⟨stacked.shape here top event.shape, framed.taskEvent stacked running here event⟩
    | terminated here ended kill waitpid =>
        refine ⟨⟨stacked.owned, stacked.placed, stacked.nodup, stacked.below⟩, framed.ran,
          fun _ e called failed => ?_, framed.silent, framed.clear, by simp⟩
        obtain ⟨idle, reports⟩ := framed.fenced (by simp [running]) e called failed
        exact ⟨idle, reports⟩
  exact framed

/-! ## The bytes of a thread -/

/-- Only the last call may have failed. -/
def Unbroken (calls : List (Send N)) : Prop :=
  ∀ before e after, calls = before ++ e :: after → ¬ e.Success → after = []

section Bytes

omit [DecidableEq N]

variable {calls : List (Send N)}

theorem Unbroken.tail {e : Send N} (unbroken : Unbroken (e :: calls)) : Unbroken calls :=
  fun before e' after split => unbroken (e :: before) e' after (by rw [split]; rfl)

theorem Framed.unbroken (framed : Framed s) (thread : ℕ) : Unbroken (s.callsOf thread) := by
  intro before e after split failed
  obtain ⟨front, back, whole, own, rest⟩ := List.filter_eq_append_iff.1 split
  obtain ⟨skipped, later, cut, none_, here, others⟩ := List.filter_eq_cons_iff.1 rest
  refine others ▸ List.filter_eq_nil_iff.2 fun e' member => ?_
  have split' : s.calls = front ++ skipped ++ e :: later := by rw [whole, cut, List.append_assoc]
  have silent := framed.silent (front ++ skipped) e later split' failed e' member
  simp only [decide_eq_true_eq] at here ⊢
  rwa [← here]

/-- A call that returns true has written its own message. -/
theorem wire_of_success {e : Send N} (ran : sendDatamsg e.call = some e.result)
    (success : e.Success) : e.call.wire = some e.result.written := by
  rcases sendDatamsg_wire ran with ⟨message, own, -, whole⟩ | ⟨-, -, failed⟩
  · rw [own, whole success]
  · exact absurd success failed

/-- What a call has written at any moment is its message or a proper part of it. -/
theorem frames_begun {call : SendCall} {r : SendRun} {bytes : Bytes}
    (ran : sendDatamsg call = some r) (begun : bytes <+: r.written) : Frames [call.wire] bytes := by
  rcases sendDatamsg_wire ran with ⟨message, own, front, -⟩ | ⟨none_, nothing, -⟩
  · rw [own]
    by_cases whole : bytes = message
    · subst whole
      have one : Frames [some bytes] (bytes ++ []) := .whole .nil
      rwa [List.append_nil] at one
    · exact .part (begun.trans front) whole
  · rw [nothing, List.prefix_nil] at begun
    rw [none_, begun]
    exact .nothing

/-- Calls that went through are followed by whatever comes next. -/
theorem frames_append (ran : ∀ e ∈ calls, sendDatamsg e.call = some e.result)
    (success : ∀ e ∈ calls, e.Success) {own : List (Option Bytes)} {bytes : Bytes}
    (rest : Frames own bytes) :
    Frames (calls.map (·.call.wire) ++ own) (calls.flatMap (·.result.written) ++ bytes) := by
  induction calls with
  | nil => exact rest
  | cons e calls ih =>
      rw [List.map_cons, List.flatMap_cons, List.append_assoc,
        wire_of_success (ran e List.mem_cons_self) (success e List.mem_cons_self)]
      exact .whole (ih (fun e' later => ran e' (List.mem_cons_of_mem _ later))
        fun e' later => success e' (List.mem_cons_of_mem _ later))

/-- Calls of which only the last may have failed. -/
theorem Unbroken.frames (unbroken : Unbroken calls)
    (ran : ∀ e ∈ calls, sendDatamsg e.call = some e.result) :
    Frames (calls.map (·.call.wire)) (calls.flatMap (·.result.written)) := by
  induction calls with
  | nil => exact .nil
  | cons e calls ih =>
      by_cases success : e.Success
      · have rest := ih unbroken.tail fun e' later => ran e' (List.mem_cons_of_mem _ later)
        rw [List.map_cons, List.flatMap_cons, wire_of_success (ran e List.mem_cons_self) success]
        exact .whole rest
      · obtain rfl := unbroken [] e calls rfl success
        simpa using frames_begun (ran e List.mem_cons_self) List.prefix_rfl

end Bytes

/-! ## Runs that return true -/

/-- What a client that was not cut off has logged. -/
structure Logged (T : Tree N) (s : Client N) : Prop where
  info : ∀ e ∈ s.sends, e.call.info = T.info e.node
  calls : s.status ≠ .aborted → s.calls = s.sends

theorem reachable_logged (reachable : Reachable (step T) (start T table pid basePort) s) :
    Logged T s := by
  refine invariant reachable ⟨by simp [start], fun _ => rfl⟩ fun s s' running logged event => ?_
  have same := logged.calls (by simp [running])
  cases event with
  | terminated => exact ⟨logged.info, fun _ => same⟩
  | task here top event =>
      cases event with
      | sent pc own | unsent pc own =>
          refine ⟨List.forall_mem_append.2 ⟨logged.info, ?_⟩, fun _ => congrArg (· ++ _) same⟩
          simpa using own.2.1
      | died | cut => exact ⟨logged.info, fun going => absurd rfl going⟩
      | _ => exact ⟨logged.info, fun _ => same⟩

/-- A run that returns true has sent every node, and every call went through. -/
theorem sent_of_returned (reachable : Reachable (step T) (start T table pid basePort) s)
    (returned : s.status = .returned true) : s.AllSent ∧ ∀ n, s.SentOk n := by
  have framed := reachable_framed reachable
  have unwired := reachable_unwired reachable
  obtain ⟨sound, -⟩ := reachable_sound reachable
  have finished := unwired.returned true returned
  have all : s.AllSent := by
    intro e logged
    by_contra failed
    have fenced := framed.fenced (by simp [returned]) e (unwired.logged e logged) failed
    obtain ⟨t, member, -, pc⟩ := fenced.reports (framed.ok returned)
    rw [sound.all_over finished t member] at pc
    cases pc
  exact ⟨all, fun n =>
    (sound.sent_of_tasked all finished (sound.all_tasked all finished n)).1⟩

/-- **Every thread writes the messages of its calls, each of them whole but perhaps the last, and a
run that returns true has sent every node in full.** -/
theorem framing_ok (reachable : Reachable (step T) (start T table pid basePort) s) :
    FramingOk T s := by
  have framed := reachable_framed reachable
  have ran (thread : ℕ) : ∀ e ∈ s.callsOf thread, sendDatamsg e.call = some e.result :=
    fun e called => framed.ran e (List.mem_of_mem_filter called)
  constructor
  case wire => exact fun _ _ message own => SendCall.wireMessage own
  case framed => exact fun thread => (framed.unbroken thread).frames (ran thread)
  case underWay =>
    rintro thread call bytes ⟨⟨t, member, rfl, sending, -⟩, ⟨r, runs, begun⟩, going⟩
    refine frames_append (ran t.thread) (fun e called => ?_) (frames_begun runs begun)
    obtain ⟨called', own⟩ := List.mem_filter.1 called
    exact (framed.clear t member (by simp [sending]) e called' (by simpa using own)).resolve_right
      (going e called)
  case silent => exact framed.silent
  case whole => exact fun e called success => wire_of_success (framed.ran e called) success
  case complete =>
    intro returned n
    obtain ⟨e, logged, rfl, success⟩ := (sent_of_returned reachable returned).2 n
    have books := reachable_logged reachable
    have called : e ∈ s.calls := books.calls (by simp [returned]) ▸ logged
    exact ⟨e, called, rfl, success, books.info e logged,
      wire_of_success (framed.ran e called) success⟩

/-- The first child of the sample cannot send its header; the other one sees `ok` cleared. -/
def failingInputs : List Input :=
  sampleInputs.take 19 ++ [sampleCut 1 1] ++ goOn 1 1 ++ goOn 2 1 ++ goOn 0 1

/-- The call of the first child is under way with four bytes of its header; when it has failed, its
thread has written ten of them. -/
theorem framing_ok_sample :
    (∃ s, run (step sampleTree) sampleStart (sampleInputs.take 19) = some s ∧
      s.UnderWay sampleTree 1 (sampleCall 1 1) ((sampleCall 1 1).wire.getD [] |>.take 4) ∧
      FramingOk sampleTree s) ∧
    ∃ s, run (step sampleTree) sampleStart failingInputs = some s ∧ s.Finished ∧ s.ok = false ∧
      (s.bytesOf 1).length = 10 ∧ (s.bytesOf 0).length = 25 ∧ FramingOk sampleTree s := by
  have reachable {inputs : List Input} {s : Client (Fin 3)}
      (reaches : run (step sampleTree) sampleStart inputs = some s) : Reachable (step sampleTree)
        (start sampleTree ⟨[some .other, some .other, some .other]⟩ 7 50000) s :=
    ⟨inputs, reaches⟩
  constructor
  · have facts : ∀ s ∈ run (step sampleTree) sampleStart (sampleInputs.take 19),
        (∃ t ∈ s.tasks, t.thread = 1 ∧ t.sending = some 1 ∧
          (sampleCall 1 1).info = sampleTree.info t.node) ∧ s.callsOf 1 = [] := by decide +kernel
    obtain ⟨s, reaches⟩ : ∃ s, run (step sampleTree) sampleStart (sampleInputs.take 19) = some s :=
      Option.isSome_iff_exists.1 (by decide +kernel)
    obtain ⟨inside, none_⟩ := facts s reaches
    refine ⟨s, reaches, ⟨inside, ?_, by simp [none_]⟩, framing_ok (reachable reaches)⟩
    have runs : ∃ r ∈ sendDatamsg (sampleCall 1 1),
        ((sampleCall 1 1).wire.getD [] |>.take 4) <+: r.written := by decide +kernel
    exact runs
  · have facts : ∀ s ∈ run (step sampleTree) sampleStart failingInputs,
        s.tasks[0]?.map (·.pc) = some .exited ∧ s.ok = false ∧ (s.bytesOf 1).length = 10 ∧
          (s.bytesOf 0).length = 25 := by decide +kernel
    obtain ⟨s, reaches⟩ : ∃ s, run (step sampleTree) sampleStart failingInputs = some s :=
      Option.isSome_iff_exists.1 (by decide +kernel)
    obtain ⟨finished, cleared, first, second⟩ := facts s reaches
    obtain ⟨t, there, ended⟩ := Option.map_eq_some_iff.1 finished
    exact ⟨s, reaches, ⟨t, there, ended⟩, cleared, first, second, framing_ok (reachable reaches)⟩

end Enuwatch.Sync

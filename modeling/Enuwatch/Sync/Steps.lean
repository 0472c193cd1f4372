import Enuwatch.Sync.Client

/-!
# What a step of the client can do

`Event` lists the steps of `sync_with_remote`, each with the condition under which it is
taken and the state it leads to. `step_event` is the inversion of `step`; nothing after
this module looks into the step function again.
-/

set_option autoImplicit false

namespace Enuwatch.Sync

open Enuwatch.Lib

variable {N : Type}

@[simp] theorem Task.fresh_node (node : N) (group : Option ℕ) :
    (Task.fresh node group).node = node :=
  rfl

namespace Client

variable (s : Client N) (i : ℕ) (t : Task N)

@[simp] theorem goto_tasks (pc : Pc N) : (s.goto i t pc).tasks = s.tasks.set i { t with pc := pc } :=
  rfl

@[simp] theorem finish_tasks : (s.finish i t).tasks = s.tasks.set i { t with pc := .exited } := rfl

/-- Task `i` starts on a thread. -/
def begin (thread : ℕ) : Client N :=
  { s.goto i { t with thread := thread } (.before .check) with
    frames := Function.update s.frames thread (i :: s.frames thread) }

/-- Task `i` adds the task of a child to its group. -/
def fork (child : N) (rest : List N) : Client N :=
  { s.goto i t (.spawn rest) with
    tasks := s.tasks.set i { t with pc := .spawn rest } ++ [Task.fresh child (some i)] }

end Client

variable [DecidableEq N]

/-- One step of a task. -/
inductive TaskEvent (T : Tree N) (s : Client N) (i : ℕ) (t : Task N) : Client N → Prop
  | started {thread : ℕ} (pc : t.pc = .before .queued) (idle : s.Idle thread) :
      TaskEvent T s i t (s.begin i t thread)
  | checked (pc : t.pc = .before .check) (ok : s.ok = true) :
      TaskEvent T s i t (s.goto i t (.before .sock))
  | refused (pc : t.pc = .before .check) (failed : s.ok = false) :
      TaskEvent T s i t (s.finish i t)
  | fetched (pc : t.pc = .before .sock) (usable : s.sockOf t.thread ≠ -1) :
      TaskEvent T s i t
        ({ s with tSock := s.tSock.insert t.thread (s.sockOf t.thread) }.goto i t (.before .load))
  | dialled (pc : t.pc = .before .sock) (unset : s.sockOf t.thread = -1) :
      TaskEvent T s i t
        ({ s with
            tSock := s.tSock.insert t.thread (s.sockOf t.thread)
            curPort := s.curPort + 1 }.goto i t (.before (.connect s.curPort)))
  | cut {port : UInt16} (pc : t.pc = .before (.connect port)) :
      TaskEvent T s i t { s with status := .aborted }
  | loaded (pc : t.pc = .before .load) :
      TaskEvent T s i t (s.goto i t (.before (.reload s.gSeq)))
  | reloaded {seq : UInt32} (pc : t.pc = .before (.reload seq)) :
      TaskEvent T s i t (s.goto i t (.before (.store seq s.gSeq)))
  | stored {seq loaded : UInt32} (pc : t.pc = .before (.store seq loaded)) :
      TaskEvent T s i t ({ s with gSeq := nextSeq loaded }.goto i t (.before (.send seq)))
  | sent {seq : UInt32} {call : SendCall} {result : SendRun} (pc : t.pc = .before (.send seq))
      (own : call.seq = seq ∧ call.info = T.info t.node ∧ (false ∈ call.oks → s.ok = false))
      (ran : sendDatamsg call = some result) (whole : result.outcome = .returned true) :
      TaskEvent T s i t
        ((s.log ⟨t.node, t.thread, s.sockOf t.thread, call, result⟩).goto i t .dispatch)
  | unsent {seq : UInt32} {call : SendCall} {result : SendRun} (pc : t.pc = .before (.send seq))
      (own : call.seq = seq ∧ call.info = T.info t.node ∧ (false ∈ call.oks → s.ok = false))
      (ran : sendDatamsg call = some result) (short : result.outcome = .returned false) :
      TaskEvent T s i t
        ((s.log ⟨t.node, t.thread, s.sockOf t.thread, call, result⟩).goto i t (.before .report))
  | died {seq : UInt32} {call : SendCall} {result : SendRun} (pc : t.pc = .before (.send seq))
      (ran : sendDatamsg call = some result) (fatal : result.outcome = .fatal) :
      TaskEvent T s i t { s with
        calls := s.calls ++ [⟨t.node, t.thread, s.sockOf t.thread, call, result⟩]
        status := .aborted }
  | drawn {seq : UInt32} (pc : t.pc = .before (.send seq)) (alone : ∀ t ∈ s.tasks, t.draws = false)
      (free : s.MutexFree T.root) :
      TaskEvent T s i t (s.goto i t (.before (.draw seq [(T.root, s.children T.root)])))
  | entered {seq : UInt32} {node child : N} {rest : List N} {path : List (N × List N)}
      (pc : t.pc = .before (.draw seq ((node, child :: rest) :: path)))
      (free : s.MutexFree child) :
      TaskEvent T s i t (s.goto i t
        (.before (.draw seq ((child, s.children child) :: (node, rest) :: path))))
  | skipped {seq : UInt32} {node child : N} {rest : List N} {path : List (N × List N)}
      (pc : t.pc = .before (.draw seq ((node, child :: rest) :: path))) :
      TaskEvent T s i t (s.goto i t (.before (.draw seq ((node, rest) :: path))))
  | left {seq : UInt32} {node : N} {path : List (N × List N)}
      (pc : t.pc = .before (.draw seq ((node, []) :: path))) :
      TaskEvent T s i t (s.goto i t (.before (.draw seq path)))
  | displayed {seq : UInt32} (pc : t.pc = .before (.draw seq [])) :
      TaskEvent T s i t (s.goto i t (.before (.send seq)))
  | reported (pc : t.pc = .before .report) :
      TaskEvent T s i t ({ s with ok := false }.finish i t)
  | leaf (pc : t.pc = .dispatch)
      (bare : (T.info t.node).ftype = .regular ∨ s.children t.node = [] ∧ t.node ≠ T.root) :
      TaskEvent T s i t (s.goto i t .remove)
  | opened (pc : t.pc = .dispatch) (directory : (T.info t.node).ftype = .directory)
      (inner : s.children t.node ≠ [] ∨ t.node = T.root) :
      TaskEvent T s i t (s.goto i t (.emplace (s.children t.node).length))
  | orphan (pc : t.pc = .remove) (top : T.parent t.node = none) :
      TaskEvent T s i t { s with status := .undefined }
  | unlinked {parent : N} (pc : t.pc = .remove) (above : T.parent t.node = some parent)
      (free : s.MutexFree parent) :
      TaskEvent T s i t ((s.unlink parent t.node).goto i t (.find parent))
  | lost {node : N} (pc : t.pc = .find node ∨ t.pc = .decrement node)
      (missing : s.pending node = none) :
      TaskEvent T s i t { s with status := .undefined }
  | found {node : N} {count : ℕ} (pc : t.pc = .find node) (free : s.AccessorFree node)
      (entry : s.pending node = some count) :
      TaskEvent T s i t (s.goto i t (.decrement node))
  | lowered {node : N} {count : ℕ} (pc : t.pc = .decrement node)
      (entry : s.pending node = some count) (more : countdown count ≠ 0) :
      TaskEvent T s i t ((s.setPending node (some (countdown count))).finish i t)
  | emptied {node parent : N} {count : ℕ} (pc : t.pc = .decrement node)
      (entry : s.pending node = some count) (zero : countdown count = 0)
      (above : T.parent node = some parent) :
      TaskEvent T s i t ((s.setPending node (some 0)).goto i t (.detach node))
  | topped {node : N} {count : ℕ} (pc : t.pc = .decrement node)
      (entry : s.pending node = some count) (zero : countdown count = 0)
      (above : T.parent node = none) :
      TaskEvent T s i t ((s.setPending node (some 0)).goto i t (.erase node))
  | stray {node : N} (pc : t.pc = .detach node) (top : T.parent node = none) :
      TaskEvent T s i t { s with status := .undefined }
  | detached {node parent : N} (pc : t.pc = .detach node) (above : T.parent node = some parent)
      (free : s.MutexFree parent) :
      TaskEvent T s i t ((s.unlink parent node).goto i t (.erase node))
  | erased {node parent : N} (pc : t.pc = .erase node) (above : T.parent node = some parent) :
      TaskEvent T s i t ((s.setPending node none).goto i t (.find parent))
  | closed {node : N} (pc : t.pc = .erase node) (above : T.parent node = none) :
      TaskEvent T s i t ((s.setPending node none).finish i t)
  | emplaced {count : ℕ} (pc : t.pc = .emplace count) :
      TaskEvent T s i t
        ((s.setPending t.node (some ((s.pending t.node).getD count))).goto i t .lock)
  | locked (pc : t.pc = .lock) (free : s.MutexFree t.node) :
      TaskEvent T s i t (s.goto i t (.spawn (s.children t.node)))
  | spawned {child : N} {rest : List N} (pc : t.pc = .spawn (child :: rest)) :
      TaskEvent T s i t (s.fork i t child rest)
  | unlocked (pc : t.pc = .spawn []) : TaskEvent T s i t (s.goto i t .wait)
  | waited (pc : t.pc = .wait) (all : ∀ t' ∈ s.tasks, t'.group = some i → t'.pc = .exited) :
      TaskEvent T s i t (s.finish i t)

/-- One step of the client. -/
inductive Event (T : Tree N) (s : Client N) : Client N → Prop
  | task {i : ℕ} {t : Task N} {s' : Client N} (here : s.tasks[i]? = some t) (top : s.OnTop i t)
      (event : TaskEvent T s i t s') : Event T s s'
  | terminated {t : Task N} (here : s.tasks[0]? = some t) (ended : t.pc = .exited)
      (kill : Bool) (waitpid : Option WaitStatus) :
      Event T s { s with
        daemon := (s.daemon.terminate kill waitpid).2.1
        status := .returned ((s.daemon.terminate kill waitpid).1 = 0 ∧ s.ok) }

variable {T : Tree N} {s s' : Client N} {i : ℕ} {t : Task N}

theorem prepare_event {prep : Prep N} {choice : Choice} (pc : t.pc = .before prep)
    (stepped : s.prepare T i t prep choice = some s') : TaskEvent T s i t s' := by
  unfold Client.prepare at stepped
  split at stepped
  case h_1 =>
    split at stepped
    case isTrue idle =>
      cases stepped
      exact .started pc idle
    case isFalse => cases stepped
  case h_2 =>
    cases stepped
    split
    case isTrue ok => exact .checked pc ok
    case isFalse failed => exact .refused pc (by simpa using failed)
  case h_3 =>
    dsimp only at stepped
    split at stepped
    case isTrue unset =>
      cases stepped
      exact .dialled pc unset
    case isFalse usable =>
      cases stepped
      exact .fetched pc usable
  case h_4 =>
    cases stepped
    exact .cut pc
  case h_5 =>
    cases stepped
    exact .loaded pc
  case h_6 =>
    cases stepped
    exact .reloaded pc
  case h_7 =>
    cases stepped
    exact .stored pc
  case h_8 =>
    split at stepped
    case isTrue own =>
      obtain ⟨result, ran, rfl⟩ := Option.map_eq_some_iff.1 stepped
      unfold Client.sent
      split
      case h_1 whole => exact .sent pc own ran whole
      case h_2 short => exact .unsent pc own ran short
      case h_3 fatal => exact .died pc ran fatal
    case isFalse => cases stepped
  case h_9 =>
    split at stepped
    case isTrue due =>
      cases stepped
      exact .drawn pc due.2.1 due.2.2
    case isFalse => cases stepped
  case h_10 =>
    split at stepped
    case isTrue free =>
      cases stepped
      exact .entered pc free
    case isFalse => cases stepped
  case h_11 =>
    cases stepped
    exact .skipped pc
  case h_12 =>
    cases stepped
    exact .left pc
  case h_13 =>
    cases stepped
    exact .displayed pc
  case h_14 =>
    cases stepped
    exact .reported pc
  case h_15 => cases stepped

theorem dispatch_event (pc : t.pc = .dispatch) : TaskEvent T s i t (s.dispatch T i t) := by
  unfold Client.dispatch
  split
  case h_1 ftype => exact .leaf pc (.inl ftype)
  case h_2 ftype =>
    split
    case isTrue bare =>
      obtain ⟨empty, inner⟩ := bare
      refine .leaf pc (.inr ⟨List.length_eq_zero_iff.1 empty, ?_⟩)
      intro top
      rw [T.parent_eq_none.2 top] at inner
      cases inner
    case isFalse inner =>
      refine .opened pc ftype ?_
      by_cases top : t.node = T.root
      · exact .inr top
      · obtain ⟨parent, above⟩ := T.exists_parent top
        refine .inl fun empty => inner ?_
        simp [empty, above]
  case h_3 regular directory =>
    rcases T.kept t.node with ftype | ftype
    · exact absurd ftype regular
    · exact absurd ftype directory

theorem find_event {node : N} (pc : t.pc = .find node) (stepped : s.find i t node = some s') :
    TaskEvent T s i t s' := by
  unfold Client.find at stepped
  split at stepped
  case isTrue free =>
    split at stepped
    case h_1 missing =>
      cases stepped
      exact .lost (.inl pc) missing
    case h_2 entry =>
      cases stepped
      exact .found pc free entry
  case isFalse => cases stepped

theorem decrement_event {node : N} (pc : t.pc = .decrement node) :
    TaskEvent T s i t (s.decrement T i t node) := by
  unfold Client.decrement
  split
  case h_1 missing => exact .lost (.inr pc) missing
  case h_2 count entry =>
    dsimp only
    split
    case isTrue zero =>
      rw [zero]
      split
      case h_1 above => exact .emptied pc entry zero above
      case h_2 above => exact .topped pc entry zero above
    case isFalse more => exact .lowered pc entry more

theorem erase_event {node : N} (pc : t.pc = .erase node) :
    TaskEvent T s i t (s.erase T i t node) := by
  unfold Client.erase
  dsimp only
  split
  case h_1 above => exact .erased pc above
  case h_2 above => exact .closed pc above

theorem act_event {choice : Choice} (stepped : s.act T i t t.pc choice = some s') :
    TaskEvent T s i t s' := by
  generalize pc : t.pc = here at stepped
  unfold Client.act at stepped
  split at stepped
  case h_1 => exact prepare_event pc stepped
  case h_2 =>
    cases stepped
    exact dispatch_event pc
  case h_3 =>
    unfold Client.remove at stepped
    split at stepped
    case h_1 top =>
      cases stepped
      exact .orphan pc top
    case h_2 above =>
      split at stepped
      case isTrue free =>
        cases stepped
        exact .unlinked pc above free
      case isFalse => cases stepped
  case h_4 => exact find_event pc stepped
  case h_5 =>
    cases stepped
    exact decrement_event pc
  case h_6 =>
    unfold Client.remove at stepped
    split at stepped
    case h_1 top =>
      cases stepped
      exact .stray pc top
    case h_2 above =>
      split at stepped
      case isTrue free =>
        cases stepped
        exact .detached pc above free
      case isFalse => cases stepped
  case h_7 =>
    cases stepped
    exact erase_event pc
  case h_8 =>
    cases stepped
    exact .emplaced pc
  case h_9 =>
    split at stepped
    case isTrue free =>
      cases stepped
      exact .locked pc free
    case isFalse => cases stepped
  case h_10 =>
    cases stepped
    exact .spawned pc
  case h_11 =>
    cases stepped
    exact .unlocked pc
  case h_12 =>
    split at stepped
    case isTrue all =>
      cases stepped
      exact .waited pc all
    case isFalse => cases stepped
  case h_13 => cases stepped

/-- A step of task `i` is taken while the client runs, by the top task of its thread. -/
theorem step_task {choice : Choice} (stepped : step T s (.task i choice) = some s') :
    s.status = .running ∧ ∃ t, s.tasks[i]? = some t ∧ s.OnTop i t ∧ TaskEvent T s i t s' := by
  simp only [step] at stepped
  split at stepped
  case h_1 t running here =>
    split at stepped
    case isTrue top => exact ⟨running, t, here, top, act_event stepped⟩
    case isFalse => cases stepped
  case h_2 => cases stepped

/-- The daemon is terminated when the root task has returned. -/
theorem step_terminate {kill : Bool} {waitpid : Option WaitStatus}
    (stepped : step T s (.terminate kill waitpid) = some s') :
    s.status = .running ∧ (∃ t, s.tasks[0]? = some t ∧ t.pc = .exited) ∧
      s' = { s with
        daemon := (s.daemon.terminate kill waitpid).2.1
        status := .returned ((s.daemon.terminate kill waitpid).1 = 0 ∧ s.ok) } := by
  simp only [step] at stepped
  split at stepped
  case h_1 t running here =>
    split at stepped
    case isTrue ended =>
      cases stepped
      exact ⟨running, ⟨t, here, ended⟩, rfl⟩
    case isFalse => cases stepped
  case h_2 => cases stepped

/-- A step is taken by a running client and is one of the events. -/
theorem step_event {input : Input} (stepped : step T s input = some s') :
    s.status = .running ∧ Event T s s' := by
  cases input with
  | task i choice =>
      obtain ⟨running, t, here, top, event⟩ := step_task stepped
      exact ⟨running, .task here top event⟩
  | terminate kill waitpid =>
      obtain ⟨running, ⟨t, here, ended⟩, rfl⟩ := step_terminate stepped
      exact ⟨running, .terminated here ended _ _⟩

/-- What the start satisfies and every event of a running client keeps holds always. -/
theorem invariant {P : Client N → Prop} {s₀ : Client N} (reachable : Reachable (step T) s₀ s)
    (initial : P s₀) (carry : ∀ s s', s.status = .running → P s → Event T s s' → P s') : P s := by
  refine reachable.invariant initial fun s input s' before stepped => ?_
  obtain ⟨running, event⟩ := step_event stepped
  exact carry s s' running before event

end Enuwatch.Sync

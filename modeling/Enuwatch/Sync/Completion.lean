import Enuwatch.Sync.Setup

/-!
# A traversal can always be completed

From the start of `sync_with_remote` some schedule leads to its return: every task gets a
thread of its own, the display is never due, the kernel takes every write, and a task that
holds a lock goes first. Along this schedule a state that is not the end has a next step
(`Smooth.progress`), and a step either opens a task or brings its own task nearer to its
end, so that the schedule comes to an end (`exists_finished`).
-/

set_option autoImplicit false

namespace Enuwatch.Sync

open Enuwatch.Lib

variable {N : Type}

/-- A bound for the steps that a task has before it. -/
def Task.left (T : Tree N) (t : Task N) : ℕ :=
  match t.pc with
  | .before .queued => 4 * T.depth t.node + (T.children t.node).length + 16
  | .before .check => 4 * T.depth t.node + (T.children t.node).length + 15
  | .before .sock => 4 * T.depth t.node + (T.children t.node).length + 14
  | .before .load => 4 * T.depth t.node + (T.children t.node).length + 13
  | .before (.reload _) => 4 * T.depth t.node + (T.children t.node).length + 12
  | .before (.store _ _) => 4 * T.depth t.node + (T.children t.node).length + 11
  | .before (.send _) => 4 * T.depth t.node + (T.children t.node).length + 10
  | .before _ => 0
  | .dispatch => 4 * T.depth t.node + (T.children t.node).length + 9
  | .remove => 4 * T.depth t.node + 1
  | .find node => 4 * T.depth node + 4
  | .decrement node => 4 * T.depth node + 3
  | .detach node => 4 * T.depth node + 2
  | .erase node => 4 * T.depth node + 1
  | .emplace _ => (T.children t.node).length + 5
  | .lock => (T.children t.node).length + 4
  | .spawn rest => rest.length + 3
  | .wait => 1
  | .exited => 0

/-- The task neither connects nor draws nor reports an error. -/
def Task.Steady (t : Task N) : Prop :=
  match t.pc with
  | .before (.connect _) => False
  | .before (.draw _ _) => False
  | .before .report => False
  | _ => True

variable [DecidableEq N]

/-- A state on the schedule: nothing has failed, and task `i` runs alone on thread `i`. -/
structure Smooth (T : Tree N) (s₀ s : Client N) : Prop where
  reachable : Reachable (step T) s₀ s
  running : s.status = .running
  ok : s.ok = true
  sent : s.AllSent
  daemon : s.daemon = s₀.daemon
  steady : ∀ t ∈ s.tasks, t.Steady
  placed : ∀ i t, s.tasks[i]? = some t → t.pc ≠ .before .queued → t.pc ≠ .exited →
    t.thread = i ∧ s.frames i = [i]
  vacant : ∀ i, (∀ t, s.tasks[i]? = some t → t.pc = .before .queued) → s.frames i = []

variable {T : Tree N} {s₀ s s' : Client N} {i : ℕ} {t t' : Task N} {added : List (Task N)}
  {input : Input}

theorem step_of_act (running : s.status = .running) (here : s.tasks[i]? = some t)
    (top : s.OnTop i t) (choice : Choice) :
    step T s (.task i choice) = s.act T i t t.pc choice := by
  simp [step, running, here, top]

/-- One task moves and may open others. -/
theorem Smooth.next (smooth : Smooth T s₀ s) (here : s.tasks[i]? = some t)
    (stepped : step T s input = some s') (tasks : s'.tasks = s.tasks.set i t' ++ added)
    (fresh : ∀ m ∈ added, m.pc = .before .queued) (running : s'.status = .running)
    (ok : s'.ok = true) (sent : s'.AllSent) (daemon : s'.daemon = s.daemon) (steady : t'.Steady)
    (active : t'.pc ≠ .before .queued) (frames : ∀ j, j ≠ i → s'.frames j = s.frames j)
    (own : t'.pc ≠ .exited → t'.thread = i ∧ s'.frames i = [i]) : Smooth T s₀ s' := by
  have inside : i < s.tasks.length := (List.getElem?_eq_some_iff.1 here).1
  have itself : s'.tasks[i]? = some t' := by
    rw [tasks, List.getElem?_append_left (by simpa using inside), List.getElem?_set_self inside]
  have others : ∀ j m, j ≠ i → s.tasks[j]? = some m → s'.tasks[j]? = some m := by
    intro j m apart there
    have below : j < s.tasks.length := (List.getElem?_eq_some_iff.1 there).1
    rw [tasks, List.getElem?_append_left (by simpa using below), List.getElem?_set_ne apart.symm,
      there]
  constructor
  case reachable => exact smooth.reachable.tail stepped
  case running => exact running
  case ok => exact ok
  case sent => exact sent
  case daemon => exact daemon.trans smooth.daemon
  case steady =>
    rw [tasks]
    refine List.forall_mem_append.2 ⟨forall_mem_set smooth.steady steady i, fun m new => ?_⟩
    simp [Task.Steady, fresh m new]
  case placed =>
    intro j m there started live
    by_cases apart : j = i
    · subst apart
      rw [itself, Option.some.injEq] at there
      subst there
      exact own live
    · rw [frames j apart]
      rw [tasks, List.getElem?_append] at there
      split at there
      · rw [List.getElem?_set_ne (Ne.symm apart)] at there
        exact smooth.placed j m there started live
      · exact absurd (fresh m (List.mem_of_getElem? there)) started
  case vacant =>
    intro j queued
    have apart : j ≠ i := by
      rintro rfl
      exact active (queued t' itself)
    rw [frames j apart]
    exact smooth.vacant j fun m there => queued m (others j m apart there)

/-- The schedule goes on and comes nearer to its end. -/
def Advances (T : Tree N) (s₀ s : Client N) : Prop :=
  ∃ s', Smooth T s₀ s' ∧ (s.tasks.length < s'.tasks.length ∨
    s'.tasks.length = s.tasks.length ∧
      total (Task.left T) s'.tasks < total (Task.left T) s.tasks)

theorem Smooth.advances (smooth : Smooth T s₀ s') (here : s.tasks[i]? = some t)
    (tasks : s'.tasks = s.tasks.set i t') (nearer : t'.left T < t.left T) : Advances T s₀ s := by
  refine ⟨s', smooth, .inr ⟨by simp [tasks], ?_⟩⟩
  have moved := total_set (f := Task.left T) here t'
  rw [tasks]
  omega

/-- The states agree on what the schedule looks at. -/
def Client.Alike (s₁ s : Client N) : Prop :=
  s₁.tasks = s.tasks ∧ s₁.frames = s.frames ∧ s₁.status = s.status ∧ s₁.ok = s.ok ∧
    s₁.daemon = s.daemon

section Task

variable (smooth : Smooth T s₀ s) (here : s.tasks[i]? = some t)
include smooth here

theorem Smooth.onTop (started : t.pc ≠ .before .queued) (live : t.pc ≠ .exited) : s.OnTop i t := by
  obtain ⟨thread, frame⟩ := smooth.placed i t here started live
  exact .inr (by rw [thread, frame]; rfl)

theorem Smooth.goto {choice : Choice} {pc : Pc N} {s₁ : Client N}
    (acts : s.act T i t t.pc choice = some (s₁.goto i t pc)) (alike : s₁.Alike s)
    (sent : s₁.AllSent) (started : t.pc ≠ .before .queued) (live : t.pc ≠ .exited)
    (steady : Task.Steady { t with pc := pc }) (active : pc ≠ .before .queued)
    (nearer : Task.left T { t with pc := pc } < t.left T) : Advances T s₀ s := by
  obtain ⟨tasks, frames, status, ok, daemon⟩ := alike
  have stepped := (step_of_act smooth.running here (smooth.onTop here started live) choice).trans acts
  have moved : (s₁.goto i t pc).tasks = s.tasks.set i { t with pc := pc } := by
    rw [Client.goto_tasks, tasks]
  have next : Smooth T s₀ (s₁.goto i t pc) := by
    refine smooth.next here stepped (moved.trans (List.append_nil _).symm) (by simp)
      (status.trans smooth.running) (ok.trans smooth.ok) sent daemon steady active
      (fun j _ => congrFun frames j) fun _ => ?_
    obtain ⟨thread, frame⟩ := smooth.placed i t here started live
    exact ⟨thread, (congrFun frames i).trans frame⟩
  exact next.advances here moved nearer

theorem Smooth.finish {choice : Choice} {s₁ : Client N}
    (acts : s.act T i t t.pc choice = some (s₁.finish i t)) (alike : s₁.Alike s)
    (sent : s₁.AllSent) (started : t.pc ≠ .before .queued) (live : t.pc ≠ .exited)
    (nearer : 0 < t.left T) : Advances T s₀ s := by
  obtain ⟨tasks, frames, status, ok, daemon⟩ := alike
  have stepped := (step_of_act smooth.running here (smooth.onTop here started live) choice).trans acts
  have moved : (s₁.finish i t).tasks = s.tasks.set i { t with pc := .exited } := by
    rw [Client.finish_tasks, tasks]
  have next : Smooth T s₀ (s₁.finish i t) := by
    refine smooth.next here stepped (moved.trans (List.append_nil _).symm) (by simp)
      (status.trans smooth.running) (ok.trans smooth.ok) sent daemon trivial (by simp)
      (fun j apart => ?_) (fun running => absurd rfl running)
    obtain ⟨thread, -⟩ := smooth.placed i t here started live
    show Function.update s₁.frames t.thread (s₁.frames t.thread).tail j = s.frames j
    rw [Function.update_of_ne (thread ▸ apart), frames]
  exact next.advances here moved nearer

/-! ## The next step of a task -/

theorem Smooth.start_progress (pc : t.pc = .before .queued) : Advances T s₀ s := by
  have empty : s.frames i = [] := by
    refine smooth.vacant i fun m there => ?_
    rw [here, Option.some.injEq] at there
    exact there ▸ pc
  have stepped : step T s (.task i (.start i)) = some (s.begin i t i) := by
    rw [step_of_act smooth.running here (.inl pc), pc]
    simp [Client.act, Client.prepare, Client.Idle, empty, Client.begin]
  have tasks : (s.begin i t i).tasks = s.tasks.set i { t with thread := i, pc := .before .check } :=
    rfl
  have next : Smooth T s₀ (s.begin i t i) := by
    refine smooth.next here stepped (tasks.trans (List.append_nil _).symm) (by simp)
      smooth.running smooth.ok smooth.sent rfl trivial (by simp) (fun j apart => ?_) fun _ => ?_
    · exact Function.update_of_ne apart _ _
    · exact ⟨rfl, by simp [Client.begin, empty]⟩
  exact next.advances here tasks (by simp [Task.left, pc])

theorem Smooth.prepare_progress {prep : Prep N} (unwired : Unwired s)
    (pc : t.pc = .before prep) : Advances T s₀ s := by
  have steady := smooth.steady t (List.mem_of_getElem? here)
  have alike : s.Alike s := ⟨rfl, rfl, rfl, rfl, rfl⟩
  cases prep with
  | queued => exact smooth.start_progress here pc
  | check =>
      have acts : s.act T i t t.pc .go = some (s.goto i t (.before .sock)) := by
        simp [pc, Client.act, Client.prepare, smooth.ok]
      exact smooth.goto here acts alike smooth.sent (by simp [pc]) (by simp [pc]) trivial (by simp)
        (by simp [Task.left, pc])
  | sock =>
      have acts : s.act T i t t.pc .go =
          some ({ s with tSock := s.tSock.insert t.thread 0 }.goto i t (.before .load)) := by
        simp [pc, Client.act, Client.prepare, unwired.sock]
      exact smooth.goto here acts ⟨rfl, rfl, rfl, rfl, rfl⟩ smooth.sent (by simp [pc]) (by simp [pc])
        trivial (by simp) (by simp [Task.left, pc])
  | load =>
      have acts : s.act T i t t.pc .go = some (s.goto i t (.before (.reload s.gSeq))) := by
        simp [pc, Client.act, Client.prepare]
      exact smooth.goto here acts alike smooth.sent (by simp [pc]) (by simp [pc]) trivial (by simp)
        (by simp [Task.left, pc])
  | reload seq =>
      have acts : s.act T i t t.pc .go = some (s.goto i t (.before (.store seq s.gSeq))) := by
        simp [pc, Client.act, Client.prepare]
      exact smooth.goto here acts alike smooth.sent (by simp [pc]) (by simp [pc]) trivial (by simp)
        (by simp [Task.left, pc])
  | store seq loaded =>
      have acts : s.act T i t t.pc .go =
          some ({ s with gSeq := nextSeq loaded }.goto i t (.before (.send seq))) := by
        simp [pc, Client.act, Client.prepare]
      exact smooth.goto here acts ⟨rfl, rfl, rfl, rfl, rfl⟩ smooth.sent (by simp [pc]) (by simp [pc])
        trivial (by simp) (by simp [Task.left, pc])
  | send seq =>
      obtain ⟨call, result, own, info, ok, ran, whole⟩ := exists_sendDatamsg seq (T.info t.node)
      have acts : s.act T i t t.pc (.send call) = some ((s.log
          ⟨t.node, t.thread, s.sockOf t.thread, call, result⟩).goto i t .dispatch) := by
        simp [pc, Client.act, Client.prepare, own, info, ok, ran, whole, Client.sent]
      refine smooth.goto here acts ⟨rfl, rfl, rfl, rfl, rfl⟩ ?_ (by simp [pc]) (by simp [pc])
        trivial (by simp) (by simp [Task.left, pc])
      exact List.forall_mem_append.2 ⟨smooth.sent, by simpa [Send.Success] using whole⟩
  | connect _ | draw _ _ | report => simp [Task.Steady, pc] at steady

/-- A task that holds a mutex adds a task to its group, or lets the mutex go. -/
theorem Smooth.spawn_progress {rest : List N} (pc : t.pc = .spawn rest) : Advances T s₀ s := by
  have alike : s.Alike s := ⟨rfl, rfl, rfl, rfl, rfl⟩
  cases rest with
  | nil =>
      have acts : s.act T i t t.pc .go = some (s.goto i t .wait) := by simp [pc, Client.act]
      exact smooth.goto here acts alike smooth.sent (by simp [pc]) (by simp [pc]) trivial (by simp)
        (by simp [Task.left, pc])
  | cons child rest =>
      have stepped : step T s (.task i .go) = some (s.fork i t child rest) := by
        rw [step_of_act smooth.running here (smooth.onTop here (by simp [pc]) (by simp [pc])), pc]
        rfl
      have next : Smooth T s₀ (s.fork i t child rest) :=
        smooth.next here stepped rfl (by simp [Task.fresh]) smooth.running smooth.ok smooth.sent rfl
          trivial (by simp) (fun _ _ => rfl) fun _ =>
            smooth.placed i t here (by simp [pc]) (by simp [pc])
      exact ⟨_, next, .inl (by simp [Client.fork])⟩

section Unlocked

variable (sound : Sound T s) (unlocked : ∀ n, s.MutexFree n)
include sound unlocked

/-- A task that has an accessor lowers the counter, or takes the node off and drops the
entry. -/
theorem Smooth.accessor_progress {p : N} (held : t.accessor = some p) : Advances T s₀ s := by
  have member := List.mem_of_getElem? here
  have located := sound.books.located t member
  have alike : ∀ count, (s.setPending p count).Alike s := fun _ => ⟨rfl, rfl, rfl, rfl, rfl⟩
  rw [Task.accessor] at held
  rw [At] at located
  split at held
  case h_1 node pc =>
    cases held
    obtain ⟨count, entry, -⟩ := sound.of_debt member (p := p) (by simp [Task.debt, pc])
    by_cases zero : countdown count = 0
    · cases above : T.parent p with
      | none =>
          have acts : s.act T i t t.pc .go =
              some ((s.setPending p (some 0)).goto i t (.erase p)) := by
            simp [pc, Client.act, Client.decrement, entry, zero, above]
          exact smooth.goto here acts (alike _) smooth.sent (by simp [pc]) (by simp [pc]) trivial
            (by simp) (by simp [Task.left, pc])
      | some parent =>
          have acts : s.act T i t t.pc .go =
              some ((s.setPending p (some 0)).goto i t (.detach p)) := by
            simp [pc, Client.act, Client.decrement, entry, zero, above]
          exact smooth.goto here acts (alike _) smooth.sent (by simp [pc]) (by simp [pc]) trivial
            (by simp) (by simp [Task.left, pc])
    · have acts : s.act T i t t.pc .go =
          some ((s.setPending p (some (countdown count))).finish i t) := by
        simp [pc, Client.act, Client.decrement, entry, zero]
      exact smooth.finish here acts (alike _) smooth.sent (by simp [pc]) (by simp [pc])
        (by simp [Task.left, pc])
  case h_2 node pc =>
    cases held
    rw [pc] at located
    obtain ⟨parent, above⟩ := T.exists_parent located.2.2.2
    have acts : s.act T i t t.pc .go = some ((s.unlink parent p).goto i t (.erase p)) := by
      simp [pc, Client.act, Client.remove, above, unlocked parent]
    exact smooth.goto here acts ⟨rfl, rfl, rfl, rfl, rfl⟩ smooth.sent (by simp [pc]) (by simp [pc])
      trivial (by simp) (by simp [Task.left, pc])
  case h_3 node pc =>
    cases held
    cases above : T.parent p with
    | none =>
        have acts : s.act T i t t.pc .go = some ((s.setPending p none).finish i t) := by
          simp [pc, Client.act, Client.erase, above]
        exact smooth.finish here acts (alike _) smooth.sent (by simp [pc]) (by simp [pc])
          (by simp [Task.left, pc])
    | some parent =>
        have acts : s.act T i t t.pc .go =
            some ((s.setPending p none).goto i t (.find parent)) := by
          simp [pc, Client.act, Client.erase, above]
        have deeper := T.depth_of_parent above
        exact smooth.goto here acts (alike _) smooth.sent (by simp [pc]) (by simp [pc]) trivial
          (by simp) (by simp only [Task.left, pc]; omega)
  case h_4 => cases held

variable (free : ∀ n, s.AccessorFree n) (unwired : Unwired s)
include free unwired

/-- With all locks free, a task that neither waits nor has ended goes on. -/
theorem Smooth.free_progress (busy : t.pc ≠ .wait) (live : t.pc ≠ .exited) :
    Advances T s₀ s := by
  have member := List.mem_of_getElem? here
  have located := sound.books.located t member
  have alike : s.Alike s := ⟨rfl, rfl, rfl, rfl, rfl⟩
  rw [At] at located
  cases pc : t.pc with
  | before prep => exact smooth.prepare_progress here unwired pc
  | spawn rest => exact smooth.spawn_progress here pc
  | decrement p => exact smooth.accessor_progress here sound unlocked (by rw [Task.accessor, pc])
  | detach p => exact smooth.accessor_progress here sound unlocked (by rw [Task.accessor, pc])
  | erase p => exact smooth.accessor_progress here sound unlocked (by rw [Task.accessor, pc])
  | wait => exact absurd pc busy
  | exited => exact absurd pc live
  | dispatch =>
      have acts : s.act T i t t.pc .go = some (s.dispatch T i t) := by simp [pc, Client.act]
      rw [Client.dispatch] at acts
      rcases T.kept t.node with regular | directory
      · simp only [regular] at acts
        exact smooth.goto here acts alike smooth.sent (by simp [pc]) (by simp [pc]) trivial
          (by simp) (by simp only [Task.left, pc]; omega)
      · simp only [directory] at acts
        split at acts
        · exact smooth.goto here acts alike smooth.sent (by simp [pc]) (by simp [pc]) trivial
            (by simp) (by simp only [Task.left, pc]; omega)
        · exact smooth.goto here acts alike smooth.sent (by simp [pc]) (by simp [pc]) trivial
            (by simp) (by simp only [Task.left, pc]; omega)
  | remove =>
      rw [pc] at located
      obtain ⟨parent, above⟩ := T.exists_parent located.2
      have acts : s.act T i t t.pc .go =
          some ((s.unlink parent t.node).goto i t (.find parent)) := by
        simp [pc, Client.act, Client.remove, above, unlocked parent]
      have deeper := T.depth_of_parent above
      exact smooth.goto here acts ⟨rfl, rfl, rfl, rfl, rfl⟩ smooth.sent (by simp [pc])
        (by simp [pc]) trivial (by simp) (by simp only [Task.left, pc]; omega)
  | find p =>
      obtain ⟨count, entry, -⟩ := sound.of_debt member (p := p) (by simp [Task.debt, pc])
      have acts : s.act T i t t.pc .go = some (s.goto i t (.decrement p)) := by
        simp [pc, Client.act, Client.find, free p, entry]
      exact smooth.goto here acts alike smooth.sent (by simp [pc]) (by simp [pc]) trivial (by simp)
        (by simp [Task.left, pc])
  | emplace count =>
      have acts : s.act T i t t.pc .go =
          some ((s.setPending t.node (some ((s.pending t.node).getD count))).goto i t .lock) := by
        simp [pc, Client.act]
      exact smooth.goto here acts ⟨rfl, rfl, rfl, rfl, rfl⟩ smooth.sent (by simp [pc])
        (by simp [pc]) trivial (by simp) (by simp [Task.left, pc])
  | lock =>
      have acts : s.act T i t t.pc .go = some (s.goto i t (.spawn (s.children t.node))) := by
        simp [pc, Client.act, unlocked t.node]
      have fewer := (sound.books.sublist t.node).length_le
      exact smooth.goto here acts alike smooth.sent (by simp [pc]) (by simp [pc]) trivial (by simp)
        (by simp only [Task.left, pc]; omega)

end Unlocked

end Task

/-! ## The whole schedule -/

/-- Some task can go on as long as the root task has not returned. -/
theorem Smooth.progress (smooth : Smooth T s₀ s) (sound : Sound T s) (unwired : Unwired s)
    (unfinished : ¬ s.Finished) : Advances T s₀ s := by
  by_cases spawning : ∃ t ∈ s.tasks, ∃ rest, t.pc = .spawn rest
  · obtain ⟨t, member, rest, pc⟩ := spawning
    obtain ⟨i, here⟩ := List.mem_iff_getElem?.1 member
    exact smooth.spawn_progress here pc
  have unlocked : ∀ n, s.MutexFree n := by
    intro n t member locked
    have steady := smooth.steady t member
    rw [Task.locks] at locked
    split at locked
    case h_1 pc => simp [Task.Steady, pc] at steady
    case h_2 rest pc => exact spawning ⟨t, member, rest, pc⟩
    case h_3 => cases locked
  by_cases holding : ∃ t ∈ s.tasks, t.accessor ≠ none
  · obtain ⟨t, member, held⟩ := holding
    obtain ⟨i, here⟩ := List.mem_iff_getElem?.1 member
    obtain ⟨p, held⟩ := Option.ne_none_iff_exists'.1 held
    exact smooth.accessor_progress here sound unlocked held
  have free : ∀ n, s.AccessorFree n := fun n t member held =>
    holding ⟨t, member, by simp [held]⟩
  by_cases busy : ∃ t ∈ s.tasks, t.pc ≠ .wait ∧ t.pc ≠ .exited
  · obtain ⟨t, member, waiting, live⟩ := busy
    obtain ⟨i, here⟩ := List.mem_iff_getElem?.1 member
    exact smooth.free_progress here sound unlocked free unwired waiting live
  -- Everybody waits or has ended; of those that wait, take one as deep as any.
  obtain ⟨t₀, first, -⟩ := sound.pool.first
  have waits : t₀ ∈ s.tasks.toFinset.filter (·.pc = .wait) := by
    refine Finset.mem_filter.2 ⟨List.mem_toFinset.2 (List.mem_of_getElem? first), ?_⟩
    by_contra other
    exact busy ⟨t₀, List.mem_of_getElem? first, other, fun ended => unfinished ⟨t₀, first, ended⟩⟩
  obtain ⟨t, deepest, max⟩ := Finset.exists_max_image _ (fun t => T.depth t.node) ⟨t₀, waits⟩
  obtain ⟨member, pc⟩ := Finset.mem_filter.1 deepest
  obtain ⟨i, here⟩ := List.mem_iff_getElem?.1 (List.mem_toFinset.1 member)
  have all : ∀ m ∈ s.tasks, m.group = some i → m.pc = .exited := by
    intro m within grouped
    by_contra live
    have waiting : m.pc = .wait := by
      by_contra other
      exact busy ⟨m, within, other, live⟩
    have deeper := T.depth_of_parent (sound.group_parent here within grouped)
    have := max m (Finset.mem_filter.2 ⟨List.mem_toFinset.2 within, waiting⟩)
    omega
  have acts : s.act T i t t.pc .go = some (s.finish i t) := by
    rw [pc]
    exact if_pos all
  exact smooth.finish here acts ⟨rfl, rfl, rfl, rfl, rfl⟩ smooth.sent (by simp [pc]) (by simp [pc])
    (by simp [Task.left, pc])

variable {table : Slots PipeEnd} {pid : ℤ} {basePort : UInt16}

theorem start_smooth :
    Smooth T (start T table pid basePort) (start T table pid basePort) where
  reachable := .refl _
  running := rfl
  ok := rfl
  sent := by simp [start, Client.AllSent]
  daemon := rfl
  steady := by simp [start, Task.Steady]
  placed := by
    intro i t here _ _
    obtain ⟨rfl, rfl⟩ : i = 0 ∧ t = ⟨T.root, none, 0, .before .check⟩ := by
      cases i with
      | zero => exact ⟨rfl, (Option.some.inj here).symm⟩
      | succ i => cases here
    exact ⟨rfl, rfl⟩
  vacant := by
    intro i queued
    cases i with
    | zero => cases queued _ rfl
    | succ i => rfl

/-- **Some schedule brings the traversal of every tree to its end, with every message sent.** -/
theorem exists_finished [Finite N] (T : Tree N) (table : Slots PipeEnd) (pid : ℤ)
    (basePort : UInt16) :
    ∃ s, Smooth T (start T table pid basePort) s ∧ s.Finished := by
  have from_any : ∀ unopened left s, Nat.card N - s.tasks.length = unopened →
      total (Task.left T) s.tasks = left → Smooth T (start T table pid basePort) s →
        ∃ s', Smooth T (start T table pid basePort) s' ∧ s'.Finished := by
    intro unopened
    induction unopened using Nat.strong_induction_on with
    | _ unopened fewer =>
        intro left
        induction left using Nat.strong_induction_on with
        | _ left nearer =>
            intro s count weight smooth
            by_cases finished : s.Finished
            · exact ⟨s, smooth, finished⟩
            · obtain ⟨s', smooth', more | ⟨same, lower⟩⟩ :=
                smooth.progress (reachable_sound smooth.reachable).1
                  (reachable_unwired smooth.reachable) finished
              · -- There are never more tasks than nodes.
                have bound : s'.tasks.length ≤ Nat.card N := by
                  have nodup := (reachable_sound smooth'.reachable).1.pool.nodup
                  have := Fintype.ofFinite N
                  rw [Nat.card_eq_fintype_card]
                  simpa [Client.nodes] using nodup.length_le_card
                exact fewer _ (by omega) _ s' rfl rfl smooth'
              · exact nearer _ (by omega) s' (by omega) rfl smooth'
  exact from_any _ _ _ rfl rfl start_smooth

end Enuwatch.Sync

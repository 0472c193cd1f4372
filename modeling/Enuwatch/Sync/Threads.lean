import Enuwatch.Sync.Invariant

/-!
# The threads of the traversal

A thread runs the top task of its stack; the tasks below it wait for their groups, each
having taken on the one above it meanwhile. `Stacked` says so of every reachable state.

Who waits for whom has a direction: the tasks of a group were opened by the task that waits
for them, and a task was started after those below it on its stack. `Ranked` puts both into
one order, which exists in every reachable state (`reachable_ranked`).
-/

set_option autoImplicit false

namespace Enuwatch.Sync

open Enuwatch.Lib

variable {N : Type}

/-- The task has been started and has not ended. -/
def Task.Active (t : Task N) : Prop := t.pc ≠ .before .queued ∧ t.pc ≠ .exited

/-! ## What a step does to the stacks -/

/-- A step of task `i` as the stacks see it. -/
inductive Shape (s : Client N) (i : ℕ) (t : Task N) (s' : Client N) : Prop
  | halted (tasks : s'.tasks = s.tasks) (frames : s'.frames = s.frames)
  | started (thread : ℕ)
      (tasks : s'.tasks = s.tasks.set i { t with thread := thread, pc := .before .check })
      (pc : t.pc = .before .queued) (idle : s.Idle thread)
      (frames : s'.frames = Function.update s.frames thread (i :: s.frames thread))
  | moved {pc : Pc N} (tasks : s'.tasks = s.tasks.set i { t with pc := pc }) (active : t.Active)
      (active' : Task.Active { t with pc := pc }) (frames : s'.frames = s.frames)
  | forked {pc : Pc N} (child : N)
      (tasks : s'.tasks = s.tasks.set i { t with pc := pc } ++ [Task.fresh child (some i)])
      (active : t.Active) (active' : Task.Active { t with pc := pc }) (frames : s'.frames = s.frames)
  | ended (tasks : s'.tasks = s.tasks.set i { t with pc := .exited }) (active : t.Active)
      (frames : s'.frames = Function.update s.frames t.thread (s.frames t.thread).tail)

theorem TaskEvent.shape [DecidableEq N] {T : Tree N} {s s' : Client N} {i : ℕ} {t : Task N}
    (event : TaskEvent T s i t s') : Shape s i t s' := by
  cases event with
  | started pc idle => exact .started _ rfl pc idle rfl
  | spawned pc => exact .forked _ rfl (by simp [Task.Active, pc]) (by simp [Task.Active]) rfl
  | cut | died | orphan | lost | stray => exact .halted rfl rfl
  | refused pc | reported pc | lowered pc | closed pc | waited pc =>
      exact .ended rfl (by simp [Task.Active, pc]) rfl
  | checked pc | fetched pc | dialled pc | loaded pc | reloaded pc | stored pc | sent pc
  | unsent pc | drawn pc | entered pc | skipped pc | left pc | displayed pc | leaf pc | opened pc
  | unlinked pc | found pc | emptied pc | topped pc | detached pc | erased pc | emplaced pc
  | locked pc | unlocked pc =>
      exact .moved rfl (by simp [Task.Active, pc]) (by simp [Task.Active]) rfl

/-! ## Stacks -/

/-- The stacks hold the active tasks, and only the top of a stack does not wait. -/
structure Stacked (s : Client N) : Prop where
  owned : ∀ thread, ∀ i ∈ s.frames thread, ∃ t, s.tasks[i]? = some t ∧ t.thread = thread ∧ t.Active
  placed : ∀ i t, s.tasks[i]? = some t → t.Active → i ∈ s.frames t.thread
  nodup : ∀ thread, (s.frames thread).Nodup
  below : ∀ thread, ∀ i ∈ (s.frames thread).tail, ∀ t, s.tasks[i]? = some t → t.pc = .wait

variable {s s' : Client N} {i : ℕ} {t t' : Task N} {added : List (Task N)}

/-- An active task that does not wait is on top. -/
theorem Stacked.head (stacked : Stacked s) (here : s.tasks[i]? = some t) (active : t.Active)
    (busy : t.pc ≠ .wait) : (s.frames t.thread).head? = some i := by
  have member := stacked.placed i t here active
  cases frame : s.frames t.thread with
  | nil =>
      rw [frame] at member
      cases member
  | cons top rest =>
      rw [frame] at member
      rcases List.mem_cons.1 member with rfl | lower
      · rfl
      · exact absurd (stacked.below t.thread i (by rw [frame]; exact lower) t here) busy

section Set

variable (here : s.tasks[i]? = some t) (tasks : s'.tasks = s.tasks.set i t' ++ added)
include here tasks

theorem getElem?_moved : s'.tasks[i]? = some t' := by
  have inside : i < s.tasks.length := (List.getElem?_eq_some_iff.1 here).1
  rw [tasks, List.getElem?_append_left (by simpa using inside), List.getElem?_set_self inside]

omit here in
theorem getElem?_other {j : ℕ} {m : Task N} (apart : j ≠ i) (there : s.tasks[j]? = some m) :
    s'.tasks[j]? = some m := by
  have below : j < s.tasks.length := (List.getElem?_eq_some_iff.1 there).1
  rw [tasks, List.getElem?_append_left (by simpa using below), List.getElem?_set_ne apart.symm,
    there]

omit here in
/-- A task that is there after a move is the one that moved, an old one or a new one. -/
theorem getElem?_cases {j : ℕ} {m : Task N} (there : s'.tasks[j]? = some m) :
    j = i ∧ m = t' ∨ j ≠ i ∧ s.tasks[j]? = some m ∨ s.tasks.length ≤ j ∧ m ∈ added := by
  rw [tasks, List.getElem?_append] at there
  split at there
  · by_cases moved : j = i
    · subst moved
      rename_i inside
      rw [List.getElem?_set_self (by simpa using inside), Option.some.injEq] at there
      exact .inl ⟨rfl, there.symm⟩
    · rw [List.getElem?_set_ne (Ne.symm moved)] at there
      exact .inr (.inl ⟨moved, there⟩)
  · rename_i outside
    exact .inr (.inr ⟨by simpa using outside, List.mem_of_getElem? there⟩)

/-- The stacks stay as they are when an active task moves. -/
theorem Stacked.move (stacked : Stacked s) (thread : t'.thread = t.thread) (active : t.Active)
    (active' : t'.Active) (top : (s.frames t.thread).head? = some i)
    (fresh : ∀ m ∈ added, m.pc = .before .queued) (frames : s'.frames = s.frames) : Stacked s' := by
  have itself := getElem?_moved here tasks
  constructor
  case owned =>
    rw [frames]
    intro θ j member
    obtain ⟨m, there, own, busy⟩ := stacked.owned θ j member
    by_cases moved : j = i
    · subst moved
      rw [here, Option.some.injEq] at there
      subst there
      exact ⟨t', itself, thread.trans own, active'⟩
    · exact ⟨m, getElem?_other tasks moved there, own, busy⟩
  case placed =>
    rw [frames]
    intro j m there busy
    obtain ⟨rfl, rfl⟩ | ⟨-, there⟩ | ⟨-, new⟩ := getElem?_cases tasks there
    · rw [thread]
      exact stacked.placed j t here active
    · exact stacked.placed j m there busy
    · exact absurd (fresh m new) busy.1
  case nodup =>
    rw [frames]
    exact stacked.nodup
  case below =>
    rw [frames]
    intro θ j lower m there
    have apart : j ≠ i := by
      rintro rfl
      obtain ⟨m', here', own, -⟩ := stacked.owned θ j (List.mem_of_mem_tail lower)
      rw [here, Option.some.injEq] at here'
      subst here'
      subst own
      have nodup := stacked.nodup t.thread
      cases frame : s.frames t.thread with
      | nil => simp [frame] at top
      | cons head rest =>
          rw [frame] at top nodup lower
          cases top
          exact (List.nodup_cons.1 nodup).1 lower
    obtain ⟨rfl, rfl⟩ | ⟨-, there⟩ | ⟨outside, -⟩ := getElem?_cases tasks there
    · exact absurd rfl apart
    · exact stacked.below θ j lower m there
    · obtain ⟨m', there', -⟩ := stacked.owned θ j (List.mem_of_mem_tail lower)
      have := (List.getElem?_eq_some_iff.1 there').1
      omega

end Set

/-- A task that has not been started is on no stack. -/
theorem Stacked.absent (stacked : Stacked s) (here : s.tasks[i]? = some t)
    (pc : t.pc = .before .queued) : ∀ θ, i ∉ s.frames θ := by
  intro θ member
  obtain ⟨m, there, -, active⟩ := stacked.owned θ i member
  rw [here, Option.some.injEq] at there
  exact active.1 (there ▸ pc)

/-- A task is started on a thread that has none, or whose top task waits. -/
theorem Stacked.started (stacked : Stacked s) (here : s.tasks[i]? = some t) {thread : ℕ}
    (tasks : s'.tasks = s.tasks.set i { t with thread := thread, pc := .before .check })
    (pc : t.pc = .before .queued) (idle : s.Idle thread)
    (frames : s'.frames = Function.update s.frames thread (i :: s.frames thread)) :
    Stacked s' := by
  have tasks := tasks.trans (List.append_nil _).symm
  have itself := getElem?_moved here tasks
  have absent := stacked.absent here pc
  have frame : s'.frames thread = i :: s.frames thread := by rw [frames, Function.update_self]
  have other : ∀ θ, θ ≠ thread → s'.frames θ = s.frames θ := fun θ apart => by
    rw [frames, Function.update_of_ne apart]
  have kept : ∀ θ, ∀ j ∈ s.frames θ, ∃ m, s'.tasks[j]? = some m ∧ m.thread = θ ∧ m.Active := by
    intro θ j member
    obtain ⟨m, there, own, active⟩ := stacked.owned θ j member
    exact ⟨m, getElem?_other tasks (fun same => absent θ (same ▸ member)) there, own, active⟩
  constructor
  case owned =>
    intro θ j member
    by_cases at_thread : θ = thread
    · subst at_thread
      rw [frame] at member
      rcases List.mem_cons.1 member with rfl | lower
      · exact ⟨_, itself, rfl, by simp [Task.Active]⟩
      · exact kept θ j lower
    · rw [other θ at_thread] at member
      exact kept θ j member
  case placed =>
    intro j m there active
    obtain ⟨rfl, rfl⟩ | ⟨-, there⟩ | ⟨-, new⟩ := getElem?_cases tasks there
    · rw [frame]
      exact List.mem_cons_self
    · have old := stacked.placed j m there active
      by_cases at_thread : m.thread = thread
      · rw [at_thread, frame]
        exact List.mem_cons_of_mem _ (at_thread ▸ old)
      · rwa [other _ at_thread]
    · cases new
  case nodup =>
    intro θ
    by_cases at_thread : θ = thread
    · subst at_thread
      rw [frame]
      exact List.nodup_cons.2 ⟨absent θ, stacked.nodup θ⟩
    · rw [other θ at_thread]
      exact stacked.nodup θ
  case below =>
    intro θ j lower m there
    have old : s.tasks[j]? = some m → m.pc = .wait := by
      intro there
      by_cases at_thread : θ = thread
      · subst at_thread
        rw [frame, List.tail_cons] at lower
        cases under : s.frames θ with
        | nil => simp [under] at lower
        | cons head rest =>
            rw [under] at lower
            rcases List.mem_cons.1 lower with rfl | deeper
            · exact idle j (by simp [under]) m there
            · exact stacked.below θ j (by rw [under]; exact deeper) m there
      · rw [other θ at_thread] at lower
        exact stacked.below θ j lower m there
    obtain ⟨rfl, rfl⟩ | ⟨-, there⟩ | ⟨-, new⟩ := getElem?_cases tasks there
    · have member : j ∈ s.frames θ := by
        by_cases at_thread : θ = thread
        · subst at_thread
          rwa [frame, List.tail_cons] at lower
        · rw [other θ at_thread] at lower
          exact List.mem_of_mem_tail lower
      exact absurd member (absent θ)
    · exact old there
    · cases new

/-- A task that ends leaves its stack. -/
theorem Stacked.ended (stacked : Stacked s) (here : s.tasks[i]? = some t)
    (tasks : s'.tasks = s.tasks.set i { t with pc := .exited })
    (top : (s.frames t.thread).head? = some i)
    (frames : s'.frames = Function.update s.frames t.thread (s.frames t.thread).tail) :
    Stacked s' := by
  have tasks := tasks.trans (List.append_nil _).symm
  obtain ⟨rest, under⟩ : ∃ rest, s.frames t.thread = i :: rest := by
    cases frame : s.frames t.thread with
    | nil => simp [frame] at top
    | cons head rest =>
        rw [frame] at top
        cases top
        exact ⟨rest, rfl⟩
  have gone : i ∉ rest := (List.nodup_cons.1 (under ▸ stacked.nodup t.thread)).1
  have frame : s'.frames t.thread = rest := by rw [frames, Function.update_self, under, List.tail_cons]
  have other : ∀ θ, θ ≠ t.thread → s'.frames θ = s.frames θ := fun θ apart => by
    rw [frames, Function.update_of_ne apart]
  have left : ∀ θ, ∀ j ∈ s'.frames θ, j ∈ s.frames θ ∧ j ≠ i := by
    intro θ j member
    by_cases at_thread : θ = t.thread
    · subst at_thread
      rw [frame] at member
      exact ⟨under ▸ List.mem_cons_of_mem _ member, fun same => gone (same ▸ member)⟩
    · rw [other θ at_thread] at member
      refine ⟨member, ?_⟩
      rintro rfl
      obtain ⟨m, there, own, -⟩ := stacked.owned θ j member
      rw [here, Option.some.injEq] at there
      exact at_thread (there ▸ own.symm)
  constructor
  case owned =>
    intro θ j member
    obtain ⟨old, apart⟩ := left θ j member
    obtain ⟨m, there, own, active⟩ := stacked.owned θ j old
    exact ⟨m, getElem?_other tasks apart there, own, active⟩
  case placed =>
    intro j m there active
    obtain ⟨rfl, rfl⟩ | ⟨apart, there⟩ | ⟨-, new⟩ := getElem?_cases tasks there
    · exact absurd rfl active.2
    · have old := stacked.placed j m there active
      by_cases at_thread : m.thread = t.thread
      · rw [at_thread, under] at old
        rw [at_thread, frame]
        exact (List.mem_cons.1 old).resolve_left apart
      · rwa [other _ at_thread]
    · cases new
  case nodup =>
    intro θ
    by_cases at_thread : θ = t.thread
    · subst at_thread
      rw [frame]
      exact (List.nodup_cons.1 (under ▸ stacked.nodup t.thread)).2
    · rw [other θ at_thread]
      exact stacked.nodup θ
  case below =>
    intro θ j lower m there
    obtain ⟨-, apart⟩ := left θ j (List.mem_of_mem_tail lower)
    have deep : j ∈ (s.frames θ).tail := by
      by_cases at_thread : θ = t.thread
      · subst at_thread
        rw [frame] at lower
        rw [under, List.tail_cons]
        exact List.mem_of_mem_tail lower
      · rwa [other θ at_thread] at lower
    obtain ⟨rfl, -⟩ | ⟨-, there⟩ | ⟨-, new⟩ := getElem?_cases tasks there
    · exact absurd rfl apart
    · exact stacked.below θ j deep m there
    · cases new

theorem Stacked.shape (stacked : Stacked s) (here : s.tasks[i]? = some t) (top : s.OnTop i t)
    (shape : Shape s i t s') : Stacked s' := by
  have at_top : t.Active → (s.frames t.thread).head? = some i := fun active =>
    top.resolve_left active.1
  cases shape with
  | halted tasks frames =>
      exact ⟨by rw [tasks, frames]; exact stacked.owned, by rw [tasks, frames]; exact stacked.placed,
        by rw [frames]; exact stacked.nodup, by rw [tasks, frames]; exact stacked.below⟩
  | started thread tasks pc idle frames => exact stacked.started here tasks pc idle frames
  | moved tasks active active' frames =>
      exact stacked.move here (tasks.trans (List.append_nil _).symm) rfl active active'
        (at_top active) (by simp) frames
  | forked child tasks active active' frames =>
      exact stacked.move here tasks rfl active active' (at_top active) (by simp [Task.fresh]) frames
  | ended tasks active frames => exact stacked.ended here tasks (at_top active) frames

variable [DecidableEq N] {T : Tree N} {table : Slots PipeEnd} {pid : ℤ} {basePort : UInt16}

omit [DecidableEq N] in
theorem start_stacked : Stacked (start T table pid basePort) := by
  have only : ∀ i t, (start T table pid basePort).tasks[i]? = some t →
      i = 0 ∧ t = ⟨T.root, none, 0, .before .check⟩ := by
    intro i t here
    cases i with
    | zero => exact ⟨rfl, (Option.some.inj here).symm⟩
    | succ i => cases here
  have single : ∀ θ, (start T table pid basePort).frames θ = if θ = 0 then [0] else [] :=
    fun _ => rfl
  constructor
  case owned =>
    intro θ i member
    rw [single] at member
    split at member
    · rename_i zero
      obtain rfl := List.mem_singleton.1 member
      exact ⟨_, rfl, zero.symm, by simp [Task.Active]⟩
    · cases member
  case placed =>
    intro i t here _
    obtain ⟨rfl, rfl⟩ := only i t here
    exact List.mem_singleton.2 rfl
  case nodup =>
    intro θ
    rw [single]
    split <;> simp
  case below =>
    intro θ i lower
    rw [single] at lower
    split at lower <;> cases lower

/-- **The stacks of every reachable state are in order.** -/
theorem reachable_stacked (reachable : Reachable (step T) (start T table pid basePort) s) :
    Stacked s := by
  refine invariant reachable start_stacked fun s s' running stacked event => ?_
  cases event with
  | task here top event => exact stacked.shape here top event.shape
  | terminated here ended kill waitpid =>
      exact ⟨stacked.owned, stacked.placed, stacked.nodup, stacked.below⟩

/-! ## Who came later -/

/-- A rank that grows from a task to those of its group, and up every stack. -/
structure Ranking (s : Client N) (rank : ℕ → ℕ) : Prop where
  group : ∀ i t g, s.tasks[i]? = some t → t.group = some g → rank g < rank i
  stack : ∀ thread, (s.frames thread).Pairwise fun upper lower => rank lower < rank upper

namespace Ranking

variable {rank : ℕ → ℕ} (ranking : Ranking s rank)
include ranking

omit [DecidableEq N] in
/-- The top of a stack has the greatest rank of all. -/
theorem le_top {thread j top : ℕ} (head : (s.frames thread).head? = some top)
    (member : j ∈ s.frames thread) : rank j ≤ rank top := by
  have ordered := ranking.stack thread
  cases frame : s.frames thread with
  | nil => simp [frame] at head
  | cons first rest =>
      rw [frame] at head member ordered
      cases head
      rcases List.mem_cons.1 member with rfl | lower
      · exact le_rfl
      · exact (List.rel_of_pairwise_cons ordered lower).le

omit [DecidableEq N] in
/-- Ranks may change where no stack looks. -/
theorem stack_update {j : ℕ} (absent : ∀ thread, j ∉ s.frames thread) (value : ℕ) (thread : ℕ) :
    (s.frames thread).Pairwise fun upper lower =>
      Function.update rank j value lower < Function.update rank j value upper := by
  refine (ranking.stack thread).imp_of_mem fun {upper lower} up low less => ?_
  have low_ne : lower ≠ j := fun same => absent thread (same ▸ low)
  have up_ne : upper ≠ j := fun same => absent thread (same ▸ up)
  rwa [Function.update_of_ne low_ne, Function.update_of_ne up_ne]

/-- A task that has just been started ranks above its stack. -/
theorem started (sound : Sound T s) (stacked : Stacked s) (here : s.tasks[i]? = some t)
    {thread : ℕ}
    (tasks : s'.tasks = s.tasks.set i { t with thread := thread, pc := .before .check })
    (pc : t.pc = .before .queued)
    (frames : s'.frames = Function.update s.frames thread (i :: s.frames thread)) :
    Ranking s' (Function.update rank i (rank i + total rank (s.frames thread) + 1)) := by
  have absent := stacked.absent here pc
  -- A task that has not been started has sent nothing, so it has opened no group.
  have childless : ∀ m ∈ s.tasks, m.group ≠ some i := by
    intro m member grouped
    have above := sound.group_parent here member grouped
    obtain ⟨e, logged, same, -⟩ := sound.log.above m member t.node above
    exact sound.log.unsent t (List.mem_of_getElem? here) .queued pc (by simp)
      (same ▸ List.mem_map_of_mem logged)
  constructor
  case group =>
    intro j m g there grouped
    obtain ⟨rfl, rfl⟩ | ⟨apart, there⟩ | ⟨-, new⟩ :=
      getElem?_cases (tasks.trans (List.append_nil _).symm) there
    · have less := ranking.group j t g here grouped
      have apart : g ≠ j := by
        rintro rfl
        omega
      rw [Function.update_self, Function.update_of_ne apart]
      omega
    · have other : g ≠ i := by
        rintro rfl
        exact childless m (List.mem_of_getElem? there) grouped
      rw [Function.update_of_ne apart, Function.update_of_ne other]
      exact ranking.group j m g there grouped
    · cases new
  case stack =>
    intro θ
    rw [frames]
    by_cases at_thread : θ = thread
    · subst at_thread
      rw [Function.update_self]
      refine List.pairwise_cons.2 ⟨fun lower member => ?_, ranking.stack_update absent _ θ⟩
      have bound := le_total (f := rank) member
      have apart : lower ≠ i := fun same => absent θ (same ▸ member)
      rw [Function.update_self, Function.update_of_ne apart]
      omega
    · rw [Function.update_of_ne at_thread]
      exact ranking.stack_update absent _ θ

/-- A task that has just been opened ranks above the one that opened it. -/
theorem forked (sound : Sound T s) (stacked : Stacked s) (here : s.tasks[i]? = some t) {pc : Pc N}
    {child : N}
    (tasks : s'.tasks = s.tasks.set i { t with pc := pc } ++ [Task.fresh child (some i)])
    (frames : s'.frames = s.frames) :
    Ranking s' (Function.update rank s.tasks.length (rank i + 1)) := by
  have inside : i < s.tasks.length := (List.getElem?_eq_some_iff.1 here).1
  have absent : ∀ θ, s.tasks.length ∉ s.frames θ := by
    intro θ member
    obtain ⟨m, there, -⟩ := stacked.owned θ _ member
    simp at there
  have old : ∀ j m g, s.tasks[j]? = some m → m.group = some g →
      Function.update rank s.tasks.length (rank i + 1) g <
        Function.update rank s.tasks.length (rank i + 1) j := by
    intro j m g there grouped
    have below := (List.getElem?_eq_some_iff.1 there).1
    obtain ⟨t', opener, -⟩ := sound.pool.member m (List.mem_of_getElem? there) g grouped
    have below' := (List.getElem?_eq_some_iff.1 opener).1
    rw [Function.update_of_ne (by omega), Function.update_of_ne (by omega)]
    exact ranking.group j m g there grouped
  constructor
  case group =>
    intro j m g there grouped
    obtain ⟨rfl, rfl⟩ | ⟨-, there⟩ | ⟨outside, new⟩ := getElem?_cases tasks there
    · exact old j t g here grouped
    · exact old j m g there grouped
    · obtain rfl := List.mem_singleton.1 new
      obtain rfl : i = g := Option.some.inj grouped
      have last : j = s.tasks.length := by
        have := (List.getElem?_eq_some_iff.1 there).1
        rw [tasks] at this
        simp at this
        omega
      rw [last, Function.update_self, Function.update_of_ne (by omega)]
      omega
  case stack =>
    rw [frames]
    exact ranking.stack_update absent _

end Ranking

theorem exists_ranking (sound : Sound T s) (stacked : Stacked s) (here : s.tasks[i]? = some t)
    (shape : Shape s i t s') (ranked : ∃ rank, Ranking s rank) : ∃ rank, Ranking s' rank := by
  obtain ⟨rank, ranking⟩ := ranked
  have kept : ∀ {pc : Pc N}, s'.tasks = s.tasks.set i { t with pc := pc } →
      ∀ j m g, s'.tasks[j]? = some m → m.group = some g → rank g < rank j := by
    intro pc tasks j m g there grouped
    obtain ⟨rfl, rfl⟩ | ⟨-, there⟩ | ⟨-, new⟩ :=
      getElem?_cases (tasks.trans (List.append_nil _).symm) there
    · exact ranking.group j t g here grouped
    · exact ranking.group j m g there grouped
    · cases new
  cases shape with
  | halted tasks frames =>
      exact ⟨rank, tasks ▸ ranking.group, frames ▸ ranking.stack⟩
  | started thread tasks pc idle frames =>
      exact ⟨_, ranking.started sound stacked here tasks pc frames⟩
  | moved tasks active active' frames => exact ⟨rank, kept tasks, frames ▸ ranking.stack⟩
  | forked child tasks active active' frames =>
      exact ⟨_, ranking.forked sound stacked here tasks frames⟩
  | ended tasks active frames =>
      refine ⟨rank, kept tasks, fun θ => ?_⟩
      rw [frames]
      by_cases at_thread : θ = t.thread
      · rw [at_thread, Function.update_self]
        exact (ranking.stack t.thread).tail
      · rw [Function.update_of_ne at_thread]
        exact ranking.stack θ

/-- **In every reachable state the tasks can be ranked.** -/
theorem reachable_ranked (reachable : Reachable (step T) (start T table pid basePort) s) :
    ∃ rank, Ranking s rank := by
  obtain ⟨-, -, ranked⟩ : Sound T s ∧ Stacked s ∧ ∃ rank, Ranking s rank := by
    refine invariant (P := fun s => Sound T s ∧ Stacked s ∧ ∃ rank, Ranking s rank) reachable
      ⟨start_sound table pid basePort, start_stacked, fun _ => 0, ?_, ?_⟩ ?_
    · intro i t g here grouped
      cases i with
      | zero =>
          cases here
          cases grouped
      | succ i => cases here
    · intro θ
      show (if θ = 0 then [0] else []).Pairwise _
      split <;> simp
    · rintro s s' - ⟨sound, stacked, ranked⟩ event
      cases event with
      | task here top event =>
          exact ⟨sound.taskEvent here event, stacked.shape here top event.shape,
            exists_ranking sound stacked here event.shape ranked⟩
      | terminated here ended kill waitpid =>
          obtain ⟨rank, ranking⟩ := ranked
          exact ⟨sound.of_fields rfl rfl rfl rfl rfl sound.log.ok,
            ⟨stacked.owned, stacked.placed, stacked.nodup, stacked.below⟩,
            rank, ranking.group, ranking.stack⟩
  exact ranked

end Enuwatch.Sync

import Enuwatch.Sync.Threads
import Enuwatch.Sync.Traversal

/-!
# Locks

The tasks and the display nest three kinds of locks: a display goes down the tree and holds
the mutex of every node on its path, a task that opens a group holds the mutex of its node,
and `bubble` holds the entry of a node while it waits for the mutex of the parent. No two
threads of a reachable state wait for each other, directly or round a cycle, and a display
finds no node on its way that is gone (`no_deadlock`).

A thread whose task wants a lock waits for one whose task is nearer to letting go
(`Task.level`); a thread that waits for a group waits for a task of a higher rank.
-/

set_option autoImplicit false

namespace Enuwatch.Sync

open Enuwatch.Lib

variable {N : Type}

/-- The mutex that the next action of a task may have to wait for. -/
def Task.wants (T : Tree N) (t : Task N) : Option N :=
  match t.pc with
  -- A `tick` may start a display.
  | .before (.send _) => some T.root
  | .before (.draw _ ((_, child :: _) :: _)) => some child
  | .remove => T.parent t.node
  | .detach node => T.parent node
  | .lock => some t.node
  | _ => none

/-- The entry of `pending` that the next action of a task asks for. -/
def Task.seeks (t : Task N) : Option N :=
  match t.pc with
  | .find node => some node
  | _ => none

/-- Task `i`, which is `t`, cannot go on, or may not, before `m` has. -/
def WaitsFor (T : Tree N) (i : ℕ) (t m : Task N) : Prop :=
  (∃ n, t.wants T = some n ∧ n ∈ m.locks) ∨ (∃ n, t.seeks = some n ∧ m.accessor = some n) ∨
    t.pc = .wait ∧ m.group = some i ∧ m.pc ≠ .exited

/-- The thread `θ` waits for the thread `φ`: its top task waits for one on the stack of `φ`. -/
def Blocks (T : Tree N) (s : Client N) (θ φ : ℕ) : Prop :=
  ∃ i t j m, (s.frames θ).head? = some i ∧ s.tasks[i]? = some t ∧ j ∈ s.frames φ ∧
    s.tasks[j]? = some m ∧ WaitsFor T i t m

/-- How many locks a task may still have to wait for, one after the other. -/
def Task.level (t : Task N) : ℕ :=
  match t.pc with
  | .find _ => 3
  | .before (.send _) => 2
  | .remove => 2
  | .detach _ => 2
  | .lock => 2
  | .before (.draw _ _) => 1
  | _ => 0

/-! ## The display -/

/-- There is one display at a time, and it goes down the tree. -/
structure Display (T : Tree N) (s : Client N) : Prop where
  alone : ∀ (i j : ℕ) (t m : Task N), s.tasks[i]? = some t → s.tasks[j]? = some m →
    t.draws = true → m.draws = true → i = j
  descends : ∀ t ∈ s.tasks, ∀ seq visits, t.pc = .before (.draw seq visits) →
    (visits.map fun v => T.depth v.1).Pairwise (· > ·)

variable {T : Tree N} {s s' : Client N} {i : ℕ} {t t' : Task N} {added : List (Task N)}

theorem Display.set (display : Display T s) (here : s.tasks[i]? = some t)
    (tasks : s'.tasks = s.tasks.set i t' ++ added) (fresh : ∀ m ∈ added, m.pc = .before .queued)
    (own : t'.draws = true → t.draws = true ∨ ∀ m ∈ s.tasks, m.draws = false)
    (descends : ∀ seq visits, t'.pc = .before (.draw seq visits) →
      (visits.map fun v => T.depth v.1).Pairwise (· > ·)) : Display T s' := by
  have still : ∀ m ∈ added, m.draws = false := fun m new => by simp [Task.draws, fresh m new]
  constructor
  case alone =>
    -- A task that draws after the step drew before it, or nobody did.
    have before : ∀ j m, s'.tasks[j]? = some m → m.draws = true →
        j = i ∨ j ≠ i ∧ s.tasks[j]? = some m := by
      intro j m there draws
      obtain ⟨rfl, -⟩ | old | ⟨-, new⟩ := getElem?_cases tasks there
      · exact .inl rfl
      · exact .inr old
      · simp [still m new] at draws
    have itself : ∀ j m, j ≠ i → s.tasks[j]? = some m → m.draws = true → t'.draws ≠ true := by
      intro j m apart there draws draws'
      rcases own draws' with drew | none
      · exact apart (display.alone j i m t there here draws drew)
      · simp [none m (List.mem_of_getElem? there)] at draws
    have moved := getElem?_moved here tasks
    intro j k m n there there' draws draws'
    obtain rfl | ⟨apart, old⟩ := before j m there draws
    · rw [moved, Option.some.injEq] at there
      subst there
      obtain rfl | ⟨apart', old'⟩ := before k n there' draws'
      · rfl
      · exact absurd draws (itself k n apart' old' draws')
    · obtain rfl | ⟨apart', old'⟩ := before k n there' draws'
      · rw [moved, Option.some.injEq] at there'
        subst there'
        exact absurd draws' (itself j m apart old draws)
      · exact display.alone j k m n old old' draws draws'
  case descends =>
    rw [tasks]
    refine List.forall_mem_append.2 ⟨forall_mem_set display.descends descends i, ?_⟩
    intro m new seq visits pc
    simp [fresh m new] at pc

theorem Display.of_still (display : Display T s) (here : s.tasks[i]? = some t)
    (tasks : s'.tasks = s.tasks.set i t' ++ added) (fresh : ∀ m ∈ added, m.pc = .before .queued)
    (still : t'.draws = false) : Display T s' := by
  refine display.set here tasks fresh (by simp [still]) fun seq visits pc => ?_
  simp [Task.draws, pc] at still

variable [DecidableEq N]

theorem Display.taskEvent (display : Display T s) (sound : Sound T s)
    (here : s.tasks[i]? = some t) (event : TaskEvent T s i t s') : Display T s' := by
  have member := List.mem_of_getElem? here
  have located := sound.books.located t member
  rw [At] at located
  have drew : ∀ {visits seq}, t.pc = .before (.draw seq visits) → t.draws = true := by
    intro visits seq pc
    rw [Task.draws, pc]
  cases event with
  | drawn pc alone free =>
      refine display.set here (List.append_nil _).symm (by simp) (fun _ => .inr alone) ?_
      rintro _ _ ⟨⟩
      simp
  | entered pc free =>
      rename_i seq node child rest path
      rw [pc] at located
      have chain := display.descends t member _ _ pc
      have listed : child ∈ s.children node := located.1 List.mem_cons_self
      have deeper := T.depth_of_parent (T.mem_children.1 ((sound.books.sublist node).subset listed))
      refine display.set here (List.append_nil _).symm (by simp) (fun _ => .inl (drew pc)) ?_
      rintro _ _ ⟨⟩
      simp only [List.map_cons, List.pairwise_cons, List.mem_map, forall_exists_index, and_imp,
        forall_apply_eq_imp_iff₂, List.mem_cons, forall_eq_or_imp] at chain ⊢
      refine ⟨⟨by omega, fun v inside => ?_⟩, chain⟩
      have := chain.1 v inside
      omega
  | skipped pc =>
      have chain := display.descends t member _ _ pc
      refine display.set here (List.append_nil _).symm (by simp) (fun _ => .inl (drew pc)) ?_
      rintro _ _ ⟨⟩
      exact chain
  | left pc =>
      have chain := display.descends t member _ _ pc
      refine display.set here (List.append_nil _).symm (by simp) (fun _ => .inl (drew pc)) ?_
      rintro _ _ ⟨⟩
      exact (List.pairwise_cons.1 chain).2
  | spawned pc =>
      exact display.of_still here rfl (by simp [Task.fresh]) (by simp [Task.draws])
  | cut | died | orphan | lost | stray => exact ⟨display.alone, display.descends⟩
  | _ =>
      exact display.of_still here (List.append_nil _).symm (by simp) (by simp [Task.draws])

variable {table : Slots PipeEnd} {pid : ℤ} {basePort : UInt16}

theorem reachable_display (reachable : Reachable (step T) (start T table pid basePort) s) :
    Display T s := by
  obtain ⟨-, display⟩ : Sound T s ∧ Display T s := by
    refine invariant (P := fun s => Sound T s ∧ Display T s) reachable
      ⟨start_sound table pid basePort, ?_, ?_⟩ ?_
    · intro i j t m here
      cases i with
      | zero =>
          cases here
          simp [Task.draws]
      | succ i => cases here
    · simp [start]
    · rintro s s' - ⟨sound, display⟩ event
      cases event with
      | task here top event =>
          exact ⟨sound.taskEvent here event, display.taskEvent sound here event⟩
      | terminated here ended kill waitpid =>
          exact ⟨sound.of_fields rfl rfl rfl rfl rfl sound.log.ok, display.alone, display.descends⟩
  exact display

/-! ## Waiting -/

omit [DecidableEq N] in
/-- Whoever holds a lock is at work. -/
theorem active_of_locks {m : Task N} {n : N} (locked : n ∈ m.locks) :
    m.Active ∧ m.pc ≠ .wait ∧ m.level ≤ 1 := by
  rw [Task.locks] at locked
  split at locked
  case h_1 pc => simp [Task.Active, Task.level, pc]
  case h_2 pc => simp [Task.Active, Task.level, pc]
  case h_3 => cases locked

omit [DecidableEq N] in
theorem active_of_accessor {m : Task N} {n : N} (held : m.accessor = some n) :
    m.Active ∧ m.pc ≠ .wait ∧ m.level ≤ 2 := by
  rw [Task.accessor] at held
  split at held
  case h_1 pc => simp [Task.Active, Task.level, pc]
  case h_2 pc => simp [Task.Active, Task.level, pc]
  case h_3 pc => simp [Task.Active, Task.level, pc]
  case h_4 => cases held

/-- A display does not hold the mutex of the child it is about to enter. -/
theorem Display.child_not_locked (display : Display T s) (sound : Sound T s) (member : t ∈ s.tasks)
    {seq : UInt32} {node child : N} {rest : List N} {path : List (N × List N)}
    (pc : t.pc = .before (.draw seq ((node, child :: rest) :: path))) : child ∉ t.locks := by
  intro locked
  have located := sound.books.located t member
  rw [At, pc] at located
  have listed : child ∈ s.children node := located.1 List.mem_cons_self
  have deeper := T.depth_of_parent (T.mem_children.1 ((sound.books.sublist node).subset listed))
  have chain := display.descends t member _ _ pc
  simp only [List.map_cons, List.pairwise_cons, List.mem_map, forall_exists_index, and_imp,
    forall_apply_eq_imp_iff₂] at chain
  simp only [Task.locks, pc, List.map_cons, List.mem_cons, List.mem_map] at locked
  obtain same | ⟨v, inside, same⟩ := locked
  · rw [same] at deeper
    omega
  · have := chain.1 v inside
    rw [same] at this
    omega

/-- A task that wants a lock waits for one that is nearer to letting go. -/
theorem level_lt_of_locked (display : Display T s) (sound : Sound T s)
    (here : s.tasks[i]? = some t) {j : ℕ} {m : Task N} (there : s.tasks[j]? = some m) {n : N}
    (wanted : t.wants T = some n) (locked : n ∈ m.locks) : m.level < t.level := by
  obtain ⟨-, -, low⟩ := active_of_locks locked
  rw [Task.wants] at wanted
  split at wanted
  case h_2 seq node child rest path pc =>
    cases wanted
    have drawing : t.level = 1 := by rw [Task.level, pc]
    have other : m.draws ≠ true := by
      intro draws
      obtain rfl := display.alone i j t m here there (by rw [Task.draws, pc]) draws
      rw [here, Option.some.injEq] at there
      exact display.child_not_locked sound (List.mem_of_getElem? here) pc (there ▸ locked)
    have spawns : m.level = 0 := by
      rw [Task.locks] at locked
      split at locked
      case h_1 pc => exact absurd (by rw [Task.draws, pc]) other
      case h_2 pc => rw [Task.level, pc]
      case h_3 => cases locked
    omega
  case h_6 => cases wanted
  case h_1 pc | h_3 pc | h_4 pc | h_5 pc =>
    have high : t.level = 2 := by rw [Task.level, pc]
    omega

section Chain

variable {rank : ℕ → ℕ} {θ φ : ℕ} {j : ℕ} {m : Task N}

/-- A thread whose top task wants a lock waits for the top task of the other thread. -/
theorem Blocks.busy (display : Display T s) (sound : Sound T s) (stacked : Stacked s)
    (blocks : Blocks T s θ φ) (top : (s.frames θ).head? = some i) (here : s.tasks[i]? = some t)
    (busy : t.pc ≠ .wait) :
    ∃ j m, (s.frames φ).head? = some j ∧ s.tasks[j]? = some m ∧ m.pc ≠ .wait ∧
      m.level < t.level := by
  obtain ⟨i', t', j, m, top', here', inside, there, waits⟩ := blocks
  rw [top, Option.some.injEq] at top'
  subst top'
  rw [here, Option.some.injEq] at here'
  subst here'
  obtain ⟨m', there', own, -⟩ := stacked.owned φ j inside
  rw [there, Option.some.injEq] at there'
  subst there'
  obtain ⟨active, working, lower⟩ : m.Active ∧ m.pc ≠ .wait ∧ m.level < t.level := by
    obtain ⟨n, wanted, locked⟩ | ⟨n, sought, held⟩ | ⟨waiting, -⟩ := waits
    · obtain ⟨active, working, -⟩ := active_of_locks locked
      exact ⟨active, working, level_lt_of_locked display sound here there wanted locked⟩
    · obtain ⟨active, working, low⟩ := active_of_accessor held
      have high : t.level = 3 := by
        rw [Task.seeks] at sought
        split at sought
        case h_1 pc => rw [Task.level, pc]
        case h_2 => cases sought
      exact ⟨active, working, by omega⟩
    · exact absurd waiting busy
  exact ⟨j, m, own ▸ stacked.head there active working, there, working, lower⟩

omit [DecidableEq N] in
/-- A thread that waits for a group waits for a thread whose top task ranks higher. -/
theorem Blocks.waiting (ranking : Ranking s rank) (blocks : Blocks T s θ φ)
    (top : (s.frames θ).head? = some i) (here : s.tasks[i]? = some t) (waits : t.pc = .wait) :
    ∃ j, (s.frames φ).head? = some j ∧ rank i < rank j := by
  obtain ⟨i', t', j, m, top', here', inside, there, reason⟩ := blocks
  rw [top, Option.some.injEq] at top'
  subst top'
  rw [here, Option.some.injEq] at here'
  subst here'
  have grouped : m.group = some i := by
    obtain ⟨n, wanted, -⟩ | ⟨n, sought, -⟩ | ⟨-, grouped, -⟩ := reason
    · simp [Task.wants, waits] at wanted
    · simp [Task.seeks, waits] at sought
    · exact grouped
  obtain ⟨k, head⟩ : ∃ k, (s.frames φ).head? = some k := by
    cases frame : s.frames φ with
    | nil => simp [frame] at inside
    | cons k rest => exact ⟨k, rfl⟩
  exact ⟨k, head, (ranking.group j m i there grouped).trans_le (ranking.le_top head inside)⟩

/-- Along a chain of threads that wait for each other, the top tasks come nearer to letting
go of their locks, or rank higher and higher. -/
theorem chain_advances (display : Display T s) (sound : Sound T s) (stacked : Stacked s)
    (ranking : Ranking s rank) (chain : Relation.TransGen (Blocks T s) θ φ)
    (top : (s.frames θ).head? = some i) (here : s.tasks[i]? = some t) :
    ∃ j m, (s.frames φ).head? = some j ∧ s.tasks[j]? = some m ∧
      (m.pc = .wait → t.pc = .wait ∧ rank i < rank j) ∧
      (m.pc ≠ .wait → t.pc ≠ .wait → m.level < t.level) := by
  have step : ∀ {θ φ i t}, Blocks T s θ φ → (s.frames θ).head? = some i → s.tasks[i]? = some t →
      ∃ j m, (s.frames φ).head? = some j ∧ s.tasks[j]? = some m ∧
        (m.pc = .wait → t.pc = .wait ∧ rank i < rank j) ∧
        (m.pc ≠ .wait → t.pc ≠ .wait → m.level < t.level) := by
    intro θ φ i t blocks top here
    by_cases waits : t.pc = .wait
    · obtain ⟨j, head, higher⟩ := blocks.waiting ranking top here waits
      obtain ⟨m, there, -⟩ := stacked.owned φ j (List.mem_of_mem_head? head)
      exact ⟨j, m, head, there, fun _ => ⟨waits, higher⟩, fun _ busy => absurd waits busy⟩
    · obtain ⟨j, m, head, there, working, lower⟩ :=
        blocks.busy display sound stacked top here waits
      exact ⟨j, m, head, there, fun waiting => absurd waiting working, fun _ _ => lower⟩
  induction chain with
  | single blocks => exact step blocks top here
  | tail _ blocks ih =>
      obtain ⟨j, m, head, there, higher, lower⟩ := ih
      obtain ⟨k, n, head', there', higher', lower'⟩ := step blocks head there
      refine ⟨k, n, head', there', fun waits => ?_, fun busy busy' => ?_⟩
      · obtain ⟨waits', more⟩ := higher' waits
        obtain ⟨waits'', less⟩ := higher waits'
        exact ⟨waits'', less.trans more⟩
      · have working : m.pc ≠ .wait := fun waits => busy' (higher waits).1
        exact (lower' busy working).trans (lower working busy')

end Chain

/-- **No two threads wait for each other, and a display never meets a node that is gone**, in
any reachable state. -/
theorem no_deadlock (reachable : Reachable (step T) (start T table pid basePort) s) :
    (∀ θ, ¬ Relation.TransGen (Blocks T s) θ θ) ∧
      ∀ t ∈ s.tasks, ∀ seq visits, t.pc = .before (.draw seq visits) →
        ∀ v ∈ visits, v.1 ∉ s.removed ∧ ∀ c ∈ v.2, c ∉ s.removed := by
  obtain ⟨sound, -⟩ := reachable_sound reachable
  constructor
  · intro θ cycle
    obtain ⟨rank, ranking⟩ := reachable_ranked reachable
    obtain ⟨i, t, top, here⟩ : ∃ i t, (s.frames θ).head? = some i ∧ s.tasks[i]? = some t := by
      obtain ⟨φ, ⟨i, t, -, -, top, here, -⟩, -⟩ := Relation.TransGen.head'_iff.1 cycle
      exact ⟨i, t, top, here⟩
    obtain ⟨j, m, top', there, higher, lower⟩ := chain_advances (reachable_display reachable) sound
      (reachable_stacked reachable) ranking cycle top here
    rw [top, Option.some.injEq] at top'
    subst top'
    rw [here, Option.some.injEq] at there
    subst there
    by_cases waits : t.pc = .wait
    · exact absurd (higher waits).2 (lt_irrefl _)
    · exact absurd (lower waits waits) (lt_irrefl _)
  · intro t member seq visits pc
    have located := sound.books.located t member
    rw [At, pc] at located
    exact sound.visits_stay located

/-- The sample tree with a byte in its file. -/
def loadedTree : Tree (Fin 3) :=
  { sampleTree with
    info := fun n =>
      if (sampleTree.info n).ftype = .regular then { sampleTree.info n with fsize := 1 }
      else sampleTree.info n
    kept := by decide
    children_of_regular := by decide
    root_directory := by decide
    named := by decide }

def loadedStart : Client (Fin 3) :=
  start loadedTree ⟨[some .other, some .other, some .other]⟩ 7 50000

/-- The file is being sent when a display of the progress begins. -/
def displayInputs : List Input :=
  goOn 0 5 ++ [sampleSend 0 0] ++ goOn 0 6 ++
    [.task 1 (.start 1), .task 2 (.start 0)] ++ goOn 2 5 ++ [.task 2 .draw]

/-- Both children of the sample are at work and the root waits for them; the second child is inside
a display that holds the mutex of the root. -/
theorem no_deadlock_sample :
    ∃ s, run (step loadedTree) loadedStart displayInputs = some s ∧ s.frames 0 = [2, 0] ∧
      s.frames 1 = [1] ∧ s.tasks[2]?.map Task.locks = some [0] ∧
      ∀ θ, ¬ Relation.TransGen (Blocks loadedTree s) θ θ := by
  have facts : ∀ s ∈ run (step loadedTree) loadedStart displayInputs, s.frames 0 = [2, 0] ∧
      s.frames 1 = [1] ∧ s.tasks[2]?.map Task.locks = some [0] := by
    decide +kernel
  obtain ⟨s, reaches⟩ : ∃ s, run (step loadedTree) loadedStart displayInputs = some s :=
    Option.isSome_iff_exists.1 (by decide +kernel)
  have reachable : Reachable (step loadedTree)
      (start loadedTree ⟨[some .other, some .other, some .other]⟩ 7 50000) s :=
    ⟨_, reaches⟩
  obtain ⟨first, second, locks⟩ := facts s reaches
  exact ⟨s, reaches, first, second, locks, (no_deadlock reachable).1⟩

end Enuwatch.Sync

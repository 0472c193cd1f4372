import Enuwatch.Sync.Invariant

/-!
# Exactly-once parallel traversal

Whatever the interleaving of the tasks, the traversal of `sync_with_remote` never loses
count: `bubble` finds every counter it looks for, no task comes near a node that is gone,
a node is sent once and after its parent, and a directory goes when all below it has been
sent. When all messages go out, every node was sent exactly once, every node but the root
was unlinked exactly once, and the root is left without children (`traversal_ok`).
-/

set_option autoImplicit false

namespace Enuwatch.Sync

open Enuwatch.Lib

/-- The nodes that the next action of a task dereferences. `find` and `erase` look an entry
up by the address alone. -/
def Task.touches {N : Type} (T : Tree N) (t : Task N) : List N :=
  match t.pc with
  | .before (.draw _ visits) => t.node :: visits.flatMap fun v => v.1 :: v.2
  | .before _ => [t.node]
  | .dispatch => [t.node]
  | .remove => t.node :: (T.parent t.node).toList
  -- The parent is read from the node when the counter has come to zero.
  | .decrement node => [node]
  | .detach node => node :: (T.parent node).toList
  | .emplace _ => [t.node]
  | .lock => [t.node]
  | .spawn rest => t.node :: rest
  | _ => []

variable {N : Type} [DecidableEq N] (T : Tree N) (s : Client N)

/-- The root task has returned. -/
def Client.Finished (s : Client N) : Prop := ∃ t, s.tasks[0]? = some t ∧ t.pc = .exited

/-- What the traversal guarantees in a state. -/
structure TraversalOk : Prop where
  /-- `bubble` finds the entry it looks for, and its counter is at least one. -/
  found : ∀ t ∈ s.tasks, ∀ p, t.pc = .find p ∨ t.pc = .decrement p →
    ∃ c, s.pending p = some c ∧ 1 ≤ c
  defined : s.status ≠ .undefined
  /-- A node that a task touches is there, and so is everything above it. -/
  alive : ∀ t ∈ s.tasks, ∀ x ∈ t.touches T, ∀ a, T.Below a x → a ∉ s.removed
  sentOnce : (s.sends.map (·.node)).Nodup
  parentFirst : ∀ before e after, s.sends = before ++ e :: after →
    ∀ p, T.parent e.node = some p → ∃ e' ∈ before, e'.node = p ∧ e'.Success
  /-- What is gone was sent with all below it. -/
  removedSent : ∀ x ∈ s.removed, ∀ y, T.Below x y → s.SentOk y
  removedOnce : s.removed.Nodup
  finished : s.AllSent → s.Finished →
    (∀ n, (s.sends.map (·.node)).count n = 1) ∧
      (∀ n, n ≠ T.root → s.removed.count n = 1) ∧ s.children T.root = []

variable {T s}

namespace Sound

variable (sound : Sound T s) {t : Task N}
include sound

/-- With a node everything below it is gone. -/
theorem removed_below {x y : N} (gone : x ∈ s.removed) (below : T.Below x y) : y ∈ s.removed := by
  induction below with
  | refl => exact gone
  | tail _ above ih =>
      refine (sound.books.removed _).2 ⟨_, above, ?_⟩
      simp [(sound.books.closed _ ih).2.1]

theorem alive_of_not_removed {x : N} (stays : x ∉ s.removed) (a : N) (below : T.Below a x) :
    a ∉ s.removed :=
  fun gone => stays (sound.removed_below gone below)

/-- A child on a list is there, and so is the node whose list it is. -/
theorem stays_of_listed {x p : N} (listed : x ∈ s.children p) :
    x ∉ s.removed ∧ p ∉ s.removed := by
  have above := T.mem_children.1 ((sound.books.sublist p).subset listed)
  constructor
  · intro gone
    obtain ⟨p', above', off⟩ := (sound.books.removed x).1 gone
    rw [above, Option.some.injEq] at above'
    exact off (above' ▸ listed)
  · intro gone
    rw [(sound.books.closed p gone).2.1] at listed
    cases listed

theorem visits_stay {visits : List (N × List N)} (visiting : Visiting T s visits) :
    ∀ v ∈ visits, v.1 ∉ s.removed ∧ ∀ c ∈ v.2, c ∉ s.removed := by
  induction visits with
  | nil => simp
  | cons v path ih =>
      obtain ⟨later, stays, -, deeper⟩ := visiting
      intro w inside
      rcases List.mem_cons.1 inside with rfl | rest
      · exact ⟨stays, fun c next => (sound.stays_of_listed (later next)).1⟩
      · exact ih deeper w rest

/-- No task touches a node that is gone. -/
theorem touches_stay (member : t ∈ s.tasks) {x : N} (touched : x ∈ t.touches T) :
    x ∉ s.removed := by
  have located := sound.books.located t member
  rw [At] at located
  have own : ¬ t.Beyond → t.node ∉ s.removed := sound.not_removed member
  have parent : ∀ {y}, y ∉ s.removed → ∀ q ∈ T.parent y, q ∉ s.removed := by
    intro y stays q above
    have listed : y ∈ s.children q := by
      by_contra off
      exact stays ((sound.books.removed y).2 ⟨q, above, off⟩)
    exact (sound.stays_of_listed listed).2
  rw [Task.touches] at touched
  cases pc : t.pc with
  | before prep =>
      have here := own (by simp [Task.Beyond, pc])
      rw [pc] at touched located
      cases prep with
      | draw seq visits =>
          rcases List.mem_cons.1 touched with rfl | visited
          · exact here
          · obtain ⟨v, inside, at_v⟩ := List.mem_flatMap.1 visited
            obtain ⟨stays, later⟩ := sound.visits_stay located v inside
            rcases List.mem_cons.1 at_v with rfl | next
            · exact stays
            · exact later x next
      | _ => exact List.mem_singleton.1 touched ▸ here
  | remove =>
      have here := own (by simp [Task.Beyond, pc])
      rw [pc] at touched
      rcases List.mem_cons.1 touched with rfl | above
      · exact here
      · exact parent here x (Option.mem_toList.1 above)
  | decrement p =>
      rw [pc] at touched
      obtain ⟨c, entry, counted⟩ := sound.of_debt member (p := p) (by simp [Task.debt, pc])
      rw [List.mem_singleton.1 touched]
      exact sound.not_removed_of_count entry (by omega)
  | detach p =>
      rw [pc] at touched located
      rcases List.mem_cons.1 touched with rfl | above
      · exact located.2.2.1
      · exact parent located.2.2.1 x (Option.mem_toList.1 above)
  | spawn rest =>
      rw [pc] at touched
      rcases List.mem_cons.1 touched with rfl | later
      · exact own (by simp [Task.Beyond, pc])
      · intro gone
        obtain ⟨e, logged, same, -⟩ := (sound.books.closed x gone).1
        refine sound.pool.fresh t member x ?_ (same ▸ sound.log.tasked e logged)
        rwa [Task.unspawned, pc]
  | dispatch | emplace _ | lock =>
      rw [pc] at touched
      exact List.mem_singleton.1 touched ▸ own (by simp [Task.Beyond, pc])
  | find _ | erase _ | wait | exited => simp [pc] at touched

/-! ## The end of a traversal -/

/-- When the root task has returned, all tasks have. -/
theorem all_over (finished : s.Finished) : ∀ t ∈ s.tasks, t.pc = .exited := by
  obtain ⟨t₀, first, ended⟩ := finished
  obtain ⟨t₁, first', root⟩ := sound.pool.first
  rw [first, Option.some.injEq] at first'
  subst first'
  have each : ∀ n, ∀ t ∈ s.tasks, t.node = n → t.pc = .exited := by
    refine T.from_root (fun t inside own => ?_) fun c p above ih t inside own => ?_
    · have same := List.inj_on_of_nodup_map sound.pool.nodup inside (List.mem_of_getElem? first)
        (own.trans root.symm)
      exact same ▸ ended
    · rcases sound.pool.group t inside with top | ⟨i, t', grouped, there, parent⟩
      · exact absurd (own.symm.trans top) (T.ne_root_of_parent above)
      · rw [own, above, Option.some.injEq] at parent
        exact sound.pool.joined i t' there
          (ih t' (List.mem_of_getElem? there) parent.symm) t inside grouped
  exact fun t inside => each t.node t inside rfl

section Finished

variable (all : s.AllSent) (finished : s.Finished)
include all finished

theorem sent_of_tasked {n : N} (tasked : n ∈ s.nodes) : s.SentOk n ∧ Done T s n := by
  obtain ⟨t, inside, rfl⟩ := List.mem_map.1 tasked
  have ended := sound.all_over finished t inside
  have sent := sound.log.ended all t inside ended
  exact ⟨sent, sound.books.done t inside (.inr ended) sent⟩

theorem all_tasked : ∀ n, n ∈ s.nodes := by
  refine T.from_root ?_ fun c p above tasked => ?_
  · obtain ⟨t, first, root⟩ := sound.pool.first
    exact root ▸ List.mem_map_of_mem (List.mem_of_getElem? first)
  · have child := T.mem_children.2 above
    obtain ⟨-, -, inner⟩ := sound.sent_of_tasked all finished tasked
    exact (inner (.inr (List.ne_nil_of_mem child))).1 c child

/-- Nothing is left of the tree. -/
theorem all_removed [Finite N] : ∀ n, s.children n = [] ∧ (n ≠ T.root → n ∈ s.removed) := by
  have ended := sound.all_over finished
  refine T.from_leaves fun n below => ?_
  have empty : s.children n = [] := by
    refine List.eq_nil_iff_forall_not_mem.2 fun c listed => ?_
    have child := (sound.books.sublist n).subset listed
    exact (sound.stays_of_listed listed).1
      ((below c child).2 (T.ne_root_of_parent (T.mem_children.1 child)))
  refine ⟨empty, fun inside => ?_⟩
  obtain ⟨-, leaf, inner⟩ :=
    sound.sent_of_tasked all finished (sound.all_tasked all finished n)
  by_cases deep : Inner T n
  · have none : s.pending n = none := by
      -- A counter that is left would be zero, with nobody at work on it.
      by_contra entry
      obtain ⟨c, entry⟩ := Option.ne_none_iff_exists'.1 entry
      have count := sound.books.count n c entry
      have unowed : total (Task.debt T · n) s.tasks = 0 :=
        total_eq_zero fun t member => by simp [Task.debt, ended t member]
      have zero : c = 0 := by simpa [empty, unowed] using count
      refine sound.books.drained n (zero ▸ entry) (deep.resolve_left inside) ?_
      exact total_eq_zero fun t member => by simp [Task.closes, ended t member]
    exact ((inner deep).2 none).2.resolve_left inside
  · exact leaf deep

end Finished

end Sound

/-- **The parallel traversal of `sync_with_remote` is correct in every reachable state.** -/
theorem traversal_ok [Finite N] {table : Slots PipeEnd} {pid : ℤ} {basePort : UInt16}
    (reachable : Reachable (step T) (start T table pid basePort) s) : TraversalOk T s := by
  obtain ⟨sound, defined⟩ := reachable_sound reachable
  constructor
  case found =>
    intro t member p pc
    refine sound.of_debt member ?_
    rcases pc with pc | pc <;> simp [Task.debt, pc]
  case defined => exact defined
  case alive =>
    exact fun t member x touched => sound.alive_of_not_removed (sound.touches_stay member touched)
  case sentOnce => exact sound.log.once
  case parentFirst => exact sound.log.ordered
  case removedSent =>
    exact fun x gone y below => (sound.books.closed y (sound.removed_below gone below)).1
  case removedOnce => exact sound.books.once
  case finished =>
    intro all finished
    refine ⟨fun n => List.count_eq_one_of_mem sound.log.once ?_, fun n inside => ?_, ?_⟩
    · obtain ⟨⟨e, logged, same, -⟩, -⟩ :=
        sound.sent_of_tasked all finished (sound.all_tasked all finished n)
      exact same ▸ List.mem_map_of_mem logged
    · exact List.count_eq_one_of_mem sound.books.once
        ((sound.all_removed all finished n).2 inside)
    · exact (sound.all_removed all finished T.root).1

/-- A directory with an empty directory and an empty file in it. -/
def sampleTree : Tree (Fin 3) where
  root := 0
  parent n := if n = 0 then none else some 0
  children n := if n = 0 then [1, 2] else []
  info n :=
    if n = 2 then { name := [99], perms := 420, ftype := .regular }
    else { name := if n = 0 then [97] else [98], perms := 493, ftype := .directory }
  depth n := if n = 0 then 0 else 1
  mem_children := by decide
  nodup_children := by decide
  parent_eq_none := by decide
  depth_of_parent := by decide
  kept := by decide
  children_of_regular := by decide
  root_directory := by decide
  named := by decide

def sampleStart : Client (Fin 3) := start sampleTree ⟨[some .other, some .other, some .other]⟩ 7 50000

/-- The call that sends a node of the sample tree in two writes. -/
def sampleCall (node : Fin 3) (seq : UInt32) : SendCall :=
  { seq := seq, info := sampleTree.info node,
    relPath := some (if node = 0 then [97] else [97, 47, (sampleTree.info node).name.headD 0])
    file := none, pad := ⟨0, 0⟩, writes := [.wrote 24, .wrote (if node = 0 then 1 else 3)], oks := [] }

/-- Task `i` sends the node of its own number. -/
def sampleSend (i : ℕ) (seq : UInt32) : Input := .task i (.send (sampleCall (Fin.ofNat 3 i) seq))

/-- Task `i` sends ten bytes of its header, and the next write fails. -/
def sampleCut (i : ℕ) (seq : UInt32) : Input :=
  .task i (.send { sampleCall (Fin.ofNat 3 i) seq with writes := [.wrote 10, .error] })

/-- Task `i` takes its next `count` steps. -/
def goOn (i count : ℕ) : List Input := List.replicate count (.task i .go)

/-- The root opens its group; its children run on two threads. -/
def sampleInputs : List Input :=
  goOn 0 5 ++ [sampleSend 0 0] ++ goOn 0 6 ++
    [.task 1 (.start 1), .task 2 (.start 0)] ++ goOn 1 5 ++
    [sampleSend 1 1] ++ goOn 2 5 ++ goOn 1 4 ++
    [sampleSend 2 2] ++ goOn 2 5 ++ goOn 0 1

theorem traversal_ok_sample :
    ∃ s, run (step sampleTree) sampleStart sampleInputs = some s ∧ s.Finished ∧ s.AllSent ∧
      s.removed = [1, 2] ∧ TraversalOk sampleTree s := by
  have facts : ∀ s ∈ run (step sampleTree) sampleStart sampleInputs,
      (s.tasks[0]?.map (·.pc) = some .exited) ∧ (∀ e ∈ s.sends, e.Success) ∧
        s.removed = [1, 2] := by decide +kernel
  obtain ⟨s, reaches⟩ : ∃ s, run (step sampleTree) sampleStart sampleInputs = some s :=
    Option.isSome_iff_exists.1 (by decide +kernel)
  obtain ⟨finished, all, removed⟩ := facts s reaches
  obtain ⟨t, first, ended⟩ := Option.map_eq_some_iff.1 finished
  have reachable : Reachable (step sampleTree)
      (start sampleTree ⟨[some .other, some .other, some .other]⟩ 7 50000) s :=
    ⟨sampleInputs, reaches⟩
  exact ⟨s, reaches, ⟨t, first, ended⟩, all, removed, traversal_ok reachable⟩

end Enuwatch.Sync

import Enuwatch.Sync.Upkeep

/-!
# The invariant of the traversal

Every step of `sync_with_remote` keeps `Sound`, and no step leads to an undefined state
(`reachable_sound`). The first part reads off the invariant what a task can rely on at its
program point; the second carries the invariant through each kind of step.
-/

set_option autoImplicit false

namespace Enuwatch.Sync

open Enuwatch.Lib

variable {N : Type} [DecidableEq N] {T : Tree N} {s s' : Client N} {i : ℕ} {t t' : Task N}

/-! ## What the invariant says about one task -/

namespace Sound

variable (sound : Sound T s)
include sound

/-- The list of a node is whole as long as none of its children has a task. -/
theorem untouched (member : t ∈ s.tasks) (none : t.unspawned T = T.children t.node) :
    s.children t.node = T.children t.node := by
  refine (sound.books.sublist t.node).eq_of_length_le ?_
  refine ((T.nodup_children t.node).subperm fun x child => ?_).length_le
  by_contra off
  have gone := (sound.books.removed x).2 ⟨t.node, T.mem_children.1 child, off⟩
  obtain ⟨e, logged, same, -⟩ := (sound.books.closed x gone).1
  exact sound.pool.fresh t member x (none ▸ child) (same ▸ sound.log.tasked e logged)

theorem not_removed (member : t ∈ s.tasks) (here : ¬ t.Beyond) : t.node ∉ s.removed :=
  fun gone => here ((sound.books.closed t.node gone).2.2.2 t member rfl)

theorem listed (member : t ∈ s.tasks) (here : ¬ t.Beyond) {p : N}
    (above : T.parent t.node = some p) : t.node ∈ s.children p := by
  by_contra off
  exact sound.not_removed member here ((sound.books.removed _).2 ⟨p, above, off⟩)

theorem pending_eq_none (member : t ∈ s.tasks) (closed : ¬ t.Opened) :
    s.pending t.node = none := by
  by_contra entry
  exact closed ((sound.books.opened _ entry).2 t member rfl)

/-- The tasks of a group are for the children of the node whose task has opened it. -/
theorem group_parent (here : s.tasks[i]? = some t) {m : Task N} (inside : m ∈ s.tasks)
    (grouped : m.group = some i) : T.parent m.node = some t.node := by
  obtain ⟨t₀, there, above⟩ := sound.pool.member m inside i grouped
  rw [here, Option.some.injEq] at there
  rw [there]
  exact above

/-- A group without a task for any child is empty. -/
theorem group_empty (here : s.tasks[i]? = some t) (none : t.unspawned T = T.children t.node)
    {m : Task N} (inside : m ∈ s.tasks) : m.group ≠ some i := by
  intro grouped
  have child : m.node ∈ T.children t.node :=
    T.mem_children.2 (sound.group_parent here inside grouped)
  exact sound.pool.fresh t (List.mem_of_getElem? here) m.node (none ▸ child)
    (List.mem_map_of_mem inside)

theorem leaf_group_empty (here : s.tasks[i]? = some t) (leaf : T.children t.node = [])
    {m : Task N} (inside : m ∈ s.tasks) : m.group ≠ some i := by
  intro grouped
  have child : m.node ∈ T.children t.node :=
    T.mem_children.2 (sound.group_parent here inside grouped)
  rw [leaf] at child
  cases child

/-- A counter at zero: no child is left, and nobody owes a count. -/
theorem of_zero {p : N} (zero : s.pending p = some 0) :
    s.children p = [] ∧ total (Task.debt T · p) s.tasks = 0 := by
  have count := sound.books.count p 0 zero
  exact ⟨List.eq_nil_of_length_eq_zero (by omega), by omega⟩

/-- A directory that has lost its children was sent, and its task waits or has ended. -/
theorem of_emptied {p : N} (zero : s.pending p = some 0) (inner : T.children p ≠ []) :
    s.SentOk p ∧ ∀ m ∈ s.tasks, m.node = p → m.Beyond := by
  obtain ⟨empty, -⟩ := sound.of_zero zero
  have whole : ∀ m ∈ s.tasks, m.node = p → s.children p ≠ T.children p :=
    fun m _ _ same => inner (same ▸ empty)
  constructor
  · obtain ⟨x, child⟩ := List.exists_mem_of_ne_nil _ inner
    have above := T.mem_children.1 child
    have gone := (sound.books.removed x).2 ⟨p, above, by simp [empty]⟩
    obtain ⟨e, logged, same, -⟩ := (sound.books.closed x gone).1
    obtain ⟨m, inside, own⟩ := List.mem_map.1 (sound.log.tasked e logged)
    exact sound.log.above m inside p (by rw [own, same]; exact above)
  · intro m inside own
    have opened := (sound.books.opened p (by simp [zero])).2 m inside own
    have located := sound.books.located m inside
    subst own
    cases pc : m.pc with
    | lock =>
        have none : m.unspawned T = T.children m.node := by rw [Task.unspawned, pc]
        exact absurd (sound.untouched inside none) (whole m inside rfl)
    | spawn rest =>
        rw [At, pc] at located
        exact absurd located.2.2.1 (whole m inside rfl)
    | _ => simp_all [Task.Opened, Task.Beyond]

/-- A task that owes a count finds the counter, and it is not zero. -/
theorem of_debt (member : t ∈ s.tasks) {p : N} (owes : t.debt T p ≠ 0) :
    ∃ c, s.pending p = some c ∧ 1 ≤ c := by
  obtain ⟨c, entry⟩ := Option.ne_none_iff_exists'.1 (sound.books.owed t member p owes)
  have count := sound.books.count p c entry
  have part := le_total (f := (Task.debt T · p)) member
  exact ⟨c, entry, by omega⟩

/-- Only one task has an accessor to an entry. -/
theorem accessor_unique {j : ℕ} {m : Task N} {p : N} (here : s.tasks[i]? = some t)
    (own : t.accessor = some p) (apart : j ≠ i) (there : s.tasks[j]? = some m) :
    m.accessor ≠ some p := by
  intro other
  have both := add_le_total (f := (Task.holds · p)) apart there here
  have one := sound.books.exclusive p
  have first : t.holds p = 1 := by simp [Task.holds, own]
  have second : m.holds p = 1 := by simp [Task.holds, other]
  omega

end Sound

/-! ## Steps that write nothing -/

section Quiet

variable (sound : Sound T s) (here : s.tasks[i]? = some t)

/-- The invariant reads nothing but the tasks, the books and the log. -/
theorem Sound.of_fields (sound : Sound T s) (tasks : s'.tasks = s.tasks)
    (children : s'.children = s.children) (pending : s'.pending = s.pending)
    (removed : s'.removed = s.removed) (sends : s'.sends = s.sends)
    (okay : s.AllSent → s'.ok = true) : Sound T s' := by
  have nodes : s'.nodes = s.nodes := by rw [Client.nodes, tasks, Client.nodes]
  have sentOk : ∀ n, s'.SentOk n ↔ s.SentOk n := by simp [Client.SentOk, sends]
  have allSent : s'.AllSent ↔ s.AllSent := by simp [Client.AllSent, sends]
  obtain ⟨pool, log, books⟩ := sound
  refine ⟨?_, ?_, ?_⟩
  · obtain ⟨nodup, sublist, fresh, first, group, member, joined⟩ := pool
    exact ⟨nodes ▸ nodup, tasks ▸ sublist, by rwa [tasks, nodes], tasks ▸ first, by rwa [tasks],
      by rwa [tasks], by rwa [tasks]⟩
  · obtain ⟨once, ordered, tasked, unsent, failed, past, above, ok, ended⟩ := log
    exact ⟨sends ▸ once, by rwa [sends], by rwa [sends, nodes], by rwa [tasks, sends],
      by rwa [tasks, sends], by simpa only [tasks, sentOk] using past,
      by simpa only [tasks, sentOk] using above, fun all => okay (allSent.1 all),
      by simpa only [allSent, tasks, sentOk] using ended⟩
  · obtain ⟨sublist, gone, once, count, owed, live, exclusive, opened, closed, located, drained,
      done⟩ := books
    exact ⟨by rwa [children], by rwa [removed, children], by rwa [removed],
      by rwa [pending, children, tasks], by rwa [tasks, pending],
      by rwa [tasks, children, pending], by rwa [tasks], by rwa [pending, nodes, tasks],
      by simpa only [removed, sentOk, children, pending, tasks] using closed,
      by simpa only [tasks, At.congr children removed pending nodes] using located,
      by rwa [pending, tasks],
      by simpa only [tasks, sentOk, Done.congr children removed pending nodes] using done⟩

include sound here

/-- A task gets ready to send. -/
theorem Sound.prepared {p q : Prep N} (pc : t.pc = .before p) (plain : p ≠ .report)
    (next : q ≠ .report) {thread : ℕ}
    (tasks : s'.tasks = s.tasks.set i { t with thread := thread, pc := .before q })
    (children : s'.children = s.children) (pending : s'.pending = s.pending)
    (removed : s'.removed = s.removed) (sends : s'.sends = s.sends) (okay : s'.ok = s.ok)
    (located : At T s { t with thread := thread, pc := .before q }) : Sound T s' := by
  refine ⟨?_, ?_, ?_⟩
  · refine sound.pool.move here ?_ tasks rfl ?_ (by simp [pc]) (by simp)
    · rfl
    · simp [Task.unspawned, pc]
  · refine sound.log.move here ?_ tasks sends okay ?_ (by simp [Task.Past]) (by simp)
    · rfl
    · rintro prep ⟨⟩
      exact ⟨next, p, pc, plain⟩
  · refine sound.books.move here ?_ tasks children pending removed sends ?_ ?_ ?_ ?_ ?_ located
      (by simp)
    · rfl
    · simp [Task.debt, pc]
    · simp [Task.closes, pc]
    · simp [Task.holds, Task.accessor, pc]
    · simp [Task.Opened, pc]
    · simp [Task.Beyond, pc]

/-- A task that has sent its node moves on, whatever it writes to the books. -/
theorem Sound.tasks_moved {pc : Pc N} (past : t.Past) (next : ∀ prep, pc ≠ .before prep)
    (fewer : (Task.unspawned T { t with pc := pc }).Sublist (t.unspawned T))
    (joined : pc = .exited → ∀ m ∈ s.tasks, m.group = some i → m.pc = .exited)
    (tasks : s'.tasks = s.tasks.set i { t with pc := pc }) (sends : s'.sends = s.sends)
    (okay : s'.ok = s.ok) : Pool T s' ∧ Log T s' := by
  have member : t ∈ s.tasks := List.mem_of_getElem? here
  have running : t.pc ≠ .exited := by
    intro ended
    rw [Task.Past, ended] at past
    exact past
  have same : Task.node { t with pc := pc } = t.node := rfl
  exact ⟨sound.pool.move here same tasks rfl fewer running joined,
    sound.log.move here same tasks sends okay (fun prep at_prep => absurd at_prep (next prep))
      (fun _ => past) (fun _ _ => sound.log.past t member past)⟩

/-- A task that has sent its node moves on. -/
theorem Sound.moved {pc : Pc N} (past : t.Past) (next : ∀ prep, pc ≠ .before prep)
    (fewer : (Task.unspawned T { t with pc := pc }).Sublist (t.unspawned T))
    (joined : pc = .exited → ∀ m ∈ s.tasks, m.group = some i → m.pc = .exited)
    (debt : ∀ p, Task.debt T { t with pc := pc } p = t.debt T p)
    (closes : ∀ p, Task.closes { t with pc := pc } p = t.closes p)
    (holds : ∀ p, Task.holds { t with pc := pc } p ≤ t.holds p ∨
      Task.holds { t with pc := pc } p ≤ 1 ∧ total (Task.holds · p) s.tasks = 0)
    (opened : t.Opened → Task.Opened { t with pc := pc })
    (beyond : t.Beyond → Task.Beyond { t with pc := pc }) (located : At T s { t with pc := pc })
    (done : pc = .wait ∨ pc = .exited → Done T s t.node) : Sound T (s.goto i t pc) := by
  have same : Task.node { t with pc := pc } = t.node := rfl
  have moved : Pool T (s.goto i t pc) ∧ Log T (s.goto i t pc) :=
    sound.tasks_moved here past next fewer joined rfl rfl rfl
  exact ⟨moved.1, moved.2, sound.books.move here same rfl rfl rfl rfl rfl debt closes holds opened
    beyond located fun ended _ => done ended⟩

/-- A task ends without having sent its node. -/
theorem Sound.gaveUp {p : Prep N} (pc : t.pc = .before p) (unsent : ¬ s.SentOk t.node)
    (failed : ¬ s.AllSent) (tasks : s'.tasks = s.tasks.set i { t with pc := .exited })
    (children : s'.children = s.children) (pending : s'.pending = s.pending)
    (removed : s'.removed = s.removed) (sends : s'.sends = s.sends) : Sound T s' := by
  have plain : t.unspawned T = T.children t.node := by rw [Task.unspawned, pc]
  have same : Task.node { t with pc := .exited } = t.node := rfl
  have reset : Sound T { s with ok := s'.ok } :=
    sound.of_fields rfl rfl rfl rfl rfl fun all => absurd all failed
  refine ⟨?_, ?_, ?_⟩
  · refine sound.pool.move here same tasks rfl ?_ (by simp [pc]) ?_
    · simp [Task.unspawned]
    · exact fun _ m inside grouped => absurd grouped (sound.group_empty here plain inside)
  · refine Log.move (s := { s with ok := s'.ok }) here same tasks reset.log sends rfl (by simp)
      (by simp [Task.Past]) ?_
    exact fun _ all => absurd all failed
  · refine sound.books.move here same tasks children pending removed sends ?_ ?_ ?_ ?_ ?_ trivial
      fun _ sent => absurd sent unsent
    · simp [Task.debt, pc]
    · simp [Task.closes, pc]
    · simp [Task.holds, Task.accessor, pc]
    · simp [Task.Opened]
    · simp [Task.Beyond]

end Quiet

/-! ## Steps that write -/

section Writing

variable (sound : Sound T s) (here : s.tasks[i]? = some t)
include sound here

/-- A leaf is unlinked by its own task. -/
theorem Sound.unlinked {q : N} (pc : t.pc = .remove) (above : T.parent t.node = some q)
    (free : s.MutexFree q) : Sound T ((s.unlink q t.node).goto i t (.find q)) := by
  have member : t ∈ s.tasks := List.mem_of_getElem? here
  have past : t.Past := by rw [Task.Past, pc]; trivial
  have located := sound.books.located t member
  rw [At, pc] at located
  have closed : ¬ t.Opened := by simp [Task.Opened, pc]
  have moved : Pool T ((s.unlink q t.node).goto i t (.find q)) ∧ Log T _ :=
    sound.tasks_moved here past (by simp) (by simp [Task.unspawned]) (by simp) rfl rfl rfl
  refine ⟨moved.1, moved.2, ?_⟩
  refine sound.books.unlink here ?_ above ?_ (List.mem_map_of_mem member) free ?_ ?_ ?_ ?_ ?_ ?_ ?_
    ?_ ?_ ?_ ?_ ?_
  · rfl
  · exact sound.listed member (by simp [Task.Beyond, pc]) above
  · exact sound.log.past t member past
  · exact List.eq_nil_of_subset_nil (located.1 ▸ (sound.books.sublist t.node).subset)
  · simp [sound.pending_eq_none member closed]
  · simp [Task.debt, pc]
  · simp [Task.closes, pc]
  · simp [Task.holds, Task.accessor, pc]
  · exact fun opened => absurd opened closed
  · exact fun _ => trivial
  · refine forall_mem_set_of_ne (fun j m apart there own => ?_) fun _ => trivial
    exact absurd own (sound.pool.node_ne apart here there)
  · -- Nobody has the accessor of a leaf: it never got an entry.
    intro j m _ there detaching
    have elsewhere := sound.books.located m (List.mem_of_getElem? there)
    rw [At, detaching] at elsewhere
    have zero : s.pending t.node = some 0 := elsewhere.2.1
    rw [sound.pending_eq_none member closed] at zero
    cases zero
  · refine ⟨located.1, List.mem_append_right _ (List.mem_singleton_self _), ?_⟩
    exact List.ne_nil_of_mem (T.mem_children.2 above)
  · simp

/-- A directory is unlinked by the task that took its counter to zero. -/
theorem Sound.detached {p q : N} (pc : t.pc = .detach p) (above : T.parent p = some q)
    (free : s.MutexFree q) : Sound T ((s.unlink q p).goto i t (.erase p)) := by
  have member : t ∈ s.tasks := List.mem_of_getElem? here
  have past : t.Past := by rw [Task.Past, pc]; trivial
  have located := sound.books.located t member
  rw [At, pc] at located
  obtain ⟨rising, zero, stays, -⟩ := located
  obtain ⟨sent, beyond⟩ := sound.of_emptied zero rising.2.2
  have moved : Pool T ((s.unlink q p).goto i t (.erase p)) ∧ Log T _ :=
    sound.tasks_moved here past (by simp) (by simp [Task.unspawned]) (by simp) rfl rfl rfl
  refine ⟨moved.1, moved.2, ?_⟩
  refine sound.books.unlink here ?_ above ?_ ?_ free sent (sound.of_zero zero).1 ?_ ?_ ?_ ?_ ?_ ?_
    ?_ ?_ ?_ ?_
  · rfl
  · by_contra off
    exact stays ((sound.books.removed p).2 ⟨q, above, off⟩)
  · exact (sound.books.opened p (by simp [zero])).1
  · simp [zero]
  · simp [Task.debt, pc, above]
  · simp [Task.closes, pc]
  · simp [Task.holds, Task.accessor, pc]
  · simp [Task.Opened, pc]
  · exact fun _ => trivial
  · refine forall_mem_set beyond (fun _ => ?_) i
    trivial
  · intro j m apart there detaching
    have own : t.accessor = some p := by rw [Task.accessor, pc]
    exact sound.accessor_unique here own apart there (by rw [Task.accessor, detaching])
  · exact ⟨⟨rising.1, List.mem_append_left _ rising.2.1, rising.2.2⟩, zero,
      .inr (List.mem_append_right _ (List.mem_singleton_self _))⟩
  · simp

omit here in
/-- The node of a rising task is gone. -/
theorem Sound.done_of_rising {p : N} (rising : Rising T s t p) (v : Option ℕ) (q : N) :
    Done T (s.setPending q v) t.node := by
  obtain ⟨leaf, gone, -⟩ := rising
  refine ⟨fun _ => gone, fun inner => ?_⟩
  obtain ⟨p', above, -⟩ := (sound.books.removed _).1 gone
  rcases inner with root | inner
  · exact absurd root (T.ne_root_of_parent above)
  · exact absurd leaf inner

/-- The counter a task lowers: it is not zero, and it counts the task's own debt. -/
theorem Sound.counted {p : N} {c : ℕ} (pc : t.pc = .decrement p)
    (entry : s.pending p = some c) {pc' : Pc N}
    (settled : Task.debt T { t with pc := pc' } p = 0) :
    c ≠ 0 ∧ c - 1 = (s.children p).length +
      total (Task.debt T · p) (s.tasks.set i { t with pc := pc' }) := by
  have own : t.debt T p = 1 := by simp [Task.debt, pc]
  have count := sound.books.count p c entry
  have part := le_total (f := (Task.debt T · p)) (List.mem_of_getElem? here)
  have moved := total_set (f := (Task.debt T · p)) here { t with pc := pc' }
  simp only [own, settled] at part moved
  omega

omit here in
theorem Sound.not_removed_of_count {p : N} {c : ℕ} (entry : s.pending p = some c)
    (counted : c ≠ 0) : p ∉ s.removed :=
  fun gone => counted ((sound.books.closed p gone).2.2.1 c entry)

/-- A task with an accessor keeps the others from detaching and erasing. -/
theorem Sound.others_apart {p : N} (own : t.accessor = some p) (j : ℕ) (m : Task N)
    (apart : j ≠ i) (there : s.tasks[j]? = some m) : m.pc ≠ .detach p ∧ m.pc ≠ .erase p := by
  have other := sound.accessor_unique here own apart there
  constructor
  · intro detaching
    exact other (by rw [Task.accessor, detaching])
  · intro erasing
    exact other (by rw [Task.accessor, erasing])

/-- The counter goes down and others are still to come. -/
theorem Sound.lowered {p : N} {c : ℕ} (pc : t.pc = .decrement p) (entry : s.pending p = some c)
    (more : countdown c ≠ 0) : Sound T ((s.setPending p (some (countdown c))).goto i t .exited) := by
  have member : t ∈ s.tasks := List.mem_of_getElem? here
  have past : t.Past := by rw [Task.Past, pc]; trivial
  have located := sound.books.located t member
  rw [At, pc] at located
  have owned : t.accessor = some p := by rw [Task.accessor, pc]
  have settled : Task.debt T { t with pc := .exited } p = 0 := rfl
  obtain ⟨counted, rest⟩ := sound.counted here pc entry settled
  have down : countdown c = c - 1 := if_neg counted
  obtain ⟨tasked, opened⟩ := sound.books.opened p (by simp [entry])
  have moved : Pool T ((s.setPending p (some (countdown c))).goto i t .exited) ∧ Log T _ :=
    sound.tasks_moved here past (by simp) (by simp [Task.unspawned])
      (fun _ m inside grouped => absurd grouped (sound.leaf_group_empty here located.1 inside))
      rfl rfl rfl
  refine ⟨moved.1, moved.2, ?_⟩
  refine sound.books.setPending here ?_ ?_ ?_ ?_ ?_ ?_ ?_ ?_ (by simp) ?_ ?_
    (sound.others_apart here owned) trivial (fun _ _ => sound.done_of_rising located _ _)
  · rfl
  · rintro c' ⟨⟩
    rw [down]
    exact rest
  · intro q other
    simp [Task.debt, pc, Ne.symm other]
  · simp [Task.closes, pc]
  · simp [Task.holds, Task.accessor]
  · exact fun _ => trivial
  · exact fun _ => trivial
  · refine fun _ => ⟨tasked, forall_mem_set opened (fun _ => ?_) i⟩
    trivial
  · exact fun gone => absurd gone (sound.not_removed_of_count entry counted)
  · intro zero
    exact absurd (Option.some.inj zero) more

/-- The counter comes down to zero. -/
theorem Sound.emptied {p : N} {c : ℕ} (pc : t.pc = .decrement p) (entry : s.pending p = some c)
    (zero : countdown c = 0) {pc' : Pc N}
    (next : pc' = .detach p ∧ p ≠ T.root ∨ pc' = .erase p ∧ p = T.root) :
    Sound T ((s.setPending p (some 0)).goto i t pc') := by
  have member : t ∈ s.tasks := List.mem_of_getElem? here
  have past : t.Past := by rw [Task.Past, pc]; trivial
  have located := sound.books.located t member
  rw [At, pc] at located
  have owned : t.accessor = some p := by rw [Task.accessor, pc]
  have owned' : Task.accessor { t with pc := pc' } = some p := by
    rcases next with ⟨rfl, -⟩ | ⟨rfl, -⟩ <;> rfl
  have unowed : ∀ q, Task.debt T { t with pc := pc' } q = 0 := by
    rcases next with ⟨rfl, -⟩ | ⟨rfl, root⟩ <;> simp [Task.debt]
    simp [root, T.parent_root]
  obtain ⟨counted, rest⟩ := sound.counted here pc entry (unowed p)
  have down : countdown c = c - 1 := if_neg counted
  obtain ⟨tasked, opened⟩ := sound.books.opened p (by simp [entry])
  have plain : ∀ prep, pc' ≠ .before prep := by rcases next with ⟨rfl, -⟩ | ⟨rfl, -⟩ <;> simp
  have running : pc' ≠ .wait ∧ pc' ≠ .exited := by rcases next with ⟨rfl, -⟩ | ⟨rfl, -⟩ <;> simp
  have fewer : Task.unspawned T { t with pc := pc' } = [] := by
    rcases next with ⟨rfl, -⟩ | ⟨rfl, -⟩ <;> rfl
  have moved : Pool T ((s.setPending p (some 0)).goto i t pc') ∧ Log T _ :=
    sound.tasks_moved here past plain (by simp [fewer]) (fun ended => absurd ended running.2)
      rfl rfl rfl
  refine ⟨moved.1, moved.2, ?_⟩
  refine sound.books.setPending here ?_ ?_ ?_ ?_ ?_ ?_ ?_ ?_ (by simp) ?_ ?_
    (sound.others_apart here owned) ?_ ?_
  · rfl
  · rintro c' ⟨⟩
    omega
  · intro q other
    rw [unowed]
    simp [Task.debt, pc, Ne.symm other]
  · intro q other
    rcases next with ⟨rfl, -⟩ | ⟨rfl, -⟩ <;> simp [Task.closes, pc, Ne.symm other]
  · intro q
    simp [Task.holds, owned, owned']
  · simp [Task.Opened, pc]
  · intro _
    rcases next with ⟨rfl, -⟩ | ⟨rfl, -⟩ <;> trivial
  · refine fun _ => ⟨tasked, forall_mem_set opened (fun own => ?_) i⟩
    simpa [Task.Opened, pc] using opened t member own
  · exact fun gone => absurd gone (sound.not_removed_of_count entry counted)
  · intro _ _ none
    have closing : Task.closes { t with pc := pc' } p = 1 := by
      rcases next with ⟨rfl, -⟩ | ⟨rfl, -⟩ <;> simp [Task.closes]
    have inside := (List.getElem?_eq_some_iff.1 here).1
    have part := le_total (f := (Task.closes · p)) (List.mem_set inside { t with pc := pc' })
    omega
  · rcases next with ⟨rfl, inner⟩ | ⟨rfl, root⟩
    · exact ⟨located, Function.update_self .., sound.not_removed_of_count entry counted, inner⟩
    · exact ⟨located, Function.update_self .., .inl root⟩
  · rintro (ended | ended)
    · exact absurd ended running.1
    · exact absurd ended running.2

/-- The entry of an empty directory is dropped. -/
theorem Sound.erased {p : N} (pc : t.pc = .erase p) {pc' : Pc N}
    (next : (∃ q, pc' = .find q ∧ T.parent p = some q) ∨ pc' = .exited ∧ T.parent p = none) :
    Sound T ((s.setPending p none).goto i t pc') := by
  have member : t ∈ s.tasks := List.mem_of_getElem? here
  have past : t.Past := by rw [Task.Past, pc]; trivial
  have located := sound.books.located t member
  rw [At, pc] at located
  obtain ⟨rising, zero, gone⟩ := located
  obtain ⟨empty, unowed⟩ := sound.of_zero zero
  obtain ⟨-, beyond⟩ := sound.of_emptied zero rising.2.2
  have owned : t.accessor = some p := by rw [Task.accessor, pc]
  have debt : ∀ q, Task.debt T { t with pc := pc' } q = t.debt T q := by
    intro q
    rcases next with ⟨q', rfl, above⟩ | ⟨rfl, root⟩ <;> simp [Task.debt, *]
  have fewer : Task.unspawned T { t with pc := pc' } = [] := by
    rcases next with ⟨q, rfl, -⟩ | ⟨rfl, -⟩ <;> rfl
  have plain : ∀ prep, pc' ≠ .before prep := by rcases next with ⟨q, rfl, -⟩ | ⟨rfl, -⟩ <;> simp
  have moved : Pool T ((s.setPending p none).goto i t pc') ∧ Log T _ :=
    sound.tasks_moved here past plain (by simp [fewer])
      (fun _ m inside grouped => absurd grouped (sound.leaf_group_empty here rising.1 inside))
      rfl rfl rfl
  refine ⟨moved.1, moved.2, ?_⟩
  refine sound.books.setPending here ?_ (by simp) (fun q _ => debt q) ?_ ?_ ?_ ?_ (by simp) ?_
    (by simp) (by simp) (sound.others_apart here owned) ?_
    (fun _ _ => sound.done_of_rising rising _ _)
  · rfl
  · intro q other
    rcases next with ⟨q', rfl, -⟩ | ⟨rfl, -⟩ <;> simp [Task.closes, pc, Ne.symm other]
  · intro q
    rcases next with ⟨q', rfl, -⟩ | ⟨rfl, -⟩ <;> simp [Task.holds, Task.accessor]
  · simp [Task.Opened, pc]
  · intro _
    rcases next with ⟨q', rfl, -⟩ | ⟨rfl, -⟩ <;> trivial
  · refine fun _ => ⟨empty, gone, forall_mem_set (fun m inside => ?_) ?_ i, fun m inside own => ?_⟩
    · have part := le_total (f := (Task.debt T · p)) inside
      omega
    · have part := le_total (f := (Task.debt T · p)) member
      rw [debt]
      omega
    · have late := beyond m inside own
      constructor
      · intro locking
        simp [Task.Beyond, locking] at late
      · intro rest spawning
        simp [Task.Beyond, spawning] at late
  · rcases next with ⟨q, rfl, above⟩ | ⟨rfl, -⟩
    · exact ⟨rising.1, rising.2.1, List.ne_nil_of_mem (T.mem_children.2 above)⟩
    · trivial

/-- A directory gets its counter. -/
theorem Sound.emplaced {c : ℕ} (pc : t.pc = .emplace c) :
    Sound T ((s.setPending t.node (some ((s.pending t.node).getD c))).goto i t .lock) := by
  have member : t ∈ s.tasks := List.mem_of_getElem? here
  have past : t.Past := by rw [Task.Past, pc]; trivial
  have located := sound.books.located t member
  rw [At, pc] at located
  have closed : ¬ t.Opened := by simp [Task.Opened, pc]
  have none := sound.pending_eq_none member closed
  have whole := sound.untouched member (by rw [Task.unspawned, pc])
  have unowed : ∀ m ∈ s.tasks, m.debt T t.node = 0 := by
    intro m inside
    by_contra owes
    exact sound.books.owed m inside _ owes none
  rw [none, Option.getD_none]
  have moved : Pool T ((s.setPending t.node (some c)).goto i t .lock) ∧ Log T _ :=
    sound.tasks_moved here past (by simp) (by simp [Task.unspawned, pc]) (by simp) rfl rfl rfl
  refine ⟨moved.1, moved.2, ?_⟩
  refine sound.books.setPending here ?_ ?_ ?_ ?_ ?_ ?_ ?_ ?_ (by simp) ?_ ?_ ?_ ?_ (by simp)
  · rfl
  · rintro c' ⟨⟩
    have zero := total_eq_zero (forall_mem_set unowed (b := { t with pc := .lock }) rfl i)
    rw [zero, whole]
    exact located.1
  · intro q _
    simp [Task.debt, pc]
  · simp [Task.closes, pc]
  · simp [Task.holds, Task.accessor]
  · exact fun _ => trivial
  · simp [Task.Beyond, pc]
  · refine fun _ => ⟨List.mem_map_of_mem member, ?_⟩
    refine forall_mem_set_of_ne (fun j m apart there own => ?_) fun _ => trivial
    exact absurd own (sound.pool.node_ne apart here there)
  · exact fun gone => absurd gone (sound.not_removed member (by simp [Task.Beyond, pc]))
  · intro zero inner
    rw [Option.some.injEq] at zero
    have := List.length_pos_iff.2 inner
    omega
  · intro j m _ there
    have elsewhere := sound.books.located m (List.mem_of_getElem? there)
    constructor
    · intro detaching
      rw [At, detaching] at elsewhere
      cases none.symm.trans elsewhere.2.1
    · intro erasing
      rw [At, erasing] at elsewhere
      cases none.symm.trans elsewhere.2.1
  · exact ⟨by simp [Client.setPending], located.2⟩

end Writing

/-! ## All steps -/

theorem Sound.finish (sound : Sound T (s.goto i t .exited)) : Sound T (s.finish i t) :=
  sound.of_fields rfl rfl rfl rfl rfl sound.log.ok

section Events

variable (sound : Sound T s) (here : s.tasks[i]? = some t)
include sound here

theorem Sound.sent {seq : UInt32} {e : Send N} (pc : t.pc = .before (.send seq))
    (own : e.node = t.node) {pc' : Pc N}
    (outcome : pc' = .dispatch ∧ e.Success ∨ pc' = .before .report ∧ ¬ e.Success) :
    Sound T ((s.log e).goto i t pc') := by
  have unended : pc' ≠ .wait ∧ pc' ≠ .exited := by
    rcases outcome with ⟨rfl, -⟩ | ⟨rfl, -⟩ <;> simp
  have same : Task.node { t with pc := pc' } = t.node := rfl
  have books : Books T (s.goto i t pc') := by
    refine sound.books.move here same rfl rfl rfl rfl rfl ?_ ?_ ?_ ?_ ?_ ?_ ?_
    · rcases outcome with ⟨rfl, -⟩ | ⟨rfl, -⟩ <;> simp [Task.debt, pc]
    · rcases outcome with ⟨rfl, -⟩ | ⟨rfl, -⟩ <;> simp [Task.closes, pc]
    · rcases outcome with ⟨rfl, -⟩ | ⟨rfl, -⟩ <;> simp [Task.holds, Task.accessor, pc]
    · simp [Task.Opened, pc]
    · simp [Task.Beyond, pc]
    · rcases outcome with ⟨rfl, -⟩ | ⟨rfl, -⟩ <;> trivial
    · rintro (ended | ended)
      · exact absurd ended unended.1
      · exact absurd ended unended.2
  refine ⟨?_, sound.log.send sound.pool here pc own outcome, ?_⟩
  · refine sound.pool.move here same rfl rfl ?_ (by simp [pc]) fun ended => absurd ended unended.2
    rcases outcome with ⟨rfl, -⟩ | ⟨rfl, -⟩ <;> simp [Task.unspawned, pc]
  · refine books.log (forall_mem_set_of_ne (fun j m apart there logged => ?_) fun _ => unended)
    exact absurd (logged.trans own) (sound.pool.node_ne apart here there)

theorem Sound.dispatched {pc' : Pc N} (pc : t.pc = .dispatch)
    (next : pc' = .remove ∧ T.children t.node = [] ∧ t.node ≠ T.root ∨
      pc' = .emplace (T.children t.node).length ∧ Inner T t.node) :
    Sound T (s.goto i t pc') := by
  refine sound.moved here (by simp [Task.Past, pc]) ?_ ?_ ?_ ?_ ?_ ?_ ?_ ?_ ?_ ?_
  · rcases next with ⟨rfl, -⟩ | ⟨rfl, -⟩ <;> simp
  · rcases next with ⟨rfl, -⟩ | ⟨rfl, -⟩ <;> simp [Task.unspawned, pc]
  · rcases next with ⟨rfl, -⟩ | ⟨rfl, -⟩ <;> simp
  · rcases next with ⟨rfl, -⟩ | ⟨rfl, -⟩ <;> simp [Task.debt, pc]
  · rcases next with ⟨rfl, -⟩ | ⟨rfl, -⟩ <;> simp [Task.closes, pc]
  · rcases next with ⟨rfl, -⟩ | ⟨rfl, -⟩ <;> simp [Task.holds, Task.accessor, pc]
  · simp [Task.Opened, pc]
  · simp [Task.Beyond, pc]
  · rcases next with ⟨rfl, leaf⟩ | ⟨rfl, inner⟩
    · exact leaf
    · exact ⟨rfl, inner⟩
  · rcases next with ⟨rfl, -⟩ | ⟨rfl, -⟩ <;> simp

/-- Every step of a task keeps the invariant. -/
theorem Sound.taskEvent (event : TaskEvent T s i t s') : Sound T s' := by
  have member : t ∈ s.tasks := List.mem_of_getElem? here
  have located := sound.books.located t member
  cases event with
  | started pc idle => exact sound.prepared here pc (by simp) (by simp) rfl rfl rfl rfl rfl rfl trivial
  | checked pc ok => exact sound.prepared here pc (by simp) (by simp) rfl rfl rfl rfl rfl rfl trivial
  | refused pc failed =>
      refine sound.gaveUp here pc ?_ ?_ rfl rfl rfl rfl rfl
      · rintro ⟨e, logged, same, -⟩
        exact sound.log.unsent t member .check pc (by simp) (same ▸ List.mem_map_of_mem logged)
      · intro all
        rw [sound.log.ok all] at failed
        cases failed
  | fetched pc usable =>
      exact sound.prepared here pc (by simp) (by simp) rfl rfl rfl rfl rfl rfl trivial
  | dialled pc unset =>
      exact sound.prepared here pc (by simp) (by simp) rfl rfl rfl rfl rfl rfl trivial
  | cut pc => exact sound.of_fields rfl rfl rfl rfl rfl sound.log.ok
  | loaded pc => exact sound.prepared here pc (by simp) (by simp) rfl rfl rfl rfl rfl rfl trivial
  | reloaded pc => exact sound.prepared here pc (by simp) (by simp) rfl rfl rfl rfl rfl rfl trivial
  | stored pc => exact sound.prepared here pc (by simp) (by simp) rfl rfl rfl rfl rfl rfl trivial
  | sent pc own ran whole => exact sound.sent here pc rfl (.inl ⟨rfl, whole⟩)
  | unsent pc own ran short =>
      refine sound.sent here pc rfl (.inr ⟨rfl, ?_⟩)
      simp [Send.Success, short]
  | died pc => exact sound.of_fields rfl rfl rfl rfl rfl sound.log.ok
  | drawn pc alone free =>
      refine sound.prepared here pc (by simp) (by simp) rfl rfl rfl rfl rfl rfl ?_
      refine ⟨List.Subset.refl _, fun gone => ?_, .inl rfl, trivial⟩
      obtain ⟨p, above, -⟩ := (sound.books.removed _).1 gone
      exact T.ne_root_of_parent above rfl
  | @entered seq node child rest path pc free =>
      rw [At, pc] at located
      obtain ⟨later, stays, chained, deeper⟩ := located
      have listed : child ∈ s.children node := later (List.mem_cons_self ..)
      have above : T.parent child = some node :=
        T.mem_children.1 ((sound.books.sublist node).subset listed)
      refine sound.prepared here pc (by simp) (by simp) rfl rfl rfl rfl rfl rfl ?_
      refine ⟨List.Subset.refl _, fun gone => ?_, .inr ⟨_, List.mem_cons_self .., above⟩,
        fun x inside => later (List.mem_cons_of_mem _ inside), stays, chained, deeper⟩
      obtain ⟨p, above', off⟩ := (sound.books.removed child).1 gone
      rw [above, Option.some.injEq] at above'
      exact off (above' ▸ listed)
  | skipped pc =>
      rw [At, pc] at located
      obtain ⟨later, rest⟩ := located
      exact sound.prepared here pc (by simp) (by simp) rfl rfl rfl rfl rfl rfl
        ⟨fun x inside => later (List.mem_cons_of_mem _ inside), rest⟩
  | left pc =>
      rw [At, pc] at located
      exact sound.prepared here pc (by simp) (by simp) rfl rfl rfl rfl rfl rfl located.2.2.2
  | displayed pc => exact sound.prepared here pc (by simp) (by simp) rfl rfl rfl rfl rfl rfl trivial
  | reported pc =>
      obtain ⟨e, logged, same, short⟩ := sound.log.failed t member pc
      refine sound.gaveUp here pc ?_ (fun all => short (all e logged)) rfl rfl rfl rfl rfl
      rintro ⟨e', logged', same', success⟩
      have one := List.inj_on_of_nodup_map sound.log.once logged logged' (same.trans same'.symm)
      exact short (one ▸ success)
  | leaf pc bare =>
      refine sound.dispatched here pc (.inl ⟨rfl, ?_⟩)
      rcases bare with regular | ⟨empty, inner⟩
      · refine ⟨T.children_of_regular regular, fun root => ?_⟩
        rw [root, T.root_directory] at regular
        cases regular
      · exact ⟨(sound.untouched member (by rw [Task.unspawned, pc])).symm.trans empty, inner⟩
  | opened pc directory inner =>
      have whole := sound.untouched member (by rw [Task.unspawned, pc])
      rw [whole] at inner ⊢
      exact sound.dispatched here pc (.inr ⟨rfl, inner.symm⟩)
  | orphan pc top => exact sound.of_fields rfl rfl rfl rfl rfl sound.log.ok
  | unlinked pc above free => exact sound.unlinked here pc above free
  | lost pc missing => exact sound.of_fields rfl rfl rfl rfl rfl sound.log.ok
  | @found node count pc free entry =>
      rw [At, pc] at located
      refine sound.moved here (by simp [Task.Past, pc]) (by simp) (by simp [Task.unspawned, pc])
        (by simp) (by simp [Task.debt, pc]) (by simp [Task.closes, pc]) (fun p => ?_)
        (by simp [Task.Opened, pc]) (fun _ => trivial) located (by simp)
      by_cases same : node = p
      · subst same
        refine .inr ⟨by simp [Task.holds, Task.accessor], total_eq_zero fun m inside => ?_⟩
        simp [Task.holds, free m inside]
      · exact .inl (by simp [Task.holds, Task.accessor, same])
  | lowered pc entry more => exact (sound.lowered here pc entry more).finish
  | emptied pc entry zero above =>
      exact sound.emptied here pc entry zero (.inl ⟨rfl, T.ne_root_of_parent above⟩)
  | topped pc entry zero above =>
      exact sound.emptied here pc entry zero (.inr ⟨rfl, T.parent_eq_none.1 above⟩)
  | stray pc top => exact sound.of_fields rfl rfl rfl rfl rfl sound.log.ok
  | detached pc above free => exact sound.detached here pc above free
  | erased pc above => exact sound.erased here pc (.inl ⟨_, rfl, above⟩)
  | closed pc above => exact (sound.erased here pc (.inr ⟨rfl, above⟩)).finish
  | emplaced pc => exact sound.emplaced here pc
  | locked pc free =>
      rw [At, pc] at located
      have whole := sound.untouched member (by rw [Task.unspawned, pc])
      refine sound.moved here (by simp [Task.Past, pc]) (by simp) ?_ (by simp)
        (by simp [Task.debt, pc]) (by simp [Task.closes, pc])
        (by simp [Task.holds, Task.accessor, pc]) (fun _ => trivial) (by simp [Task.Beyond, pc])
        ⟨located.1, located.2, whole, fun x child => .inl (whole ▸ child)⟩ (by simp)
      simpa [Task.unspawned, pc] using sound.books.sublist t.node
  | spawned pc => exact ⟨sound.pool.fork here pc, sound.log.fork sound.pool here pc, .fork sound here pc⟩
  | unlocked pc =>
      rw [At, pc] at located
      obtain ⟨entry, inner, whole, all⟩ := located
      refine sound.moved here (by simp [Task.Past, pc]) (by simp) (by simp [Task.unspawned])
        (by simp) (by simp [Task.debt, pc]) (by simp [Task.closes, pc])
        (by simp [Task.holds, Task.accessor, pc]) (fun _ => trivial) (fun _ => trivial) inner
        (fun _ => ⟨fun bare => absurd inner bare, fun _ => ⟨fun x child => ?_, fun none => ?_⟩⟩)
      · exact (all x child).resolve_left (by simp)
      · exact absurd none entry
  | waited pc all =>
      have past : t.Past := by rw [Task.Past, pc]; trivial
      have done := sound.books.done t member (.inl pc) (sound.log.past t member past)
      refine Sound.finish (sound.moved here past (by simp) (by simp [Task.unspawned]) (fun _ => all)
        (by simp [Task.debt, pc]) (by simp [Task.closes, pc])
        (by simp [Task.holds, Task.accessor]) (fun _ => trivial) (fun _ => trivial) trivial
        fun _ => done)

/-- No step of a task is undefined. -/
theorem Sound.defined (event : TaskEvent T s i t s') (defined : s.status ≠ .undefined) :
    s'.status ≠ .undefined := by
  have member : t ∈ s.tasks := List.mem_of_getElem? here
  have located := sound.books.located t member
  cases event with
  | orphan pc top =>
      rw [At, pc] at located
      exact absurd (T.parent_eq_none.1 top) located.2
  | @lost node pc missing =>
      have owes : t.debt T node ≠ 0 := by
        rcases pc with pc | pc <;> simp [Task.debt, pc]
      exact absurd missing (sound.books.owed t member node owes)
  | stray pc top =>
      rw [At, pc] at located
      exact absurd (T.parent_eq_none.1 top) located.2.2.2
  | cut pc => simp
  | died pc => simp
  | _ => exact defined

end Events

theorem start_sound (table : Slots PipeEnd) (pid : ℤ) (basePort : UInt16) :
    Sound T (start T table pid basePort) := by
  have only : ∀ {P : Task N → Prop}, P ⟨T.root, none, 0, .before .check⟩ →
      ∀ t ∈ (start T table pid basePort).tasks, P t := by
    intro P root t inside
    rw [List.mem_singleton.1 inside]
    exact root
  have above : ∀ p, T.parent T.root ≠ some p := by simp [T.parent_root]
  refine ⟨⟨?_, ?_, ?_, ?_, ?_, ?_, ?_⟩, ⟨?_, ?_, ?_, ?_, ?_, ?_, ?_, ?_, ?_⟩,
    ⟨?_, ?_, ?_, ?_, ?_, ?_, ?_, ?_, ?_, ?_, ?_, ?_⟩⟩
  · exact List.nodup_singleton _
  · exact only (List.Sublist.refl _)
  · refine only fun x child => ?_
    have parent : T.parent x = some T.root := T.mem_children.1 child
    simpa [Client.nodes, start] using T.ne_root_of_parent parent
  · exact ⟨_, rfl, rfl⟩
  · exact only (.inl rfl)
  · exact only (by simp)
  · intro i t there ended
    rw [List.mem_singleton.1 (List.mem_of_getElem? there)] at ended
    cases ended
  · exact List.nodup_nil
  · simp [start]
  · simp [start]
  · exact only (by simp [start])
  · exact only (by simp)
  · exact only (by simp [Task.Past])
  · exact only fun p parent => absurd parent (above p)
  · exact fun _ => rfl
  · exact fun _ => only (by simp)
  · exact fun p => List.Sublist.refl _
  · intro x
    simp only [start, List.not_mem_nil, T.mem_children, false_iff, not_exists, not_and, not_not]
    exact fun p => id
  · exact List.nodup_nil
  · simp [start]
  · exact only (by simp [Task.debt])
  · exact only fun p parent => absurd parent (above p)
  · intro p
    simp [start, Task.holds, Task.accessor]
  · simp [start]
  · simp [start]
  · exact only trivial
  · simp [start]
  · exact only (by simp)

/-- **Every reachable state of the client is sound, and none is undefined.** -/
theorem reachable_sound {table : Slots PipeEnd} {pid : ℤ} {basePort : UInt16}
    (reachable : Reachable (step T) (start T table pid basePort) s) :
    Sound T s ∧ s.status ≠ .undefined := by
  refine invariant (P := fun s => Sound T s ∧ s.status ≠ .undefined) reachable
    ⟨start_sound table pid basePort, by simp [start]⟩ ?_
  rintro s s' - ⟨sound, defined⟩ event
  cases event with
  | task here top event => exact ⟨sound.taskEvent here event, sound.defined here event defined⟩
  | terminated here ended kill waitpid =>
      exact ⟨sound.of_fields rfl rfl rfl rfl rfl sound.log.ok, by simp⟩

end Enuwatch.Sync

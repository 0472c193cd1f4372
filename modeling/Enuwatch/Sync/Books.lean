import Enuwatch.Sync.Steps

/-!
# What the tasks keep account of

The tasks of `recurse` share three books: the child lists, which only shrink, the counters
of `pending`, and the log of what was sent. This module states what holds of them in every
reachable state.

The counter of an open directory is the number of children still on its list plus the
number of tasks that have taken a child off and not yet counted it (`Books.count`). A task
owes such a count from the moment it unlinks a child to the moment it lowers the counter
(`Task.debt`). Everything else says which task may stand where: `Pool` about the tasks
alone, `Log` about what they have sent, `Books` about the lists and the counters.
-/

set_option autoImplicit false

namespace Enuwatch.Sync

open Enuwatch.Lib

variable {N : Type}

/-! ## Reading a program point -/

namespace Task

variable (T : Tree N) (t : Task N)

/-- The children for which the task has yet to open a task. -/
def unspawned : List N :=
  match t.pc with
  | .before _ => T.children t.node
  | .dispatch => T.children t.node
  | .remove => T.children t.node
  | .emplace _ => T.children t.node
  | .lock => T.children t.node
  | .spawn rest => rest
  | _ => []

/-- The task has taken a child of `p` off its list and has yet to lower the counter. -/
def debt [DecidableEq N] (p : N) : ℕ :=
  match t.pc with
  | .find node => if node = p then 1 else 0
  | .decrement node => if node = p then 1 else 0
  | .erase node => if T.parent node = some p then 1 else 0
  | _ => 0

/-- The task has an accessor to the entry of `p`. -/
def holds [DecidableEq N] (p : N) : ℕ := if t.accessor = some p then 1 else 0

/-- The task has taken the counter of `p` to zero and is about to drop the entry. -/
def closes [DecidableEq N] (p : N) : ℕ :=
  match t.pc with
  | .detach node => if node = p then 1 else 0
  | .erase node => if node = p then 1 else 0
  | _ => 0

/-- The task has made the entry of its node, or has ended. -/
def Opened : Prop :=
  match t.pc with
  | .lock => True
  | .spawn _ => True
  | .wait => True
  | .exited => True
  | _ => False

/-- The task does not look at its node again. -/
def Beyond : Prop :=
  match t.pc with
  | .find _ => True
  | .decrement _ => True
  | .detach _ => True
  | .erase _ => True
  | .wait => True
  | .exited => True
  | _ => False

/-- The task has sent its node and has not ended. -/
def Past : Prop :=
  match t.pc with
  | .before _ => False
  | .exited => False
  | _ => True

end Task

/-! ## The invariant -/

namespace Client

/-- The nodes that have a task. -/
def nodes (s : Client N) : List N := s.tasks.map (·.node)

/-- The node was sent in full. -/
def SentOk (s : Client N) (n : N) : Prop := ∃ e ∈ s.sends, e.node = n ∧ e.Success

/-- Every message so far went out in full. -/
def AllSent (s : Client N) : Prop := ∀ e ∈ s.sends, e.Success

end Client

variable (T : Tree N) (s : Client N)

/-- What holds of the tasks alone. -/
structure Pool : Prop where
  nodup : s.nodes.Nodup
  sublist : ∀ t ∈ s.tasks, (t.unspawned T).Sublist (T.children t.node)
  fresh : ∀ t ∈ s.tasks, ∀ x ∈ t.unspawned T, x ∉ s.nodes
  first : ∃ t, s.tasks[0]? = some t ∧ t.node = T.root
  /-- A task runs in the group of the task of its parent. -/
  group : ∀ t ∈ s.tasks, t.node = T.root ∨
    ∃ i t', t.group = some i ∧ s.tasks[i]? = some t' ∧ T.parent t.node = some t'.node
  member : ∀ t ∈ s.tasks, ∀ i, t.group = some i →
    ∃ t', s.tasks[i]? = some t' ∧ T.parent t.node = some t'.node
  joined : ∀ i t, s.tasks[i]? = some t → t.pc = .exited →
    ∀ t' ∈ s.tasks, t'.group = some i → t'.pc = .exited

/-- What holds of the log of the sends. -/
structure Log : Prop where
  once : (s.sends.map (·.node)).Nodup
  ordered : ∀ before e after, s.sends = before ++ e :: after → ∀ p, T.parent e.node = some p →
    ∃ e' ∈ before, e'.node = p ∧ e'.Success
  tasked : ∀ e ∈ s.sends, e.node ∈ s.nodes
  unsent : ∀ t ∈ s.tasks, ∀ prep, t.pc = .before prep → prep ≠ .report →
    t.node ∉ s.sends.map (·.node)
  failed : ∀ t ∈ s.tasks, t.pc = .before .report → ∃ e ∈ s.sends, e.node = t.node ∧ ¬ e.Success
  past : ∀ t ∈ s.tasks, t.Past → s.SentOk t.node
  above : ∀ t ∈ s.tasks, ∀ p, T.parent t.node = some p → s.SentOk p
  ok : s.AllSent → s.ok = true
  ended : s.AllSent → ∀ t ∈ s.tasks, t.pc = .exited → s.SentOk t.node

/-- The path of a display: the children to come are on the list of their node, and every
node on the path is there, below one whose mutex the display holds. -/
def Visiting (s : Client N) : List (N × List N) → Prop
  | [] => True
  | (n, rest) :: path =>
      rest ⊆ s.children n ∧ n ∉ s.removed ∧ (n = T.root ∨ ∃ w ∈ path, T.parent n = some w.1) ∧
        Visiting s path

/-- A task whose leaf is unlinked, on its way up at `p`. -/
def Rising (t : Task N) (p : N) : Prop :=
  T.children t.node = [] ∧ t.node ∈ s.removed ∧ T.children p ≠ []

/-- The node of a task that opens a group. -/
def Inner (n : N) : Prop := n = T.root ∨ T.children n ≠ []

/-- What a task knows at its program point. -/
def At (t : Task N) : Prop :=
  match t.pc with
  | .before (.draw _ visits) => Visiting T s visits
  | .remove => T.children t.node = [] ∧ t.node ≠ T.root
  | .find p => Rising T s t p
  | .decrement p => Rising T s t p
  | .detach p => Rising T s t p ∧ s.pending p = some 0 ∧ p ∉ s.removed ∧ p ≠ T.root
  | .erase p => Rising T s t p ∧ s.pending p = some 0 ∧ (p = T.root ∨ p ∈ s.removed)
  | .emplace c => c = (T.children t.node).length ∧ Inner T t.node
  | .lock => s.pending t.node ≠ none ∧ Inner T t.node
  | .spawn rest => s.pending t.node ≠ none ∧ Inner T t.node ∧
      s.children t.node = T.children t.node ∧ ∀ x ∈ T.children t.node, x ∈ rest ∨ x ∈ s.nodes
  | .wait => Inner T t.node
  | _ => True

/-- What is left of the node of a task that has gone through. -/
def Done (n : N) : Prop :=
  (¬ Inner T n → n ∈ s.removed) ∧
    (Inner T n → (∀ x ∈ T.children n, x ∈ s.nodes) ∧
      (s.pending n = none → s.children n = [] ∧ (n = T.root ∨ n ∈ s.removed)))

/-- What holds of the lists and the counters. -/
structure Books [DecidableEq N] : Prop where
  sublist : ∀ p, (s.children p).Sublist (T.children p)
  removed : ∀ x, x ∈ s.removed ↔ ∃ p, T.parent x = some p ∧ x ∉ s.children p
  once : s.removed.Nodup
  count : ∀ p c, s.pending p = some c →
    c = (s.children p).length + total (Task.debt T · p) s.tasks
  owed : ∀ t ∈ s.tasks, ∀ p, t.debt T p ≠ 0 → s.pending p ≠ none
  live : ∀ t ∈ s.tasks, ∀ p, T.parent t.node = some p → t.node ∈ s.children p →
    s.pending p ≠ none
  exclusive : ∀ p, total (Task.holds · p) s.tasks ≤ 1
  opened : ∀ p, s.pending p ≠ none → p ∈ s.nodes ∧ ∀ t ∈ s.tasks, t.node = p → t.Opened
  closed : ∀ x ∈ s.removed, s.SentOk x ∧ s.children x = [] ∧
    (∀ c, s.pending x = some c → c = 0) ∧ ∀ t ∈ s.tasks, t.node = x → t.Beyond
  located : ∀ t ∈ s.tasks, At T s t
  drained : ∀ x, s.pending x = some 0 → T.children x ≠ [] →
    total (Task.closes · x) s.tasks ≠ 0
  done : ∀ t ∈ s.tasks, t.pc = .wait ∨ t.pc = .exited → s.SentOk t.node → Done T s t.node

/-- Everything the tasks maintain. -/
structure Sound [DecidableEq N] : Prop where
  pool : Pool T s
  log : Log T s
  books : Books T s

variable {T s} {s' : Client N} {i : ℕ} {t t' : Task N}

/-! ## Moving one task -/

section Move

variable (here : s.tasks[i]? = some t) (node : t'.node = t.node)
  (tasks : s'.tasks = s.tasks.set i t')

include here node tasks in
theorem nodes_of_set : s'.nodes = s.nodes := by
  rw [Client.nodes, tasks, map_set_of_eq here node]
  rfl

include here node tasks in
theorem Pool.move (pool : Pool T s) (group : t'.group = t.group)
    (fewer : (t'.unspawned T).Sublist (t.unspawned T)) (running : t.pc ≠ .exited)
    (joined : t'.pc = .exited → ∀ m ∈ s.tasks, m.group = some i → m.pc = .exited) : Pool T s' := by
  have nodes := nodes_of_set here node tasks
  have member : t ∈ s.tasks := List.mem_of_getElem? here
  have each : ∀ {P : Task N → Prop}, (∀ m ∈ s.tasks, P m) → P t' → ∀ m ∈ s'.tasks, P m :=
    fun all moved => tasks ▸ forall_mem_set all moved i
  have placed : ∀ (j : ℕ) (t₀ : Task N), s.tasks[j]? = some t₀ →
      ∃ t₁ : Task N, s'.tasks[j]? = some t₁ ∧ t₁.node = t₀.node := by
    intro j t₀ there
    rw [tasks]
    exact exists_getElem?_set here node there
  constructor
  case nodup => rw [nodes]; exact pool.nodup
  case sublist =>
    refine each pool.sublist ?_
    rw [node]
    exact fewer.trans (pool.sublist t member)
  case fresh =>
    rw [nodes]
    exact each pool.fresh fun x later => pool.fresh t member x (fewer.subset later)
  case first =>
    obtain ⟨t₀, there, root⟩ := pool.first
    obtain ⟨t₁, there', same⟩ := placed 0 t₀ there
    exact ⟨t₁, there', same.trans root⟩
  case group =>
    have moved : ∀ m : Task N, (m.node = T.root ∨ ∃ j t₀, m.group = some j ∧ s.tasks[j]? = some t₀ ∧
        T.parent m.node = some t₀.node) → m.node = T.root ∨ ∃ j t₀, m.group = some j ∧
        s'.tasks[j]? = some t₀ ∧ T.parent m.node = some t₀.node := by
      rintro m (root | ⟨j, t₀, grouped, there, above⟩)
      · exact .inl root
      · obtain ⟨t₁, there', same⟩ := placed j t₀ there
        exact .inr ⟨j, t₁, grouped, there', same ▸ above⟩
    refine each (fun m old => moved m (pool.group m old)) (moved t' ?_)
    rw [node, group]
    exact pool.group t member
  case member =>
    have moved : ∀ m : Task N, (∀ j, m.group = some j → ∃ t₀, s.tasks[j]? = some t₀ ∧
        T.parent m.node = some t₀.node) → ∀ j, m.group = some j → ∃ t₀, s'.tasks[j]? = some t₀ ∧
        T.parent m.node = some t₀.node := by
      intro m known j grouped
      obtain ⟨t₀, there, above⟩ := known j grouped
      obtain ⟨t₁, there', same⟩ := placed j t₀ there
      exact ⟨t₁, there', same ▸ above⟩
    refine each (fun m old => moved m (pool.member m old)) (moved t' ?_)
    rw [node, group]
    exact pool.member t member
  case joined =>
    intro j t₀ there ended m inside grouped
    rw [tasks] at there inside
    -- The moved task was still running, so its own group had not been joined.
    have others : ∀ t₁ : Task N, s.tasks[j]? = some t₁ → t₁.pc = .exited → m.pc = .exited := by
      intro t₁ before ended₁
      rcases List.mem_or_eq_of_mem_set inside with old | rfl
      · exact pool.joined j t₁ before ended₁ m old grouped
      · exact absurd (pool.joined j t₁ before ended₁ t member (group ▸ grouped)) running
    by_cases moved : i = j
    · subst moved
      rw [List.getElem?_set_self (List.getElem?_eq_some_iff.1 here).1, Option.some.injEq] at there
      subst there
      rcases List.mem_or_eq_of_mem_set inside with old | rfl
      · exact joined ended m old grouped
      · exact ended
    · rw [List.getElem?_set_ne moved] at there
      exact others t₀ there ended

include here node tasks in
theorem Log.move (log : Log T s) (sends : s'.sends = s.sends) (okay : s'.ok = s.ok)
    (unsent : ∀ prep, t'.pc = .before prep →
      prep ≠ .report ∧ ∃ prep₀, t.pc = .before prep₀ ∧ prep₀ ≠ .report)
    (past : t'.Past → t.Past)
    (ended : t'.pc = .exited → s.AllSent → s.SentOk t.node) : Log T s' := by
  have nodes := nodes_of_set here node tasks
  have member : t ∈ s.tasks := List.mem_of_getElem? here
  have each : ∀ {P : Task N → Prop}, (∀ m ∈ s.tasks, P m) → P t' → ∀ m ∈ s'.tasks, P m :=
    fun all moved => tasks ▸ forall_mem_set all moved i
  have sentOk : ∀ n, s'.SentOk n ↔ s.SentOk n := by simp [Client.SentOk, sends]
  have allSent : s'.AllSent ↔ s.AllSent := by simp [Client.AllSent, sends]
  constructor
  case once => rw [sends]; exact log.once
  case ordered => rw [sends]; exact log.ordered
  case tasked => rw [sends, nodes]; exact log.tasked
  case unsent =>
    rw [sends]
    refine each log.unsent fun prep pc _ => ?_
    obtain ⟨-, prep₀, pc₀, plain⟩ := unsent prep pc
    rw [node]
    exact log.unsent t member prep₀ pc₀ plain
  case failed =>
    rw [sends]
    exact each log.failed fun pc => absurd rfl (unsent _ pc).1
  case past =>
    simp only [sentOk]
    refine each log.past fun reached => ?_
    rw [node]
    exact log.past t member (past reached)
  case above =>
    simp only [sentOk]
    refine each log.above ?_
    rw [node]
    exact log.above t member
  case ok => rw [okay, allSent]; exact log.ok
  case ended =>
    simp only [allSent, sentOk]
    intro all
    refine each (log.ended all) fun pc => ?_
    rw [node]
    exact ended pc all

end Move

/-! ## Logging a message -/

section Sending

variable {e : Send N}

theorem Client.SentOk.log {n : N} (sent : s.SentOk n) : (s.log e).SentOk n := by
  obtain ⟨e', inside, same, success⟩ := sent
  exact ⟨e', List.mem_append_left _ inside, same, success⟩

theorem Client.SentOk.of_log {n : N} (sent : (s.log e).SentOk n) (other : e.node ≠ n) :
    s.SentOk n := by
  obtain ⟨e', inside, same, success⟩ := sent
  rcases List.mem_append.1 inside with old | new
  · exact ⟨e', old, same, success⟩
  · rw [List.mem_singleton.1 new] at same
    exact absurd same other

/-- Two tasks at different places have different nodes. -/
theorem Pool.node_ne (pool : Pool T s) {j : ℕ} {m : Task N} (apart : j ≠ i)
    (here : s.tasks[i]? = some t) (there : s.tasks[j]? = some m) : m.node ≠ t.node := by
  intro same
  have first : s.nodes[i]? = some t.node := by simp [Client.nodes, here]
  have second : s.nodes[j]? = some t.node := by simp [Client.nodes, there, same]
  obtain ⟨inside, value⟩ := List.getElem?_eq_some_iff.1 first
  obtain ⟨inside', value'⟩ := List.getElem?_eq_some_iff.1 second
  exact apart ((pool.nodup.getElem_inj_iff).1 (value'.trans value.symm))

/-- Task `i` has sent its node, or has failed to. -/
theorem Log.send (log : Log T s) (pool : Pool T s) (here : s.tasks[i]? = some t) {seq : UInt32}
    (sending : t.pc = .before (.send seq)) (own : e.node = t.node) {pc : Pc N}
    (outcome : pc = .dispatch ∧ e.Success ∨ pc = .before .report ∧ ¬ e.Success) :
    Log T ((s.log e).goto i t pc) := by
  have member : t ∈ s.tasks := List.mem_of_getElem? here
  have fresh := log.unsent t member (.send seq) sending (by simp)
  have nodes : ((s.log e).goto i t pc).nodes = s.nodes := map_set_of_eq here rfl
  have others : ∀ j m, j ≠ i → s.tasks[j]? = some m → m.node ≠ t.node :=
    fun j m apart there => pool.node_ne apart here there
  have earlier : ((s.log e).goto i t pc).AllSent → s.AllSent :=
    fun all e' inside => all e' (List.mem_append_left _ inside)
  constructor
  case once =>
    show ((s.sends ++ [e]).map (·.node)).Nodup
    rw [List.map_append]
    refine log.once.append (List.nodup_singleton _) ?_
    rw [List.map_singleton, List.disjoint_singleton, own]
    exact fresh
  case ordered =>
    intro before e' after split p parent
    replace split : s.sends ++ [e] = before ++ e' :: after := split
    obtain ⟨rfl, rfl, -⟩ | ⟨rest, -, old⟩ := split_concat split
    · exact log.above t member p (own ▸ parent)
    · exact log.ordered before e' rest old p parent
  case tasked =>
    rw [nodes]
    intro e' inside
    rcases List.mem_append.1 inside with old | new
    · exact log.tasked e' old
    · rw [List.mem_singleton.1 new, own]
      exact List.mem_map_of_mem member
  case unsent =>
    refine forall_mem_set_of_ne (fun j m apart there prep at_prep plain => ?_) fun prep at_prep plain => ?_
    · have unsent := log.unsent m (List.mem_of_getElem? there) prep at_prep plain
      show m.node ∉ (s.sends ++ [e]).map (·.node)
      simpa [own, others j m apart there] using unsent
    · rcases outcome with ⟨rfl, -⟩ | ⟨rfl, -⟩
      · cases at_prep
      · cases at_prep
        exact absurd rfl plain
  case failed =>
    refine forall_mem_set (fun m inside at_report => ?_) (fun at_report => ?_) i
    · obtain ⟨e', old, same, short⟩ := log.failed m inside at_report
      exact ⟨e', List.mem_append_left _ old, same, short⟩
    · rcases outcome with ⟨rfl, -⟩ | ⟨rfl, short⟩
      · cases at_report
      · exact ⟨e, List.mem_append_right _ (List.mem_singleton_self e), own, short⟩
  case past =>
    refine forall_mem_set (fun m inside reached => (log.past m inside reached).log)
      (fun reached => ?_) i
    rcases outcome with ⟨rfl, success⟩ | ⟨rfl, -⟩
    · exact ⟨e, List.mem_append_right _ (List.mem_singleton_self e), own, success⟩
    · cases reached
  case above =>
    exact forall_mem_set (fun m inside p parent => (log.above m inside p parent).log)
      (fun p parent => (log.above t member p parent).log) i
  case ok => exact fun all => log.ok (earlier all)
  case ended =>
    intro all
    refine forall_mem_set (fun m inside ended => (log.ended (earlier all) m inside ended).log)
      (fun ended => ?_) i
    rcases outcome with ⟨rfl, -⟩ | ⟨rfl, -⟩ <;> cases ended

end Sending

/-! ## Adding a task -/

section Fork

variable {child : N} {rest : List N}

theorem Pool.parent_of_unspawned (pool : Pool T s) (member : t ∈ s.tasks) {x : N}
    (later : x ∈ t.unspawned T) : T.parent x = some t.node :=
  T.mem_children.1 ((pool.sublist t member).subset later)

/-- A node without a task has no children with tasks. -/
theorem Pool.children_fresh (pool : Pool T s) {x y : N} (untasked : x ∉ s.nodes)
    (above : T.parent y = some x) : y ∉ s.nodes := by
  intro tasked
  obtain ⟨m, inside, rfl⟩ := List.mem_map.1 tasked
  rcases pool.group m inside with root | ⟨j, t₀, -, there, parent⟩
  · exact T.ne_root_of_parent above root
  · rw [above, Option.some.injEq] at parent
    exact untasked (parent ▸ List.mem_map_of_mem (List.mem_of_getElem? there))

theorem Pool.fork (pool : Pool T s) (here : s.tasks[i]? = some t)
    (pc : t.pc = .spawn (child :: rest)) : Pool T (s.fork i t child rest) := by
  have member : t ∈ s.tasks := List.mem_of_getElem? here
  have unspawned : t.unspawned T = child :: rest := by rw [Task.unspawned, pc]
  have nodes : (s.fork i t child rest).nodes = s.nodes ++ [child] := by
    have kept := map_set_of_eq (g := fun m : Task N => m.node) (b := { t with pc := .spawn rest })
      here rfl
    simp only [Client.nodes, Client.fork, List.map_append, kept, List.map_singleton,
      Task.fresh_node]
  have untasked : child ∉ s.nodes :=
    pool.fresh t member child (unspawned ▸ List.mem_cons_self ..)
  have above : T.parent child = some t.node :=
    pool.parent_of_unspawned member (unspawned ▸ List.mem_cons_self ..)
  have kept := pool.sublist t member
  rw [unspawned] at kept
  have inside : i < s.tasks.length := (List.getElem?_eq_some_iff.1 here).1
  have placed : ∀ (j : ℕ) (t₀ : Task N), s.tasks[j]? = some t₀ →
      ∃ t₁ : Task N, (s.fork i t child rest).tasks[j]? = some t₁ ∧ t₁.node = t₀.node := by
    intro j t₀ there
    have below : j < s.tasks.length := (List.getElem?_eq_some_iff.1 there).1
    obtain ⟨t₁, moved, same⟩ := exists_getElem?_set (g := fun m : Task N => m.node)
      (b := { t with pc := .spawn rest }) here rfl there
    exact ⟨t₁, by rwa [Client.fork, List.getElem?_append_left (by simpa using below)], same⟩
  have each : ∀ {P : Task N → Prop}, (∀ j m, j ≠ i → s.tasks[j]? = some m → P m) →
      P { t with pc := .spawn rest } → P (.fresh child (some i)) →
      ∀ m ∈ (s.fork i t child rest).tasks, P m := by
    intro P others moved new m within
    rcases List.mem_append.1 within with old | added
    · exact forall_mem_set_of_ne others moved m old
    · rw [List.mem_singleton.1 added]
      exact new
  constructor
  case nodup =>
    rw [nodes]
    exact pool.nodup.append (List.nodup_singleton _) (List.disjoint_singleton.2 untasked)
  case sublist =>
    refine each (fun j m _ there => pool.sublist m (List.mem_of_getElem? there)) ?_ ?_
    · exact (List.sublist_cons_self child rest).trans kept
    · exact List.Sublist.refl _
  case fresh =>
    rw [nodes]
    simp only [List.mem_append, List.mem_singleton, not_or]
    refine each (fun j m apart there x later => ?_) (fun x later => ?_) (fun x later => ?_)
    · have within := List.mem_of_getElem? there
      refine ⟨pool.fresh m within x later, fun same => ?_⟩
      have parent := pool.parent_of_unspawned within later
      rw [same, above, Option.some.injEq] at parent
      exact pool.node_ne apart here there parent.symm
    · refine ⟨pool.fresh t member x (unspawned ▸ List.mem_cons_of_mem _ later), ?_⟩
      rintro rfl
      exact (List.nodup_cons.1 (kept.nodup (T.nodup_children _))).1 later
    · have parent : T.parent x = some child := T.mem_children.1 later
      exact ⟨pool.children_fresh untasked parent, fun same => T.parent_ne_self (same ▸ parent)⟩
  case first =>
    obtain ⟨t₀, there, root⟩ := pool.first
    obtain ⟨t₁, there', same⟩ := placed 0 t₀ there
    exact ⟨t₁, there', same.trans root⟩
  case group =>
    obtain ⟨t₁, there₁, same₁⟩ := placed i t here
    have moved : ∀ m : Task N, (m.node = T.root ∨ ∃ j t₀, m.group = some j ∧
        s.tasks[j]? = some t₀ ∧ T.parent m.node = some t₀.node) → m.node = T.root ∨
        ∃ j t₀, m.group = some j ∧ (s.fork i t child rest).tasks[j]? = some t₀ ∧
        T.parent m.node = some t₀.node := by
      rintro m (root | ⟨j, t₀, grouped, there, parent⟩)
      · exact .inl root
      · obtain ⟨t₁, there', same⟩ := placed j t₀ there
        exact .inr ⟨j, t₁, grouped, there', same ▸ parent⟩
    refine each (fun j m _ there => moved m (pool.group m (List.mem_of_getElem? there))) ?_ ?_
    · exact moved { t with pc := .spawn rest } (pool.group t member)
    · exact .inr ⟨i, t₁, rfl, there₁, same₁ ▸ above⟩
  case member =>
    obtain ⟨t₁, there₁, same₁⟩ := placed i t here
    have moved : ∀ m : Task N, (∀ j, m.group = some j → ∃ t₀, s.tasks[j]? = some t₀ ∧
        T.parent m.node = some t₀.node) → ∀ j, m.group = some j →
        ∃ t₀, (s.fork i t child rest).tasks[j]? = some t₀ ∧ T.parent m.node = some t₀.node := by
      intro m known j grouped
      obtain ⟨t₀, there, parent⟩ := known j grouped
      obtain ⟨t₁, there', same⟩ := placed j t₀ there
      exact ⟨t₁, there', same ▸ parent⟩
    refine each (fun j m _ there => moved m (pool.member m (List.mem_of_getElem? there))) ?_ ?_
    · exact moved { t with pc := .spawn rest } (pool.member t member)
    · intro j grouped
      cases grouped
      exact ⟨t₁, there₁, same₁ ▸ above⟩
  case joined =>
    intro j t₀ there ended
    -- Neither the spawning task nor the new one is over.
    have old : j ≠ i ∧ s.tasks[j]? = some t₀ := by
      rw [Client.fork, List.getElem?_append] at there
      split at there
      · rename_i below
        by_cases same : i = j
        · subst same
          rw [List.getElem?_set_self inside, Option.some.injEq] at there
          subst there
          cases ended
        · exact ⟨Ne.symm same, by rwa [List.getElem?_set_ne same] at there⟩
      · rw [List.mem_singleton.1 (List.mem_of_getElem? there)] at ended
        cases ended
    have before := pool.joined j t₀ old.2 ended
    refine each (fun k m _ there => before m (List.mem_of_getElem? there)) ?_ ?_
    · intro grouped
      have late := before t member grouped
      rw [pc] at late
      cases late
    · intro grouped
      cases grouped
      exact absurd rfl old.1

theorem Log.fork (log : Log T s) (pool : Pool T s) (here : s.tasks[i]? = some t)
    (pc : t.pc = .spawn (child :: rest)) : Log T (s.fork i t child rest) := by
  have member : t ∈ s.tasks := List.mem_of_getElem? here
  have unspawned : t.unspawned T = child :: rest := by rw [Task.unspawned, pc]
  have untasked : child ∉ s.nodes :=
    pool.fresh t member child (unspawned ▸ List.mem_cons_self ..)
  have above : T.parent child = some t.node :=
    pool.parent_of_unspawned member (unspawned ▸ List.mem_cons_self ..)
  have sent : s.SentOk t.node := log.past t member (by rw [Task.Past, pc]; trivial)
  have grows : s.nodes ⊆ (s.fork i t child rest).nodes := by
    have kept := map_set_of_eq (g := fun m : Task N => m.node) (b := { t with pc := .spawn rest })
      here rfl
    simp only [Client.nodes, Client.fork, List.map_append, kept]
    exact List.subset_append_left ..
  have each : ∀ {P : Task N → Prop}, (∀ m ∈ s.tasks, P m) → P { t with pc := .spawn rest } →
      P (.fresh child (some i)) → ∀ m ∈ (s.fork i t child rest).tasks, P m := by
    intro P others moved new m within
    rcases List.mem_append.1 within with old | added
    · exact forall_mem_set others moved i m old
    · rw [List.mem_singleton.1 added]
      exact new
  constructor
  case once => exact log.once
  case ordered => exact log.ordered
  case tasked => exact fun e inside => grows (log.tasked e inside)
  case unsent =>
    refine each log.unsent (fun prep at_prep => by cases at_prep) fun prep _ _ logged => ?_
    obtain ⟨e, inside, same⟩ := List.mem_map.1 logged
    have tasked := log.tasked e inside
    rw [same] at tasked
    exact untasked tasked
  case failed =>
    exact each log.failed (fun at_report => by cases at_report) fun at_report => by cases at_report
  case past =>
    refine each log.past (fun _ => sent) fun reached => ?_
    cases reached
  case above =>
    refine each log.above (log.above t member) fun p parent => ?_
    rw [Task.fresh_node, above, Option.some.injEq] at parent
    exact parent ▸ sent
  case ok => exact log.ok
  case ended =>
    intro all
    exact each (log.ended all) (fun ended => by cases ended) fun ended => by cases ended

end Fork

end Enuwatch.Sync
